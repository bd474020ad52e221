import Mathlib.Tactic
import Xpod.Common.Java
import Xpod.Common.TreeSet
import Xpod.LoadIp.Model.Location
/-!
# The check for overlapping rows

`IpTableCheck.java` reads `ip_table` in the order of first addresses and
keeps the rows in a `TreeSet` whose comparator takes overlapping ranges for
equal. The first row the set already holds in this sense ends the check.
-/

namespace Xpod

namespace LoadIp

namespace IpTableCheck

/-- `IpComp.compare` -/
def compare (o1 o2 : Location) : ℤ :=
  if o1.nEndIp < o2.nBeginIp then -1 else if o2.nEndIp < o1.nBeginIp then 1 else 0

/-- `Location.toString` -/
def text (l : Location) : String :=
  "beginIp:" ++ Java.text l.beginIp ++ "," ++ "endIp:" ++ Java.text l.endIp ++ "\n"

/-- The columns `check` reads from a row of the result set. -/
def readRow (row : Location) : Location :=
  { nBeginIp := row.nBeginIp
    nEndIp := row.nEndIp
    beginIp := row.beginIp
    endIp := row.endIp }

/-- What `check` returns and prints. -/
structure Outcome where
  ok : Bool
  out : List String
deriving DecidableEq, Repr

variable (B : TreeSet.Balancing Location)

/-- The loop of `check`. `last` is dereferenced to be printed. -/
def checkLoop (locationSet : TreeSet Location) (last : Option Location) :
    List Location → Except Java.Exception Outcome
  | [] => .ok ⟨true, []⟩
  | row :: rs =>
    let location := readRow row
    if locationSet.contains compare location then
      match last with
      | none => .error .nullPointer
      | some last => .ok ⟨false, [text last, text location, "\n\n"]⟩
    else checkLoop (locationSet.add compare B location) (some location) rs

/-- `check` on a fresh object whose result set holds `rows`. -/
def check (rows : List Location) : Except Java.Exception Outcome :=
  checkLoop B .empty none rows

end IpTableCheck

end LoadIp

end Xpod
