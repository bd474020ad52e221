import Mathlib.Data.BitVec
import Mathlib.Data.List.AList
import Mathlib.Tactic
import Xpod.Common.BigEndian
import Xpod.Common.Java
import Xpod.Common.Lex
import Xpod.Common.OrderedTable
import Xpod.Common.Utf8
import Xpod.Storm.Model.RecomendPro
/-!
# The controller that reads user actions

`Application.getUserActions` scans the rows of the table `user_action`
between two keys made of an id, its kind and two times, and returns the
first of them with their cells decoded.

HBase keeps the rows in the unsigned lexicographic order of their keys,
and a put sets the cells of its columns.
-/

namespace Xpod

namespace DataSys

open Storm Storm.RecomendPro

/-! ## The table -/

/-- The cells of a row. -/
abbrev Cells : Type := AList fun _ : Text => List UInt8

/-- `user_action` -/
abbrev ActionTable : Type := OrderedTable (List UInt8) Cells

/-- The cells of a row after a put. -/
def putColumns (columns : Columns) (cells : Option Cells) : Cells :=
  columns.foldl (fun cells c => cells.insert c.1 c.2) (cells.getD ∅)

/-- `table.put(puts)` -/
def putAll (table : ActionTable) (puts : List Put) : ActionTable :=
  table.putAll putColumns (puts.map fun p => (p.row, p.columns))

namespace Application

/-! ## The rows of a query -/

/-- `REDUCER_TIME` -/
def reducerTime : BitVec 64 := 9999999999999

/-- `head` -/
def head (uid : Text) (uidtype : Option Text) : Text := uid ++ '_' :: uidtype.getD ['u']

/-- A time of a bound, or what stands for a missing one. -/
def boundText (missing : Text) : Option (BitVec 64) → Text
  | some time => intText (reducerTime - time * 1000).toInt
  | none => missing

/-- A bound of the scan. -/
def bound (uid : Text) (uidtype : Option Text) (time : Text) : List UInt8 :=
  getBytes (head uid uidtype ++ '_' :: time)

/-- `scan.setStartRow(…)` -/
def startRow (uid : Text) (uidtype : Option Text) (right_time : Option (BitVec 64)) : List UInt8 :=
  bound uid uidtype (boundText [] right_time)

/-- `scan.setStopRow(…)` -/
def stopRow (uid : Text) (uidtype : Option Text) (left_time : Option (BitVec 64)) : List UInt8 :=
  bound uid uidtype (boundText ['z'] left_time)

/-- The filter on the column `module`, if an `optype` is asked for. A row
without the column passes. -/
def passes (optype : Option Text) (cells : Cells) : Bool :=
  match optype, cells.lookup "module".toList with
  | some optype, some module => module == getBytes optype
  | _, _ => true

/-! ## The rows of the answer -/

/-- The objects of the answer. -/
inductive Value
  | int (n : BitVec 32)
  | long (n : BitVec 64)
  | string (s : Text)
deriving DecidableEq, Repr

/-- `INT_KEYS` -/
def intKeys : List Text := ["time".toList, "net".toList, "devtype".toList, "tlen".toList]

/-- The object of a cell. `Bytes.toLong` throws on less than eight bytes
and reads the first eight of more. -/
def cellValue (key : Text) (value : List UInt8) : Except Java.Exception Value :=
  if key ∈ intKeys then
    if value.length = 4 then .ok (.int (BitVec.ofNat 32 (BigEndian.read value)))
    else if value.length < 8 then .error .illegalArgument
    else .ok (.long (BitVec.ofNat 64 (BigEndian.read (value.take 8))))
  else .ok (.string (Utf8.decode value))

/-- The map `r`. -/
abbrev RowMap : Type := AList fun _ : Text => Value

/-- The loop over the cells of a row. -/
def rowMap (cells : Cells) : Except Java.Exception RowMap :=
  cells.entries.foldlM
    (fun r c => do
      let value ← cellValue c.1 c.2
      return r.insert c.1 value) ∅

/-- The loop over the rows: `count` of them are in the answer already. -/
def collect (num : ℤ) : ℕ → List (List UInt8 × Cells) → Except Java.Exception (List RowMap)
  | _, [] => .ok []
  | count, row :: rows => do
    let r ← rowMap row.2
    if num ≤ count + 1 then return [r]
    else
      let rest ← collect num (count + 1) rows
      return r :: rest

/-- `getUserActions` -/
def getUserActions (table : ActionTable) (uid : Text) (uidtype : Option Text) (num : ℤ)
    (optype : Option Text) (left_time right_time : Option (BitVec 64)) :
    Except Java.Exception (List RowMap) :=
  collect num 0
    ((table.scan (startRow uid uidtype right_time) (stopRow uid uidtype left_time)).filter
      fun row => passes optype row.2)

end Application

end DataSys

end Xpod
