import Xpod.LoadIp.Model.Location
/-!
# The network index

`test.createSub` cuts a range of addresses into networks and
`CreateIndex.load` writes one line for each network of each row of
`ip_table`.
-/

namespace Xpod

namespace LoadIp

/-- `test.SubNet`. -/
structure SubNet where
  startIp : String
  netMark : ℤ
deriving DecidableEq, Repr

/-- Its constructor. -/
def SubNet.new (ip mark : ℤ) : SubNet := ⟨Util.longToIP ip, mark⟩

namespace CreateSub

/-- `getRangeWithIndex`. -/
def getRangeWithIndex (i : ℕ) : ℤ := 2 ^ i - 1

/-- `getBitValWithIndex`. -/
def getBitValWithIndex (val : ℤ) (i : ℕ) : ℤ := val / 2 ^ (i - 1) % 2

/-- The variables of the loop in `createSub`. -/
structure Loop where
  i : ℕ
  nSatrt : ℤ
  d : ℤ
  ret : List SubNet
deriving DecidableEq, Repr

/-- Three branches emit the network of `i - 1` bits and start over: the
counter is set to 0 and the loop header counts it up again. -/
def emit (nEnd : ℤ) (s : Loop) : Loop :=
  let lastI := s.i - 1
  let nSatrt := s.nSatrt + (getRangeWithIndex lastI + 1)
  { i := 1
    nSatrt := nSatrt
    d := nEnd - nSatrt
    ret := s.ret ++ [SubNet.new s.nSatrt (32 - lastI)] }

/-- What a round of the loop does: go on with a new state, or leave the loop
with the list. -/
inductive Round
  | next (s : Loop)
  | done (ret : List SubNet)

/-- After a network is emitted the loop is left once nothing remains. -/
def afterEmit (s : Loop) : Round := if s.d < 0 then .done s.ret else .next s

/-- One round, from the test of the loop header to the next one. -/
def round (nEnd : ℤ) (s : Loop) : Round :=
  if s.i ≤ 32 then
    let t := getBitValWithIndex s.nSatrt s.i
    let range := getRangeWithIndex s.i
    if range < s.d then
      if t = 0 then .next { s with i := s.i + 1 } else afterEmit (emit nEnd s)
    else if range = s.d then
      if t = 0 then .done (s.ret ++ [SubNet.new s.nSatrt (32 - s.i)])
      else afterEmit (emit nEnd s)
    else afterEmit (emit nEnd s)
  else .done s.ret

/-- The loop; `none` when the fuel does not last. -/
def loop (nEnd : ℤ) : ℕ → Loop → Option (List SubNet)
  | 0, _ => none
  | n + 1, s =>
    match round nEnd s with
    | .next s => loop nEnd n s
    | .done ret => some ret

end CreateSub

/-- `Util.ipToLong` of a reference. -/
def ipToLongOf : Option String → Except Java.Exception ℤ
  | none => .error .nullPointer
  | some s => Util.ipToLong s

/-- `test.createSub`; `none` when the fuel does not last. -/
def createSub (fuel : ℕ) (start stop : Option String) :
    Option (Except Java.Exception (List SubNet)) :=
  match ipToLongOf start with
  | .error e => some (.error e)
  | .ok nSatrt =>
    match ipToLongOf stop with
    | .error e => some (.error e)
    | .ok nEnd =>
      let d := nEnd - nSatrt
      if d < 0 then some (.ok [])
      else (CreateSub.loop nEnd fuel ⟨1, nSatrt, d, []⟩).map .ok

namespace CreateIndex

/-- A `Map<String, String>`: the value of every key it holds. -/
abbrev StringMap : Type := String → Option (Option String)

/-- The four `put`s of `load`. The map is created once and used for every
row. -/
def putAll (m1 : StringMap) (loc : Location) : StringMap :=
  let m1 := Function.update m1 "country" (some loc.country)
  let m1 := Function.update m1 "city" (some loc.city)
  let m1 := Function.update m1 "province" (some loc.province)
  Function.update m1 "isp" (some loc.isp)

/-- One line of the index. -/
structure Line where
  sub : SubNet
  address : String
deriving DecidableEq, Repr

/-- The text that is written. -/
def Line.text (l : Line) : String :=
  "[\"" ++ l.sub.startIp ++ "/" ++ toString l.sub.netMark ++ "\"" ++ "," ++ "\x7b\"address\":" ++
    l.address ++ "\x7d]\n"

/-- The loop of `load` over the rows not read yet. `toJSONString` is the
library's text of a map. -/
def loadLoop (toJSONString : StringMap → String) (fuel : ℕ) :
    StringMap → List Location → Option (Except Java.Exception (List Line))
  | _, [] => some (.ok [])
  | m1, loc :: rs =>
    let m1 := putAll m1 loc
    let address := toJSONString m1
    match createSub fuel loc.beginIp loc.endIp with
    | none => none
    | some (.error e) => some (.error e)
    | some (.ok x) =>
      match loadLoop toJSONString fuel m1 rs with
      | none => none
      | some (.error e) => some (.error e)
      | some (.ok lines) => some (.ok (x.map (fun sub => ⟨sub, address⟩) ++ lines))

/-- `load`: the texts written to the file, in order. -/
def load (toJSONString : StringMap → String) (fuel : ℕ) (rows : List Location) :
    Option (Except Java.Exception (List String)) :=
  (loadLoop toJSONString fuel (fun _ => none) rows).map
    (Except.map fun lines => lines.map Line.text)

end CreateIndex

end LoadIp

end Xpod
