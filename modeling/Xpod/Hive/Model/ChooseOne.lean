import Mathlib.Data.BitVec
import Mathlib.Data.List.Basic
import Mathlib.Tactic
import Xpod.Common.HashTable
/-!
# The aggregate `ChooseOne`

The evaluator counts the keys of its rows in a hash map and returns the
first key of the map's iteration. Hive runs it as it sees fit: an
evaluator takes in rows and the partial results of other evaluators, in
any order and to any depth.
-/

namespace Xpod

namespace Hive

namespace ChooseOne

/-- The arguments of `iterate`. -/
structure Row where
  key : Option String
  type : Option String
deriving DecidableEq, Repr

/-- `ChooseOne.State` -/
structure State where
  mapCount : HashTable String (BitVec 64)
  type : Option String

/-- A new evaluator: its constructor calls `init`. -/
def State.init : State := ⟨HashTable.empty, some "mid"⟩

/-- `key.trim().equals("")` -/
def isBlank (key : String) : Bool := key.toList.all (· ≤ ' ')

/-- The key that a row counts for, if it counts. -/
def Row.counted (row : Row) : Option String :=
  match row.key with
  | none => none
  | some key =>
    if isBlank key then none
    else if row.type = some "tid" ∧ key = "0" then none
    else some key

/-- `iterate` -/
def iterate (state : State) (row : Row) : State :=
  match row.counted with
  | none => state
  | some key =>
    { mapCount := state.mapCount.put key
        (match state.mapCount.get key with
          | none => 1
          | some v => v + 1)
      type := row.type }

/-- `terminatePartial`; `none` is null. -/
def terminatePartial (state : State) : Option State :=
  if state.mapCount.size = 0 then none else some state

variable (h : Hashing String)

/-- A round of the loop of `merge`: add the other map's count of a key. -/
def addCount (other : HashTable String (BitVec 64)) (mapCount : HashTable String (BitVec 64))
    (key : String) : HashTable String (BitVec 64) :=
  let count := (other.get key).getD 0
  mapCount.put key
    (match mapCount.get key with
      | none => count
      | some l => l + count)

/-- `merge` -/
def merge (state : State) (sta : Option State) : State :=
  match sta with
  | none => state
  | some sta =>
    { state with mapCount := (sta.mapCount.keySet h).foldl (addCount sta.mapCount) state.mapCount }

/-- `terminate` -/
def terminate (state : State) : Option String := (state.mapCount.keySet h).head?

/-! ## Ways to run it -/

/-- What an evaluator has been through. -/
inductive Evaluation
  | init
  | iterate (e : Evaluation) (row : Row)
  /-- It takes in the partial result of another one. -/
  | merge (e other : Evaluation)

/-- The rows an evaluator and those it took in have seen. -/
def Evaluation.rows : Evaluation → List Row
  | .init => []
  | .iterate e row => e.rows ++ [row]
  | .merge e other => e.rows ++ other.rows

/-- The evaluator's state. -/
def Evaluation.state : Evaluation → State
  | .init => State.init
  | .iterate e row => ChooseOne.iterate e.state row
  | .merge e other => ChooseOne.merge h e.state (terminatePartial other.state)

/-- What it returns. -/
def Evaluation.result (e : Evaluation) : Option String := terminate h (e.state h)

end ChooseOne

end Hive

end Xpod
