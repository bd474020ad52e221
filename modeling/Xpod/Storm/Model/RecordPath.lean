import Mathlib.Data.List.Basic
import Mathlib.Tactic
import Xpod.Common.Java
import Xpod.Storm.Model.Record
/-!
# Looking up a path in a record

`Record.getValue` and `Record.getListValue` follow a dotted key from the
record's map through the maps and lists the JSON reader made. The `Record`
of data_format2 is the same class.

A record may also stand for an element of a list, and its map is then a
null reference when the element was.
-/

namespace Xpod

namespace Storm

/-- A reference to what the JSON reader makes, as far as the two methods
tell it apart: null, a list, a map, or an object that is neither. -/
inductive JsonTree (σ : Type)
  | null
  | scalar (s : σ)
  | list (elements : List (JsonTree σ))
  | map (entries : List (Text × JsonTree σ))

namespace JsonTree

variable {σ : Type}

/-- `Map.get`: null for a key that is not in the map. -/
def get (entries : List (Text × JsonTree σ)) (key : Text) : JsonTree σ :=
  (entries.lookup key).getD .null

/-- `instanceof Map` -/
def isMap : JsonTree σ → Bool
  | .map _ => true
  | _ => false

end JsonTree

/-- A record, by the `get` of its map. -/
structure JsonRecord (σ : Type) where
  data : Option (Text → JsonTree σ)

namespace JsonRecord

variable {σ : Type}

/-- `data.get(key)` -/
def get (r : JsonRecord σ) (key : Text) : Except Java.Exception (JsonTree σ) :=
  match r.data with
  | none => .error .nullPointer
  | some data => .ok (data key)

/-- The names the loops cut out of a key: the pieces between its dots. The
loops end at the end of the key, so nothing is cut out behind a last dot. -/
def segments : Text → List Text
  | [] => []
  | c :: key =>
    if c = '.' then [] :: segments key
    else
      match segments key with
      | [] => [[c]]
      | name :: names => (c :: name) :: names

/-! ## One value -/

/-- A round of the loop of `getValue` behind the head; `none` is its
`return null`. -/
def valueStep (ret : JsonTree σ) (name : Text) : Option (JsonTree σ) :=
  match ret with
  | .map entries => some (JsonTree.get entries name)
  | .list (.map entries :: _) => some (JsonTree.get entries name)
  | _ => none

/-- The rounds behind the head. -/
def valueLoop : List Text → JsonTree σ → JsonTree σ
  | [], ret => ret
  | name :: names, ret =>
    match valueStep ret name with
    | none => .null
    | some ret => valueLoop names ret

/-- `getValue(key, tx)`, which `getObject` returns as it is. -/
def getObject (r : JsonRecord σ) (key : Text) : Except Java.Exception (JsonTree σ) :=
  match segments key with
  | [] => .ok .null
  | name :: names => do
    let ret ← r.get name
    return valueLoop names ret

/-- `getLog(key)`: null stays null, and what is no map fails the cast. -/
def getLog (r : JsonRecord σ) (key : Text) : Except Java.Exception (Option (JsonRecord σ)) := do
  match ← r.getObject key with
  | .null => return none
  | .map entries => return some ⟨some (JsonTree.get entries)⟩
  | _ => .error .classCast

/-! ## All values -/

/-- The inner loop: the member's values of every element. An element that
is no map fails the cast of the loop variable, and a null one the call. -/
def collect (name : Text) : List (JsonTree σ) → Except Java.Exception (List (JsonTree σ))
  | [] => .ok []
  | .map entries :: elements => do
    let rest ← collect name elements
    match JsonTree.get entries name with
    | .null => return rest
    | .list values => return values ++ rest
    | tmp => return tmp :: rest
  | .null :: _ => .error .nullPointer
  | _ :: _ => .error .classCast

/-- A round of the loop of `getListValue` behind the head; `none` is its
`return null`. -/
def listStep (ret : JsonTree σ) (name : Text) : Except Java.Exception (Option (JsonTree σ)) :=
  match ret with
  | .map entries => .ok (some (JsonTree.get entries name))
  | .list (.map entries :: elements) => do
    let tmpList ← collect name (.map entries :: elements)
    return some (if tmpList.isEmpty then .null else .list tmpList)
  | _ => .ok none

/-- The rounds behind the head. -/
def listLoop : List Text → JsonTree σ → Except Java.Exception (Option (JsonTree σ))
  | [], ret => .ok (some ret)
  | name :: names, ret => do
    match ← listStep ret name with
    | none => return none
    | some ret => listLoop names ret

/-- The end of `getListValue`. What is not a list is added to a new list,
but `ret` becomes what `add` returns, the Boolean `true`, and fails the
cast to a list. -/
def asList : JsonTree σ → Except Java.Exception (Option (List (JsonTree σ)))
  | .list elements => .ok (some elements)
  | _ => .error .classCast

/-- `getListValue(key, tx)`, which `getObjectList` returns as it is; `none`
is null. -/
def getObjectList (r : JsonRecord σ) (key : Text) :
    Except Java.Exception (Option (List (JsonTree σ))) :=
  match segments key with
  | [] => asList .null
  | name :: names => do
    let ret ← r.get name
    match ← listLoop names ret with
    | none => return none
    | some ret => asList ret

/-- The loop of `getLogList`: the loop variable is cast to a map, and null
stays null. -/
def logs : List (JsonTree σ) → Except Java.Exception (List (JsonRecord σ))
  | [] => .ok []
  | .map entries :: elements => do
    let rest ← logs elements
    return ⟨some (JsonTree.get entries)⟩ :: rest
  | .null :: elements => do
    let rest ← logs elements
    return ⟨none⟩ :: rest
  | _ :: _ => .error .classCast

/-- `getLogList(key)` -/
def getLogList (r : JsonRecord σ) (key : Text) :
    Except Java.Exception (Option (List (JsonRecord σ))) := do
  match ← r.getObjectList key with
  | none => return none
  | some ret => return some (← logs ret)

end JsonRecord

end Storm

end Xpod
