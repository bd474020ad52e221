import Mathlib.Data.List.Basic
import Mathlib.Logic.Function.Basic
import Mathlib.Tactic
import Xpod.Common.Java
/-!
# Records of the Storm spout

`PullFromKafkaSpout.nextTuple` decodes a Kafka message with the platform
charset and `Record.createRecord` cuts the text at its backticks, one
field for each `FieldInfo`. A string is the list of its characters here,
so that `indexOf` and `substring` are list operations.

The JSON reader is a parameter: `createRecord` only stores what it
returns.
-/

namespace Xpod

namespace Storm

abbrev Text : Type := List Char

/-- **The charset of `new String(bytes)`.** Of the platform's charset the
spout needs that the backtick is a byte of its own, which neither joins
with its neighbours nor comes out of other bytes. The ASCII-based 8-bit
charsets and UTF-8 are so. -/
structure Charset where
  decode : List UInt8 → Text
  decode_backtick : ∀ a b, decode (a ++ 96 :: b) = decode a ++ '`' :: decode b
  mem_of_backtick : ∀ a, '`' ∈ decode a → 96 ∈ a

theorem toNat_ofUInt8 (b : UInt8) : (Char.ofUInt8 b).toNat = b.toNat := rfl

/-- The charset that reads each byte as the character of that number. -/
def Charset.latin1 : Charset where
  decode bytes := bytes.map Char.ofUInt8
  decode_backtick a b := by simp only [List.map_append, List.map_cons]; rfl
  mem_of_backtick a h := by
    obtain ⟨b, hb, hc⟩ := List.mem_map.1 h
    have hb96 : b = 96 := UInt8.toNat_inj.1 (by rw [← toNat_ofUInt8, hc]; rfl)
    rwa [← hb96]

/-- `FieldType` -/
inductive FieldType
  | single
  | json
  | list
deriving DecidableEq, Repr

structure FieldInfo where
  type : FieldType
  fieldName : Text
deriving DecidableEq, Repr

/-- The objects a record holds: a string, a `String[]`, or what the JSON
reader made of the field. -/
inductive Value (J : Type)
  | single (s : Text)
  | list (parts : List Text)
  | json (map : J)
deriving DecidableEq

/-- `Record`, by its `HashMap`. -/
structure Record (J : Type) where
  data : Text → Option (Value J) := fun _ => none

namespace Record

variable {J : Type}

/-- `data.put` -/
def put (ret : Record J) (key : Text) (value : Value J) : Record J :=
  ⟨Function.update ret.data key (some value)⟩

/-- `field.split(",")`: without a comma the field itself, else the pieces
without the empty ones at the end. -/
def split (field : Text) : List Text :=
  match field.splitOn ',' with
  | [piece] => [piece]
  | pieces => (pieces.reverse.dropWhile List.isEmpty).reverse

/-- The `for` loop of `createRecord`. `value` is the text from `start` on;
the result `none` is Java's null. -/
def createRecordLoop (jsonParse : Text → Except Java.Exception J) :
    List FieldInfo → Text → Record J → Except Java.Exception (Option (Record J))
  | [], _, ret => .ok (some ret)
  | fieldInfo :: fieldInfos, value, ret =>
    -- the last field is all that is left
    let cut := if fieldInfos.isEmpty then some (value, []) else Java.cutAt '`' value
    match cut with
    | none => .ok none
    | some (field, rest) =>
      match fieldInfo.type with
      | .single =>
        createRecordLoop jsonParse fieldInfos rest (ret.put fieldInfo.fieldName (.single field))
      | .list =>
        createRecordLoop jsonParse fieldInfos rest
          (ret.put fieldInfo.fieldName (.list (split field)))
      | .json =>
        if field.head? ≠ some '\x7b' then .ok none
        else do
          let map ← jsonParse field
          createRecordLoop jsonParse fieldInfos rest (ret.put fieldInfo.fieldName (.json map))

/-- `Record.createRecord` -/
def createRecord (jsonParse : Text → Except Java.Exception J) (value : Text)
    (fieldInfos : List FieldInfo) : Except Java.Exception (Option (Record J)) :=
  createRecordLoop jsonParse fieldInfos value {}

end Record

end Storm

end Xpod
