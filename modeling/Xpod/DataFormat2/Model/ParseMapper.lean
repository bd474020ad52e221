import Mathlib.Data.BitVec
import Mathlib.Data.List.Basic
import Mathlib.Tactic
import Xpod.Common.BigEndian
import Xpod.Common.Java
import Xpod.Common.Utf8
import Xpod.Storm.Model.Record
import Xpod.Storm.Model.RecordPath
/-!
# The mapper of data_format2

`ParseMapper.map` makes a record of a line and writes one row of columns
for each operation under `request_body.data`. A column is the value at a
path of the operation or of the record, converted to the column's type and
then to bytes.

The `Record` here is a copy of the one the Storm spout uses, so the model
of that one serves. Floating-point numbers and the parsing of numbers are
the library's.
-/

namespace Xpod

namespace DataFormat2

open Storm (Text FieldInfo Value Record JsonTree JsonRecord)

/-! ## Objects -/

/-- The objects that are neither a map nor a list, as far as a column tells
them apart. A `String[]` or a Boolean is one of the others. -/
inductive Scalar (δ : Type)
  | integer (n : BitVec 32)
  | long (n : BitVec 64)
  | double (d : δ)
  | string (s : Text)
  | other

/-- What the classes `Integer`, `Long` and `Double` do; `none` is a
`NumberFormatException`. -/
structure Numbers (δ : Type) where
  intValue : δ → BitVec 32
  longValue : δ → BitVec 64
  doubleToRawLongBits : δ → BitVec 64
  ofInteger : BitVec 32 → δ
  ofLong : BitVec 64 → δ
  toString : δ → Text
  parseInt : Text → Option (BitVec 32)
  parseLong : Text → Option (BitVec 64)
  parseDouble : Text → Option δ

/-- The map the JSON reader returns. -/
abbrev Members (δ : Type) : Type := List (Text × JsonTree (Scalar δ))

variable {δ : Type}

/-- The object of a field of the record. -/
def objectOf : Value (Members δ) → JsonTree (Scalar δ)
  | .single s => .scalar (.string s)
  | .list _ => .scalar .other
  | .json entries => .map entries

/-- The record with its values as objects. -/
def recordOf (r : Record (Members δ)) : JsonRecord (Scalar δ) :=
  ⟨some fun key => ((r.data key).map objectOf).getD .null⟩

/-! ## Columns -/

namespace TableInfo

/-- `TableInfo.FieldType` -/
inductive FieldType
  | int
  | long
  | double
  | string
deriving DecidableEq, Repr

/-- `FieldType.getType` -/
def FieldType.getType (type : Text) : Option FieldType :=
  if type = "int".toList then some .int
  else if type = "long".toList then some .long
  else if type = "double".toList then some .double
  else if type = "string".toList then some .string
  else none

structure Field where
  name : Text
  type : FieldType
  isOperation : Bool
deriving DecidableEq, Repr

/-- `name.replace("$.", "")` -/
def removeMarks : Text → Text
  | '$' :: '.' :: name => removeMarks name
  | c :: name => c :: removeMarks name
  | [] => []

/-- The constructor of `Field`. -/
def Field.new (key : Text) (fieldType : FieldType) : Field :=
  let isOperation := "$.".toList.isPrefixOf key
  { name := if isOperation then removeMarks key else key
    type := fieldType
    isOperation }

/-- `Field.createField` -/
def Field.createField (field : Text) : Option Field :=
  match Java.split ':' field with
  | [name, type] => (FieldType.getType type).map (Field.new name)
  | _ => none

/-- `TableInfo.getTableInfo`, for the configured number of columns. -/
def getTableInfo (info : Text) (columnNumber : ℤ) : Option (List Field) :=
  let fields := Java.split ',' info
  if (fields.length : ℤ) ≠ columnNumber then none
  else fields.mapM Field.createField

variable (N : Numbers δ)

/-- `Bytes.toBytes` of an int. -/
def intBytes (n : BitVec 32) : List UInt8 := BigEndian.write 4 n.toNat

/-- `Bytes.toBytes` of a long. -/
def longBytes (n : BitVec 64) : List UInt8 := BigEndian.write 8 n.toNat

/-- `Bytes.toBytes` of a double. -/
def doubleBytes (d : δ) : List UInt8 := longBytes (N.doubleToRawLongBits d)

/-- What a parser returns, or its `NumberFormatException`. -/
def parsed {α : Type} (x : Option α) (bytes : α → List UInt8) :
    Except Java.Exception (Option (List UInt8)) :=
  match x with
  | none => .error .numberFormat
  | some a => .ok (some (bytes a))

/-- The `switch` of `Field.getValue`; `none` is null. A `LONG` column of an
`Integer` or a `Long` is written as an int. -/
def FieldType.toBytes (type : FieldType) (val : JsonTree (Scalar δ)) :
    Except Java.Exception (Option (List UInt8)) :=
  match type, val with
  | .int, .scalar (.integer n) => .ok (some (intBytes n))
  | .int, .scalar (.long n) => .ok (some (intBytes (n.setWidth 32)))
  | .int, .scalar (.double d) => .ok (some (intBytes (N.intValue d)))
  | .int, .scalar (.string s) => parsed (N.parseInt s) intBytes
  | .double, .scalar (.integer n) => .ok (some (doubleBytes N (N.ofInteger n)))
  | .double, .scalar (.long n) => .ok (some (doubleBytes N (N.ofLong n)))
  | .double, .scalar (.double d) => .ok (some (doubleBytes N d))
  | .double, .scalar (.string s) => parsed (N.parseDouble s) (doubleBytes N)
  | .long, .scalar (.integer n) => .ok (some (intBytes n))
  | .long, .scalar (.long n) => .ok (some (intBytes (n.setWidth 32)))
  | .long, .scalar (.double d) => .ok (some (longBytes (N.longValue d)))
  | .long, .scalar (.string s) => parsed (N.parseLong s) longBytes
  | .string, .scalar (.integer n) => .ok (some (Utf8.encode (toString n.toInt).toList))
  | .string, .scalar (.long n) => .ok (some (Utf8.encode (toString n.toInt).toList))
  | .string, .scalar (.double d) => .ok (some (Utf8.encode (N.toString d)))
  | .string, .scalar (.string s) => .ok (some (Utf8.encode s))
  | _, _ => .ok none

/-- `Field.getValue` -/
def Field.getValue (field : Field) (operation pubinfo : JsonRecord (Scalar δ)) :
    Except Java.Exception (Option (List UInt8)) := do
  let op := if field.isOperation then operation else pubinfo
  let val ← op.getObject field.name
  field.type.toBytes N val

end TableInfo

/-! ## The mapper -/

namespace ParseMapper

open TableInfo

variable (N : Numbers δ)

/-- A row: the bytes of its columns. -/
abbrev Row : Type := List (List UInt8)

/-- The loop over the columns of an operation. A null value fails in the
constructor of `BytesRefWritable`; an exception drops the row. -/
def rowOf (op r : JsonRecord (Scalar δ)) : List Field → Option Row
  | [] => some []
  | field :: fields =>
    match field.getValue N op r with
    | .ok (some val) => (rowOf op r fields).map (val :: ·)
    | _ => none

/-- The path of the operations. -/
def dataPath : Text := "request_body.data".toList

/-- `ParseMapper.map`, for the configured `FIELD_INFOS` and
`OUTPUT_FIELDINFO`: the rows that are written. The loop over the
operations fails on a null list. -/
def map (jsonParse : Text → Except Java.Exception (Members δ)) (fieldInfos : List FieldInfo)
    (fields : List Field) (value : Text) : Except Java.Exception (List Row) :=
  match Record.createRecord jsonParse value fieldInfos with
  | .error _ => .ok []
  | .ok none => .ok []
  | .ok (some r) => do
    match ← (recordOf r).getLogList dataPath with
    | none => .error .nullPointer
    | some ops => return ops.filterMap fun op => rowOf N op (recordOf r) fields

end ParseMapper

end DataFormat2

end Xpod
