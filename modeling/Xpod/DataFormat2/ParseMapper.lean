import Mathlib.Data.List.Basic
import Mathlib.Tactic
import Xpod.Common.Java
import Xpod.Common.Lists
import Xpod.DataFormat2.Model.ParseMapper
import Xpod.Storm.RecordPath
/-!
# When the mapper keeps every operation

A line that is accepted should give one row for each element of
`request_body.data`, with a column for each configured field, empty where
the field's path leads nowhere, and no rows when there is no data. The
mapper does so only when the data is an array of objects and every column
has a value it can convert: a missing array fails the task, and a missing
value drops the row.
-/

namespace Xpod

namespace DataFormat2

open Storm (Text FieldInfo Value Record JsonTree JsonRecord)

variable {δ : Type}

/-! ## Configuration -/

namespace TableInfo

/-- A table that is accepted has the configured number of columns. -/
theorem length_of_getTableInfo {info : Text} {columnNumber : ℤ} {fields : List Field}
    (h : getTableInfo info columnNumber = some fields) : (fields.length : ℤ) = columnNumber := by
  unfold getTableInfo at h
  simp only at h
  split at h
  · simp at h
  · next hlen =>
    rw [Lists.length_of_mapM_eq_some h]
    exact not_not.1 hlen

/-! ## Conversions -/

variable (N : Numbers δ)

/-- **The column type accepts the value**: a number, or a string, which a
numeric type must be able to parse. -/
def FieldType.Accepts (type : FieldType) : JsonTree (Scalar δ) → Prop
  | .scalar (.integer _) => True
  | .scalar (.long _) => True
  | .scalar (.double _) => True
  | .scalar (.string s) =>
    match type with
    | .int => (N.parseInt s).isSome = true
    | .long => (N.parseLong s).isSome = true
    | .double => (N.parseDouble s).isSome = true
    | .string => True
  | _ => False

theorem parsed_eq_some_iff {α : Type} {x : Option α} {bytes : α → List UInt8} :
    (∃ v, parsed x bytes = .ok (some v)) ↔ x.isSome = true := by
  cases x <;> simp [parsed]

theorem toBytes_null (type : FieldType) :
    type.toBytes N (.null : JsonTree (Scalar δ)) = .ok none := by
  cases type <;> rfl

/-- Exactly the accepted values become bytes. -/
theorem toBytes_eq_some_iff {type : FieldType} {val : JsonTree (Scalar δ)} :
    (∃ v, type.toBytes N val = .ok (some v)) ↔ type.Accepts N val := by
  rcases val with - | (n | n | d | s | -) | l | entries
  all_goals cases type
  all_goals first
    | exact parsed_eq_some_iff
    | simp [FieldType.toBytes, FieldType.Accepts]

end TableInfo

namespace ParseMapper

open TableInfo
open Storm.JsonRecord (segments valueLoop flatten)

/-! ## What a row should be -/

/-- The value at a path, where there is one. -/
def valueAt (data : Text → JsonTree (Scalar δ)) (key : Text) : JsonTree (Scalar δ) :=
  match segments key with
  | [] => .null
  | name :: names => valueLoop names (data name)

/-- The members of an element; what is no object has none. -/
def membersOf : JsonTree (Scalar δ) → Text → JsonTree (Scalar δ)
  | .map entries => JsonTree.get entries
  | _ => fun _ => .null

/-- The members of a record. -/
def fieldsOf (r : Record (Members δ)) (key : Text) : JsonTree (Scalar δ) :=
  ((r.data key).map objectOf).getD .null

/-- The value of a column for an element of the data. -/
def columnValue (r : Record (Members δ)) (element : JsonTree (Scalar δ)) (field : Field) :
    JsonTree (Scalar δ) :=
  valueAt (if field.isOperation then membersOf element else fieldsOf r) field.name

variable (N : Numbers δ)

/-- **The row of an element**: a column for each field, empty when the
path is missing, and the value's bytes when it can be converted. -/
def IsRow (fields : List Field) (r : Record (Members δ)) (element : JsonTree (Scalar δ))
    (row : Row) : Prop :=
  List.Forall₂ (fun field column =>
    (columnValue r element field = .null → column = []) ∧
      ∀ v, field.type.toBytes N (columnValue r element field) = .ok (some v) → column = v)
    fields row

/-- **The mapper keeps every operation of the line.** It returns; it writes
nothing for a line that is rejected, and otherwise a row for each element
of `request_body.data`, in order. -/
def Keeps (jsonParse : Text → Except Java.Exception (Members δ)) (fieldInfos : List FieldInfo)
    (fields : List Field) (value : Text) : Prop :=
  ∃ rows, map N jsonParse fieldInfos fields value = .ok rows ∧
    ((∀ r, Record.createRecord jsonParse value fieldInfos ≠ .ok (some r)) → rows = []) ∧
    ∀ r, Record.createRecord jsonParse value fieldInfos = .ok (some r) →
      List.Forall₂ (IsRow N fields r) ((flatten (fieldsOf r) dataPath).getD []) rows

/-! ## When it does -/

/-- **The record can be written in full.** Its `request_body` is JSON, the
`data` of it an array of objects or nulls, and every column has a value of
a kind its type accepts. -/
def Writable (fields : List Field) (r : Record (Members δ)) : Prop :=
  ∃ entries elements, r.data "request_body".toList = some (.json entries) ∧
    JsonTree.get entries "data".toList = .list elements ∧
    (∀ t ∈ elements, t.isMap = true ∨ t = .null) ∧
    ∀ t ∈ elements, ∀ field ∈ fields, field.type.Accepts N (columnValue r t field)

section Columns

variable {N} {r : Record (Members δ)} {t : JsonTree (Scalar δ)}

/-- The operation an element is read as. -/
def logOf : JsonTree (Scalar δ) → JsonRecord (Scalar δ)
  | .map entries => ⟨some (JsonTree.get entries)⟩
  | _ => ⟨none⟩

theorem valueLoop_null (names : List Text) :
    valueLoop names (.null : JsonTree (Scalar δ)) = .null := by
  cases names <;> rfl

theorem getObject_of_data (data : Text → JsonTree (Scalar δ)) (key : Text) :
    JsonRecord.getObject ⟨some data⟩ key = .ok (valueAt data key) := by
  unfold JsonRecord.getObject valueAt
  cases segments key <;> rfl

/-- **A column**: it gets the bytes of its value, if there are any. -/
theorem getValue_eq_some_iff (ht : t.isMap = true ∨ t = .null) (field : Field) {v : List UInt8} :
    field.getValue N (logOf t) (recordOf r) = .ok (some v) ↔
      field.type.toBytes N (columnValue r t field) = .ok (some v) := by
  unfold Field.getValue columnValue
  cases hop : field.isOperation with
  | false =>
    have hget : (recordOf r).getObject field.name = .ok (valueAt (fieldsOf r) field.name) :=
      getObject_of_data _ _
    simp [hget]
  | true =>
    rcases ht with ht | rfl
    · rcases t with - | s | l | entries
      · simp [JsonTree.isMap] at ht
      · simp [JsonTree.isMap] at ht
      · simp [JsonTree.isMap] at ht
      · have hget : (logOf (.map entries)).getObject field.name =
            .ok (valueAt (membersOf (.map entries)) field.name) := getObject_of_data _ _
        simp [hget]
    · -- a null element has no map to ask
      have hvalue : valueAt (membersOf (.null : JsonTree (Scalar δ))) field.name = .null := by
        unfold valueAt
        cases segments field.name with
        | nil => rfl
        | cons name names => exact valueLoop_null names
      simp only [if_true, hvalue, toBytes_null, Except.ok.injEq, reduceCtorEq, iff_false]
      unfold JsonRecord.getObject
      cases segments field.name with
      | nil => simp [toBytes_null]
      | cons name names => simp [logOf, JsonRecord.get]

/-- **A row** is written when every column gets bytes. -/
theorem rowOf_eq_some_iff (ht : t.isMap = true ∨ t = .null) {fields : List Field} {row : Row} :
    rowOf N (logOf t) (recordOf r) fields = some row ↔
      List.Forall₂ (fun field column =>
        field.type.toBytes N (columnValue r t field) = .ok (some column)) fields row := by
  induction fields generalizing row with
  | nil => simp [rowOf, eq_comm]
  | cons field fields ih =>
    rw [rowOf, List.forall₂_cons_left_iff]
    constructor
    · intro h
      rcases hval : field.getValue N (logOf t) (recordOf r) with e | (- | v)
      · simp [hval] at h
      · simp [hval] at h
      · simp only [hval, Option.map_eq_some_iff] at h
        obtain ⟨rest, hrest, rfl⟩ := h
        exact ⟨v, rest, (getValue_eq_some_iff ht field).1 hval, ih.1 hrest, rfl⟩
    · rintro ⟨v, rest, hv, hrest, rfl⟩
      simp [(getValue_eq_some_iff ht field).2 hv, ih.2 hrest]

/-- Columns that are accepted make a row. -/
theorem exists_row {fields : List Field}
    (h : ∀ field ∈ fields, field.type.Accepts N (columnValue r t field)) :
    ∃ row : Row, List.Forall₂ (fun field column =>
      field.type.toBytes N (columnValue r t field) = .ok (some column)) fields row :=
  Lists.exists_forall₂ fun field hfield => (toBytes_eq_some_iff N).2 (h field hfield)

/-- It is the row of the element. -/
theorem isRow_of_forall₂ {fields : List Field} {row : Row}
    (h : List.Forall₂ (fun field column =>
      field.type.toBytes N (columnValue r t field) = .ok (some column)) fields row) :
    IsRow N fields r t row := by
  refine h.imp fun field column hcolumn => ⟨fun hnull => ?_, fun v hv => ?_⟩
  · rw [hnull, toBytes_null] at hcolumn
    simp at hcolumn
  · rw [hcolumn] at hv
    exact Option.some.inj (Except.ok.inj hv)

end Columns

/-! ## The operations -/

section Operations

variable {r : Record (Members δ)}

/-- Elements that are objects or null become operations. -/
theorem logs_eq_ok_iff {elements : List (JsonTree (Scalar δ))}
    {ops : List (JsonRecord (Scalar δ))} :
    JsonRecord.logs elements = .ok ops ↔
      (∀ t ∈ elements, t.isMap = true ∨ t = .null) ∧ ops = elements.map logOf := by
  induction elements generalizing ops with
  | nil =>
    refine ⟨fun h => ⟨by simp, (Except.ok.inj h).symm⟩, fun h => ?_⟩
    rw [h.2]
    rfl
  | cons t elements ih =>
    -- the element is kept and the rest goes on
    have hcons : ∀ op : JsonRecord (Scalar δ),
        (do let rest ← JsonRecord.logs elements; return op :: rest) = Except.ok ops ↔
          (∀ t ∈ elements, t.isMap = true ∨ t = .null) ∧ ops = op :: elements.map logOf := by
      intro op
      rw [Java.bind_eq_ok]
      constructor
      · rintro ⟨rest, hrest, hops⟩
        obtain ⟨hall, rfl⟩ := ih.1 hrest
        exact ⟨hall, (Except.ok.inj hops).symm⟩
      · rintro ⟨hall, rfl⟩
        exact ⟨_, ih.2 ⟨hall, rfl⟩, rfl⟩
    rw [List.forall_mem_cons, List.map_cons]
    rcases t with - | s | l | entries
    · rw [JsonRecord.logs, hcons]
      simp [logOf]
    · simp [JsonRecord.logs, JsonTree.isMap]
    · simp [JsonRecord.logs, JsonTree.isMap]
    · rw [JsonRecord.logs, hcons]
      simp [logOf, JsonTree.isMap]

theorem segments_dataPath : segments dataPath = ["request_body".toList, "data".toList] := by
  decide

theorem asList_eq_some_iff {t : JsonTree (Scalar δ)} {elements : List (JsonTree (Scalar δ))} :
    JsonRecord.asList t = .ok (some elements) ↔ t = .list elements := by
  cases t <;> simp [JsonRecord.asList]

/-- Only a field that is JSON leads to a list. -/
theorem listFrom_body_eq_some_iff {elements : List (JsonTree (Scalar δ))} :
    JsonRecord.listFrom ["data".toList] (fieldsOf r "request_body".toList) =
        .ok (some elements) ↔
      ∃ entries, r.data "request_body".toList = some (.json entries) ∧
        JsonTree.get entries "data".toList = .list elements := by
  unfold fieldsOf
  rcases r.data "request_body".toList with - | (s | parts | entries)
  · refine ⟨fun h => ?_, fun ⟨_, h, _⟩ => absurd h (by simp)⟩
    exact absurd (Except.ok.inj h) (by simp)
  · refine ⟨fun h => ?_, fun ⟨_, h, _⟩ => absurd h (by simp)⟩
    exact absurd (Except.ok.inj h) (by simp)
  · refine ⟨fun h => ?_, fun ⟨_, h, _⟩ => absurd h (by simp)⟩
    exact absurd (Except.ok.inj h) (by simp)
  · change JsonRecord.asList (JsonTree.get entries "data".toList) = _ ↔ _
    rw [asList_eq_some_iff]
    refine ⟨fun h => ⟨entries, rfl, h⟩, fun ⟨entries', h, hdata⟩ => ?_⟩
    obtain rfl := Value.json.inj (Option.some.inj h)
    exact hdata

/-- **The operations of a record**: it has them exactly when its data is an
array of objects or nulls. -/
theorem getLogList_eq_some_iff {ops : List (JsonRecord (Scalar δ))} :
    (recordOf r).getLogList dataPath = .ok (some ops) ↔
      ∃ entries elements, r.data "request_body".toList = some (.json entries) ∧
        JsonTree.get entries "data".toList = .list elements ∧
        (∀ t ∈ elements, t.isMap = true ∨ t = .null) ∧ ops = elements.map logOf := by
  have hlist : (recordOf r).getObjectList dataPath =
      JsonRecord.listFrom ["data".toList] (fieldsOf r "request_body".toList) := by
    rw [JsonRecord.getObjectList, segments_dataPath]
    rfl
  rw [JsonRecord.getLogList, hlist, Java.bind_eq_ok]
  constructor
  · rintro ⟨- | elements, helements, h⟩
    · simp [pure, Except.pure] at h
    · obtain ⟨entries, hbody, hdata⟩ := listFrom_body_eq_some_iff.1 helements
      obtain ⟨ops', hops', h⟩ := Java.bind_eq_ok.1 h
      obtain rfl := Option.some.inj (Except.ok.inj h)
      obtain ⟨hall, rfl⟩ := logs_eq_ok_iff.1 hops'
      exact ⟨entries, elements, hbody, hdata, hall, rfl⟩
  · rintro ⟨entries, elements, hbody, hdata, hall, rfl⟩
    refine ⟨some elements, listFrom_body_eq_some_iff.2 ⟨entries, hbody, hdata⟩, ?_⟩
    simp only [logs_eq_ok_iff.2 ⟨hall, rfl⟩]
    rfl

end Operations

theorem flatten_dataPath {r : Record (Members δ)} {entries : Members δ}
    {elements : List (JsonTree (Scalar δ))}
    (hbody : r.data "request_body".toList = some (.json entries))
    (hdata : JsonTree.get entries "data".toList = .list elements) :
    flatten (fieldsOf r) dataPath = some elements := by
  have hfield : fieldsOf r "request_body".toList = .map entries := by
    rw [fieldsOf, hbody]
    rfl
  have hquery : JsonTree.query ["data".toList] (fieldsOf r "request_body".toList) =
      .list elements := by
    rw [hfield]
    exact hdata
  simp only [flatten, segments_dataPath, hquery, JsonTree.answer]

variable {N}

/-- The rows of a record that is accepted. -/
theorem map_eq_ok_iff {jsonParse : Text → Except Java.Exception (Members δ)}
    {fieldInfos : List FieldInfo} {fields : List Field} {value : Text} {r : Record (Members δ)}
    (hr : Record.createRecord jsonParse value fieldInfos = .ok (some r)) {rows : List Row} :
    map N jsonParse fieldInfos fields value = .ok rows ↔
      ∃ ops, (recordOf r).getLogList dataPath = .ok (some ops) ∧
        rows = ops.filterMap fun op => rowOf N op (recordOf r) fields := by
  simp only [map, hr]
  rw [Java.bind_eq_ok]
  constructor
  · rintro ⟨- | ops, hops, h⟩
    · simp at h
    · exact ⟨ops, hops, (Except.ok.inj h).symm⟩
  · rintro ⟨ops, hops, rfl⟩
    exact ⟨some ops, hops, rfl⟩

/-- **When the mapper keeps every operation.** For every line, every field
configuration and every list of columns, `map` returns and writes exactly
the rows it should if and only if the line is rejected or its record can
be written in full. -/
theorem map_keeps_iff (jsonParse : Text → Except Java.Exception (Members δ))
    (fieldInfos : List FieldInfo) (fields : List Field) (value : Text) :
    Keeps N jsonParse fieldInfos fields value ↔
      ∀ r, Record.createRecord jsonParse value fieldInfos = .ok (some r) → Writable N fields r := by
  constructor
  · rintro ⟨rows, hmap, -, hrows⟩ r hr
    obtain ⟨ops, hops, rfl⟩ := (map_eq_ok_iff hr).1 hmap
    obtain ⟨entries, elements, hbody, hdata, hall, rfl⟩ := getLogList_eq_some_iff.1 hops
    have hforall := hrows r hr
    rw [flatten_dataPath hbody hdata, Option.getD_some] at hforall
    -- as many rows as elements: no row was dropped
    have hlength := hforall.length_eq.symm
    rw [List.filterMap_map, List.filterMap_length_eq_length] at hlength
    refine ⟨entries, elements, hbody, hdata, hall, fun t ht field hfield => ?_⟩
    obtain ⟨row, hrow⟩ := Option.isSome_iff_exists.1 (hlength t ht)
    obtain ⟨v, -, hv⟩ :=
      Lists.exists_right_of_mem ((rowOf_eq_some_iff (hall t ht)).1 hrow) hfield
    exact (toBytes_eq_some_iff N).1 ⟨v, hv⟩
  · intro hwrite
    rcases hcreate : Record.createRecord jsonParse value fieldInfos with e | (- | r)
    · refine ⟨[], by simp only [map, hcreate], fun _ => rfl, fun r hr => ?_⟩
      simp [hcreate] at hr
    · refine ⟨[], by simp only [map, hcreate], fun _ => rfl, fun r hr => ?_⟩
      simp [hcreate] at hr
    · obtain ⟨entries, elements, hbody, hdata, hall, haccepts⟩ := hwrite r hcreate
      refine ⟨_, (map_eq_ok_iff hcreate).2 ⟨_, getLogList_eq_some_iff.2
        ⟨entries, elements, hbody, hdata, hall, rfl⟩, rfl⟩, fun h => absurd hcreate (h r), ?_⟩
      intro r' hr'
      rw [hcreate] at hr'
      obtain rfl := Option.some.inj (Except.ok.inj hr')
      rw [flatten_dataPath hbody hdata, Option.getD_some, List.filterMap_map]
      refine Lists.forall₂_filterMap fun t ht => ?_
      obtain ⟨row, hrow⟩ := exists_row (haccepts t ht)
      exact ⟨row, (rowOf_eq_some_iff (hall t ht)).2 hrow, isRow_of_forall₂ hrow⟩

/-- Number classes that parse nothing, with one floating-point number. -/
def sampleNumbers : Numbers Unit where
  intValue _ := 0
  longValue _ := 0
  doubleToRawLongBits _ := 0
  ofInteger _ := ()
  ofLong _ := ()
  toString _ := "0.0".toList
  parseInt _ := none
  parseLong _ := none
  parseDouble _ := none

/-- `map` for a line that is one JSON field, of which the reader makes
these members, and one column `$.type:string`. -/
def sampleMap (members : Members Unit) : Except Java.Exception (List Row) :=
  map sampleNumbers (fun _ => .ok members) [⟨.json, "request_body".toList⟩]
    [Field.new "$.type".toList .string] "\x7b".toList

/-- **A line without data fails the task, and of two operations the one
without the column's member is dropped.** -/
theorem map_loses_sample :
    sampleMap [] = .error .classCast ∧
      (¬ Keeps sampleNumbers (fun _ => .ok []) [⟨.json, "request_body".toList⟩]
        [Field.new "$.type".toList .string] "\x7b".toList) ∧
      sampleMap [("data".toList, .list [.map [], .map [("type".toList, .scalar (.integer 7))]])] =
        .ok [[[55]]] := by
  have hfails : sampleMap [] = .error .classCast := by rfl
  refine ⟨hfails, ?_, by decide +kernel⟩
  rintro ⟨rows, hrows, -⟩
  have hsame : sampleMap [] = .ok rows := hrows
  rw [hfails] at hsame
  simp at hsame

end ParseMapper

end DataFormat2

end Xpod
