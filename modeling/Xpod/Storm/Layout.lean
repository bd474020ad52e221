import Mathlib.Data.List.Basic
import Mathlib.Tactic
import Xpod.Common.Fields
import Xpod.Storm.Model.Record
/-!
# Joining fields and reading them back

`createRecord` takes one field off a line for each description, cutting at
backticks, and all that is left for the last one. On layouts of single
fields, the last of which may be JSON, this is the inverse of joining with
backticks: fields that are free of backticks in front of the last one come
back as they were, a record of single fields joins to the line it was read
from, and null is returned for lines with too few backticks and for a JSON
field that is no object.
-/

namespace Xpod

namespace Storm

/-- **A layout**: single fields, and a last field that is single or JSON,
all of different names. -/
structure Layout where
  front : List Text
  last : FieldInfo
  last_type : last.type ≠ .list
  nodup : (front ++ [last.fieldName]).Nodup

namespace Layout

variable {J : Type} (L : Layout)

/-- The names, in order. -/
def names : List Text := L.front ++ [L.last.fieldName]

/-- The descriptions, in order. -/
def fieldInfos : List FieldInfo := L.front.map (FieldInfo.mk .single) ++ [L.last]

/-- The value stored for the text of the last field: the text itself, or
what the JSON reader makes of an object's text. -/
def Stores (jsonParse : Text → Except Java.Exception J) (s : Text) : Value J → Prop
  | .single t => L.last.type = .single ∧ t = s
  | .json map => L.last.type = .json ∧ s.head? = some '\x7b' ∧ jsonParse s = .ok map
  | .list _ => False

end Layout

namespace Record

variable {J : Type}

/-! ## Entries -/

/-- The record after the entries were put into it, in order. -/
def putEntries (ret : Record J) (entries : List (Text × Value J)) : Record J :=
  entries.foldl (fun ret e => ret.put e.1 e.2) ret

@[simp] theorem putEntries_cons (ret : Record J) (e : Text × Value J)
    (entries : List (Text × Value J)) :
    ret.putEntries (e :: entries) = (ret.put e.1 e.2).putEntries entries := rfl

theorem putEntries_append (ret : Record J) (entries entries' : List (Text × Value J)) :
    ret.putEntries (entries ++ entries') = (ret.putEntries entries).putEntries entries' :=
  List.foldl_append

/-- Entries of different names are all found. -/
theorem data_putEntries {entries : List (Text × Value J)} (h : (entries.map Prod.fst).Nodup)
    (ret : Record J) (key : Text) :
    (ret.putEntries entries).data key = (entries.lookup key).or (ret.data key) := by
  induction entries generalizing ret with
  | nil => rfl
  | cons e entries ih =>
    rw [List.map_cons, List.nodup_cons] at h
    rw [putEntries_cons, ih h.2]
    by_cases hkey : key = e.1
    · -- no later entry has this name
      subst hkey
      have hnone : entries.lookup e.1 = none := by
        rw [List.lookup_eq_none_iff]
        intro p hp
        have hne : e.1 ≠ p.1 := fun he => h.1 (he ▸ List.mem_map_of_mem hp)
        simpa using hne
      rw [hnone, List.lookup_cons, beq_self_eq_true]
      exact Function.update_self _ _ _
    · have hput : (ret.put e.1 e.2).data key = ret.data key := Function.update_of_ne hkey _ _
      rw [hput, List.lookup_cons, (beq_eq_false_iff_ne).2 hkey]

/-! ## The loop -/

variable {jsonParse : Text → Except Java.Exception J}

/-- A single field in front of others is cut off at the first backtick. -/
theorem createRecordLoop_single_cons (name : Text) {infos : List FieldInfo} (h : infos ≠ [])
    (value : Text) (ret : Record J) :
    createRecordLoop jsonParse (⟨.single, name⟩ :: infos) value ret =
      (Java.cutAt '`' value).elim (.ok none) fun p =>
        createRecordLoop jsonParse infos p.2 (ret.put name (.single p.1)) := by
  rw [createRecordLoop, if_neg (by simpa using h)]
  rcases Java.cutAt '`' value with - | ⟨field, rest⟩ <;> rfl

/-- **The loop cuts once for each field in front of the last** and goes on
with the last one, or returns null when a cut finds no backtick. -/
theorem createRecordLoop_front (front : List Text) (last : FieldInfo) (value : Text)
    (ret : Record J) :
    createRecordLoop jsonParse (front.map (FieldInfo.mk .single) ++ [last]) value ret =
      (Fields.cuts '`' front.length value).elim (.ok none) fun fields =>
        createRecordLoop jsonParse [last] (fields.getLastD [])
          (ret.putEntries (front.zip (fields.map .single))) := by
  induction front generalizing value ret with
  | nil => rfl
  | cons name front ih =>
    rw [List.map_cons, List.cons_append, createRecordLoop_single_cons name (by simp),
      List.length_cons, Fields.cuts]
    rcases Java.cutAt '`' value with - | ⟨field, rest⟩
    · rfl
    · rw [Option.elim_some, Option.bind_some, ih]
      rcases hcuts : Fields.cuts '`' front.length rest with - | fields
      · rfl
      · obtain ⟨g, fields, rfl⟩ :=
          List.exists_cons_of_length_eq_add_one (Fields.length_of_cuts hcuts)
        rfl

/-- The last field is all that is left. -/
theorem createRecordLoop_last_single {last : FieldInfo} (h : last.type = .single) (value : Text)
    (ret : Record J) :
    createRecordLoop jsonParse [last] value ret =
      .ok (some (ret.put last.fieldName (.single value))) := by
  rw [createRecordLoop, h]
  rfl

theorem createRecordLoop_last_json {last : FieldInfo} (h : last.type = .json) (value : Text)
    (ret : Record J) :
    createRecordLoop jsonParse [last] value ret =
      if value.head? ≠ some '\x7b' then .ok none
      else (jsonParse value).map fun map => some (ret.put last.fieldName (.json map)) := by
  rw [createRecordLoop, h]
  by_cases hbrace : value.head? = some '\x7b'
  · simp only [List.isEmpty_nil, if_true, hbrace, ne_eq, not_true_eq_false, if_false]
    rcases jsonParse value with e | map <;> rfl
  · simp [hbrace]

end Record

/-! ## Reading a joined line -/

namespace Layout

open Record

variable {J : Type} {jsonParse : Text → Except Java.Exception J} {L : Layout}

theorem createRecord_eq (value : Text) :
    createRecord jsonParse value L.fieldInfos =
      (Fields.cuts '`' L.front.length value).elim (.ok none) fun fields =>
        createRecordLoop jsonParse [L.last] (fields.getLastD [])
          (({} : Record J).putEntries (L.front.zip (fields.map .single))) :=
  createRecordLoop_front L.front L.last value {}

/-- The fields of a line are as many as those of the layout, and only the
last may hold backticks. -/
structure Splits (L : Layout) (value : Text) (ss : List Text) (s : Text) : Prop where
  length : ss.length = L.front.length
  free : ∀ t ∈ ss, '`' ∉ t
  join : value = ['`'].intercalate (ss ++ [s])

theorem Splits.cuts {value s : Text} {ss : List Text} (h : L.Splits value ss s) :
    Fields.cuts '`' L.front.length value = some (ss ++ [s]) := by
  have hfree : ∀ t ∈ (ss ++ [s]).dropLast, '`' ∉ t := by
    rw [List.dropLast_concat]
    exact h.free
  rw [h.join, ← h.length]
  rcases ss with - | ⟨t, ss⟩
  · simp [Fields.cuts]
  · have hlength : (ss ++ [s]).length = (t :: ss).length := by simp
    rw [← hlength]
    exact Fields.cuts_intercalate hfree

/-- A line with enough backticks has such fields. -/
theorem exists_splits {value : Text} {fields : List Text}
    (h : Fields.cuts '`' L.front.length value = some fields) :
    ∃ ss s, fields = ss ++ [s] ∧ L.Splits value ss s := by
  obtain ⟨hjoin, hfree⟩ := Fields.intercalate_of_cuts h
  have hlength := Fields.length_of_cuts h
  obtain rfl | ⟨ss, s, rfl⟩ := fields.eq_nil_or_concat'
  · simp at hlength
  · rw [List.dropLast_concat] at hfree
    exact ⟨ss, s, rfl, by simpa using hlength, hfree, hjoin.symm⟩

theorem Splits.createRecord_eq {value s : Text} {ss : List Text} (h : L.Splits value ss s) :
    createRecord jsonParse value L.fieldInfos =
      createRecordLoop jsonParse [L.last] s
        (({} : Record J).putEntries (L.front.zip (ss.map .single))) := by
  rw [Layout.createRecord_eq, h.cuts, Option.elim_some, List.getLastD_concat, List.map_append,
    ← List.append_nil L.front, List.zip_append (by simp [h.length])]
  simp

/-- Null is returned for a line that cannot be cut often enough, or whose
JSON field does not begin with a brace. -/
theorem createRecord_eq_null_iff {value : Text} :
    createRecord jsonParse value L.fieldInfos = .ok none ↔
      value.count '`' < L.front.length ∨
        (L.last.type = .json ∧ ∃ ss s, L.Splits value ss s ∧ s.head? ≠ some '\x7b') := by
  rcases hcuts : Fields.cuts '`' L.front.length value with - | fields
  · have hcount := Fields.cuts_eq_none_iff.1 hcuts
    rw [Layout.createRecord_eq, hcuts]
    exact iff_of_true rfl (Or.inl hcount)
  · have hcount : ¬ value.count '`' < L.front.length := by
      rw [← Fields.cuts_eq_none_iff, hcuts]
      simp
    obtain ⟨ss, s, rfl, hsplits⟩ := exists_splits hcuts
    -- the line has no other fields than these
    have hsame : ∀ ss' s', L.Splits value ss' s' → s' = s := by
      intro ss' s' h'
      have hfields := h'.cuts.symm.trans hcuts
      exact (List.append_inj' (Option.some.inj hfields) rfl).2 |> List.singleton_inj.1
    rw [hsplits.createRecord_eq, or_iff_right hcount]
    rcases htype : L.last.type with - | - | -
    · rw [createRecordLoop_last_single htype]
      simp
    · rw [createRecordLoop_last_json htype]
      by_cases hbrace : s.head? = some '\x7b'
      · rw [if_neg (not_not.2 hbrace)]
        constructor
        · intro h
          rcases hparse : jsonParse s with e | map
          · rw [hparse] at h
            simp [Except.map] at h
          · rw [hparse] at h
            simp [Except.map] at h
        · rintro ⟨-, ss', s', h', hne⟩
          exact absurd hbrace (hsame ss' s' h' ▸ hne)
      · rw [if_pos hbrace]
        exact iff_of_true rfl ⟨rfl, ss, s, hsplits, hbrace⟩
    · exact absurd htype L.last_type

/-- A line is read to a record that gives each name its field. -/
theorem Splits.reads {value s : Text} {ss : List Text} (h : L.Splits value ss s) {v : Value J}
    (hv : L.Stores jsonParse s v) :
    ∃ r, createRecord jsonParse value L.fieldInfos = .ok (some r) ∧
      ∀ key, r.data key = (L.names.zip (ss.map .single ++ [v])).lookup key := by
  have hzip : L.names.zip (ss.map .single ++ [v]) =
      L.front.zip (ss.map .single) ++ [(L.last.fieldName, v)] := by
    rw [names, List.zip_append (by simp [h.length])]
    rfl
  have hnames : (L.names.zip (ss.map .single ++ [v])).map Prod.fst = L.names := by
    rw [List.map_fst_zip]
    simp [names, h.length]
  refine ⟨({} : Record J).putEntries (L.names.zip (ss.map .single ++ [v])), ?_, fun key => ?_⟩
  · rw [h.createRecord_eq, hzip, putEntries_append]
    rcases v with t | parts | map
    · rw [createRecordLoop_last_single hv.1, hv.2]
      rfl
    · exact hv.elim
    · rw [createRecordLoop_last_json hv.1, if_neg (not_not.2 hv.2.1), hv.2.2]
      rfl
  · have hnodup : ((L.names.zip (ss.map .single ++ [v])).map Prod.fst).Nodup := by
      rw [hnames]
      exact L.nodup
    rw [data_putEntries hnodup]
    simp

/-- A name finds the value in its place. -/
theorem map_lookup_zip {names : List Text} (h : names.Nodup) {vs : List (Value J)}
    (hlength : vs.length = names.length) :
    names.map (fun key => (names.zip vs).lookup key) = vs.map some := by
  induction names generalizing vs with
  | nil =>
    obtain rfl := List.length_eq_zero_iff.1 hlength
    rfl
  | cons name names ih =>
    obtain ⟨v, vs, rfl⟩ := List.exists_cons_of_length_eq_add_one hlength
    rw [List.nodup_cons] at h
    have hrest : names.map (fun key => ((name :: names).zip (v :: vs)).lookup key) =
        names.map fun key => (names.zip vs).lookup key := by
      refine List.map_congr_left fun key hkey => ?_
      have hne : key ≠ name := fun he => h.1 (he ▸ hkey)
      rw [List.zip_cons_cons, List.lookup_cons, (beq_eq_false_iff_ne).2 hne]
    rw [List.map_cons, hrest, ih h.2 (by simpa using hlength), List.zip_cons_cons,
      List.lookup_cons, beq_self_eq_true]
    rfl

/-- **`createRecord` and joining with backticks are inverse.** For every
layout: fields of which only the last may hold backticks, joined, are read
to a record that gives each name its field, a JSON one parsed; null is
returned exactly for lines with fewer backticks than the layout has fields
in front of the last, and for those whose JSON field does not begin with a
brace; and the strings of a record of single fields join to the line it was
read from. -/
theorem createRecord_inverts_join (jsonParse : Text → Except Java.Exception J) (L : Layout) :
    (∀ (ss : List Text) (s : Text) (v : Value J), ss.length = L.front.length →
        (∀ t ∈ ss, '`' ∉ t) → L.Stores jsonParse s v →
        ∃ r, createRecord jsonParse (['`'].intercalate (ss ++ [s])) L.fieldInfos =
            .ok (some r) ∧
          ∀ key, r.data key = (L.names.zip (ss.map .single ++ [v])).lookup key) ∧
      (∀ value, createRecord jsonParse value L.fieldInfos = .ok none ↔
        value.count '`' < L.front.length ∨
          (L.last.type = .json ∧ ∃ ss s, L.Splits value ss s ∧ s.head? ≠ some '\x7b')) ∧
      (L.last.type = .single → ∀ value r,
        createRecord jsonParse value L.fieldInfos = .ok (some r) →
        ∃ ts, L.names.map r.data = ts.map (fun t => some (.single t)) ∧
          ['`'].intercalate ts = value) := by
  refine ⟨fun ss s v hlength hfree hv => ?_, fun value => createRecord_eq_null_iff,
    fun hsingle value r hr => ?_⟩
  · have hsplits : L.Splits (['`'].intercalate (ss ++ [s])) ss s := ⟨hlength, hfree, rfl⟩
    exact hsplits.reads hv
  · rcases hcuts : Fields.cuts '`' L.front.length value with - | fields
    · rw [Layout.createRecord_eq, hcuts] at hr
      simp at hr
    · obtain ⟨ss, s, rfl, hsplits⟩ := exists_splits hcuts
      have hstores : L.Stores jsonParse s (.single s) := ⟨hsingle, rfl⟩
      obtain ⟨r', hr', hdata⟩ := hsplits.reads hstores
      obtain rfl := Option.some.inj (Except.ok.inj (hr.symm.trans hr'))
      have hlength : (ss.map Value.single ++ [Value.single s] : List (Value J)).length =
          L.names.length := by
        simp [names, hsplits.length]
      refine ⟨ss ++ [s], ?_, hsplits.join.symm⟩
      have hnodup : L.names.Nodup := L.nodup
      rw [funext hdata, map_lookup_zip hnodup hlength]
      simp

/-- Two single fields, and a last one of the type. -/
def sampleLayout (type : FieldType) (h : type ≠ .list) : Layout where
  front := [['a'], ['b']]
  last := ⟨type, ['f']⟩
  last_type := h
  nodup := by simp

/-- The JSON field may hold a backtick, and so may a single one at the end;
the JSON reader here takes every text for an object. -/
theorem createRecord_inverts_join_sampleLayout :
    (∃ r, createRecord (fun _ => .ok ()) "x``\x7b`\x7d".toList
        (sampleLayout .json (by decide)).fieldInfos = .ok (some r) ∧
        r.data ['b'] = some (.single []) ∧ r.data ['f'] = some (.json ())) ∧
      ∃ r, createRecord (fun _ => .ok ()) "x``y`z".toList
          (sampleLayout .single (by decide)).fieldInfos = .ok (some r) ∧
        ∃ ts, [['a'], ['b'], ['f']].map r.data = ts.map (fun t => some (.single t)) ∧
          ['`'].intercalate ts = "x``y`z".toList := by
  refine ⟨?_, _, rfl, (createRecord_inverts_join (fun _ => .ok ())
    (sampleLayout .single (by decide))).2.2 rfl "x``y`z".toList _ rfl⟩
  obtain ⟨r, hr, hdata⟩ := (createRecord_inverts_join (fun _ => .ok ())
    (sampleLayout .json (by decide))).1 [['x'], []] "\x7b`\x7d".toList (.json ()) rfl (by decide)
    ⟨rfl, rfl, rfl⟩
  exact ⟨r, hr, hdata ['b'], hdata ['f']⟩

end Layout

end Storm

end Xpod
