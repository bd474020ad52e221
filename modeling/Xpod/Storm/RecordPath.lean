import Mathlib.Data.List.Basic
import Mathlib.Tactic
import Xpod.Common.Java
import Xpod.Storm.Model.RecordPath
/-!
# What a dotted key finds

A key of two parts finds what its second part finds behind its first: the
loop of `getValue` keeps nothing but the value it has come to.

Asked for a list, a dotted key stands for the values at a path: a map leads
to its member, a list to the members of its maps, spliced together. The
answer is null when there are none, a list as it is, and any other value as
a list of one.

`getListValue` answers so only on some records. It throws where a path
ends in anything but a list, also where the last member is absent, and
where a list that begins with a map holds something else; and it gives up
on a list that begins with something else.
-/

namespace Xpod

namespace Storm

namespace JsonTree

variable {σ : Type}

/-! ## What a path asks for -/

/-- The values a member contributes to the list of a flattened step. -/
def values : JsonTree σ → List (JsonTree σ)
  | .null => []
  | .list elements => elements
  | t => [t]

/-- The member's values of one element; what is no map has no members. -/
def valuesAt (name : Text) : JsonTree σ → List (JsonTree σ)
  | .map entries => (get entries name).values
  | _ => []

/-- Null when there are no values. -/
def ofValues (ts : List (JsonTree σ)) : JsonTree σ := if ts.isEmpty then .null else .list ts

/-- **One step of a path**: the member of a map, or the values of the
member in every map of a list, in order. -/
def member (t : JsonTree σ) (name : Text) : JsonTree σ :=
  match t with
  | .map entries => get entries name
  | .list elements => ofValues (elements.flatMap (valuesAt name))
  | _ => .null

/-- The value at a path. -/
def query (names : List Text) (t : JsonTree σ) : JsonTree σ := names.foldl member t

/-- The answer for a value: null, a list itself, or a list of one. -/
def answer : JsonTree σ → Option (List (JsonTree σ))
  | .null => none
  | .list elements => some elements
  | t => some [t]

@[simp] theorem query_cons (name : Text) (names : List Text) (t : JsonTree σ) :
    query (name :: names) t = query names (t.member name) := rfl

@[simp] theorem query_null (names : List Text) : query names (.null : JsonTree σ) = .null := by
  induction names with
  | nil => rfl
  | cons name names ih => exact ih

theorem answer_eq_none {t : JsonTree σ} : t.answer = none ↔ t = .null := by
  cases t <;> simp [answer]

end JsonTree

namespace JsonRecord

open JsonTree

variable {σ : Type}

/-- **The flattening query**: what a dotted key should give. Nothing is
found for a key without a name. -/
def flatten (data : Text → JsonTree σ) (key : Text) : Option (List (JsonTree σ)) :=
  match segments key with
  | [] => none
  | name :: names => (query names (data name)).answer

/-! ## The names of a key -/

/-- **The names are cut off one by one at the first dot**, as the loops do
with `indexOf` and `substring`. -/
theorem segments_of_cut {key name rest : Text} (h : Java.cutAt '.' key = some (name, rest)) :
    segments key = name :: segments rest := by
  obtain ⟨rfl, hname⟩ := Java.cutAt_eq_some.1 h
  clear h
  induction name with
  | nil => simp [segments]
  | cons c name ih =>
    rw [List.mem_cons, not_or] at hname
    rw [List.cons_append, segments, if_neg (Ne.symm hname.1), ih hname.2]

/-- Without a dot the key is one name. -/
theorem segments_of_no_dot {key : Text} (hne : key ≠ []) (h : '.' ∉ key) :
    segments key = [key] := by
  induction key with
  | nil => exact absurd rfl hne
  | cons c key ih =>
    rw [List.mem_cons, not_or] at h
    rw [segments, if_neg (Ne.symm h.1)]
    rcases key with - | ⟨d, key⟩
    · rfl
    · rw [ih (by simp) h.2]

/-- **A key**: names that are not empty, with a dot between each two. -/
def IsKey (key : Text) : Prop := ∀ name ∈ key.splitOn '.', name ≠ []

instance decidableIsKey (key : Text) : Decidable (IsKey key) :=
  inferInstanceAs (Decidable (∀ name ∈ key.splitOn '.', name ≠ []))

theorem IsKey.ne_nil {key : Text} (h : IsKey key) : key ≠ [] := by
  rintro rfl
  exact h [] (by simp) rfl

theorem IsKey.getLast?_ne {key : Text} (h : IsKey key) : key.getLast? ≠ some '.' := by
  intro hlast
  obtain ⟨front, rfl⟩ := List.getLast?_eq_some_iff.1 hlast
  refine h [] ?_ rfl
  rw [List.splitOn, List.splitOnP_append_cons front [] (by simp)]
  simp

theorem segments_ne_nil {key : Text} (h : key ≠ []) : segments key ≠ [] := by
  obtain ⟨c, key, rfl⟩ := List.exists_cons_of_ne_nil h
  rw [segments]
  split
  · simp
  · split <;> simp

/-- The names of two keys with a dot between them. Behind a dot at the end
of the first one there would be one more, the empty name. -/
theorem segments_append {p : Text} (hne : p ≠ []) (hlast : p.getLast? ≠ some '.') (q : Text) :
    segments (p ++ '.' :: q) = segments p ++ segments q := by
  induction p with
  | nil => exact absurd rfl hne
  | cons c p ih =>
    rcases p with - | ⟨d, p⟩
    · have hc : c ≠ '.' := by simpa using hlast
      simp [segments, hc]
    · have hrest : segments (d :: p ++ '.' :: q) = segments (d :: p) ++ segments q :=
        ih (by simp) (by rwa [List.getLast?_cons_cons] at hlast)
      obtain ⟨name, names, hnames⟩ :=
        List.exists_cons_of_ne_nil (segments_ne_nil (List.cons_ne_nil d p))
      rw [List.cons_append, segments, segments, hrest, hnames]
      split <;> rfl

/-! ## One value -/

theorem valueLoop_null (names : List Text) : valueLoop names (.null : JsonTree σ) = .null := by
  cases names <;> rfl

/-- **The loop goes on from the value it has come to.** -/
theorem valueLoop_append (names names' : List Text) (t : JsonTree σ) :
    valueLoop (names ++ names') t = valueLoop names' (valueLoop names t) := by
  induction names generalizing t with
  | nil => rfl
  | cons name names ih =>
    rw [List.cons_append, valueLoop, valueLoop]
    rcases valueStep t name with - | t'
    · exact (valueLoop_null names').symm
    · exact ih t'

/-- Two keys with a dot between them: the second one is looked up behind
the value the first one finds. -/
theorem getObject_append (r : JsonRecord σ) {p : Text} (hp : IsKey p) (q : Text) :
    r.getObject (p ++ '.' :: q) = (r.getObject p).map (valueLoop (segments q)) := by
  obtain ⟨name, names, hnames⟩ := List.exists_cons_of_ne_nil (segments_ne_nil hp.ne_nil)
  rw [getObject, getObject, segments_append hp.ne_nil hp.getLast?_ne, hnames, List.cons_append]
  simp only [valueLoop_append]
  rcases r.get name <;> rfl

/-- A key looked up in a map, as in a record of that map. -/
theorem getObject_map (entries : List (Text × JsonTree σ)) {q : Text} (hq : IsKey q) :
    getObject ⟨some (JsonTree.get entries)⟩ q =
      .ok (valueLoop (segments q) (.map entries)) := by
  obtain ⟨name, names, hnames⟩ := List.exists_cons_of_ne_nil (segments_ne_nil hq.ne_nil)
  rw [getObject, hnames]
  rfl

/-- **A dotted lookup composes.** For every record and every two keys, the
key of both with a dot between them finds: where the first one finds a
map, what the second finds in the record of that map; where it finds null
or a scalar, null; where it finds a list that begins with a map, what the
second finds in that map. -/
theorem getObject_composes (r : JsonRecord σ) (p q : Text) (hp : IsKey p) (hq : IsKey q) :
    (∀ entries, r.getObject p = .ok (.map entries) →
        ∃ log, r.getLog p = .ok (some log) ∧ r.getObject (p ++ '.' :: q) = log.getObject q) ∧
      ((r.getObject p = .ok .null ∨ ∃ s, r.getObject p = .ok (.scalar s)) →
        r.getObject (p ++ '.' :: q) = .ok .null) ∧
      ∀ entries elements, r.getObject p = .ok (.list (.map entries :: elements)) →
        r.getObject (p ++ '.' :: q) = getObject ⟨some (JsonTree.get entries)⟩ q := by
  obtain ⟨name, names, hnames⟩ := List.exists_cons_of_ne_nil (segments_ne_nil hq.ne_nil)
  rw [getObject_append r hp]
  refine ⟨fun entries h => ?_, fun h => ?_, fun entries elements h => ?_⟩
  · refine ⟨⟨some (JsonTree.get entries)⟩, ?_, ?_⟩
    · rw [getLog, h]
      rfl
    · rw [getObject_map entries hq, h]
      rfl
  · rcases h with h | ⟨s, h⟩
    · rw [h, Except.map, valueLoop_null]
    · rw [h, hnames]
      rfl
  · rw [getObject_map entries hq, h, hnames]
    rfl

/-- A record with one field `a`, as JSON. -/
def sampleField (t : JsonTree σ) : Text → JsonTree σ :=
  JsonTree.get [(['a'], .map [(['b'], t)])]

theorem getObject_composes_sampleField :
    (∃ log, getLog ⟨some (sampleField (.scalar 7 : JsonTree ℕ))⟩ "a".toList = .ok (some log) ∧
        getObject ⟨some (sampleField (.scalar 7 : JsonTree ℕ))⟩ "a.b".toList =
          log.getObject "b".toList) ∧
      getObject ⟨some (sampleField (.scalar 7 : JsonTree ℕ))⟩ "a.b.c".toList = .ok .null ∧
      getObject ⟨some (sampleField (.list [.map [(['c'], .scalar 7)]] : JsonTree ℕ))⟩
        "a.b.c".toList = getObject ⟨some (JsonTree.get [(['c'], .scalar 7)])⟩ "c".toList :=
  ⟨(getObject_composes _ "a".toList "b".toList (by decide) (by decide)).1 _ rfl,
    (getObject_composes _ "a.b".toList "c".toList (by decide) (by decide)).2.1 (Or.inr ⟨7, rfl⟩),
    (getObject_composes _ "a.b".toList "c".toList (by decide) (by decide)).2.2 _ [] rfl⟩

/-! ## Where the query answers -/

/-- **The record answers the query at the rest of a path.** At its end
stands a list. Before its end a value with no members ends the query. A
list is stepped through if it holds maps only; of one that begins with
something else the maps must lead nowhere. -/
def Answers : List Text → JsonTree σ → Prop
  | [], .list _ => True
  | [], _ => False
  | name :: names, .map entries => Answers names (JsonTree.get entries name)
  | name :: names, .list (.map entries :: elements) =>
    (∀ t ∈ elements, t.isMap = true) ∧
      Answers names (member (.list (.map entries :: elements)) name)
  | name :: names, .list elements => query (name :: names) (.list elements) = .null
  | _ :: _, .null => True
  | _ :: _, .scalar _ => True

theorem flatMap_cons_map (name : Text) (entries : List (Text × JsonTree σ))
    (elements : List (JsonTree σ)) :
    (.map entries :: elements).flatMap (valuesAt name) =
      (JsonTree.get entries name).values ++ elements.flatMap (valuesAt name) := rfl

/-- A list of maps is collected: the member's values are spliced. -/
theorem collect_of_maps (name : Text) {elements : List (JsonTree σ)}
    (h : ∀ t ∈ elements, t.isMap = true) :
    collect name elements = .ok (elements.flatMap (valuesAt name)) := by
  induction elements with
  | nil => rfl
  | cons t elements ih =>
    obtain ⟨ht, hrest⟩ := List.forall_mem_cons.1 h
    cases t with
    | map entries =>
      rw [collect, ih hrest, Java.ok_bind, flatMap_cons_map]
      rcases JsonTree.get entries name with - | s | l | m <;> rfl
    | null => simp [isMap] at ht
    | scalar s => simp [isMap] at ht
    | list l => simp [isMap] at ht

/-- A list with anything else in it is not. -/
theorem collect_of_not_maps (name : Text) (elements : List (JsonTree σ))
    (h : ¬ ∀ t ∈ elements, t.isMap = true) : ∃ e, collect name elements = .error e := by
  induction elements with
  | nil => simp at h
  | cons t elements ih =>
    cases t with
    | map entries =>
      have hrest : ¬ ∀ t ∈ elements, t.isMap = true := fun hall =>
        h (List.forall_mem_cons.2 ⟨rfl, hall⟩)
      obtain ⟨e, he⟩ := ih hrest
      exact ⟨e, by rw [collect, he, Java.error_bind]⟩
    | null => exact ⟨_, rfl⟩
    | scalar s => exact ⟨_, rfl⟩
    | list l => exact ⟨_, rfl⟩

/-- `getListValue` from the second name on. -/
def listFrom (names : List Text) (ret : JsonTree σ) :
    Except Java.Exception (Option (List (JsonTree σ))) := do
  match ← listLoop names ret with
  | none => return none
  | some ret => asList ret

theorem listFrom_cons_of_some {name : Text} {names : List Text} {t t' : JsonTree σ}
    (h : listStep t name = .ok (some t')) : listFrom (name :: names) t = listFrom names t' := by
  rw [listFrom, listLoop, h]
  rfl

theorem listFrom_cons_of_none {name : Text} {names : List Text} {t : JsonTree σ}
    (h : listStep t name = .ok none) : listFrom (name :: names) t = .ok none := by
  rw [listFrom, listLoop, h]
  rfl

/-- A list that begins with no map ends the method, so the query must find
nothing in it. -/
theorem listFrom_gives_up_iff {name : Text} {names : List Text} {t : JsonTree σ}
    (h : listStep t name = .ok none) :
    listFrom (name :: names) t = .ok (query (name :: names) t).answer ↔
      query (name :: names) t = .null := by
  rw [listFrom_cons_of_none h, Except.ok.injEq, eq_comm, answer_eq_none]

/-- **From the second name on**: the method gives the answer of the query
exactly where the record answers. -/
theorem listFrom_eq_iff (names : List Text) (t : JsonTree σ) :
    listFrom names t = .ok (query names t).answer ↔ Answers names t := by
  induction names generalizing t with
  | nil =>
    change asList t = .ok t.answer ↔ _
    cases t <;> simp [asList, answer, Answers]
  | cons name names ih =>
    cases t with
    | null =>
      rw [listFrom_gives_up_iff rfl, Answers]
      exact iff_true_intro (query_null names)
    | scalar s =>
      rw [listFrom_gives_up_iff rfl, Answers]
      exact iff_true_intro (query_null names)
    | map entries =>
      rw [listFrom_cons_of_some (t := .map entries) rfl]
      exact ih _
    | list elements =>
      rcases elements with - | ⟨(- | s | l | entries), elements⟩
      · rw [listFrom_gives_up_iff rfl, Answers]
        simp
      · rw [listFrom_gives_up_iff rfl, Answers]
        simp
      · rw [listFrom_gives_up_iff rfl, Answers]
        simp
      · rw [listFrom_gives_up_iff rfl, Answers]
        simp
      · rw [Answers]
        by_cases hmaps : ∀ t ∈ elements, t.isMap = true
        · have hcollect := collect_of_maps name (List.forall_mem_cons.2
            ⟨(rfl : (JsonTree.map entries).isMap = true), hmaps⟩)
          have hstep : listStep (.list (.map entries :: elements)) name =
              .ok (some (member (.list (.map entries :: elements)) name)) := by
            rw [listStep, hcollect]
            rfl
          rw [listFrom_cons_of_some hstep, query_cons, ih]
          exact (and_iff_right hmaps).symm
        · -- the cast of the loop variable fails
          obtain ⟨e, he⟩ := collect_of_not_maps name (.map entries :: elements)
            fun hall => hmaps (List.forall_mem_cons.1 hall).2
          have hthrow : listFrom (name :: names) (.list (.map entries :: elements)) =
              .error e := by
            rw [listFrom, listLoop, listStep, he]
            rfl
          rw [hthrow]
          simp [hmaps]

/-- The record answers the query of a key: the key has a name, and the
record's value answers the rest. -/
def AnswersKey (data : Text → JsonTree σ) (key : Text) : Prop :=
  match segments key with
  | [] => False
  | name :: names => Answers names (data name)

/-- **When `getObjectList` is the flattening query.** For every record of
JSON trees and every dotted key, the method returns what the query asks
for if and only if the record answers it: the path ends in a list, or is
left before its end at a value without members; every list on the way that
begins with a map holds maps only; and in a list that begins with
something else the rest of the path finds nothing. -/
theorem getObjectList_flattens_iff (data : Text → JsonTree σ) (key : Text) :
    getObjectList ⟨some data⟩ key = .ok (flatten data key) ↔ AnswersKey data key := by
  unfold getObjectList flatten AnswersKey
  rcases segments key with - | ⟨name, names⟩
  · simp [asList]
  · exact listFrom_eq_iff names (data name)

/-- **A member that is absent, a member that is no list, and a list of
mixed elements** each make the method throw. -/
theorem getObjectList_throws_sampleField :
    (getObjectList ⟨some (sampleField (.null : JsonTree ℕ))⟩ "a.b".toList =
        .error .classCast ∧ flatten (sampleField (.null : JsonTree ℕ)) "a.b".toList = none) ∧
      (getObjectList ⟨some (sampleField (.scalar 1 : JsonTree ℕ))⟩ "a.b".toList =
        .error .classCast ∧
        flatten (sampleField (.scalar 1 : JsonTree ℕ)) "a.b".toList = some [.scalar 1]) ∧
      getObjectList ⟨some (sampleField (.list [.map [], .scalar 1] : JsonTree ℕ))⟩
        "a.b.c".toList = .error .classCast ∧
        flatten (sampleField (.list [.map [], .scalar 1] : JsonTree ℕ)) "a.b.c".toList = none := by
  exact ⟨⟨rfl, rfl⟩, ⟨rfl, rfl⟩, rfl, rfl⟩

end JsonRecord

end Storm

end Xpod
