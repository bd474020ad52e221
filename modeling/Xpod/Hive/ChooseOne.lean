import Mathlib.Data.Finset.Dedup
import Mathlib.Data.Multiset.Filter
import Mathlib.Tactic
import Xpod.Common.HashTable
import Xpod.Hive.Model.ChooseOne
/-!
# When the choice does not depend on the run

However the rows are spread over evaluators, the map of the last one holds
the same keys, so it has the same buckets, and the key returned is of the
lowest bucket in use. Within a bucket the order of arrival decides: any
key of the lowest bucket is returned by some run.
-/

namespace Xpod

namespace Hive

namespace ChooseOne

variable {h : Hashing String}

/-! ## The keys of a run -/

theorem mem_keys_foldl_addCount {other mapCount : HashTable String (BitVec 64)} {ks : List String}
    {k : String} :
    k ∈ (ks.foldl (addCount other) mapCount).keys ↔ k ∈ mapCount.keys ∨ k ∈ ks := by
  induction ks generalizing mapCount with
  | nil => simp
  | cons k' ks ih =>
    rw [List.foldl_cons, ih, addCount, HashTable.mem_keys_put, List.mem_cons, or_assoc]

/-- A row adds the key it counts for. -/
theorem mem_keys_iterate {state : State} {row : Row} {k : String} :
    k ∈ (iterate state row).mapCount.keys ↔
      k ∈ state.mapCount.keys ∨ row.counted = some k := by
  unfold iterate
  rcases row.counted with - | key
  · simp
  · simp [eq_comm]

/-- A partial result adds its keys. -/
theorem mem_keys_merge {state other : State} {k : String} :
    k ∈ (merge h state (terminatePartial other)).mapCount.keys ↔
      k ∈ state.mapCount.keys ∨ k ∈ other.mapCount.keys := by
  unfold terminatePartial
  split
  · next hsize =>
    rw [← HashTable.length_keys, List.length_eq_zero_iff] at hsize
    simp [merge, hsize]
  · simp [merge, mem_keys_foldl_addCount, HashTable.mem_keySet]

/-- **The keys of a run are those its rows count for.** -/
theorem Evaluation.mem_keys (e : Evaluation) {k : String} :
    k ∈ (e.state h).mapCount.keys ↔ ∃ row ∈ e.rows, row.counted = some k := by
  induction e with
  | init => simp [Evaluation.state, State.init, Evaluation.rows]
  | iterate e row ih =>
    rw [Evaluation.state, mem_keys_iterate, ih, Evaluation.rows]
    simp only [List.mem_append, List.mem_singleton, or_and_right, exists_or, exists_eq_left]
  | merge e other ih ih' =>
    rw [Evaluation.state, mem_keys_merge, ih, ih', Evaluation.rows]
    simp only [List.mem_append, or_and_right, exists_or]

/-- The keys the rows count for. -/
def countedKeys (rows : Multiset Row) : Finset String := (rows.filterMap Row.counted).toFinset

theorem mem_countedKeys {rows : Multiset Row} {k : String} :
    k ∈ countedKeys rows ↔ ∃ row ∈ rows, row.counted = some k := by
  simp [countedKeys]

section Run

variable {e : Evaluation} {rows : Multiset Row} {k : String}

theorem Evaluation.mem_keys_iff (he : (e.rows : Multiset Row) = rows) :
    k ∈ (e.state h).mapCount.keys ↔ k ∈ countedKeys rows := by
  rw [e.mem_keys, mem_countedKeys, ← he]
  rfl

/-- So is their number, and with it the layout of the table. -/
theorem Evaluation.size_eq (he : (e.rows : Multiset Row) = rows) :
    (e.state h).mapCount.size = (countedKeys rows).card := by
  rw [← HashTable.length_keys, ← List.toFinset_card_of_nodup (e.state h).mapCount.nodup_keys]
  congr 1
  ext k
  rw [List.mem_toFinset]
  exact Evaluation.mem_keys_iff he

/-- **A key that may be returned**: one that counts, in the lowest bucket
that such a key is in. -/
def Eligible (h : Hashing String) (rows : Multiset Row) (k : String) : Prop :=
  k ∈ countedKeys rows ∧ ∀ k' ∈ countedKeys rows,
    h.index (countedKeys rows).card k ≤ h.index (countedKeys rows).card k'

theorem Evaluation.lowest_iff (he : (e.rows : Multiset Row) = rows) :
    (e.state h).mapCount.Lowest h k ↔ Eligible h rows k := by
  simp only [HashTable.Lowest, Eligible, Evaluation.mem_keys_iff he, Evaluation.size_eq he]

/-- **A run returns a key that may be returned**, or null when no row
counts. -/
theorem Evaluation.result_cases (he : (e.rows : Multiset Row) = rows) :
    (countedKeys rows = ∅ ∧ e.result h = none) ∨ ∃ k, Eligible h rows k ∧ e.result h = some k := by
  rcases hresult : e.result h with - | k
  · refine .inl ⟨?_, rfl⟩
    rw [Evaluation.result, terminate, List.head?_eq_none_iff, HashTable.keySet_eq_nil] at hresult
    refine Finset.eq_empty_of_forall_notMem fun k hk => ?_
    rw [← Evaluation.mem_keys_iff (h := h) he, hresult] at hk
    simp at hk
  · exact .inr ⟨k, (Evaluation.lowest_iff he).1 (HashTable.lowest_of_head? hresult).1, rfl⟩

end Run

/-! ## Every such key is returned by a run -/

section OfRows

variable {state : State} {row : Row} {rows : List Row} {k : String}

theorem keys_iterate_of_none (hrow : row.counted = none) : iterate state row = state := by
  rw [iterate, hrow]

theorem keys_iterate_of_mem (hrow : row.counted = some k) (hk : k ∈ state.mapCount.keys) :
    (iterate state row).mapCount.keys = state.mapCount.keys := by
  simp only [iterate, hrow]
  rw [HashTable.keys_put, if_pos hk]

theorem keys_iterate_of_not_mem (hrow : row.counted = some k) (hk : k ∉ state.mapCount.keys) :
    (iterate state row).mapCount.keys = state.mapCount.keys ++ [k] := by
  simp only [iterate, hrow]
  rw [HashTable.keys_put, if_neg hk]

/-- Rows add keys behind those there are. -/
theorem prefix_keys_foldl_iterate (state : State) (rows : List Row) :
    state.mapCount.keys <+: (rows.foldl iterate state).mapCount.keys := by
  induction rows generalizing state with
  | nil => exact List.prefix_rfl
  | cons row rows ih =>
    refine List.IsPrefix.trans ?_ (ih (iterate state row))
    rcases hrow : row.counted with - | k
    · rw [keys_iterate_of_none hrow]
    · by_cases hk : k ∈ state.mapCount.keys
      · rw [keys_iterate_of_mem hrow hk]
      · rw [keys_iterate_of_not_mem hrow hk]
        exact List.prefix_append _ _

/-- More rows for a key that is there add no key. -/
theorem keys_foldl_iterate_of_mem (hk : k ∈ state.mapCount.keys)
    (hrows : ∀ row ∈ rows, row.counted = some k) :
    (rows.foldl iterate state).mapCount.keys = state.mapCount.keys := by
  induction rows generalizing state with
  | nil => rfl
  | cons row rows ih =>
    obtain ⟨hrow, hrows⟩ := List.forall_mem_cons.1 hrows
    have hkeys := keys_iterate_of_mem hrow hk
    rw [List.foldl_cons, ih (hkeys ▸ hk) hrows, hkeys]

/-- An evaluator that sees these rows itself. -/
def Evaluation.ofRows (rows : List Row) : Evaluation := rows.foldl Evaluation.iterate .init

theorem Evaluation.rows_foldl (e : Evaluation) (rows : List Row) :
    (rows.foldl Evaluation.iterate e).rows = e.rows ++ rows := by
  induction rows generalizing e with
  | nil => simp
  | cons row rows ih => simp [ih, Evaluation.rows]

@[simp] theorem Evaluation.rows_ofRows (rows : List Row) : (ofRows rows).rows = rows :=
  rows_foldl .init rows

theorem Evaluation.state_foldl (e : Evaluation) (rows : List Row) :
    (rows.foldl Evaluation.iterate e).state h = rows.foldl ChooseOne.iterate (e.state h) := by
  induction rows generalizing e with
  | nil => rfl
  | cons row rows ih => exact ih _

theorem Evaluation.state_ofRows (rows : List Row) :
    (ofRows rows).state h = rows.foldl ChooseOne.iterate State.init :=
  state_foldl .init rows

/-- The key of the first row comes first. -/
theorem keys_ofRows_cons (rows : List Row) (hrow : row.counted = some k) :
    ∃ rest, ((Evaluation.ofRows (row :: rows)).state h).mapCount.keys = k :: rest := by
  have hfirst : (iterate State.init row).mapCount.keys = [k] :=
    keys_iterate_of_not_mem hrow (by simp [State.init])
  obtain ⟨rest, hrest⟩ := prefix_keys_foldl_iterate (iterate State.init row) rows
  refine ⟨rest, ?_⟩
  rw [Evaluation.state_ofRows, List.foldl_cons, ← hrest, hfirst]
  rfl

/-- A key whose rows come last comes last. -/
theorem keys_ofRows_append {others : List Row} (hothers : ∀ row ∈ others, row.counted ≠ some k)
    (hrow : row.counted = some k) (hrows : ∀ row ∈ rows, row.counted = some k) :
    ∃ front, ((Evaluation.ofRows (others ++ row :: rows)).state h).mapCount.keys =
      front ++ [k] := by
  have hnew : k ∉ (others.foldl iterate State.init).mapCount.keys := by
    rw [← Evaluation.state_ofRows (h := h), Evaluation.mem_keys, Evaluation.rows_ofRows]
    rintro ⟨row, hmem, hcounted⟩
    exact hothers row hmem hcounted
  have hlast := keys_iterate_of_not_mem hrow hnew
  refine ⟨(others.foldl iterate State.init).mapCount.keys, ?_⟩
  rw [Evaluation.state_ofRows, List.foldl_append, List.foldl_cons,
    keys_foldl_iterate_of_mem (by rw [hlast]; simp) hrows, hlast]

end OfRows

/-- **Every key that may be returned is returned by some run**: one whose
rows come first, or last when buckets are iterated in reverse. -/
theorem exists_result {rows : Multiset Row} {k : String} (hk : Eligible h rows k) :
    ∃ e : Evaluation, (e.rows : Multiset Row) = rows ∧ e.result h = some k := by
  obtain ⟨row, hmem, hrow⟩ := mem_countedKeys.1 hk.1
  cases hrev : h.reversed with
  | false =>
    obtain ⟨others, rfl⟩ := Multiset.exists_cons_of_mem hmem
    have he : ((Evaluation.ofRows (row :: others.toList)).rows : Multiset Row) =
        row ::ₘ others := by
      simp [← Multiset.cons_coe]
    obtain ⟨rest, hkeys⟩ := keys_ofRows_cons (h := h) others.toList hrow
    refine ⟨_, he, HashTable.head?_of_ordered rest ?_ ((Evaluation.lowest_iff he).2 hk)⟩
    rw [HashTable.ordered, hrev, hkeys]
    rfl
  | true =>
    have hmine : row ∈ rows.filter (fun row => row.counted = some k) :=
      Multiset.mem_filter.2 ⟨hmem, hrow⟩
    obtain ⟨mine, hcons⟩ := Multiset.exists_cons_of_mem hmine
    have hrows : ∀ row ∈ mine.toList, row.counted = some k := by
      intro row' hrow'
      have hcounts : row' ∈ row ::ₘ mine :=
        Multiset.mem_cons_of_mem (Multiset.mem_toList.1 hrow')
      rw [← hcons] at hcounts
      exact (Multiset.mem_filter.1 hcounts).2
    have hothers : ∀ row ∈ (rows.filter fun row => ¬ row.counted = some k).toList,
        row.counted ≠ some k := fun row' hrow' =>
      (Multiset.mem_filter.1 (Multiset.mem_toList.1 hrow')).2
    have he : ((Evaluation.ofRows ((rows.filter fun row => ¬ row.counted = some k).toList ++
        row :: mine.toList)).rows : Multiset Row) = rows := by
      rw [Evaluation.rows_ofRows, ← Multiset.coe_add, ← Multiset.cons_coe, Multiset.coe_toList,
        Multiset.coe_toList, ← hcons, add_comm, Multiset.filter_add_not]
    obtain ⟨front, hkeys⟩ := keys_ofRows_append (h := h) hothers hrow hrows
    refine ⟨_, he, HashTable.head?_of_ordered front.reverse ?_
      ((Evaluation.lowest_iff he).2 hk)⟩
    rw [HashTable.ordered, hrev, hkeys]
    simp

/-- **When the choice does not depend on the run.** For every layout of the
hash map and every multiset of rows: all ways to spread the rows over
evaluators and to order the merges return the same, if and only if one key
at most may be returned, that is, no two keys that count share the lowest
bucket in use. -/
theorem result_independent_iff (h : Hashing String) (rows : Multiset Row) :
    (∀ e₁ e₂ : Evaluation, (e₁.rows : Multiset Row) = rows → (e₂.rows : Multiset Row) = rows →
        e₁.result h = e₂.result h) ↔
      ∀ k₁ k₂, Eligible h rows k₁ → Eligible h rows k₂ → k₁ = k₂ := by
  constructor
  · intro hsame k₁ k₂ hk₁ hk₂
    obtain ⟨e₁, he₁, hresult₁⟩ := exists_result hk₁
    obtain ⟨e₂, he₂, hresult₂⟩ := exists_result hk₂
    have := hsame e₁ e₂ he₁ he₂
    rw [hresult₁, hresult₂] at this
    exact Option.some.inj this
  · intro hone e₁ e₂ he₁ he₂
    rcases Evaluation.result_cases (h := h) he₁ with ⟨hnone, hresult₁⟩ | ⟨k₁, hk₁, hresult₁⟩
    · rcases Evaluation.result_cases (h := h) he₂ with ⟨-, hresult₂⟩ | ⟨k₂, hk₂, -⟩
      · rw [hresult₁, hresult₂]
      · rw [Eligible, hnone] at hk₂
        simp at hk₂
    · rcases Evaluation.result_cases (h := h) he₂ with ⟨hnone, -⟩ | ⟨k₂, hk₂, hresult₂⟩
      · rw [Eligible, hnone] at hk₁
        simp at hk₁
      · rw [hresult₁, hresult₂, hone k₁ k₂ hk₁ hk₂]

/-- `String.hashCode` -/
def hashCode (s : String) : ℕ :=
  s.toList.foldl (fun hash c => (31 * hash + c.toNat) % 2 ^ 32) 0

/-- The layout of `HashMap` up to the twelfth key: sixteen buckets, new keys
at the end of theirs. -/
def sampleHashing : Hashing String where
  buckets _ := 16
  index _ k := (hashCode k ^^^ (hashCode k >>> 16)) % 16
  index_lt _ _ := Nat.mod_lt _ (by decide)
  reversed := false

/-- Two partial results, each of one row, merged in order. -/
def sampleMerge (first second : String) : Evaluation :=
  .merge (.merge .init (.iterate .init ⟨some first, some "mid"⟩))
    (.iterate .init ⟨some second, some "mid"⟩)

/-- **Two keys with the same hash code**: the order of the merges decides. -/
theorem result_depends_on_merge_order :
    (((sampleMerge "Aa" "BB").rows : Multiset Row) = (sampleMerge "BB" "Aa").rows) ∧
      (sampleMerge "Aa" "BB").result sampleHashing = some "Aa" ∧
      (sampleMerge "BB" "Aa").result sampleHashing = some "BB" := by
  refine ⟨?_, by rfl, by rfl⟩
  exact Multiset.coe_eq_coe.2 (List.Perm.swap _ _ [])

end ChooseOne

end Hive

end Xpod
