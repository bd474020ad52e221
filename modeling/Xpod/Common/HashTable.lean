import Mathlib.Data.List.Basic
import Mathlib.Data.List.Nodup
import Mathlib.Tactic
/-!
# Hash tables with an order of iteration

A table remembers its entries in the order of insertion. It is iterated
bucket by bucket, and within a bucket in that order or its reverse. Where
a key stands therefore depends on the keys the table holds and, among the
keys of one bucket, on when it came in.
-/

namespace Xpod

/-- How a table is laid out: the number of buckets and the bucket of a key,
for a table of `n` keys, and whether a bucket is iterated from its newest
key on. -/
structure Hashing (κ : Type*) where
  buckets : ℕ → ℕ
  index : ℕ → κ → ℕ
  index_lt : ∀ n k, index n k < buckets n
  reversed : Bool

/-- A table, with its entries in the order of insertion. -/
structure HashTable (κ ν : Type*) where
  entries : List (κ × ν)
  nodup : (entries.map Prod.fst).Nodup

namespace HashTable

variable {κ ν : Type*}

/-- The empty table. -/
def empty : HashTable κ ν := ⟨[], List.nodup_nil⟩

/-- The keys in the order of insertion. -/
def keys (t : HashTable κ ν) : List κ := t.entries.map Prod.fst

@[simp] theorem keys_empty : (empty : HashTable κ ν).keys = [] := rfl

theorem nodup_keys (t : HashTable κ ν) : t.keys.Nodup := t.nodup

/-- The number of keys. -/
def size (t : HashTable κ ν) : ℕ := t.entries.length

theorem length_keys (t : HashTable κ ν) : t.keys.length = t.size := List.length_map _

section Put

variable [DecidableEq κ]

/-- The value of a key. -/
def get (t : HashTable κ ν) (k : κ) : Option ν := t.entries.lookup k

/-- The entries after a value is put under a key: a key that is there
keeps its place. -/
def putEntries (entries : List (κ × ν)) (k : κ) (v : ν) : List (κ × ν) :=
  if k ∈ entries.map Prod.fst then entries.map fun e => if e.1 = k then (k, v) else e
  else entries ++ [(k, v)]

theorem keys_putEntries (entries : List (κ × ν)) (k : κ) (v : ν) :
    (putEntries entries k v).map Prod.fst =
      if k ∈ entries.map Prod.fst then entries.map Prod.fst else entries.map Prod.fst ++ [k] := by
  unfold putEntries
  split
  · rw [List.map_map]
    refine List.map_congr_left fun e _ => ?_
    simp only [Function.comp_apply]
    split
    · next h => exact h.symm
    · rfl
  · simp

/-- Put a value under a key. -/
def put (t : HashTable κ ν) (k : κ) (v : ν) : HashTable κ ν where
  entries := putEntries t.entries k v
  nodup := by
    rw [keys_putEntries]
    split
    · exact t.nodup
    · next h => exact List.nodup_append.2 ⟨t.nodup, by simp, by
        intro a ha b hb
        rw [List.mem_singleton.1 hb]
        rintro rfl
        exact h ha⟩

theorem keys_put (t : HashTable κ ν) (k : κ) (v : ν) :
    (t.put k v).keys = if k ∈ t.keys then t.keys else t.keys ++ [k] :=
  keys_putEntries t.entries k v

@[simp] theorem mem_keys_put {t : HashTable κ ν} {k k' : κ} {v : ν} :
    k' ∈ (t.put k v).keys ↔ k' ∈ t.keys ∨ k' = k := by
  rw [keys_put]
  split
  · next h =>
    constructor
    · exact Or.inl
    · rintro (h' | rfl)
      · exact h'
      · exact h
  · simp

end Put

/-! ## Iteration -/

variable (h : Hashing κ)

/-- The keys in the order they have within their buckets. -/
def ordered (t : HashTable κ ν) : List κ := if h.reversed then t.keys.reverse else t.keys

/-- The keys of a bucket. -/
def bucket (t : HashTable κ ν) (b : ℕ) : List κ := (t.ordered h).filter (h.index t.size · = b)

/-- **The keys, bucket by bucket.** -/
def keySet (t : HashTable κ ν) : List κ := (List.range (h.buckets t.size)).flatMap (t.bucket h)

variable {h} {t : HashTable κ ν} {k : κ}

theorem mem_ordered : k ∈ t.ordered h ↔ k ∈ t.keys := by
  unfold ordered
  split <;> simp

theorem mem_bucket {b : ℕ} : k ∈ t.bucket h b ↔ k ∈ t.keys ∧ h.index t.size k = b := by
  rw [bucket, List.mem_filter, mem_ordered, decide_eq_true_iff]

theorem mem_keySet : k ∈ t.keySet h ↔ k ∈ t.keys := by
  simp only [keySet, List.mem_flatMap, List.mem_range, mem_bucket]
  constructor
  · rintro ⟨b, -, hk, -⟩
    exact hk
  · intro hk
    exact ⟨_, h.index_lt _ _, hk, rfl⟩

/-- The key is in the lowest bucket that is not empty. -/
def Lowest (h : Hashing κ) (t : HashTable κ ν) (k : κ) : Prop :=
  k ∈ t.keys ∧ ∀ k' ∈ t.keys, h.index t.size k ≤ h.index t.size k'

/-- **The iteration begins with the first key of the lowest bucket.** -/
theorem lowest_of_head? (hk : (t.keySet h).head? = some k) :
    t.Lowest h k ∧ (t.bucket h (h.index t.size k)).head? = some k := by
  rw [keySet, List.head?_flatMap] at hk
  obtain ⟨l, b, l', hl, hhead, hbefore⟩ := List.findSome?_eq_some_iff.1 hk
  obtain ⟨hkeys, rfl⟩ := mem_bucket.1 (List.mem_of_mem_head? hhead)
  refine ⟨⟨hkeys, fun k' hk' => ?_⟩, hhead⟩
  by_contra hlt
  -- a bucket in front of it would not be empty
  have hmem : h.index t.size k' ∈ l := by
    have hsorted := List.pairwise_lt_range (n := h.buckets t.size)
    have hrange := List.mem_range.2 (h.index_lt t.size k')
    rw [hl] at hsorted hrange
    have hafter := (List.pairwise_cons.1 (List.pairwise_append.1 hsorted).2.1).1
    rcases List.mem_append.1 hrange with hin | hin
    · exact hin
    · rcases List.mem_cons.1 hin with heq | hin
      · omega
      · have := hafter _ hin
        omega
  have hnone := hbefore _ hmem
  rw [List.head?_eq_none_iff] at hnone
  exact List.ne_nil_of_mem (mem_bucket.2 ⟨hk', rfl⟩) hnone

/-- So it begins with a key of the lowest bucket that comes first among all
keys. -/
theorem head?_of_ordered (rest : List κ) (hrest : t.ordered h = k :: rest) (hk : t.Lowest h k) :
    (t.keySet h).head? = some k := by
  obtain ⟨k', hk'⟩ : ∃ k', (t.keySet h).head? = some k' := by
    rw [← Option.isSome_iff_exists, List.isSome_head?]
    exact List.ne_nil_of_mem (mem_keySet.2 hk.1)
  obtain ⟨hlow, hhead⟩ := lowest_of_head? hk'
  have hindex : h.index t.size k' = h.index t.size k :=
    le_antisymm (hlow.2 k hk.1) (hk.2 k' hlow.1)
  rw [hindex, bucket, hrest, List.filter_cons_of_pos (by simp), List.head?_cons] at hhead
  rw [hk', ← hhead]

theorem keySet_eq_nil : t.keySet h = [] ↔ t.keys = [] := by
  simp only [List.eq_nil_iff_forall_not_mem, mem_keySet]

end HashTable

end Xpod
