import Mathlib.Algebra.BigOperators.Group.Finset.Basic
import Mathlib.Algebra.BigOperators.Group.List.Basic
import Mathlib.Tactic
/-!
# Tables of counters

A table holds a counter for each key and is only ever added to. What a
counter holds is what it began with and the amounts that were added at
its key, so a question about a counter is one about the list of
increments.
-/

namespace Xpod

namespace Counters

variable {κ ν τ ι : Type*} [DecidableEq κ]

/-- The amounts added at key `k`, in order. -/
def amounts (k : κ) (increments : List (κ × ν)) : List ν :=
  (increments.filter fun i => i.1 = k).map Prod.snd

@[simp] theorem amounts_nil (k : κ) : amounts k ([] : List (κ × ν)) = [] := rfl

theorem amounts_cons (k : κ) (i : κ × ν) (is : List (κ × ν)) :
    amounts k (i :: is) = if i.1 = k then i.2 :: amounts k is else amounts k is := by
  by_cases h : i.1 = k <;> simp [amounts, h]

@[simp] theorem amounts_append (k : κ) (is js : List (κ × ν)) :
    amounts k (is ++ js) = amounts k is ++ amounts k js := by
  simp [amounts]

theorem amounts_flatMap (k : κ) (f : ι → List (κ × ν)) (xs : List ι) :
    amounts k (xs.flatMap f) = xs.flatMap fun x => amounts k (f x) := by
  simp [amounts, List.filter_flatMap, List.map_flatMap]

theorem sum_amounts_flatMap [AddCommMonoid ν] (k : κ) (f : ι → List (κ × ν)) (xs : List ι) :
    (amounts k (xs.flatMap f)).sum = (xs.map fun x => (amounts k (f x)).sum).sum := by
  induction xs with
  | nil => rfl
  | cons x xs ih => simp [ih]

theorem amounts_eq_nil {k : κ} {is : List (κ × ν)} (h : ∀ i ∈ is, i.1 ≠ k) :
    amounts k is = [] := by
  simpa [amounts] using fun a b hab hk => h (a, b) hab hk

/-- Keys that differ are each added to once at most. -/
theorem length_amounts_le_one {is : List (κ × ν)} (h : (is.map Prod.fst).Nodup) (k : κ) :
    (amounts k is).length ≤ 1 := by
  have hlen : (amounts k is).length = (is.map Prod.fst).count k := by
    induction is with
    | nil => rfl
    | cons i is ih =>
      have hrest := ih (List.nodup_cons.1 h).2
      by_cases hk : i.1 = k <;> simp [amounts_cons, hk, hrest]
  rw [hlen]
  exact List.nodup_iff_count_le_one.1 h k

/-- **A table that counts**: adding at a key changes the counter of that
key by the amount and no other. -/
structure Counts [AddCommMonoid ν] (add : τ → κ → ν → τ) (value : τ → κ → ν) : Prop where
  value_add : ∀ t k n k', value (add t k n) k' = if k = k' then value t k + n else value t k'

/-- **A counter holds the sum of what was added to it.** -/
theorem Counts.value_foldl [AddCommMonoid ν] {add : τ → κ → ν → τ} {value : τ → κ → ν}
    (h : Counts add value) (t : τ) (is : List (κ × ν)) (k : κ) :
    value (is.foldl (fun t i => add t i.1 i.2) t) k = value t k + (amounts k is).sum := by
  induction is generalizing t with
  | nil => simp
  | cons i is ih =>
    rw [List.foldl_cons, ih, h.value_add, amounts_cons]
    by_cases hk : i.1 = k
    · simp [hk, add_assoc]
    · simp [hk]

/-- **Balances add up**: where each of several batches adds at key `k` what
it adds at the keys `key j` together, so do they all. -/
theorem sum_amounts_balance [AddCommMonoid ν] {κ' : Type*} {k : κ} {s : Finset κ'}
    {key : κ' → κ} {batch : ι → List (κ × ν)} {xs : List ι}
    (h : ∀ x ∈ xs, (amounts k (batch x)).sum = ∑ j ∈ s, (amounts (key j) (batch x)).sum) :
    (amounts k (xs.flatMap batch)).sum = ∑ j ∈ s, (amounts (key j) (xs.flatMap batch)).sum := by
  induction xs with
  | nil => simp
  | cons x xs ih =>
    obtain ⟨hx, hxs⟩ := List.forall_mem_cons.1 h
    simp only [List.flatMap_cons, amounts_append, List.sum_append, Finset.sum_add_distrib, hx,
      ih hxs]

end Counters

end Xpod
