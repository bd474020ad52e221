import Mathlib.Algebra.BigOperators.Group.List.Basic
import Mathlib.Tactic
/-!
# What lists of slots hold

Things are kept in slots, and a slot has a weight: how often one thing is
in it, how many it holds, how large they are. A question about where all
things are is one about the total, for every weight at once, and the
total is what it was but for the slot that changed.
-/

namespace Xpod

namespace Weights

variable {α β : Type*} (w : α → ℕ)

/-- The weights of the slots together. -/
def total (l : List α) : ℕ := (l.map w).sum

@[simp] theorem total_nil : total w [] = 0 := rfl

@[simp] theorem total_cons (a : α) (l : List α) : total w (a :: l) = w a + total w l := by
  simp [total]

@[simp] theorem total_append (l l' : List α) : total w (l ++ l') = total w l + total w l' := by
  simp [total]

variable {w}

theorem total_congr {w' : α → ℕ} {l : List α} (h : ∀ a ∈ l, w a = w' a) :
    total w l = total w' l := by
  rw [total, total, List.map_congr_left h]

theorem total_le_total {w' : α → ℕ} {l : List α} (h : ∀ a ∈ l, w a ≤ w' a) :
    total w l ≤ total w' l := by
  induction l with
  | nil => exact le_rfl
  | cons a l ih =>
    have hhead := h a List.mem_cons_self
    have htail := ih fun b hb => h b (List.mem_cons_of_mem a hb)
    simp only [total_cons]
    omega

/-- **One slot changes**, and the total with it. -/
theorem total_modify {l : List α} {i : ℕ} {a : α} (h : l[i]? = some a) (f : α → α) :
    total w (l.modify i f) + w a = total w l + w (f a) := by
  induction l generalizing i with
  | nil => simp at h
  | cons b l ih =>
    cases i with
    | zero =>
      obtain rfl : b = a := by simpa using h
      simp only [List.modify_zero_cons, total_cons]
      omega
    | succ i =>
      have := ih (by simpa using h)
      simp only [List.modify_succ_cons, total_cons]
      omega

theorem le_total {l : List α} {i : ℕ} {a : α} (h : l[i]? = some a) : w a ≤ total w l := by
  induction l generalizing i with
  | nil => simp at h
  | cons b l ih =>
    cases i with
    | zero =>
      obtain rfl : b = a := by simpa using h
      simp
    | succ i =>
      have := ih (i := i) (by simpa using h)
      simp only [total_cons]
      omega

/-- **One slot is taken out.** -/
theorem total_eraseIdx {l : List α} {i : ℕ} {a : α} (h : l[i]? = some a) :
    total w (l.eraseIdx i) + w a = total w l := by
  induction l generalizing i with
  | nil => simp at h
  | cons b l ih =>
    cases i with
    | zero =>
      obtain rfl : b = a := by simpa using h
      simp only [List.eraseIdx_zero, List.tail_cons, total_cons]
      omega
    | succ i =>
      have := ih (i := i) (by simpa using h)
      simp only [List.eraseIdx_cons_succ, total_cons]
      omega

theorem total_flatMap (f : β → List α) (l : List β) :
    total w (l.flatMap f) = total (fun b => total w (f b)) l := by
  induction l with
  | nil => rfl
  | cons b l ih => rw [List.flatMap_cons, total_append, total_cons, ih]

/-- Weighed as one each, the slots are counted. -/
theorem total_one (l : List α) : total (fun _ => 1) l = l.length := by
  simp [total]

/-- Weighed by whether they are `a`, the slots that are `a` are counted. -/
theorem total_indicator [DecidableEq α] (a : α) (l : List α) :
    total (fun b => if b = a then 1 else 0) l = l.count a := by
  induction l with
  | nil => rfl
  | cons b l ih =>
    rw [total_cons, ih, List.count_cons]
    by_cases hb : b = a <;> simp [hb, Nat.add_comm]

/-- Lists of the same weight under every weight hold the same things. -/
theorem perm_of_total_eq [DecidableEq α] {l l' : List α} (h : ∀ w, total w l = total w l') :
    l.Perm l' := by
  rw [List.perm_iff_count]
  intro a
  rw [← total_indicator, h, total_indicator]

end Weights

end Xpod
