import Mathlib.Data.List.Lex
import Mathlib.Tactic
/-!
# Ranges of keys in lexicographic order

A store that keeps its rows in the lexicographic order of their keys
answers a scan from one key up to another. When both bounds begin alike,
every key in the range begins so too, and the range is one of the
remainders. Keys whose fields have a fixed length compare field by field.
-/

namespace Xpod

namespace Lex

variable {α : Type*} [LinearOrder α] {p a b x y k : List α}

theorem append_lt_append_iff : p ++ a < p ++ b ↔ a < b := by
  induction p with
  | nil => exact Iff.rfl
  | cons c p ih => simp [ih]

theorem append_le_append_iff : p ++ a ≤ p ++ b ↔ a ≤ b := by
  rw [← not_lt, ← not_lt, append_lt_append_iff]

/-- A list that does not begin with `p` lies below everything that does, or
above it. -/
theorem lt_append_congr (h : ¬ p <+: k) : k < p ++ a ↔ k < p ++ b := by
  induction p generalizing k with
  | nil => exact absurd List.nil_prefix h
  | cons c p ih =>
    cases k with
    | nil => exact ⟨fun _ => List.nil_lt_cons _ _, fun _ => List.nil_lt_cons _ _⟩
    | cons d k =>
      simp only [List.cons_append, List.cons_lt_cons_iff]
      by_cases hd : d = c
      · subst hd
        rw [ih fun hp => h ((List.cons_prefix_cons).2 ⟨rfl, hp⟩)]
      · simp [hd]

/-- **The range between two keys that begin alike.** -/
theorem mem_range_iff : (p ++ a ≤ k ∧ k < p ++ b) ↔ ∃ x, k = p ++ x ∧ a ≤ x ∧ x < b := by
  constructor
  · rintro ⟨hle, hlt⟩
    have hprefix : p <+: k := by
      by_contra hp
      exact absurd ((lt_append_congr hp).1 hlt) (not_lt.2 hle)
    obtain ⟨x, rfl⟩ := hprefix
    exact ⟨x, rfl, append_le_append_iff.1 hle, append_lt_append_iff.1 hlt⟩
  · rintro ⟨x, rfl, hle, hlt⟩
    exact ⟨append_le_append_iff.2 hle, append_lt_append_iff.2 hlt⟩

/-- Fields of one length are compared before what follows them. -/
theorem append_lt_append_of_length_eq (h : a.length = b.length) :
    a ++ x < b ++ y ↔ a < b ∨ a = b ∧ x < y := by
  induction a generalizing b with
  | nil =>
    obtain rfl : b = [] := List.length_eq_zero_iff.1 h.symm
    simp
  | cons c a ih =>
    cases b with
    | nil => simp at h
    | cons d b =>
      simp only [List.length_cons, Nat.add_right_cancel_iff] at h
      simp only [List.cons_append, List.cons_lt_cons_iff, List.cons.injEq, ih h]
      tauto

end Lex

/-- Bytes in their unsigned order. -/
instance instLinearOrderUInt8 : LinearOrder UInt8 where
  le_refl := UInt8.le_refl
  le_trans _ _ _ := UInt8.le_trans
  le_antisymm _ _ := UInt8.le_antisymm
  le_total := UInt8.le_total
  lt_iff_le_not_ge a b := by
    rw [UInt8.lt_iff_toNat_lt, UInt8.le_iff_toNat_le, UInt8.le_iff_toNat_le]
    omega
  toDecidableLE := inferInstance
  toDecidableLT := inferInstance
  toDecidableEq := inferInstance

end Xpod
