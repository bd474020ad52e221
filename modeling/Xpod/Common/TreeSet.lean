import Mathlib.Data.List.Basic
import Mathlib.Tactic
/-!
# Sets in a search tree

A set that finds its elements by descending a binary tree, comparing the
element asked for with the one at each node. After an insertion the tree
may be balanced in any way that keeps its elements in order.

The comparison need not be an order. What descent needs is said for the
one element asked for: along the elements of the tree, its comparisons do
not change sign but once (`Guides`).
-/

namespace Xpod

/-- A binary tree of elements. -/
inductive TreeSet (α : Type*)
  | empty
  | node (left : TreeSet α) (key : α) (right : TreeSet α)
deriving DecidableEq, Repr

namespace TreeSet

variable {α : Type*}

/-- The elements in order. -/
def toList : TreeSet α → List α
  | empty => []
  | node left key right => left.toList ++ key :: right.toList

/-- **Balancing**: the tree may change, its elements in order may not. -/
structure Balancing (α : Type*) where
  balance : TreeSet α → TreeSet α
  toList_balance : ∀ t, (balance t).toList = t.toList

/-- No balancing at all. -/
def Balancing.none (α : Type*) : Balancing α := ⟨id, fun _ => rfl⟩

variable (cmp : α → α → ℤ)

/-- Descent to an element that compares as 0. -/
def contains (x : α) : TreeSet α → Bool
  | empty => false
  | node left key right =>
    if cmp x key < 0 then left.contains x
    else if 0 < cmp x key then right.contains x
    else true

/-- Descent to an empty place. An element that compares as 0 is kept. -/
def insert (x : α) : TreeSet α → TreeSet α
  | empty => node empty x empty
  | node left key right =>
    if cmp x key < 0 then node (left.insert x) key right
    else if 0 < cmp x key then node left key (right.insert x)
    else node left key right

/-- Insertion, and balancing behind it. -/
def add (B : Balancing α) (x : α) (t : TreeSet α) : TreeSet α := B.balance (t.insert cmp x)

/-- **The list guides a descent for `x`**: what lies behind an element that
is greater than `x` is greater, and what lies in front of one that is less
is less. -/
def Guides (x : α) (l : List α) : Prop :=
  l.Pairwise fun a b => (cmp x a < 0 → cmp x b < 0) ∧ (0 < cmp x b → 0 < cmp x a)

variable {cmp} {x : α}

theorem Guides.node {left right : TreeSet α} {key : α}
    (h : Guides cmp x (TreeSet.node left key right).toList) :
    Guides cmp x left.toList ∧ Guides cmp x right.toList ∧
      (0 < cmp x key → ∀ a ∈ left.toList, 0 < cmp x a) ∧
      (cmp x key < 0 → ∀ b ∈ right.toList, cmp x b < 0) := by
  obtain ⟨hleft, hright, hcross⟩ := List.pairwise_append.1 h
  obtain ⟨hkey, hright⟩ := List.pairwise_cons.1 hright
  exact ⟨hleft, hright, fun hpos a ha => (hcross a ha key List.mem_cons_self).2 hpos,
    fun hneg b hb => (hkey b hb).1 hneg⟩

/-- **Descent finds an element that compares as 0** if the tree holds one. -/
theorem contains_iff {t : TreeSet α} (h : Guides cmp x t.toList) :
    t.contains cmp x = true ↔ ∃ a ∈ t.toList, cmp x a = 0 := by
  induction t with
  | empty => simp [contains, toList]
  | node left key right ihl ihr =>
    obtain ⟨hleft, hright, hfront, hbehind⟩ := h.node
    have hmem : (∃ a ∈ (node left key right).toList, cmp x a = 0) ↔
        (∃ a ∈ left.toList, cmp x a = 0) ∨ cmp x key = 0 ∨ ∃ b ∈ right.toList, cmp x b = 0 := by
      simp only [toList, List.mem_append, List.mem_cons, or_and_right, exists_or, exists_eq_left]
    rw [hmem, contains]
    rcases lt_trichotomy (cmp x key) 0 with hneg | hzero | hpos
    · have hnone : ¬ ∃ b ∈ right.toList, cmp x b = 0 := by
        rintro ⟨b, hb, h0⟩
        have := hbehind hneg b hb
        omega
      rw [if_pos hneg, ihl hleft]
      simp [hneg.ne, hnone]
    · rw [if_neg (by omega), if_neg (by omega)]
      simp [hzero]
    · have hnone : ¬ ∃ a ∈ left.toList, cmp x a = 0 := by
        rintro ⟨a, ha, h0⟩
        have := hfront hpos a ha
        omega
      rw [if_neg (by omega), if_pos hpos, ihr hright]
      simp [hpos.ne', hnone]

/-- **An element greater than all is put behind them.** -/
theorem toList_add_of_pos (B : Balancing α) {t : TreeSet α} (h : ∀ a ∈ t.toList, 0 < cmp x a) :
    (t.add cmp B x).toList = t.toList ++ [x] := by
  have hinsert : (t.insert cmp x).toList = t.toList ++ [x] := by
    induction t with
    | empty => rfl
    | node left key right _ ihr =>
      have hkey : 0 < cmp x key := h key (by simp [toList])
      have hright := ihr fun a ha => h a (by simp [toList, ha])
      rw [insert, if_neg (by omega), if_pos hkey, toList, hright, toList, List.append_assoc,
        List.cons_append]
  rw [add, B.toList_balance, hinsert]

end TreeSet

end Xpod
