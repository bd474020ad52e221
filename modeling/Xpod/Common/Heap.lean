import Mathlib.Logic.Function.Basic
import Mathlib.Tactic
/-!
# Objects behind references

A mutable object is reached by a reference, and whoever holds the
reference sees the object as it is now. References are numbers here, given
out in order. What a program keeps fixed by never writing to it again is
then a fact about the heap, not one of the notation.
-/

namespace Xpod

/-- The objects by reference. The references from `next` on are unused. -/
structure Heap (α : Type*) where
  read : ℕ → α
  next : ℕ

namespace Heap

variable {α : Type*} (h : Heap α) (r : ℕ) (a : α)

/-- A new object, behind the reference `h.next`. -/
def alloc : Heap α := ⟨Function.update h.read h.next a, h.next + 1⟩

/-- A new state of the object behind `r`. -/
def write : Heap α := { h with read := Function.update h.read r a }

@[simp] theorem next_alloc : (h.alloc a).next = h.next + 1 := rfl

@[simp] theorem read_alloc_next : (h.alloc a).read h.next = a := Function.update_self _ _ _

@[simp] theorem read_write_self : (h.write r a).read r = a := Function.update_self _ _ _

@[simp] theorem write_read_self : h.write r (h.read r) = h := by
  rw [write, Function.update_eq_self]

variable {h r} {r' : ℕ}

theorem read_alloc_of_lt (hr : r < h.next) : (h.alloc a).read r = h.read r :=
  Function.update_of_ne hr.ne _ _

theorem read_write_of_ne (hr : r' ≠ r) : (h.write r a).read r' = h.read r' :=
  Function.update_of_ne hr _ _

end Heap

end Xpod
