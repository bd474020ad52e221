import Mathlib.Data.BitVec
import Mathlib.Tactic
/-!
# Arithmetic of 64 bits

A program that adds and multiplies `long`s is written once, for any
arithmetic in a monad. In the wrapping one it computes what a machine does;
in the checked one it stops when an exact result leaves the range. A run
that does not stop is the run of the machine, and no result in it left the
range.
-/

namespace Xpod

namespace Long

/-- A `long` can hold the number. -/
def Fits (z : ℤ) : Prop := -2 ^ 63 ≤ z ∧ z < 2 ^ 63

instance decidableFits (z : ℤ) : Decidable (Fits z) := inferInstanceAs (Decidable (_ ∧ _))

/-- How a program computes with `long`s. -/
structure Arithmetic (m : Type → Type) where
  add : BitVec 64 → BitVec 64 → m (BitVec 64)
  mul : BitVec 64 → BitVec 64 → m (BitVec 64)

/-- The arithmetic of the machine. -/
def wrapping : Arithmetic Id where
  add a b := a + b
  mul a b := a * b

/-- The arithmetic that stops at an overflow. -/
def checked : Arithmetic Option where
  add a b := if Fits (a.toInt + b.toInt) then some (a + b) else none
  mul a b := if Fits (a.toInt * b.toInt) then some (a * b) else none

variable {a b c : BitVec 64}

/-- The machine goes on with a sum as the checked run does. -/
theorem wrapping_add_bind {α : Type} (h : checked.add a b = some c) (f : BitVec 64 → Id α) :
    wrapping.add a b >>= f = f c := by
  obtain rfl := Option.some.inj (Option.ite_none_right_eq_some.1 h).2
  rfl

/-- And with a product. -/
theorem wrapping_mul_bind {α : Type} (h : checked.mul a b = some c) (f : BitVec 64 → Id α) :
    wrapping.mul a b >>= f = f c := by
  obtain rfl := Option.some.inj (Option.ite_none_right_eq_some.1 h).2
  rfl

/-- A sum that fits is exact. -/
theorem checked_add {z : ℤ} (hz : a.toInt + b.toInt = z) (h : Fits z) :
    ∃ c, checked.add a b = some c ∧ c.toInt = z := by
  subst hz
  refine ⟨a + b, if_pos h, ?_⟩
  rw [BitVec.toInt_add, Int.bmod_eq_of_le] <;> unfold Fits at h <;> omega

/-- A product that fits is exact. -/
theorem checked_mul {z : ℤ} (hz : a.toInt * b.toInt = z) (h : Fits z) :
    ∃ c, checked.mul a b = some c ∧ c.toInt = z := by
  subst hz
  refine ⟨a * b, if_pos h, ?_⟩
  rw [BitVec.toInt_mul, Int.bmod_eq_of_le] <;> unfold Fits at h <;> omega

end Long

end Xpod
