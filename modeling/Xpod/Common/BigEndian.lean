import Mathlib.Data.BitVec
import Mathlib.Data.List.Basic
import Mathlib.Tactic
/-!
# Numbers as bytes, highest first

A number of a fixed width is written as that many bytes and read back by
shifting in one byte after the other.
-/

namespace Xpod

namespace BigEndian

/-- A number with bytes shifted in behind it. -/
def readFrom (base : ℕ) (bs : List UInt8) : ℕ := bs.foldl (fun n b => n * 256 + b.toNat) base

/-- The number that bytes stand for. -/
def read (bs : List UInt8) : ℕ := readFrom 0 bs

/-- The `w` bytes of a number. What does not fit is cut off. -/
def write : ℕ → ℕ → List UInt8
  | 0, _ => []
  | w + 1, n => write w (n / 256) ++ [UInt8.ofNat n]

@[simp] theorem length_write (w n : ℕ) : (write w n).length = w := by
  induction w generalizing n with
  | zero => rfl
  | succ w ih => rw [write, List.length_append, ih, List.length_singleton]

/-- **What is written is read back**, behind what there is. -/
theorem readFrom_write (base w n : ℕ) :
    readFrom base (write w n) = base * 256 ^ w + n % 256 ^ w := by
  induction w generalizing n with
  | zero => simp [write, readFrom, Nat.mod_one]
  | succ w ih =>
    have hsplit : n % 256 ^ (w + 1) = n % 256 + 256 * (n / 256 % 256 ^ w) := by
      rw [pow_succ', Nat.mod_mul]
    have hbyte : (UInt8.ofNat n).toNat = n % 256 := UInt8.toNat_ofNat'
    have hstep : readFrom base (write (w + 1) n) =
        readFrom base (write w (n / 256)) * 256 + (UInt8.ofNat n).toNat := by
      rw [write, readFrom, List.foldl_append]
      rfl
    rw [hstep, ih, hbyte, hsplit, pow_succ]
    ring

theorem read_write {w n : ℕ} (h : n < 256 ^ w) : read (write w n) = n := by
  rw [read, readFrom_write, zero_mul, zero_add, Nat.mod_eq_of_lt h]

/-- A number of fixed width with a byte shifted in. -/
theorem shiftLeft_or_eq {w : ℕ} (hw : 8 ≤ w) (n : ℕ) (x : UInt8) :
    (BitVec.ofNat w n <<< 8) ||| x.toBitVec.setWidth w = BitVec.ofNat w (n * 256 + x.toNat) := by
  have hdisjoint : (BitVec.ofNat w n <<< 8) &&& x.toBitVec.setWidth w = 0#w := by
    ext i hi
    by_cases h8 : i < 8
    · simp [h8]
    · simp [BitVec.getLsbD_of_ge x.toBitVec i (by omega)]
  rw [← BitVec.add_eq_or_of_and_eq_zero _ _ hdisjoint]
  apply BitVec.eq_of_toNat_eq
  have hx : x.toNat < 2 ^ w :=
    x.toNat_lt.trans_le (Nat.pow_le_pow_right (by decide) hw)
  have hxvec : (x.toBitVec.setWidth w).toNat = x.toNat := by
    rw [BitVec.toNat_setWidth, UInt8.toNat_toBitVec, Nat.mod_eq_of_lt hx]
  rw [BitVec.toNat_add, BitVec.toNat_shiftLeft, hxvec, BitVec.toNat_ofNat, BitVec.toNat_ofNat,
    Nat.shiftLeft_eq, Nat.mod_mul_mod, Nat.mod_add_mod]

end BigEndian

end Xpod
