import Mathlib.Data.BitVec
import Mathlib.Data.Nat.Log
import Mathlib.Tactic
/-!
# Integers as 64-bit floating-point numbers

A finite floating-point number is an integer over `2 ^ 1074`, so that what a
bit pattern stands for is said without fractions. An integer has a bit pattern
just if it is a number of 53 bits times a power of two and below `2 ^ 1024`;
`ofInt` finds it.
-/

namespace Xpod

namespace Binary64

/-! ## Patterns -/

/-- The fraction, without the hidden bit. -/
def fraction (b : BitVec 64) : ℕ := b.toNat % 2 ^ 52

/-- The exponent as it is stored. -/
def exponent (b : BitVec 64) : ℕ := b.toNat / 2 ^ 52 % 2 ^ 11

def IsNegative (b : BitVec 64) : Prop := 2 ^ 63 ≤ b.toNat

instance (b : BitVec 64) : Decidable (IsNegative b) := inferInstanceAs (Decidable (_ ≤ _))

/-- The magnitude times `2 ^ 1074`. A stored exponent 0 is that of the
subnormal numbers, which have no hidden bit. -/
def magnitude (b : BitVec 64) : ℕ :=
  if exponent b = 0 then fraction b else (2 ^ 52 + fraction b) * 2 ^ (exponent b - 1)

/-- The exponent of the smallest number's reciprocal. -/
@[irreducible] def unitExponent : ℕ := 1074

/-- The exponent finite numbers stay below. -/
def topExponent : ℕ := 1024

/-- **The pattern stands for the integer.** Exponent 2047 is that of the
infinities and of what is no number. -/
def Represents (b : BitVec 64) (z : ℤ) : Prop :=
  exponent b ≠ 2047 ∧
    (if IsNegative b then -(magnitude b : ℤ) else magnitude b) = z * 2 ^ unitExponent

/-- Some floating-point number is the integer. -/
def Exact (z : ℤ) : Prop := ∃ b, Represents b z

/-- The pattern for a sign, a magnitude in `[2 ^ e, 2 ^ (e + 1))` and its
exponent `e`. -/
def pattern (negative : Bool) (m e : ℕ) : BitVec 64 :=
  BitVec.ofNat 64 ((if negative then 2 ^ 63 else 0) + (e + 1023) * 2 ^ 52 +
    (m * 2 ^ 52 / 2 ^ e - 2 ^ 52))

/-- The pattern for an integer. Bits that do not fit are cut off. -/
def ofInt (z : ℤ) : BitVec 64 :=
  if z = 0 then 0 else pattern (z < 0) z.natAbs (Nat.log 2 z.natAbs)

/-! ## Which integers have one -/

/-- A magnitude that needs no more than 53 bits. -/
def Short (m : ℕ) : Prop := ∃ c k, m = c * 2 ^ k ∧ c < 2 ^ 53

theorem fraction_lt (b : BitVec 64) : fraction b < 2 ^ 52 := Nat.mod_lt _ (by decide)

theorem exponent_lt (b : BitVec 64) : exponent b < 2 ^ 11 := Nat.mod_lt _ (by decide)

/-- A finite magnitude is a number of 53 bits times a power of two. -/
theorem exists_magnitude_eq {b : BitVec 64} (h : exponent b ≠ 2047) :
    ∃ c p, magnitude b = c * 2 ^ p ∧ c < 2 ^ 53 ∧ p ≤ 2045 := by
  have hfraction := fraction_lt b
  have hexponent := exponent_lt b
  unfold magnitude
  split_ifs
  · exact ⟨fraction b, 0, by simp, by omega, by omega⟩
  · exact ⟨2 ^ 52 + fraction b, exponent b - 1, rfl, by omega, by omega⟩

theorem Represents.magnitude_eq {b : BitVec 64} {z : ℤ} (h : Represents b z) :
    magnitude b = z.natAbs * 2 ^ unitExponent := by
  have habs := congrArg Int.natAbs h.2
  rw [Int.natAbs_mul, Int.natAbs_pow, show Int.natAbs 2 = 2 from rfl] at habs
  split_ifs at habs
  · rwa [Int.natAbs_neg, Int.natAbs_natCast] at habs
  · rwa [Int.natAbs_natCast] at habs

/-- What a pattern stands for needs no more than 53 bits. -/
theorem Represents.short {b : BitVec 64} {z : ℤ} (h : Represents b z) :
    Short z.natAbs ∧ z.natAbs < 2 ^ topExponent := by
  obtain ⟨c, p, hcp, hc, hp⟩ := exists_magnitude_eq h.1
  have heq : z.natAbs * 2 ^ unitExponent = c * 2 ^ p := h.magnitude_eq.symm.trans hcp
  have hpos : 0 < 2 ^ unitExponent := Nat.two_pow_pos unitExponent
  constructor
  · rcases Nat.le_total unitExponent p with hle | hle
    · obtain ⟨k, rfl⟩ := Nat.exists_eq_add_of_le' hle
      refine ⟨c, k, Nat.eq_of_mul_eq_mul_right hpos ?_, hc⟩
      rw [heq, pow_add, mul_assoc]
    · -- the number is an integer although its unit is a fraction
      refine ⟨z.natAbs, 0, by simp, lt_of_le_of_lt (Nat.le_of_mul_le_mul_right ?_ hpos) hc⟩
      rw [heq]
      exact Nat.mul_le_mul_left c (Nat.pow_le_pow_right (by decide) hle)
  · refine Nat.lt_of_mul_lt_mul_right (a := 2 ^ unitExponent) ?_
    calc z.natAbs * 2 ^ unitExponent = c * 2 ^ p := heq
      _ < 2 ^ 53 * 2 ^ p := Nat.mul_lt_mul_of_pos_right hc (Nat.two_pow_pos p)
      _ = 2 ^ (53 + p) := (pow_add 2 53 p).symm
      _ ≤ 2 ^ (topExponent + unitExponent) :=
        Nat.pow_le_pow_right (by decide) (by unfold topExponent unitExponent; omega)
      _ = 2 ^ topExponent * 2 ^ unitExponent := pow_add 2 topExponent unitExponent

section Pattern

variable {m e q : ℕ}

theorem toNat_pattern (negative : Bool) (hlo : 2 ^ 52 ≤ q) (hhi : q < 2 ^ 53) (he : e < topExponent)
    (hq : m * 2 ^ 52 / 2 ^ e = q) :
    (pattern negative m e).toNat =
      (if negative then 2 ^ 63 else 0) + (e + 1023) * 2 ^ 52 + (q - 2 ^ 52) := by
  rw [pattern, BitVec.toNat_ofNat, hq]
  apply Nat.mod_eq_of_lt
  unfold topExponent at he
  split_ifs <;> omega

/-- The fields of a pattern. -/
theorem fields_pattern (negative : Bool) (hlo : 2 ^ 52 ≤ q) (hhi : q < 2 ^ 53)
    (he : e < topExponent) (hq : m * 2 ^ 52 / 2 ^ e = q) :
    fraction (pattern negative m e) = q - 2 ^ 52 ∧ exponent (pattern negative m e) = e + 1023 ∧
      (IsNegative (pattern negative m e) ↔ negative = true) := by
  have hbits := toNat_pattern negative hlo hhi he hq
  unfold fraction exponent IsNegative
  unfold topExponent at he
  rw [hbits]
  cases negative
  · simp only [Bool.false_eq_true, if_false, iff_false]
    omega
  · simp only [if_true, iff_true]
    omega

end Pattern

/-- The leading 53 bits of a number that needs no more. -/
theorem Short.exists_quotient {m : ℕ} (h : Short m) (hm : m ≠ 0) :
    ∃ q, m * 2 ^ 52 / 2 ^ Nat.log 2 m = q ∧ q * 2 ^ Nat.log 2 m = m * 2 ^ 52 ∧
      2 ^ 52 ≤ q ∧ q < 2 ^ 53 := by
  obtain ⟨c, k, rfl, hc⟩ := h
  have hc0 : c ≠ 0 := by
    rintro rfl
    simp at hm
  have hlo : 2 ^ Nat.log 2 c ≤ c := Nat.pow_log_le_self 2 hc0
  have hhi : c < 2 ^ (Nat.log 2 c + 1) := Nat.lt_pow_succ_log_self (by decide) c
  have hl : Nat.log 2 c ≤ 52 := Nat.lt_succ_iff.1 (Nat.log_lt_of_lt_pow hc0 hc)
  have hlog : Nat.log 2 (c * 2 ^ k) = Nat.log 2 c + k := by
    rw [Nat.log_eq_iff (Or.inr ⟨by decide, hm⟩), pow_add, Nat.add_right_comm, pow_add _ _ k]
    exact ⟨Nat.mul_le_mul_right _ hlo, Nat.mul_lt_mul_of_pos_right hhi (Nat.two_pow_pos k)⟩
  obtain ⟨d, hd⟩ := Nat.exists_eq_add_of_le hl
  -- the number is shifted to the left until the hidden bit is at its place
  have heq : c * 2 ^ d * 2 ^ (Nat.log 2 c + k) = c * 2 ^ k * 2 ^ 52 := by
    rw [hd, pow_add, pow_add]
    ring
  rw [hlog]
  refine ⟨c * 2 ^ d, Nat.div_eq_of_eq_mul_left (Nat.two_pow_pos _) heq.symm, heq, ?_, ?_⟩
  · calc 2 ^ 52 = 2 ^ Nat.log 2 c * 2 ^ d := by rw [← pow_add, ← hd]
      _ ≤ c * 2 ^ d := Nat.mul_le_mul_right _ hlo
  · calc c * 2 ^ d < 2 ^ (Nat.log 2 c + 1) * 2 ^ d :=
        Nat.mul_lt_mul_of_pos_right hhi (Nat.two_pow_pos d)
      _ = 2 ^ 53 := by rw [← pow_add, Nat.add_right_comm, ← hd]

/-- **A magnitude of 53 bits is found again in its pattern.** -/
theorem represents_ofInt {z : ℤ} (hshort : Short z.natAbs) (hlt : z.natAbs < 2 ^ topExponent) :
    Represents (ofInt z) z := by
  unfold ofInt
  split_ifs with hz
  · subst hz
    exact ⟨by decide, by simp [magnitude, exponent, fraction]⟩
  have hm : z.natAbs ≠ 0 := Int.natAbs_ne_zero.2 hz
  obtain ⟨q, hq, hmul, hlo, hhi⟩ := hshort.exists_quotient hm
  have he : Nat.log 2 z.natAbs < topExponent := Nat.log_lt_of_lt_pow hm hlt
  obtain ⟨hfraction, hexponent, hnegative⟩ := fields_pattern (decide (z < 0)) hlo hhi he hq
  have hmagnitude : magnitude (pattern (decide (z < 0)) z.natAbs (Nat.log 2 z.natAbs)) =
      z.natAbs * 2 ^ unitExponent := by
    rw [magnitude, hexponent, hfraction, if_neg (by omega), Nat.add_sub_cancel' hlo]
    calc q * 2 ^ (Nat.log 2 z.natAbs + 1023 - 1)
        = q * 2 ^ Nat.log 2 z.natAbs * 2 ^ 1022 := by
          rw [Nat.add_sub_assoc (by decide), pow_add, mul_assoc]
      _ = z.natAbs * 2 ^ unitExponent := by
          rw [hmul, mul_assoc, ← pow_add, unitExponent]
  refine ⟨?_, ?_⟩
  · rw [hexponent]
    unfold topExponent at he
    omega
  · rw [hmagnitude]
    by_cases hneg : z < 0
    · rw [if_pos (hnegative.2 (decide_eq_true hneg)), Nat.cast_mul,
        Int.ofNat_natAbs_of_nonpos hneg.le]
      push_cast
      ring
    · rw [if_neg fun h => hneg (of_decide_eq_true (hnegative.1 h)), Nat.cast_mul,
        Int.natAbs_of_nonneg (not_lt.1 hneg)]
      push_cast
      rfl

theorem Exact.represents_ofInt {z : ℤ} (h : Exact z) : Represents (ofInt z) z := by
  obtain ⟨b, hb⟩ := h
  exact Binary64.represents_ofInt hb.short.1 hb.short.2

/-- Integers of 53 bits are exact. -/
theorem exact_of_natAbs_lt {z : ℤ} (h : z.natAbs < 2 ^ 53) : Exact z :=
  ⟨ofInt z, Binary64.represents_ofInt ⟨z.natAbs, 0, by simp, h⟩
    (h.trans (Nat.pow_lt_pow_right (by decide) (by unfold topExponent; decide)))⟩

end Binary64

end Xpod
