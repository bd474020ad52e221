import Mathlib.Tactic
import Xpod.Common.Java
import Xpod.Common.Lex
import Xpod.Common.Utf8
/-!
# Decimal numbers in keys and texts

A number printed in a key sorts as a text. Among numbers of as many digits
the order of the texts is that of the numbers. A text of digits, with a sign
or without, stands for an integer.
-/

namespace Xpod

namespace Decimal

/-- The bytes a number is printed as. -/
def bytes (n : ℕ) : List UInt8 := Utf8.encode (Nat.toDigits 10 n)

/-- The byte of a digit. -/
theorem encode_digitChar {d : ℕ} (hd : d < 10) :
    Utf8.encode [Nat.digitChar d] = [UInt8.ofNat (48 + d)] := by
  interval_cases d <;> rfl

theorem bytes_of_lt {n : ℕ} (h : n < 10) : bytes n = [UInt8.ofNat (48 + n)] := by
  rw [bytes, Nat.toDigits_of_lt_base h, encode_digitChar h]

theorem bytes_of_le {n : ℕ} (h : 10 ≤ n) :
    bytes n = bytes (n / 10) ++ [UInt8.ofNat (48 + n % 10)] := by
  rw [bytes, Nat.toDigits_of_base_le (by decide) h, Utf8.encode_append,
    encode_digitChar (Nat.mod_lt n (by decide))]
  rfl

theorem bytes_injective : Function.Injective bytes := fun _ _ h =>
  Java.toDigits_injective (Utf8.encode_injective h)

/-- A number between two powers of ten has one digit more than the exponent
of the lower. -/
theorem length_toDigits {w n : ℕ} (hlo : 10 ^ w ≤ n) (hhi : n < 10 ^ (w + 1)) :
    (Nat.toDigits 10 n).length = w + 1 := by
  induction w generalizing n with
  | zero => rw [Nat.toDigits_of_lt_base (b := 10) (by omega), List.length_singleton]
  | succ w ih =>
    rw [pow_succ] at hlo hhi
    have hpos : 0 < 10 ^ w := Nat.pow_pos (by decide)
    rw [Nat.toDigits_of_base_le (by decide) (by omega), List.length_append,
      List.length_singleton, ih (by omega) (by omega)]

theorem length_bytes {w n : ℕ} (hlo : 10 ^ w ≤ n) (hhi : n < 10 ^ (w + 1)) :
    (bytes n).length = w + 1 := by
  rw [bytes, Utf8.length_encode_of_lt, length_toDigits hlo hhi]
  intro c hc
  have hdigit := Nat.isDigit_of_mem_toDigits (by decide) le_rfl hc
  simp only [Char.isDigit, Bool.and_eq_true, decide_eq_true_eq] at hdigit
  exact Nat.lt_of_le_of_lt hdigit.2 (by decide)

theorem length_bytes_pos (n : ℕ) : 0 < (bytes n).length := by
  rcases Nat.lt_or_ge n 10 with h | h
  · rw [bytes_of_lt h, List.length_singleton]
    exact Nat.one_pos
  · rw [bytes_of_le h, List.length_append, List.length_singleton]
    exact Nat.succ_pos _

theorem digit_lt_iff {d e : ℕ} (hd : d < 10) (he : e < 10) :
    [UInt8.ofNat (48 + d)] < [UInt8.ofNat (48 + e)] ↔ d < e := by
  rw [List.cons_lt_cons_iff, UInt8.lt_iff_toNat_lt, UInt8.toNat_ofNat', UInt8.toNat_ofNat']
  simp only [List.not_lt_nil, and_false, or_false]
  omega

/-- **Numbers of as many digits are ordered as their texts.** -/
theorem bytes_lt_iff {m n : ℕ} (h : (bytes m).length = (bytes n).length) :
    bytes m < bytes n ↔ m < n := by
  induction m using Nat.strong_induction_on generalizing n with
  | _ m ih =>
    rcases Nat.lt_or_ge m 10 with hm | hm <;> rcases Nat.lt_or_ge n 10 with hn | hn
    · rw [bytes_of_lt hm, bytes_of_lt hn, digit_lt_iff hm hn]
    · have hpos := length_bytes_pos (n / 10)
      rw [bytes_of_lt hm, bytes_of_le hn, List.length_append, List.length_singleton,
        List.length_singleton] at h
      omega
    · have hpos := length_bytes_pos (m / 10)
      rw [bytes_of_lt hn, bytes_of_le hm, List.length_append, List.length_singleton,
        List.length_singleton] at h
      omega
    · rw [bytes_of_le hm, bytes_of_le hn] at h ⊢
      simp only [List.length_append, List.length_singleton, Nat.add_right_cancel_iff] at h
      rw [Lex.append_lt_append_of_length_eq h, ih _ (by omega) h, bytes_injective.eq_iff,
        digit_lt_iff (Nat.mod_lt m (by decide)) (Nat.mod_lt n (by decide))]
      omega

/-! ## Numerals

A digit is not `0` in front, unless it is alone: then the text is the one
its number prints. -/

theorem digitChar_of_isDigit {c : Char} (h : c.isDigit = true) :
    c.toNat - '0'.toNat < 10 ∧ Nat.digitChar (c.toNat - '0'.toNat) = c := by
  simp only [Char.isDigit, Bool.and_eq_true, decide_eq_true_eq] at h
  have hlo : 48 ≤ c.toNat := h.1
  have hhi : c.toNat ≤ 57 := h.2
  obtain ⟨d, hd⟩ := Nat.exists_eq_add_of_le hlo
  have hlt : d < 10 := by omega
  have hsub : c.toNat - '0'.toNat = d := by
    rw [hd]
    exact Nat.add_sub_cancel_left 48 d
  have hc : c = Char.ofNat (48 + d) := by rw [← hd, Char.ofNat_toNat]
  rw [hsub, hc]
  refine ⟨hlt, ?_⟩
  interval_cases d <;> rfl

/-- **A numeral is what its number prints.** -/
theorem toDigits_ofDigitChars {t : List Char} (hne : t ≠ [])
    (hdigits : ∀ c ∈ t, c.isDigit = true) (hzero : t.head? = some '0' → t = ['0']) :
    Nat.toDigits 10 (Nat.ofDigitChars 10 t 0) = t := by
  induction t using List.reverseRecOn with
  | nil => exact absurd rfl hne
  | append_singleton u c ih =>
    obtain ⟨hlt, hc⟩ := digitChar_of_isDigit (hdigits c (by simp))
    rw [Nat.ofDigitChars_append, Nat.ofDigitChars_cons, Nat.ofDigitChars_nil]
    by_cases hu : u = []
    · -- a single digit
      subst hu
      rw [Nat.ofDigitChars_nil, Nat.mul_zero, Nat.zero_add, Nat.toDigits_of_lt_base hlt, hc]
      rfl
    · have hhead : u.head? ≠ some '0' := by
        intro h
        have hone := congrArg List.length (hzero ((List.head?_append_of_ne_nil u hu).trans h))
        rw [List.length_append, List.length_singleton, List.length_singleton] at hone
        exact hu (List.eq_nil_of_length_eq_zero (by omega))
      have hfront := ih hu (fun d hd => hdigits d (by simp [hd])) fun h => absurd h hhead
      -- the front is no zero, so the last digit is put behind what it prints
      have hpos : 0 < Nat.ofDigitChars 10 u 0 := by
        rcases Nat.eq_zero_or_pos (Nat.ofDigitChars 10 u 0) with h | h
        · rw [h] at hfront
          exact absurd (congrArg List.head? hfront.symm) hhead
        · exact h
      rw [← Nat.toDigits_append_toDigits (by decide) hpos hlt, hfront,
        Nat.toDigits_of_lt_base hlt, hc]

/-- **A decimal number without leading zeros**, and the number it stands
for. -/
structure Numeral (t : List Char) (n : ℕ) : Prop where
  ne_nil : t ≠ []
  digits : ∀ c ∈ t, c.isDigit = true
  noLeadingZero : t.head? = some '0' → t = ['0']
  value : Nat.ofDigitChars 10 t 0 = n

theorem head?_toDigits_ne {n : ℕ} (hn : 0 < n) : (Nat.toDigits 10 n).head? ≠ some '0' := by
  induction n using Nat.strong_induction_on with
  | _ n ih =>
    rcases Nat.lt_or_ge n 10 with h | h
    · rw [Nat.toDigits_of_lt_base h]
      interval_cases n <;> decide
    · rw [Nat.toDigits_of_base_le (by decide) h,
        List.head?_append_of_ne_nil _ Nat.toDigits_ne_nil]
      exact ih (n / 10) (by omega) (by omega)

/-- **The numerals are what numbers print.** -/
theorem numeral_iff {t : List Char} {n : ℕ} : Numeral t n ↔ t = Nat.toDigits 10 n := by
  constructor
  · rintro ⟨hne, hdigits, hzero, rfl⟩
    exact (toDigits_ofDigitChars hne hdigits hzero).symm
  · rintro rfl
    refine ⟨Nat.toDigits_ne_nil, fun c => Nat.isDigit_of_mem_toDigits (by decide) le_rfl, ?_,
      Nat.ofDigitChars_ten_toDigits⟩
    intro hhead
    rcases Nat.eq_zero_or_pos n with rfl | hn
    · rfl
    · exact absurd hhead (head?_toDigits_ne hn)

/-! ## Texts that stand for integers -/

/-- The number a text of digits stands for. -/
def natOf (s : List Char) : Option ℕ :=
  if s ≠ [] ∧ s.all Char.isDigit then some (Nat.ofDigitChars 10 s 0) else none

/-- The integer a text stands for: digits with an optional sign. -/
def intOf : List Char → Option ℤ
  | '-' :: s => (natOf s).map fun n => -(n : ℤ)
  | '+' :: s => (natOf s).map fun n => (n : ℤ)
  | s => (natOf s).map fun n => (n : ℤ)

example : intOf "-007".toList = some (-7) := by decide

end Decimal

end Xpod
