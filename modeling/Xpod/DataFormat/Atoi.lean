import Mathlib.Data.BitVec
import Mathlib.Data.List.TakeWhile
import Mathlib.Data.Nat.Digits.Defs
import Mathlib.Tactic
import Xpod.Common.Java
import Xpod.Common.Long
import Xpod.DataFormat.Model.StringtoInteger
/-!
# A saturating parse

`atoi` returns the number at the front of a string, clamped to the range of
an `int`. The loop stops early when the number read so far is out of range;
the digits behind it would only take it further out. Up to there the number
is at most `2 ^ 31`, so nothing the loop computes leaves the range of a
`long`.
-/

namespace Xpod

namespace DataFormat

namespace StringtoInteger

open Java (Units unit)

/-! ## Numbers at the front of a string -/

/-- What a digit counts. -/
def digit (c : UInt16) : ℕ := c.toNat - 48

/-- The number that digits stand for. -/
def valueOf (ds : Units) : ℕ := Nat.ofDigits 10 (ds.map digit).reverse

/-- An optional sign, and the factor it stands for. -/
inductive Sign : Units → ℤ → Prop
  | none : Sign [] 1
  | plus : Sign [unit '+'] 1
  | minus : Sign [unit '-'] (-1)

/-- **A number**: digits behind an optional sign, and what it stands for. -/
inductive Numeral : Units → ℤ → Prop
  | intro {sign ds : Units} {σ : ℤ} (hsign : Sign sign σ) (hne : ds ≠ [])
      (hds : ∀ c ∈ ds, IsDigit c) : Numeral (sign ++ ds) (σ * valueOf ds)

/-- **The longest number at the front of a string.** -/
structure LongestNumeral (s p : Units) (z : ℤ) : Prop where
  isPrefix : p <+: s
  numeral : Numeral p z
  longest : ∀ p' z', p' <+: s → Numeral p' z' → p'.length ≤ p.length

/-- The nearest number that an `int` can hold. -/
def clamp (z : ℤ) : ℤ := max (-2 ^ 31) (min z (2 ^ 31 - 1))

theorem valueOf_cons (c : UInt16) (ds : Units) :
    valueOf (c :: ds) = 10 ^ ds.length * digit c + valueOf ds := by
  rw [valueOf, List.map_cons, Nat.ofDigits_reverse_cons, List.length_map, valueOf]
  ring

/-! ## The machine -/

theorem wrapping_result {signal value : BitVec 64} {r : BitVec 32}
    (h : result Long.checked signal value = some r) : result Long.wrapping signal value = r := by
  obtain ⟨product, hproduct, hr⟩ := Option.bind_eq_some_iff.1 h
  obtain rfl := Option.some.inj hr
  exact Long.wrapping_mul_bind hproduct _

/-- A run without overflow is the run of the machine. -/
theorem wrapping_loop {signal value : BitVec 64} {ch : Units} {r : BitVec 32}
    (h : loop Long.checked signal ch value = some r) : loop Long.wrapping signal ch value = r := by
  induction ch generalizing value with
  | nil => exact wrapping_result h
  | cons c ch ih =>
    rw [loop] at h ⊢
    split at h
    · next hc =>
      rw [if_pos hc]
      obtain ⟨tens, htens, h⟩ := Option.bind_eq_some_iff.1 h
      obtain ⟨value, hvalue, h⟩ := Option.bind_eq_some_iff.1 h
      obtain ⟨product, hproduct, h⟩ := Option.bind_eq_some_iff.1 h
      rw [Long.wrapping_mul_bind htens, Long.wrapping_add_bind hvalue,
        Long.wrapping_mul_bind hproduct]
      split at h
      · next hout =>
        rw [if_pos hout]
        exact Option.some.inj h
      · next hin =>
        rw [if_neg hin]
        exact ih h
    · next hc =>
      rw [if_neg hc]
      exact wrapping_result h

theorem wrapping_atoiIn {str : Option Units} {r : BitVec 32}
    (h : atoiIn Long.checked str = some r) : atoi str = r := by
  unfold atoi atoiIn at *
  split at h
  · exact Option.some.inj h
  split at h
  · next hlength =>
    simp only [if_pos hlength]
    exact Option.some.inj h
  · next hlength =>
    simp only [if_neg hlength]
    split at h
    · exact Option.some.inj h
    split at h
    · next hc =>
      simp only [if_pos hc]
      exact wrapping_loop h
    · next hc =>
      simp only [if_neg hc]
      exact wrapping_loop h

/-! ## The loop -/

theorem digit_le {c : UInt16} (hc : IsDigit c) : digit c ≤ 9 := by
  have hle : c.toNat ≤ 57 := hc.2
  unfold digit
  omega

theorem toInt_digit {c : UInt16} (hc : IsDigit c) :
    ((c.toBitVec.setWidth 32 - 48).signExtend 64).toInt = digit c := by
  have hlo : 48 ≤ c.toNat := hc.1
  have hhi : c.toNat ≤ 57 := hc.2
  have hnat : (c.toBitVec.setWidth 32 - 48).toNat = digit c := by
    rw [BitVec.toNat_sub, BitVec.toNat_setWidth, UInt16.toNat_toBitVec, digit]
    change (2 ^ 32 - 48 + c.toNat % 2 ^ 32) % 2 ^ 32 = c.toNat - 48
    omega
  have hle := digit_le hc
  rw [BitVec.toInt_signExtend_of_le (by decide), BitVec.toInt_eq_toNat_of_lt (by omega), hnat]

/-- The low half of a number that an `int` can hold is the number. -/
theorem toInt_setWidth {product : BitVec 64} {z : ℤ} (hz : product.toInt = z)
    (hrange : -2 ^ 31 ≤ z ∧ z < 2 ^ 31) : (product.setWidth 32).toInt = z := by
  subst hz
  rw [BitVec.toInt_eq_toNat_cond] at hrange ⊢
  rw [BitVec.toInt_eq_toNat_cond, BitVec.toNat_setWidth]
  split_ifs at hrange ⊢ <;> omega

theorem toInt_intMin : intMin.toInt = -2 ^ 31 := by decide

theorem toInt_intMax : intMax.toInt = 2 ^ 31 - 1 := by decide

theorem clamp_of_range {z : ℤ} (h : -2 ^ 31 ≤ z ∧ z < 2 ^ 31) : clamp z = z := by
  unfold clamp
  omega

/-- Without more digits the number is returned. -/
theorem checked_result {signal value : BitVec 64} {n : ℕ} (hvalue : value.toInt = n)
    (hrange : -2 ^ 31 ≤ signal.toInt * n ∧ signal.toInt * n < 2 ^ 31) :
    ∃ r, result Long.checked signal value = some r ∧ r.toInt = clamp (signal.toInt * n) := by
  have hproduct : value.toInt * signal.toInt = signal.toInt * n := by rw [hvalue, mul_comm]
  obtain ⟨product, hmul, htoInt⟩ := Long.checked_mul hproduct (by unfold Long.Fits; omega)
  refine ⟨product.setWidth 32, ?_, ?_⟩
  · rw [result, hmul]
    rfl
  · rw [toInt_setWidth htoInt hrange, clamp_of_range hrange]

/-- A number out of range stays so with more digits behind it. -/
theorem clamp_of_out {σ : ℤ} (hσ : σ = 1 ∨ σ = -1) {n total : ℕ} (hle : n ≤ total)
    (hout : σ * n < -2 ^ 31 ∨ 2 ^ 31 - 1 < σ * n) :
    (if σ * n < -2 ^ 31 then intMin else intMax).toInt = clamp (σ * total) := by
  unfold clamp
  rcases hσ with rfl | rfl
  · rw [if_neg (by omega), toInt_intMax]
    omega
  · rw [if_pos (by omega), toInt_intMin]
    omega

/-- **One digit.** Of a number up to `2 ^ 31` the next one is computed without
overflow, and so is its product with the sign. -/
theorem checked_step {signal value : BitVec 64} (hsignal : signal.toInt = 1 ∨ signal.toInt = -1)
    {c : UInt16} (hc : IsDigit c) (ch : Units) {n : ℕ} (hvalue : value.toInt = n)
    (hn : n ≤ 2 ^ 31) :
    ∃ next : BitVec 64, next.toInt = (n * 10 + digit c : ℕ) ∧
      loop Long.checked signal (c :: ch) value =
        if signal.toInt * (n * 10 + digit c : ℕ) < -2 ^ 31 ∨
            2 ^ 31 - 1 < signal.toInt * (n * 10 + digit c : ℕ) then
          some (if signal.toInt * (n * 10 + digit c : ℕ) < -2 ^ 31 then intMin else intMax)
        else loop Long.checked signal ch next := by
  have hdigit := digit_le hc
  have hten : value.toInt * (10 : BitVec 64).toInt = n * 10 := by
    rw [hvalue]
    rfl
  obtain ⟨tens, htens, htensInt⟩ := Long.checked_mul hten (by unfold Long.Fits; omega)
  have hsum : tens.toInt + ((c.toBitVec.setWidth 32 - 48).signExtend 64).toInt =
      (n * 10 + digit c : ℕ) := by
    rw [htensInt, toInt_digit hc]
    push_cast
    rfl
  obtain ⟨next, hnext, hnextInt⟩ := Long.checked_add hsum (by unfold Long.Fits; omega)
  have hsigned : next.toInt * signal.toInt = signal.toInt * (n * 10 + digit c : ℕ) := by
    rw [hnextInt, mul_comm]
  have hfits : Long.Fits (signal.toInt * (n * 10 + digit c : ℕ)) := by
    unfold Long.Fits
    rcases hsignal with h | h <;> rw [h] <;> omega
  obtain ⟨product, hproduct, hproductInt⟩ := Long.checked_mul hsigned hfits
  refine ⟨next, hnextInt, ?_⟩
  rw [loop, if_pos hc, htens, Option.bind_eq_bind, Option.bind_some, hnext, Option.bind_some,
    hproduct, Option.bind_some, hproductInt, toInt_intMin, toInt_intMax]
  rfl

/-- **The loop saturates.** From a number in range on, it returns the number
with the digits that follow, clamped, and no step overflows. -/
theorem checked_loop {signal : BitVec 64} (hsignal : signal.toInt = 1 ∨ signal.toInt = -1)
    (ch : Units) {value : BitVec 64} {n : ℕ} (hvalue : value.toInt = n)
    (hrange : -2 ^ 31 ≤ signal.toInt * n ∧ signal.toInt * n < 2 ^ 31) :
    ∃ r, loop Long.checked signal ch value = some r ∧
      r.toInt = clamp (signal.toInt *
        (10 ^ (ch.takeWhile IsDigit).length * n + valueOf (ch.takeWhile IsDigit) : ℕ)) := by
  induction ch generalizing value n with
  | nil =>
    obtain ⟨r, hr, htoInt⟩ := checked_result hvalue hrange
    refine ⟨r, hr, ?_⟩
    rw [htoInt]
    simp [valueOf]
  | cons c ch ih =>
    by_cases hc : IsDigit c
    · have hn : n ≤ 2 ^ 31 := by rcases hsignal with h | h <;> rw [h] at hrange <;> omega
      obtain ⟨next, hnext, hloop⟩ := checked_step hsignal hc ch hvalue hn
      have htotal : 10 ^ ((c :: ch).takeWhile IsDigit).length * n +
          valueOf ((c :: ch).takeWhile IsDigit) =
          10 ^ (ch.takeWhile IsDigit).length * (n * 10 + digit c) +
            valueOf (ch.takeWhile IsDigit) := by
        rw [List.takeWhile_cons_of_pos (by simpa using hc), valueOf_cons, List.length_cons,
          pow_succ]
        ring
      rw [hloop, htotal]
      split
      · next hout =>
        -- the early return: the digits that are not read only take the number further out
        refine ⟨_, rfl, clamp_of_out hsignal ?_ hout⟩
        have hpow : 1 ≤ 10 ^ (ch.takeWhile IsDigit).length := Nat.one_le_pow _ _ (by decide)
        exact (Nat.le_mul_of_pos_left _ hpow).trans (Nat.le_add_right _ _)
      · next hin => exact ih hnext (by omega)
    · obtain ⟨r, hr, htoInt⟩ := checked_result hvalue hrange
      refine ⟨r, by rw [loop, if_neg hc, hr], ?_⟩
      rw [htoInt, List.takeWhile_cons_of_neg (by simpa using hc)]
      simp [valueOf]

/-- The loop from its start. -/
theorem checked_loop_zero {signal : BitVec 64} {σ : ℤ} (hσ : signal.toInt = σ)
    (hsign : σ = 1 ∨ σ = -1) (ch : Units) :
    ∃ r, loop Long.checked signal ch 0 = some r ∧
      r.toInt = clamp (σ * valueOf (ch.takeWhile IsDigit)) := by
  subst hσ
  have hzero : (0 : BitVec 64).toInt = ((0 : ℕ) : ℤ) := rfl
  obtain ⟨r, hr, htoInt⟩ := checked_loop hsign ch hzero (by simp)
  refine ⟨r, hr, ?_⟩
  rw [htoInt, mul_zero, zero_add]

/-! ## The front of the string -/

/-- **The sign that is read**: a string splits into it and the rest, and
where it is empty there is none to read. -/
structure SignAt (s sign : Units) (σ : ℤ) (rest : Units) : Prop where
  isSign : Sign sign σ
  split : s = sign ++ rest
  greedy : sign = [] → ∀ c ∈ rest.head?, c ≠ unit '+' ∧ c ≠ unit '-'

/-- `atoi` reads a sign, and returns the digits behind it, clamped. -/
theorem checked_atoiIn (str : Units) :
    ∃ sign σ rest r, SignAt (trim str) sign σ rest ∧
      atoiIn Long.checked (some str) = some r ∧
      r.toInt = clamp (σ * valueOf (rest.takeWhile IsDigit)) := by
  have toInt_one : (1 : BitVec 64).toInt = 1 := by decide
  have toInt_neg_one : (-1 : BitVec 64).toInt = -1 := by decide
  rw [atoiIn]
  by_cases hlength : str.length = 0
  · obtain rfl := List.length_eq_zero_iff.1 hlength
    exact ⟨[], 1, [], 0, ⟨.none, rfl, by simp⟩, rfl, rfl⟩
  rw [if_neg hlength]
  cases htrim : trim str with
  | nil => exact ⟨[], 1, [], 0, ⟨.none, rfl, by simp⟩, rfl, rfl⟩
  | cons c ch =>
    dsimp only
    by_cases hplus : c = unit '+'
    · subst hplus
      obtain ⟨r, hr, htoInt⟩ := checked_loop_zero toInt_one (.inl rfl) ch
      exact ⟨[unit '+'], 1, ch, r, ⟨.plus, rfl, by simp⟩, hr, htoInt⟩
    by_cases hminus : c = unit '-'
    · subst hminus
      obtain ⟨r, hr, htoInt⟩ := checked_loop_zero toInt_neg_one (.inr rfl) ch
      exact ⟨[unit '-'], -1, ch, r, ⟨.minus, rfl, by simp⟩, hr, htoInt⟩
    · obtain ⟨r, hr, htoInt⟩ := checked_loop_zero toInt_one (.inl rfl) (c :: ch)
      refine ⟨[], 1, c :: ch, r, ⟨.none, rfl, ?_⟩, ?_, htoInt⟩
      · simp [hplus, hminus]
      · rw [if_neg (by simp [hplus, hminus]), hr]

/-- **A number at the front has the sign that is read**, since a sign is
not a digit. -/
theorem SignAt.sign_eq {s sign rest : Units} {σ : ℤ} (h : SignAt s sign σ rest)
    {sign' ds : Units} {σ' : ℤ} (hsign' : Sign sign' σ') {c : UInt16} (hc : IsDigit c)
    (hp : sign' ++ c :: ds <+: s) : sign' = sign := by
  obtain ⟨hsign, rfl, hgreedy⟩ := h
  have hhead : (sign ++ rest).head? = (sign' ++ c :: ds).head? := by
    obtain ⟨t, ht⟩ := hp
    rw [← ht, List.append_assoc]
    cases sign' <;> rfl
  -- two different signs differ in the first character
  cases hsign with
  | none =>
    cases hsign' with
    | none => rfl
    | plus => exact absurd rfl (hgreedy rfl _ hhead).1
    | minus => exact absurd rfl (hgreedy rfl _ hhead).2
  | plus =>
    cases hsign' with
    | none => exact absurd (Option.some.inj hhead ▸ hc) (by decide)
    | plus => rfl
    | minus => exact absurd (Option.some.inj hhead) (by decide)
  | minus =>
    cases hsign' with
    | none => exact absurd (Option.some.inj hhead ▸ hc) (by decide)
    | plus => exact absurd (Option.some.inj hhead) (by decide)
    | minus => rfl

/-- **Any number at the front is read**: it is the sign and some of the
digits behind it. -/
theorem SignAt.prefix_digits {s sign rest : Units} {σ : ℤ} (h : SignAt s sign σ rest)
    {p : Units} {z : ℤ} (hp : p <+: s) (hz : Numeral p z) :
    ∃ ds, ds ≠ [] ∧ p = sign ++ ds ∧ ds <+: rest.takeWhile IsDigit := by
  obtain ⟨hsign', hne, hds⟩ := hz
  next sign' ds σ' =>
  obtain ⟨c, tail, rfl⟩ := List.exists_cons_of_ne_nil hne
  obtain rfl := h.sign_eq hsign' (hds c List.mem_cons_self) hp
  refine ⟨c :: tail, hne, rfl, ?_⟩
  rw [h.split, List.prefix_append_right_inj] at hp
  obtain ⟨t, rfl⟩ := hp
  rw [List.takeWhile_append_of_pos fun c hc => by simpa using hds c hc]
  exact List.prefix_append _ _

/-- **The digits behind the sign are the longest number**, where there are
some. -/
theorem SignAt.longestNumeral {s sign rest : Units} {σ : ℤ} (h : SignAt s sign σ rest)
    (hne : rest.takeWhile IsDigit ≠ []) :
    LongestNumeral s (sign ++ rest.takeWhile IsDigit)
      (σ * valueOf (rest.takeWhile IsDigit)) where
  isPrefix := by
    rw [h.split, List.prefix_append_right_inj]
    exact List.takeWhile_prefix _
  numeral := .intro h.isSign hne fun c hc => by simpa using List.mem_takeWhile_imp hc
  longest p' z' hp' hz' := by
    obtain ⟨ds, -, rfl, hds⟩ := h.prefix_digits hp' hz'
    rw [List.length_append, List.length_append]
    exact Nat.add_le_add_left hds.length_le _

/-- **`atoi` is a saturating parse.** It returns the longest number at the
front of the trimmed string, clamped to the range of an `int`, or `0` where
no number is there; and with an arithmetic that stops at an overflow of a
`long` it returns the same. -/
theorem atoi_saturates (str : Units) :
    ((∃ p z, LongestNumeral (trim str) p z ∧ (atoi (some str)).toInt = clamp z) ∨
      ((∀ p z, p <+: trim str → ¬ Numeral p z) ∧ atoi (some str) = 0)) ∧
    atoiIn Long.checked (some str) = some (atoi (some str)) := by
  obtain ⟨sign, σ, rest, r, hsign, hr, htoInt⟩ := checked_atoiIn str
  rw [wrapping_atoiIn hr]
  refine ⟨?_, hr⟩
  by_cases hne : rest.takeWhile IsDigit = []
  · right
    refine ⟨fun p z hp hz => ?_, ?_⟩
    · obtain ⟨ds, hds, -, hprefix⟩ := hsign.prefix_digits hp hz
      rw [hne] at hprefix
      exact hds (List.prefix_nil.1 hprefix)
    · rw [hne] at htoInt
      apply BitVec.eq_of_toInt_eq
      rw [htoInt]
      simp [valueOf, clamp]
  · exact .inl ⟨_, _, hsign.longestNumeral hne, htoInt⟩

end StringtoInteger

end DataFormat

end Xpod
