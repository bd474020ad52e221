import Mathlib.Data.BitVec
import Mathlib.Tactic
import Xpod.Common.Java
import Xpod.LoadIp.Model.Location
/-!
# Addresses in registers

`Util.java` as it computes: on the 64 bits of a `long`, with its masks and
shifts, and on the positions of the dots in a text. The forms on integers
and on what stands in front of a dot, which the loader's model uses, say the
same (`longToIP_eq`, `ipToLong_eq`).
-/

namespace Xpod

namespace LoadIp

namespace Util

namespace Registers

/-! ## Strings -/

/-- `indexOf(".", fromIndex)`: -1 when there is none. -/
def indexOf (s : List Char) (fromIndex : ℤ) : ℤ :=
  match (s.drop fromIndex.toNat).idxOf? '.' with
  | none => -1
  | some i => fromIndex.toNat + i

/-- `substring(beginIndex, endIndex)` -/
def substring (s : List Char) (beginIndex endIndex : ℤ) : Except Java.Exception (List Char) :=
  if beginIndex < 0 ∨ s.length < endIndex ∨ endIndex < beginIndex then
    .error .stringIndexOutOfBounds
  else .ok ((s.take endIndex.toNat).drop beginIndex.toNat)

/-- `String.valueOf(l)` -/
def valueOf (l : BitVec 64) : String := toString l.toInt

/-! ## The two directions -/

/-- `Util.ipToLong` -/
def ipToLong (strIp : String) : Except Java.Exception (BitVec 64) := do
  let s := strIp.toList
  let position1 := indexOf s 0
  let position2 := indexOf s (position1 + 1)
  let position3 := indexOf s (position2 + 1)
  let ip0 ← substring s 0 position1 >>= parseLong
  let ip1 ← substring s (position1 + 1) position2 >>= parseLong
  let ip2 ← substring s (position2 + 1) position3 >>= parseLong
  let ip3 ← substring s (position3 + 1) s.length >>= parseLong
  return (BitVec.ofInt 64 ip0 <<< 24) + (BitVec.ofInt 64 ip1 <<< 16) +
    (BitVec.ofInt 64 ip2 <<< 8) + BitVec.ofInt 64 ip3

/-- `Util.longToIP` -/
def longToIP (longIp : BitVec 64) : String :=
  valueOf (longIp >>> 24) ++ "." ++ valueOf ((longIp &&& 0x00FFFFFF) >>> 16) ++ "." ++
    valueOf ((longIp &&& 0x0000FFFF) >>> 8) ++ "." ++ valueOf (longIp &&& 0x000000FF)

example : longToIP 3232235777 = "192.168.1.1" := by decide

/-! ## On integers -/

/-- A value that is not negative is printed as a natural number. -/
theorem valueOf_eq {l : BitVec 64} (h : l.toNat < 2 ^ 63) : valueOf l = toString l.toNat := by
  rw [valueOf, BitVec.toInt_eq_toNat_of_lt (by omega)]
  rfl

/-- A mask of so many ones takes the remainder. -/
theorem toNat_and_mask (l : BitVec 64) {mask : BitVec 64} {k : ℕ} (h : mask.toNat = 2 ^ k - 1) :
    (l &&& mask).toNat = l.toNat % 2 ^ k := by
  rw [BitVec.toNat_and, h, Nat.and_two_pow_sub_one_eq_mod]

/-- **The masks and shifts are remainders and quotients.** -/
theorem longToIP_eq (longIp : BitVec 64) : longToIP longIp = Util.longToIP longIp.toInt := by
  have hlt := longIp.isLt
  have hn : (longIp.toInt % 2 ^ 64).toNat = longIp.toNat := by
    rw [BitVec.toInt_eq_toNat_cond]
    split <;> omega
  have h24 : (longIp &&& 0x00FFFFFF).toNat = longIp.toNat % 2 ^ 24 := toNat_and_mask longIp rfl
  have h16 : (longIp &&& 0x0000FFFF).toNat = longIp.toNat % 2 ^ 16 := toNat_and_mask longIp rfl
  have h8 : (longIp &&& 0x000000FF).toNat = longIp.toNat % 2 ^ 8 := toNat_and_mask longIp rfl
  unfold longToIP Util.longToIP
  rw [hn, valueOf_eq, valueOf_eq, valueOf_eq, valueOf_eq]
  · simp only [BitVec.toNat_ushiftRight, Nat.shiftRight_eq_div_pow, h24, h16, h8]
  all_goals
    simp only [BitVec.toNat_ushiftRight, Nat.shiftRight_eq_div_pow, h24, h16, h8]
    omega

/-! ## Between the dots -/

theorem idxOf?_eq_cutAt (s : List Char) :
    s.idxOf? '.' = (Java.cutAt '.' s).map fun p => p.1.length := by
  induction s with
  | nil => rfl
  | cons c s ih =>
    rw [List.idxOf?_cons, Java.cutAt, ih]
    by_cases hc : c = '.'
    · rw [if_pos (beq_iff_eq.2 hc), if_pos hc]
      rfl
    · rw [if_neg (mt beq_iff_eq.1 hc), if_neg hc, Option.map_map, Option.map_map]
      rfl

/-- **The text up to the next dot**, from a position on: without a dot the
position is -1, and `substring` throws. -/
theorem substring_cases {s : List Char} {p : ℕ} (hp : p ≤ s.length) :
    (toDot (s.drop p) = .error .stringIndexOutOfBounds ∧
      substring s p (indexOf s p) = .error .stringIndexOutOfBounds) ∨
    ∃ part, ∃ q : ℕ, toDot (s.drop p) = .ok (part, s.drop q) ∧
      substring s p (indexOf s p) = .ok part ∧ indexOf s p + 1 = q ∧ q ≤ s.length := by
  have hindex := idxOf?_eq_cutAt (s.drop p)
  unfold toDot indexOf
  rw [Int.toNat_natCast, hindex]
  rcases hcut : Java.cutAt '.' (s.drop p) with - | ⟨part, rest⟩
  · left
    refine ⟨rfl, ?_⟩
    simp only [Option.map_none, substring]
    rw [if_pos (by omega)]
  · right
    obtain ⟨hdrop, -⟩ := Java.cutAt_eq_some.1 hcut
    have hlength := congrArg List.length hdrop
    rw [List.length_drop, List.length_append, List.length_cons] at hlength
    have hrest : s.drop (p + part.length + 1) = rest := by
      rw [Nat.add_assoc, ← List.drop_drop, hdrop, ← List.drop_drop, List.drop_left]
      rfl
    refine ⟨part, p + part.length + 1, by rw [hrest], ?_, by simp, by omega⟩
    simp only [Option.map_some, substring]
    rw [if_neg (by omega), ← Nat.cast_add, Int.toNat_natCast, Int.toNat_natCast, List.drop_take,
      hdrop, Nat.add_sub_cancel_left, List.take_left]

theorem substring_rest {s : List Char} {p : ℕ} (hp : p ≤ s.length) :
    substring s p s.length = .ok (s.drop p) := by
  rw [substring, if_neg (by omega), Int.toNat_natCast, Int.toNat_natCast, List.take_length]

/-- The shifted parts add up as integers do, up to the width of a `long`. -/
theorem toInt_parts (ip0 ip1 ip2 ip3 : ℤ) :
    ((BitVec.ofInt 64 ip0 <<< 24) + (BitVec.ofInt 64 ip1 <<< 16) +
      (BitVec.ofInt 64 ip2 <<< 8) + BitVec.ofInt 64 ip3).toInt =
      wrap (ip0 * 2 ^ 24 + ip1 * 2 ^ 16 + ip2 * 2 ^ 8 + ip3) := by
  have hshift : ∀ (z : ℤ) (k : ℕ), BitVec.ofInt 64 z <<< k = BitVec.ofInt 64 (z * 2 ^ k) := by
    intro z k
    have hpow : (2 ^ k : ℤ) = ((2 ^ k : ℕ) : ℤ) := by push_cast; rfl
    have htwo : BitVec.twoPow 64 k = BitVec.ofNat 64 (2 ^ k) := by
      refine BitVec.eq_of_toNat_eq ?_
      rw [BitVec.toNat_twoPow, BitVec.toNat_ofNat]
    rw [BitVec.shiftLeft_eq_mul_twoPow, BitVec.ofInt_mul, hpow, BitVec.ofInt_natCast, htwo]
  rw [hshift, hshift, hshift, ← BitVec.ofInt_add, ← BitVec.ofInt_add, ← BitVec.ofInt_add,
    BitVec.toInt_ofInt]
  rfl

/-- **The positions of the dots cut the text as the cuts at the first dot
do**, and the exceptions are the same. -/
theorem ipToLong_eq (strIp : String) :
    Util.ipToLong strIp = (ipToLong strIp).map BitVec.toInt := by
  have hfirst := substring_cases (Nat.zero_le strIp.toList.length)
  rw [List.drop_zero, Nat.cast_zero] at hfirst
  unfold Util.ipToLong ipToLong
  dsimp only
  -- part by part: the dot is found, and what stands in front of it is read
  obtain ⟨hdot, hsub⟩ | ⟨s0, p, hdot, hsub, hp, hple⟩ := hfirst
  · rw [hdot, hsub]
    rfl
  simp only [hdot, hsub, hp, Java.ok_bind]
  rcases parseLong s0 with e | ip0
  · rfl
  obtain ⟨hdot, hsub⟩ | ⟨s1, q, hdot, hsub, hq, hqle⟩ := substring_cases hple
  · simp only [hdot, hsub, Java.ok_bind]
    rfl
  simp only [hdot, hsub, hq, Java.ok_bind]
  rcases parseLong s1 with e | ip1
  · rfl
  obtain ⟨hdot, hsub⟩ | ⟨s2, k, hdot, hsub, hk, hkle⟩ := substring_cases hqle
  · simp only [hdot, hsub, Java.ok_bind]
    rfl
  simp only [hdot, hsub, hk, Java.ok_bind, substring_rest hkle]
  rcases parseLong s2 with e | ip2
  · rfl
  simp only [Java.ok_bind]
  rcases parseLong (strIp.toList.drop k) with e | ip3
  · rfl
  exact congrArg Except.ok (toInt_parts ip0 ip1 ip2 ip3).symm

end Registers

end Util

end LoadIp

end Xpod
