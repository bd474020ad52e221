import Mathlib.Data.BitVec
import Mathlib.Data.List.Lex
import Mathlib.Tactic
import Xpod.Common.Decimal
import Xpod.LoadIp.Model.Util
/-!
# Dotted quads

The text of an address is four decimal numbers with dots between them, each
below 256 and without leading zeros. `longToIP` and `ipToLong` are inverse
to each other between these texts and the numbers below `2 ^ 32`, and the
order of the numbers is the lexicographic order of the quads.
-/

namespace Xpod

namespace LoadIp

namespace Util

open Decimal

/-- **A dotted quad**: four decimal numbers in 0..255 without leading zeros,
with a dot between two of them. -/
def DottedQuad (s : String) (quad : List ℕ) : Prop :=
  quad.length = 4 ∧ (∀ n ∈ quad, n ≤ 255) ∧
    ∃ parts, s.toList = ['.'].intercalate parts ∧ List.Forall₂ Numeral parts quad

/-- The number a quad stands for. -/
def number (quad : List ℕ) : ℕ := Nat.ofDigits 256 quad.reverse

section Quads

variable {s : String} {quad quad' : List ℕ}

theorem number_eq (a b c d : ℕ) :
    number [a, b, c, d] = a * 2 ^ 24 + b * 2 ^ 16 + c * 2 ^ 8 + d := by
  simp only [number, List.reverse_cons, List.reverse_nil, List.nil_append, List.cons_append,
    Nat.ofDigits_cons, Nat.ofDigits_nil]
  omega

theorem exists_of_length_eq_four (h : quad.length = 4) : ∃ a b c d, quad = [a, b, c, d] := by
  match quad, h with
  | [a, b, c, d], _ => exact ⟨a, b, c, d, rfl⟩

theorem toList_longToIP (n : ℤ) :
    (Util.longToIP n).toList =
      ['.'].intercalate (List.map (Nat.toDigits 10)
        [(n % 2 ^ 64).toNat / 2 ^ 24, (n % 2 ^ 64).toNat % 2 ^ 24 / 2 ^ 16,
          (n % 2 ^ 64).toNat % 2 ^ 16 / 2 ^ 8, (n % 2 ^ 64).toNat % 2 ^ 8]) := by
  have hdot : ".".toList = ['.'] := rfl
  have hnat : ∀ k : ℕ, (toString k).toList = Nat.toDigits 10 k := fun k => Nat.toList_repr
  simp only [Util.longToIP, String.toList_append, hdot, hnat, List.intercalate]
  simp

/-- The text of a quad's number is the quad. -/
theorem toList_longToIP_number (hlength : quad.length = 4) (hle : ∀ n ∈ quad, n ≤ 255) :
    (Util.longToIP (number quad)).toList =
      ['.'].intercalate (quad.map (Nat.toDigits 10)) := by
  obtain ⟨a, b, c, d, rfl⟩ := exists_of_length_eq_four hlength
  simp only [List.forall_mem_cons] at hle
  obtain ⟨ha, hb, hc, hd, -⟩ := hle
  have hnumber := number_eq a b c d
  have hn : ((number [a, b, c, d] : ℤ) % 2 ^ 64).toNat = number [a, b, c, d] := by omega
  have h24 : number [a, b, c, d] / 2 ^ 24 = a := by omega
  have h16 : number [a, b, c, d] % 2 ^ 24 / 2 ^ 16 = b := by omega
  have h8 : number [a, b, c, d] % 2 ^ 16 / 2 ^ 8 = c := by omega
  have h0 : number [a, b, c, d] % 2 ^ 8 = d := by omega
  rw [toList_longToIP, hn, h24, h16, h8, h0]

theorem forall₂_numeral_iff {parts : List (List Char)} :
    List.Forall₂ Numeral parts quad ↔ parts = quad.map (Nat.toDigits 10) := by
  induction parts generalizing quad with
  | nil =>
    rw [List.forall₂_nil_left_iff, ← List.map_eq_nil_iff, eq_comm]
  | cons t parts ih =>
    cases quad with
    | nil => simp
    | cons n quad => simp [numeral_iff, ih]

/-- **The dotted quads are the texts of their numbers.** -/
theorem dottedQuad_iff :
    DottedQuad s quad ↔
      quad.length = 4 ∧ (∀ n ∈ quad, n ≤ 255) ∧ s = Util.longToIP (number quad) := by
  refine and_congr_right fun hlength => and_congr_right fun hle => ?_
  simp only [forall₂_numeral_iff, exists_eq_right, ← toList_longToIP_number hlength hle,
    String.toList_inj]

theorem number_lt (hlength : quad.length = 4) (hle : ∀ n ∈ quad, n ≤ 255) :
    number quad < 2 ^ 32 := by
  obtain ⟨a, b, c, d, rfl⟩ := exists_of_length_eq_four hlength
  simp only [List.forall_mem_cons] at hle
  rw [number_eq]
  omega

/-- The quad of a number. -/
theorem exists_number_eq {n : ℕ} (hn : n < 2 ^ 32) :
    ∃ quad, quad.length = 4 ∧ (∀ k ∈ quad, k ≤ 255) ∧ number quad = n := by
  refine ⟨[n / 2 ^ 24, n / 2 ^ 16 % 256, n / 2 ^ 8 % 256, n % 256], rfl, ?_, ?_⟩
  · simp only [List.forall_mem_cons]
    exact ⟨by omega, by omega, by omega, by omega, by simp⟩
  · rw [number_eq]
    omega

/-- **The order of the numbers is the lexicographic order of the quads.** -/
theorem number_lt_number_iff (hlength : quad.length = 4) (hle : ∀ n ∈ quad, n ≤ 255)
    (hlength' : quad'.length = 4) (hle' : ∀ n ∈ quad', n ≤ 255) :
    number quad < number quad' ↔ quad < quad' := by
  obtain ⟨a, b, c, d, rfl⟩ := exists_of_length_eq_four hlength
  obtain ⟨a', b', c', d', rfl⟩ := exists_of_length_eq_four hlength'
  simp only [List.forall_mem_cons] at hle hle'
  rw [number_eq, number_eq]
  simp only [List.cons_lt_cons_iff, List.not_lt_nil, and_false, or_false]
  omega

end Quads

namespace Registers

/-- An address below `2 ^ 32` is read back from its text. -/
theorem ipToLong_longToIP {n : BitVec 64} (hn : n.toNat < 2 ^ 32) :
    ipToLong (longToIP n) = .ok n := by
  have htoInt : n.toInt = n.toNat := BitVec.toInt_eq_toNat_of_lt (by omega)
  have hread : (ipToLong (longToIP n)).map BitVec.toInt = .ok n.toInt := by
    rw [← ipToLong_eq, longToIP_eq]
    exact Util.ipToLong_longToIP (by omega) (by omega)
  rcases hlong : ipToLong (longToIP n) with e | m
  · rw [hlong] at hread
    cases hread
  · rw [hlong] at hread
    exact congrArg Except.ok (BitVec.toInt_inj.1 (Except.ok.inj hread))

/-- The number of a dotted quad is what `ipToLong` reads. -/
theorem ipToLong_of_dottedQuad {s : String} {quad : List ℕ} (h : DottedQuad s quad) :
    ipToLong s = .ok (BitVec.ofNat 64 (number quad)) ∧
      (BitVec.ofNat 64 (number quad)).toNat = number quad ∧
      longToIP (BitVec.ofNat 64 (number quad)) = s := by
  obtain ⟨hlength, hle, rfl⟩ := dottedQuad_iff.1 h
  have hlt := number_lt hlength hle
  have htoNat : (BitVec.ofNat 64 (number quad)).toNat = number quad := by
    rw [BitVec.toNat_ofNat]
    omega
  have htext : longToIP (BitVec.ofNat 64 (number quad)) = Util.longToIP (number quad) := by
    rw [longToIP_eq, BitVec.toInt_eq_toNat_of_lt (by omega), htoNat]
  refine ⟨?_, htoNat, htext⟩
  rw [← htext, ipToLong_longToIP (by omega)]

/-- **Texts and numbers of addresses correspond.** Every number below
`2 ^ 32` is read back from its text, which is a dotted quad; every dotted
quad is the text of the number that is read from it; and the numbers of two
dotted quads compare as the quads do, lexicographically. -/
theorem quads_correspond :
    (∀ n : BitVec 64, n.toNat < 2 ^ 32 →
      ipToLong (longToIP n) = .ok n ∧ ∃ quad, DottedQuad (longToIP n) quad) ∧
    (∀ s quad, DottedQuad s quad →
      ∃ n, ipToLong s = .ok n ∧ n.toNat < 2 ^ 32 ∧ longToIP n = s) ∧
    ∀ s t quad quad', DottedQuad s quad → DottedQuad t quad' →
      ∃ m n, ipToLong s = .ok m ∧ ipToLong t = .ok n ∧ (m.toInt < n.toInt ↔ quad < quad') := by
  refine ⟨fun n hn => ⟨ipToLong_longToIP hn, ?_⟩, fun s quad h => ?_, fun s t quad quad' h h' => ?_⟩
  · obtain ⟨quad, hlength, hle, hnumber⟩ := exists_number_eq hn
    refine ⟨quad, dottedQuad_iff.2 ⟨hlength, hle, ?_⟩⟩
    rw [longToIP_eq, BitVec.toInt_eq_toNat_of_lt (by omega), hnumber]
  · obtain ⟨hlong, htoNat, htext⟩ := ipToLong_of_dottedQuad h
    exact ⟨_, hlong, htoNat.trans_lt (number_lt h.1 h.2.1), htext⟩
  · obtain ⟨hlong, htoNat, -⟩ := ipToLong_of_dottedQuad h
    obtain ⟨hlong', htoNat', -⟩ := ipToLong_of_dottedQuad h'
    have hlt := number_lt h.1 h.2.1
    have hlt' := number_lt h'.1 h'.2.1
    refine ⟨_, _, hlong, hlong', ?_⟩
    rw [BitVec.toInt_eq_toNat_of_lt (by omega), BitVec.toInt_eq_toNat_of_lt (by omega), htoNat,
      htoNat', Nat.cast_lt, number_lt_number_iff h.1 h.2.1 h'.1 h'.2.1]

end Registers

end Util

end LoadIp

end Xpod
