import Mathlib.Data.List.Basic
import Mathlib.Tactic
/-!
# Texts as bytes

Texts as UTF-8. Bytes below 128 stand for the characters below 128
and for nothing else, so a separator of that kind is a separator among the
bytes too.
-/

namespace Xpod

namespace Utf8

/-- The bytes of a text. -/
def encode (s : List Char) : List UInt8 := s.flatMap String.utf8EncodeChar

@[simp] theorem encode_nil : encode [] = [] := rfl

@[simp] theorem encode_append (s s' : List Char) : encode (s ++ s') = encode s ++ encode s' :=
  List.flatMap_append

theorem encode_cons (c : Char) (s : List Char) :
    encode (c :: s) = String.utf8EncodeChar c ++ encode s := rfl

/-- How many bytes at the front one replacement character stands for, if
they are no character: as many as can begin one. -/
def malformedLength : List UInt8 → ℕ
  | b₁ :: b₂ :: bs =>
    if 0xE0 ≤ b₁ ∧ b₁ ≤ 0xF4 ∧ 0x80 ≤ b₂ ∧ b₂ < 0xC0 ∧ ¬ (b₁ = 0xE0 ∧ b₂ < 0xA0) ∧
        ¬ (b₁ = 0xF0 ∧ b₂ < 0x90) ∧ ¬ (b₁ = 0xF4 ∧ 0x90 ≤ b₂) then
      match bs with
      | b₃ :: _ => if 0x80 ≤ b₃ ∧ b₃ < 0xC0 then 3 else 2
      | [] => 2
    else 1
  | _ => 1

/-- The text that bytes stand for, of at most `fuel` characters. -/
def decodeFuel : ℕ → List UInt8 → List Char
  | 0, _ => []
  | _ + 1, [] => []
  | fuel + 1, b :: bs =>
    match (b :: bs).toByteArray.utf8DecodeChar? 0 with
    | some c => c :: decodeFuel fuel ((b :: bs).drop c.utf8Size)
    | none => '\uFFFD' :: decodeFuel fuel ((b :: bs).drop (malformedLength (b :: bs)))

/-- The text that bytes stand for. Bytes that are no character are
replaced. -/
def decode (bs : List UInt8) : List Char := decodeFuel bs.length bs

/-- A character is read off the front. -/
theorem decodeFuel_encode_append (s : List Char) (fuel : ℕ) (bs : List UInt8) :
    decodeFuel (s.length + fuel) (encode s ++ bs) = s ++ decodeFuel fuel bs := by
  induction s with
  | nil => rw [List.length_nil, Nat.zero_add, encode_nil, List.nil_append, List.nil_append]
  | cons c s ih =>
    have hfirst : (encode (c :: s) ++ bs).toByteArray.utf8DecodeChar? 0 = some c := by
      rw [encode_cons, List.append_assoc, List.toByteArray_append]
      exact ByteArray.utf8DecodeChar?_utf8EncodeChar_append
    have hdrop : (encode (c :: s) ++ bs).drop c.utf8Size = encode s ++ bs := by
      rw [encode_cons, List.append_assoc, List.drop_left' (String.length_utf8EncodeChar c)]
    obtain ⟨b, tail, htail⟩ : ∃ b tail, encode (c :: s) ++ bs = b :: tail :=
      List.exists_cons_of_ne_nil (by simp [encode_cons])
    rw [htail] at hfirst hdrop ⊢
    rw [List.length_cons, Nat.add_right_comm, decodeFuel, hfirst]
    simp only [hdrop, ih, List.cons_append]

theorem length_decodeFuel_le (fuel : ℕ) (bs : List UInt8) :
    (decodeFuel fuel bs).length ≤ bs.length := by
  induction fuel generalizing bs with
  | zero => exact Nat.zero_le _
  | succ fuel ih =>
    cases bs with
    | nil => rfl
    | cons b bs =>
      rw [decodeFuel]
      -- a character and a replacement each take a byte at least
      have hstep : ∀ n, 0 < n →
          (decodeFuel fuel ((b :: bs).drop n)).length + 1 ≤ (b :: bs).length := by
        intro n hn
        have hle := ih ((b :: bs).drop n)
        rw [List.length_drop, List.length_cons] at hle
        rw [List.length_cons]
        omega
      rcases (b :: bs).toByteArray.utf8DecodeChar? 0 with - | c
      · refine hstep _ ?_
        unfold malformedLength
        split
        · split_ifs
          · split
            · split_ifs <;> decide
            · decide
          · decide
        · decide
      · exact hstep _ c.utf8Size_pos

theorem length_le_length_encode (s : List Char) : s.length ≤ (encode s).length := by
  induction s with
  | nil => rfl
  | cons c s ih =>
    rw [encode_cons, List.length_append, String.length_utf8EncodeChar, List.length_cons]
    have hpos := c.utf8Size_pos
    omega

theorem length_encode_le (s : List Char) : (encode s).length ≤ 4 * s.length := by
  induction s with
  | nil => rfl
  | cons c s ih =>
    rw [encode_cons, List.length_append, String.length_utf8EncodeChar, List.length_cons]
    have hle := c.utf8Size_le_four
    omega

/-- **A text is read back from its bytes.** -/
theorem decode_encode (s : List Char) : decode (encode s) = s := by
  obtain ⟨fuel, hfuel⟩ := Nat.exists_eq_add_of_le (length_le_length_encode s)
  have hread := decodeFuel_encode_append s fuel []
  rw [List.append_nil, ← hfuel] at hread
  rw [decode, hread]
  cases fuel <;> exact List.append_nil s

/-- A text cut off is a shorter text and some bytes of one character. -/
theorem take_encode (s : List Char) (m : ℕ) :
    ∃ t u p, s = t ++ u ∧ (encode s).take m = encode t ++ p ∧ p.length ≤ 4 := by
  induction s generalizing m with
  | nil => exact ⟨[], [], [], rfl, List.take_nil, Nat.zero_le _⟩
  | cons c s ih =>
    rcases Nat.lt_or_ge m c.utf8Size with hcut | hwhole
    · refine ⟨[], c :: s, (encode (c :: s)).take m, rfl, rfl, ?_⟩
      have hle := c.utf8Size_le_four
      rw [List.length_take]
      omega
    · obtain ⟨t, u, p, hsplit, htake, hp⟩ := ih (m - c.utf8Size)
      refine ⟨c :: t, u, p, by rw [hsplit, List.cons_append], ?_, hp⟩
      rw [encode_cons, List.take_append, String.length_utf8EncodeChar, htake,
        List.take_of_length_le (by rw [String.length_utf8EncodeChar]; exact hwhole),
        encode_cons, List.append_assoc]

/-- **A text cut off is not read as the whole**, if more is cut off than
four characters. -/
theorem le_of_decode_take {s : List Char} {m : ℕ} (hm : m ≤ (encode s).length)
    (h : decode ((encode s).take m) = s) : (encode s).length ≤ m + 16 := by
  obtain ⟨t, u, p, rfl, htake, hp⟩ := take_encode s m
  have hlen : m = (encode t).length + p.length := by
    have hlength := congrArg List.length htake
    rw [List.length_take, List.length_append] at hlength
    omega
  have hfuel : (encode t ++ p).length = t.length + ((encode t).length - t.length + p.length) := by
    have hle := length_le_length_encode t
    rw [List.length_append]
    omega
  rw [htake, decode, hfuel, decodeFuel_encode_append] at h
  -- what is read of the cut character stands for all the rest
  have hrest := congrArg List.length (List.append_cancel_left h)
  have hshort := length_decodeFuel_le ((encode t).length - t.length + p.length) p
  have hu := length_encode_le u
  rw [encode_append, List.length_append]
  omega

/-- Different texts have different bytes. -/
theorem encode_injective : Function.Injective encode :=
  Function.LeftInverse.injective decode_encode

/-- A character below 128 is one byte. -/
theorem utf8EncodeChar_of_lt {c : Char} (h : c.toNat < 128) :
    String.utf8EncodeChar c = [UInt8.ofNat c.toNat] := by
  have hc : c.val.toNat ≤ 127 := Nat.le_of_lt_succ h
  rw [String.utf8EncodeChar, if_pos hc]
  rfl

/-- Characters below 128 take a byte each. -/
theorem length_encode_of_lt {s : List Char} (h : ∀ c ∈ s, c.toNat < 128) :
    (encode s).length = s.length := by
  induction s with
  | nil => rfl
  | cons c s ih =>
    obtain ⟨hc, hs⟩ := List.forall_mem_cons.1 h
    rw [encode_cons, List.length_append, utf8EncodeChar_of_lt hc, ih hs, List.length_singleton,
      List.length_cons, Nat.add_comm]

/-- The bytes of every other character are 128 or more. -/
theorem le_of_mem_utf8EncodeChar {c : Char} (h : 128 ≤ c.toNat) {b : UInt8}
    (hb : b ∈ String.utf8EncodeChar c) : 128 ≤ b.toNat := by
  have hc : ¬ c.val.toNat ≤ 127 := Nat.not_le.2 h
  rw [String.utf8EncodeChar, if_neg hc] at hb
  split_ifs at hb
  all_goals simp only [List.mem_cons, List.not_mem_nil, or_false] at hb
  · rcases hb with rfl | rfl <;> rw [UInt8.toNat_ofNat'] <;> omega
  · rcases hb with rfl | rfl | rfl <;> rw [UInt8.toNat_ofNat'] <;> omega
  · rcases hb with rfl | rfl | rfl | rfl <;> rw [UInt8.toNat_ofNat'] <;> omega

/-- A byte below 128 is a character of the text. -/
theorem of_mem_encode {b : UInt8} {s : List Char} (hb : b ∈ encode s) (hlt : b.toNat < 128) :
    ∃ c ∈ s, c.toNat = b.toNat := by
  obtain ⟨c, hc, hb⟩ := List.mem_flatMap.1 hb
  refine ⟨c, hc, ?_⟩
  rcases Nat.lt_or_ge c.toNat 128 with hascii | hother
  · rw [utf8EncodeChar_of_lt hascii] at hb
    rw [List.mem_singleton.1 hb, UInt8.toNat_ofNat']
    omega
  · have hge := le_of_mem_utf8EncodeChar hother hb
    omega

/-- A text of small characters has small bytes. -/
theorem lt_of_mem_encode {s : List Char} {n : ℕ} (hn : n ≤ 128) (hs : ∀ c ∈ s, c.toNat < n)
    {b : UInt8} (hb : b ∈ encode s) : b.toNat < n := by
  obtain ⟨c, hc, hb⟩ := List.mem_flatMap.1 hb
  have hlt := hs c hc
  rw [utf8EncodeChar_of_lt (by omega)] at hb
  rw [List.mem_singleton.1 hb, UInt8.toNat_ofNat']
  omega

/-- A text without a character has no byte of it. -/
theorem not_mem_encode {c : Char} (hc : c.toNat < 128) {s : List Char} (hs : c ∉ s) :
    UInt8.ofNat c.toNat ∉ encode s := by
  intro hmem
  have hnat : (UInt8.ofNat c.toNat).toNat = c.toNat := by
    rw [UInt8.toNat_ofNat']
    omega
  obtain ⟨d, hd, hdc⟩ := of_mem_encode hmem (by omega)
  rw [Char.toNat_inj.1 (hdc.trans hnat)] at hd
  exact hs hd

/-- Bytes that begin like a text are those of a text that begins like it. -/
theorem encode_eq_append {s t : List Char} {bs : List UInt8} (h : encode s = encode t ++ bs) :
    ∃ u, s = t ++ u ∧ encode u = bs := by
  have hbytes : t.utf8Encode ++ bs.toByteArray = s.utf8Encode := by
    have htoByteArray := congrArg List.toByteArray h
    rw [List.toByteArray_append] at htoByteArray
    exact htoByteArray.symm
  obtain ⟨u, rfl⟩ := List.isPrefix_of_utf8Encode_append_eq_utf8Encode _ hbytes
  rw [encode_append] at h
  exact ⟨u, rfl, List.append_cancel_left h⟩

/-- A first byte below 128 is the first character. -/
theorem encode_eq_cons {c : Char} (hc : c.toNat < 128) {s : List Char} {bs : List UInt8}
    (h : encode s = UInt8.ofNat c.toNat :: bs) : ∃ u, s = c :: u ∧ encode u = bs := by
  have hsingle : encode [c] = [UInt8.ofNat c.toNat] := by
    rw [encode_cons, utf8EncodeChar_of_lt hc]
    rfl
  have happend : encode s = encode [c] ++ bs := by
    rw [h, hsingle]
    rfl
  exact encode_eq_append happend

end Utf8

end Xpod
