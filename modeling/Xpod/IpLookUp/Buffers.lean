import Mathlib.Data.BitVec
import Mathlib.Tactic
import Xpod.Common.BigEndian
import Xpod.IpLookUp.Model.Decoder
/-!
# Reading known bytes

What the reads of a buffer give when the bytes at their position are
known.
-/

namespace Xpod

namespace IpLookUp

/-- The bytes from a position on begin with these. -/
def Buffer.HasAt (b : Buffer) (pos : ℕ) (bs : List UInt8) : Prop := bs <+: b.bytes.drop pos

namespace Buffer

instance (b : Buffer) (pos : ℕ) (bs : List UInt8) : Decidable (b.HasAt pos bs) :=
  inferInstanceAs (Decidable (bs <+: b.bytes.drop pos))

variable {b : Buffer} {pos : ℕ} {bs cs : List UInt8}

theorem hasAt_append :
    b.HasAt pos (bs ++ cs) ↔ b.HasAt pos bs ∧ b.HasAt (pos + bs.length) cs := by
  unfold HasAt
  rw [← List.drop_drop]
  constructor
  · rintro ⟨tail, htail⟩
    rw [← htail, List.append_assoc]
    refine ⟨List.prefix_append _ _, ?_⟩
    rw [List.drop_left]
    exact List.prefix_append _ _
  · rintro ⟨⟨tail, htail⟩, hcs⟩
    rw [← htail, List.drop_left] at hcs
    obtain ⟨tail', rfl⟩ := hcs
    exact ⟨tail', by rw [← htail, List.append_assoc]⟩

/-- Bytes lie within the buffer. -/
theorem HasAt.le (h : b.HasAt pos bs) (hbs : 0 < bs.length) :
    pos + bs.length ≤ b.bytes.length := by
  have hlen := h.length_le
  rw [List.length_drop] at hlen
  omega

theorem HasAt.get {x : UInt8} (h : b.HasAt pos (x :: bs)) :
    b.get pos = .ok (x, pos + 1) ∧ b.HasAt (pos + 1) bs := by
  have hsplit : b.HasAt pos [x] ∧ b.HasAt (pos + 1) bs := hasAt_append.1 h
  refine ⟨?_, hsplit.2⟩
  obtain ⟨tail, htail⟩ := h
  have hx : b.bytes[pos]? = some x := by
    rw [← List.head?_drop, ← htail]
    rfl
  rw [Buffer.get, hx]

theorem HasAt.take (h : b.HasAt pos bs) (n : ℕ) : b.HasAt pos (bs.take n) :=
  (List.take_prefix n bs).trans h

theorem take_drop_of_hasAt (h : b.HasAt pos bs) : (b.bytes.drop pos).take bs.length = bs := by
  obtain ⟨tail, htail⟩ := h
  rw [← htail, List.take_left]

theorem HasAt.le_of_le (h : b.HasAt pos bs) (hpos : pos ≤ b.bytes.length) :
    pos + bs.length ≤ b.bytes.length := by
  rcases Nat.eq_zero_or_pos bs.length with hzero | hlen
  · omega
  · exact h.le hlen

theorem HasAt.getByteArray (h : b.HasAt pos bs) (hpos : pos ≤ b.bytes.length) :
    b.getByteArray bs.length pos = .ok bs := by
  rw [Buffer.getByteArray, if_pos (h.le_of_le hpos), take_drop_of_hasAt h]

theorem HasAt.slice (h : b.HasAt pos bs) (hpos : pos ≤ b.bytes.length) :
    b.slice bs.length pos = .ok bs := by
  rw [Buffer.slice, if_pos (h.le_of_le hpos), take_drop_of_hasAt h]

theorem position_ofNat (h : pos ≤ b.bytes.length) :
    b.position (BitVec.ofNat 32 pos) = .ok pos := by
  have hlt := b.length_lt
  have htoNat : (BitVec.ofNat 32 pos).toNat = pos := by
    rw [BitVec.toNat_ofNat]
    omega
  have htoInt : (BitVec.ofNat 32 pos).toInt = pos := by
    rw [BitVec.toInt_eq_toNat_of_lt (by omega), htoNat]
  rw [position, htoInt, htoNat, if_neg (by omega)]

end Buffer

open Buffer

variable {b : Buffer} {pos : ℕ} {bs : List UInt8}

/-- **A number read behind what there is.** -/
theorem shiftIn_eq {w : ℕ} (hw : 8 ≤ w) (h : b.HasAt pos bs) (base : ℕ) :
    shiftIn b (BitVec.ofNat w base) bs.length pos =
      .ok (BitVec.ofNat w (BigEndian.readFrom base bs), pos + bs.length) := by
  induction bs generalizing base pos with
  | nil => rfl
  | cons x bs ih =>
    obtain ⟨hget, hbs⟩ := h.get
    rw [List.length_cons, shiftIn, hget, Java.ok_bind]
    simp only [unsigned, BigEndian.shiftLeft_or_eq hw base x, ih hbs]
    rw [Nat.add_right_comm, Nat.add_assoc pos]
    rfl

/-- A number that was written is read back. -/
theorem shiftIn_write {w size n : ℕ} (hw : 8 ≤ w) (hn : n < 256 ^ size)
    (h : b.HasAt pos (BigEndian.write size n)) :
    shiftIn b (0 : BitVec w) size pos = .ok (BitVec.ofNat w n, pos + size) := by
  have hshift := shiftIn_eq hw h 0
  have hread := BigEndian.read_write hn
  rw [BigEndian.read] at hread
  rw [BigEndian.length_write, hread] at hshift
  exact hshift

end IpLookUp

end Xpod
