import Mathlib.Data.BitVec
import Mathlib.Tactic
import Xpod.Common.BigEndian
import Xpod.IpLookUp.Buffers
import Xpod.IpLookUp.Format
/-!
# Reading control bytes

What `decode` makes of the bytes in front of a payload and of a pointer.
The decoder keeps only 20 of the 24 bits of a size of three bytes, so a
large payload is taken for a smaller one: `seenSize`.
-/

namespace Xpod

namespace IpLookUp

open Buffer

/-! ## Bits of a control byte -/

theorem unsigned_ofNat {c : ℕ} (hc : c < 256) :
    unsigned 32 (UInt8.ofNat c) = BitVec.ofNat 32 c := by
  apply BitVec.eq_of_toNat_eq
  rw [unsigned, BitVec.toNat_setWidth, UInt8.toNat_toBitVec, UInt8.toNat_ofNat',
    BitVec.toNat_ofNat, Nat.mod_eq_of_lt hc]

theorem ofNat_and_mask {i : ℕ} (hi : i ≤ 32) (n : ℕ) :
    BitVec.ofNat 32 n &&& BitVec.ofNat 32 (2 ^ i - 1) = BitVec.ofNat 32 (n % 2 ^ i) := by
  apply BitVec.eq_of_toNat_eq
  have hle : 2 ^ i ≤ 2 ^ 32 := Nat.pow_le_pow_right (by decide) hi
  have hpos : 0 < 2 ^ i := Nat.two_pow_pos i
  have hlt := Nat.mod_lt n hpos
  rw [BitVec.toNat_and, BitVec.toNat_ofNat, BitVec.toNat_ofNat, BitVec.toNat_ofNat,
    Nat.mod_eq_of_lt (by omega : 2 ^ i - 1 < 2 ^ 32), Nat.and_two_pow_sub_one_eq_mod,
    Nat.mod_mod_of_dvd n (Nat.pow_dvd_pow 2 hi), Nat.mod_eq_of_lt (by omega : n % 2 ^ i < 2 ^ 32)]

theorem ofNat_shiftRight {n : ℕ} (hn : n < 2 ^ 32) (i : ℕ) :
    BitVec.ofNat 32 n >>> i = BitVec.ofNat 32 (n / 2 ^ i) := by
  apply BitVec.eq_of_toNat_eq
  have hle := Nat.div_le_self n (2 ^ i)
  rw [BitVec.toNat_ushiftRight, BitVec.toNat_ofNat, BitVec.toNat_ofNat, Nat.mod_eq_of_lt hn,
    Nat.shiftRight_eq_div_pow, Nat.mod_eq_of_lt (by omega)]

theorem toNat_ofNat_of_lt {n : ℕ} (hn : n < 2 ^ 32) : (BitVec.ofNat 32 n).toNat = n := by
  rw [BitVec.toNat_ofNat, Nat.mod_eq_of_lt hn]

theorem fromControlByte_ofNat {c : ℕ} (hc : c < 256) :
    Kind.fromControlByte (BitVec.ofNat 32 c) = Kind.get (BitVec.ofNat 32 (c / 32)) := by
  have hmask := ofNat_and_mask (i := 8) (by decide) c
  rw [Nat.mod_eq_of_lt (show c < 2 ^ 8 from hc)] at hmask
  have hcomm : (0xFF : BitVec 32) &&& BitVec.ofNat 32 c = BitVec.ofNat 32 c := by
    rw [BitVec.and_comm]
    exact hmask
  rw [Kind.fromControlByte, hcomm, ofNat_shiftRight (by omega)]
  rfl

/-! ## Sizes -/

/-- The size that the decoder takes a payload to have. -/
def seenSize (size : ℕ) : ℕ :=
  if size < 65821 then size else 65821 + (size - 65821) % 2 ^ 20

/-- Sizes from here on are not seen as they are. -/
def sizeLimit : ℕ := 65821 + 2 ^ 20

theorem seenSize_of_lt {size : ℕ} (h : size < sizeLimit) : seenSize size = size := by
  unfold seenSize
  unfold sizeLimit at h
  split_ifs <;> omega

theorem seenSize_lt (size : ℕ) : seenSize size < sizeLimit := by
  unfold seenSize sizeLimit
  split_ifs <;> omega

/-- A size that is not seen as it is is seen as a much smaller one. -/
theorem seenSize_add_le {size : ℕ} (h : sizeLimit ≤ size) : seenSize size + 2 ^ 20 ≤ size := by
  unfold seenSize
  unfold sizeLimit at h
  split_ifs <;> omega

theorem seenSize_le (size : ℕ) : seenSize size ≤ size := by
  rcases Nat.lt_or_ge size sizeLimit with hlt | hge
  · exact (seenSize_of_lt hlt).le
  · exact (Nat.le_add_right _ _).trans (seenSize_add_le hge)

theorem sizeField_lt (size : ℕ) : (sizeField size).1 < 32 := by
  unfold sizeField
  split_ifs <;> simp only <;> omega

variable {d : Decoder} {pos off c size : ℕ}

theorem ofNat_add_ofNat_sub {m n : ℕ} (h : m ≤ n) :
    BitVec.ofNat 32 m + BitVec.ofNat 32 (n - m) = BitVec.ofNat 32 n := by
  rw [← BitVec.ofNat_add, Nat.add_sub_cancel' h]

section Branches

variable {ctrlByte offset : BitVec 32}

theorem sizeFromCtrlByte_of_lt (h : (ctrlByte &&& 0x1f).toNat < 29) :
    d.sizeFromCtrlByte ctrlByte offset pos = .ok (ctrlByte &&& 0x1f, offset, pos) := by
  have hne : ∀ n : BitVec 32, 29 ≤ n.toNat → ¬ ctrlByte &&& 0x1f = n := by
    rintro n hn rfl
    omega
  unfold Decoder.sizeFromCtrlByte
  simp only [if_pos h, if_neg (hne 29 (by decide)), if_neg (hne 30 (by decide)),
    if_neg (show ¬ 30 < (ctrlByte &&& 0x1f).toNat by omega)]
  exact congrArg (fun offset => Except.ok (ctrlByte &&& 0x1f, offset, pos)) (BitVec.add_zero _)

theorem sizeFromCtrlByte_of_eq_29 (h : ctrlByte &&& 0x1f = 29) :
    d.sizeFromCtrlByte ctrlByte offset pos = do
      let (i, pos) ← decodeInteger d.buffer 0 1 pos
      return (29 + i, offset + 1, pos) := by
  unfold Decoder.sizeFromCtrlByte
  rw [h]
  rfl

theorem sizeFromCtrlByte_of_eq_30 (h : ctrlByte &&& 0x1f = 30) :
    d.sizeFromCtrlByte ctrlByte offset pos = do
      let (i, pos) ← decodeInteger d.buffer 0 2 pos
      return (285 + i, offset + 2, pos) := by
  unfold Decoder.sizeFromCtrlByte
  rw [h]
  rfl

theorem sizeFromCtrlByte_of_eq_31 (h : ctrlByte &&& 0x1f = 31) :
    d.sizeFromCtrlByte ctrlByte offset pos = do
      let (i, pos) ← decodeInteger d.buffer 0 3 pos
      return (65821 + (i &&& BitVec.ofNat 32 (2 ^ 20 - 1)), offset + 3, pos) := by
  unfold Decoder.sizeFromCtrlByte
  rw [h]
  rfl

end Branches

/-- **A size as the decoder reads it.** -/
theorem sizeFromCtrlByte_eq (hfield : c % 32 = (sizeField size).1) (hsize : size < Value.maxSize)
    (h : d.buffer.HasAt pos (sizeField size).2) (off : ℕ) :
    d.sizeFromCtrlByte (BitVec.ofNat 32 c) (BitVec.ofNat 32 off) pos =
      .ok (BitVec.ofNat 32 (seenSize size), BitVec.ofNat 32 (off + (sizeField size).2.length),
        pos + (sizeField size).2.length) := by
  have hmask : BitVec.ofNat 32 c &&& 0x1f = BitVec.ofNat 32 (sizeField size).1 := by
    rw [← hfield]
    exact ofNat_and_mask (i := 5) (by decide) c
  have hoff : ∀ n, BitVec.ofNat 32 off + BitVec.ofNat 32 n = BitVec.ofNat 32 (off + n) :=
    fun n => (BitVec.ofNat_add off n).symm
  unfold Value.maxSize at hsize
  unfold sizeField at h hmask ⊢
  by_cases h29 : size < 29
  · rw [if_pos h29] at hmask ⊢
    have hnat : (BitVec.ofNat 32 size).toNat = size := toNat_ofNat_of_lt (by omega)
    rw [sizeFromCtrlByte_of_lt (by rw [hmask, hnat]; exact h29), hmask, seenSize,
      if_pos (by omega)]
    rfl
  rw [if_neg h29] at h hmask ⊢
  by_cases h285 : size < 285
  · rw [if_pos h285] at h hmask ⊢
    have hread : decodeInteger d.buffer 0 1 pos = _ :=
      shiftIn_write (by decide) (show size - 29 < 256 ^ 1 by omega) h
    rw [sizeFromCtrlByte_of_eq_29 hmask, hread, seenSize, if_pos (by omega),
      ← ofNat_add_ofNat_sub (not_lt.1 h29), ← hoff]
    rfl
  rw [if_neg h285] at h hmask ⊢
  by_cases h65821 : size < 65821
  · rw [if_pos h65821] at h hmask ⊢
    have hread : decodeInteger d.buffer 0 2 pos = _ :=
      shiftIn_write (by decide) (show size - 285 < 256 ^ 2 by omega) h
    rw [sizeFromCtrlByte_of_eq_30 hmask, hread, seenSize, if_pos h65821,
      ← ofNat_add_ofNat_sub (not_lt.1 h285), ← hoff]
    rfl
  rw [if_neg h65821] at h hmask ⊢
  have hread : decodeInteger d.buffer 0 3 pos = _ :=
    shiftIn_write (by decide) (show size - 65821 < 256 ^ 3 by omega) h
  rw [sizeFromCtrlByte_of_eq_31 hmask, hread, seenSize, if_neg h65821, ← hoff, BitVec.ofNat_add,
    ← ofNat_and_mask (by decide)]
  rfl

/-! ## The first bytes of a value -/

variable {x : UInt8} {bs : List UInt8}

/-- `decode` from the control byte on. -/
theorem decode_succ (h : d.buffer.HasAt off (x :: bs)) (stack : ℕ) :
    d.decode (stack + 1) (BitVec.ofNat 32 off) = (do
      let kind ← Kind.fromControlByte (unsigned 32 x)
      if kind = .pointer then
        let (pointer, newOffset) ←
          d.decodePointer (unsigned 32 x) (BitVec.ofNat 32 (off + 1)) (off + 1)
        let (node, _) ← d.decode stack (pointer.setWidth 32)
        return (node, newOffset)
      else if kind = .extended then
        let (nextByte, pos) ← d.buffer.get (off + 1)
        let kind ← Decoder.extendedKind nextByte
        let (size, offset, pos) ←
          d.sizeFromCtrlByte (unsigned 32 x) (BitVec.ofNat 32 (off + 2)) pos
        d.decodeByType (d.decode stack) kind offset size pos
      else
        let (size, offset, pos) ←
          d.sizeFromCtrlByte (unsigned 32 x) (BitVec.ofNat 32 (off + 1)) (off + 1)
        d.decodeByType (d.decode stack) kind offset size pos) := by
  have hlt : off < d.buffer.bytes.length := by
    have hle := h.le (by simp)
    rw [List.length_cons] at hle
    omega
  have htoInt : (BitVec.ofNat 32 off).toInt = off := by
    have hlength := d.buffer.length_lt
    rw [BitVec.toInt_eq_toNat_of_lt (by rw [toNat_ofNat_of_lt (by omega)]; omega),
      toNat_ofNat_of_lt (by omega)]
  rw [Decoder.decode, htoInt, if_neg (by omega), position_ofNat hlt.le, Java.ok_bind, h.get.1,
    BitVec.ofNat_add off 1, BitVec.ofNat_add off 2]
  have hnext : BitVec.ofNat 32 off + BitVec.ofNat 32 2 = BitVec.ofNat 32 off + 1 + 1 := by
    rw [BitVec.add_assoc]
    rfl
  rw [hnext]
  rfl

/-- The type of a value, as the decoder names it. -/
def Value.kind : Value → Kind
  | string _ => .utf8String
  | bytes _ => .bytes
  | boolean _ => .boolean
  | uint16 _ => .uint16
  | uint32 _ => .uint32
  | int32 _ => .int32
  | uint64 _ => .uint64
  | uint128 _ => .uint128
  | array _ => .array
  | map _ => .map

theorem header_of_le {type : ℕ} (h : type ≤ 7) (size : ℕ) :
    header type size = UInt8.ofNat (type * 32 + (sizeField size).1) :: (sizeField size).2 :=
  if_pos h

theorem header_of_lt {type : ℕ} (h : 7 < type) (size : ℕ) :
    header type size =
      UInt8.ofNat (sizeField size).1 :: UInt8.ofNat (type - 7) :: (sizeField size).2 :=
  if_neg (by omega)

/-- A type that the control byte has room for. -/
theorem decode_header_of_le {type : ℕ} {kind : Kind} (htype : type ≤ 7)
    (hkind : Kind.get (BitVec.ofNat 32 type) = .ok kind) (hpointer : kind ≠ .pointer)
    (hextended : kind ≠ .extended) (hsize : size < Value.maxSize)
    (h : d.buffer.HasAt off (header type size)) (stack : ℕ) :
    d.decode (stack + 1) (BitVec.ofNat 32 off) =
      d.decodeByType (d.decode stack) kind (BitVec.ofNat 32 (off + (header type size).length))
        (BitVec.ofNat 32 (seenSize size)) (off + (header type size).length) := by
  have hfield := sizeField_lt size
  rw [header_of_le htype] at h ⊢
  have hdiv : (type * 32 + (sizeField size).1) / 32 = type := by omega
  rw [decode_succ h, unsigned_ofNat (by omega), fromControlByte_ofNat (by omega), hdiv, hkind,
    Java.ok_bind, if_neg hpointer, if_neg hextended,
    sizeFromCtrlByte_eq (by omega) hsize h.get.2, List.length_cons,
    show off + ((sizeField size).2.length + 1) = off + 1 + (sizeField size).2.length by omega]
  rfl

/-- A type of the next byte. -/
theorem decode_header_of_lt {type : ℕ} {kind : Kind} (htype : 7 < type) (hlt : type < 16)
    (hkind : Kind.get (BitVec.ofNat 32 type) = .ok kind) (hsize : size < Value.maxSize)
    (h : d.buffer.HasAt off (header type size)) (stack : ℕ) :
    d.decode (stack + 1) (BitVec.ofNat 32 off) =
      d.decodeByType (d.decode stack) kind (BitVec.ofNat 32 (off + (header type size).length))
        (BitVec.ofNat 32 (seenSize size)) (off + (header type size).length) := by
  have hfield := sizeField_lt size
  rw [header_of_lt htype] at h ⊢
  have hdiv : (sizeField size).1 / 32 = 0 := by omega
  obtain ⟨hget, hfieldBytes⟩ := h.get.2.get
  have hextended : Decoder.extendedKind (UInt8.ofNat (type - 7)) = .ok kind := by
    rw [← hkind]
    interval_cases type <;> rfl
  rw [decode_succ h, unsigned_ofNat (by omega), fromControlByte_ofNat (by omega), hdiv]
  show (do
    let (nextByte, pos) ← d.buffer.get (off + 1)
    let kind ← Decoder.extendedKind nextByte
    let (size, offset, pos) ←
      d.sizeFromCtrlByte (BitVec.ofNat 32 (sizeField size).1) (BitVec.ofNat 32 (off + 2)) pos
    d.decodeByType (d.decode stack) kind offset size pos) = _
  have hlen : off + (UInt8.ofNat (sizeField size).1 :: UInt8.ofNat (type - 7) ::
      (sizeField size).2).length = off + 2 + (sizeField size).2.length := by
    rw [List.length_cons, List.length_cons]
    omega
  simp only [hget, Java.ok_bind, hextended,
    sizeFromCtrlByte_eq (Nat.mod_eq_of_lt hfield) hsize hfieldBytes]
  rw [hlen]

theorem Value.typeNumber_lt (v : Value) : v.typeNumber < 16 := by
  cases v <;> exact Nat.le_of_ble_eq_true rfl

theorem Value.get_typeNumber (v : Value) :
    Kind.get (BitVec.ofNat 32 v.typeNumber) = .ok v.kind := by
  cases v <;> rfl

theorem Value.kind_ne (v : Value) : v.kind ≠ .pointer ∧ v.kind ≠ .extended := by
  cases v <;> exact ⟨nofun, nofun⟩

/-- **The bytes in front of a payload** lead to it, with the size the
decoder sees. -/
theorem decode_header (v : Value) (hsize : size < Value.maxSize)
    (h : d.buffer.HasAt off (header v.typeNumber size)) (stack : ℕ) :
    d.decode (stack + 1) (BitVec.ofNat 32 off) =
      d.decodeByType (d.decode stack) v.kind
        (BitVec.ofNat 32 (off + (header v.typeNumber size).length))
        (BitVec.ofNat 32 (seenSize size)) (off + (header v.typeNumber size).length) := by
  rcases Nat.lt_or_ge 7 v.typeNumber with hlt | hle
  · exact decode_header_of_lt hlt v.typeNumber_lt v.get_typeNumber hsize h stack
  · exact decode_header_of_le hle v.get_typeNumber v.kind_ne.1 v.kind_ne.2 hsize h stack

/-! ## Pointers -/

/-- A control byte with a length of `k`. -/
theorem decodePointer_of {k : ℕ} (hc : c < 256) (hk : c / 8 % 4 + 1 = k) (offset : BitVec 32) :
    d.decodePointer (BitVec.ofNat 32 c) offset pos = (do
      let (packed, _) ←
        decodeInteger d.buffer (BitVec.ofNat 32 (if k = 4 then 0 else c % 8)) k pos
      return (packed.signExtend 64 + d.pointerBase + BitVec.ofNat 64 (bias k),
        offset + BitVec.ofNat 32 k)) := by
  have hsize : ((BitVec.ofNat 32 c >>> 3) &&& 0x3) + 1 = BitVec.ofNat 32 k := by
    rw [ofNat_shiftRight (by omega), ← hk, BitVec.ofNat_add]
    exact congrArg (· + 1) (ofNat_and_mask (i := 2) (by decide) _)
  have hbase : BitVec.ofNat 32 c &&& 0x7 = BitVec.ofNat 32 (c % 8) :=
    ofNat_and_mask (i := 3) (by decide) c
  have hk4 : 1 ≤ k ∧ k ≤ 4 := by omega
  obtain ⟨hpos, hle⟩ := hk4
  unfold Decoder.decodePointer
  rw [hsize, hbase]
  interval_cases k <;> rfl

/-- The bytes of a pointer are the pointer. -/
theorem decodePointer_eq {k p : ℕ} (hpointer : PointerBytes k p (x :: bs))
    (h : d.buffer.HasAt pos bs) (off : ℕ) :
    Kind.fromControlByte (unsigned 32 x) = .ok .pointer ∧
      d.decodePointer (unsigned 32 x) (BitVec.ofNat 32 off) pos =
        .ok ((BitVec.ofNat 32 p).signExtend 64 + d.pointerBase + BitVec.ofNat 64 (bias k),
          BitVec.ofNat 32 (off + k)) := by
  cases hpointer with
  | short hk hp =>
    have hhigh : p / 256 ^ k < 8 := Nat.div_lt_of_lt_mul (by rwa [Nat.mul_comm])
    generalize hq : p / 256 ^ k = q at hhigh ⊢
    have hdiv : (32 + 8 * (k - 1) + q) / 32 = 1 := by omega
    have hread : decodeInteger d.buffer
        (BitVec.ofNat 32 (if k = 4 then 0 else (32 + 8 * (k - 1) + q) % 8)) k pos =
          .ok (BitVec.ofNat 32 p, pos + k) := by
      have hshift := shiftIn_eq (w := 32) (by decide) h q
      rw [BigEndian.length_write, BigEndian.readFrom_write, ← hq, Nat.div_add_mod'] at hshift
      rw [if_neg (by omega), show (32 + 8 * (k - 1) + q) % 8 = q by omega, ← hq]
      exact hshift
    rw [unsigned_ofNat (by omega), fromControlByte_ofNat (by omega), hdiv,
      decodePointer_of (by omega) (show (32 + 8 * (k - 1) + q) / 8 % 4 + 1 = k by omega), hread,
      BitVec.ofNat_add off]
    exact ⟨rfl, rfl⟩
  | long hunused hp =>
    rename_i unused
    have hdiv : (32 + 24 + unused) / 32 = 1 := by omega
    have hread : decodeInteger d.buffer 0 4 pos = .ok (BitVec.ofNat 32 p, pos + 4) :=
      shiftIn_write (by decide) hp h
    rw [unsigned_ofNat (by omega), fromControlByte_ofNat (by omega), hdiv,
      decodePointer_of (by omega) (show (32 + 24 + unused) / 8 % 4 + 1 = 4 by omega), if_pos rfl]
    refine ⟨rfl, ?_⟩
    rw [BitVec.ofNat_add off]
    exact congrArg (· >>= _) hread

/-- The low half of a `long`. -/
theorem setWidth_ofInt (z : ℤ) : (BitVec.ofInt 64 z).setWidth 32 = BitVec.ofInt 32 z := by
  apply BitVec.eq_of_toNat_eq
  rw [BitVec.toNat_setWidth, BitVec.toNat_ofInt, BitVec.toNat_ofInt]
  omega

/-- A target is found whatever the signs of its parts: the high half of
the sum is dropped. -/
theorem setWidth_pointer {p target k : ℕ} {pointerBase : BitVec 64}
    (h : (target : ℤ) = p + bias k + pointerBase.toInt) :
    ((BitVec.ofNat 32 p).signExtend 64 + pointerBase + BitVec.ofNat 64 (bias k)).setWidth 32 =
      BitVec.ofNat 32 target := by
  have hsum : (BitVec.ofNat 32 p).signExtend 64 + pointerBase + BitVec.ofNat 64 (bias k) =
      BitVec.ofInt 64 ((BitVec.ofNat 32 p).toInt + pointerBase.toInt + bias k) := by
    rw [BitVec.ofInt_add, BitVec.ofInt_add, BitVec.ofInt_toInt, BitVec.ofInt_natCast]
    rfl
  rw [hsum, setWidth_ofInt]
  apply BitVec.eq_of_toNat_eq
  rw [BitVec.toNat_ofInt, BitVec.toNat_ofNat, BitVec.toInt_eq_toNat_cond (BitVec.ofNat 32 p),
    BitVec.toNat_ofNat]
  split_ifs <;> omega

/-- **A pointer is followed**, and what is behind it is next. -/
theorem decode_pointer {k p target : ℕ} (hpointer : PointerBytes k p bs)
    (h : d.buffer.HasAt off bs) (htarget : (target : ℤ) = p + bias k + d.pointerBase.toInt)
    (stack : ℕ) :
    d.decode (stack + 1) (BitVec.ofNat 32 off) = (do
      let (node, _) ← d.decode stack (BitVec.ofNat 32 target)
      return (node, BitVec.ofNat 32 (off + 1 + k))) := by
  obtain ⟨x, bs, rfl⟩ : ∃ x tail, bs = x :: tail := by
    cases hpointer <;> exact ⟨_, _, rfl⟩
  obtain ⟨hkind, hdecode⟩ := decodePointer_eq hpointer h.get.2 (off + 1)
  rw [decode_succ h, hkind, Java.ok_bind, if_pos rfl, hdecode, Java.ok_bind]
  simp only [setWidth_pointer htarget]

end IpLookUp

end Xpod
