import Mathlib.Data.BitVec
import Mathlib.Tactic
import Xpod.Common.BigEndian
import Xpod.Common.Binary64
import Xpod.Common.Decimal
import Xpod.DataFormat2.Model.ParseMapper
/-!
# Columns of numbers

A column has a declared type, and its cells are read back at the width of
that type. `getValue` writes an integer it finds in a record so that it is
read back, in an int and in a double column whatever the object is. A long
column of an `Integer` or a `Long` is written as an int: four bytes, and the
upper half of the number is lost.
-/

namespace Xpod

namespace DataFormat2

open Storm (Text JsonTree JsonRecord)

variable {δ : Type}

/-! ## Numbers -/

/-- **What is known of the number classes**: an integer that has a value of
the type is parsed or converted to it. -/
structure Numbers.Lawful (N : Numbers δ) : Prop where
  parseInt : ∀ s z, Decimal.intOf s = some z → -2 ^ 31 ≤ z → z < 2 ^ 31 →
    N.parseInt s = some (BitVec.ofInt 32 z)
  parseLong : ∀ s z, Decimal.intOf s = some z → -2 ^ 63 ≤ z → z < 2 ^ 63 →
    N.parseLong s = some (BitVec.ofInt 64 z)
  parseDouble : ∀ s z, Decimal.intOf s = some z → Binary64.Exact z →
    ∃ d, N.parseDouble s = some d ∧ Binary64.Represents (N.doubleToRawLongBits d) z
  ofInteger : ∀ n, Binary64.Exact n.toInt →
    Binary64.Represents (N.doubleToRawLongBits (N.ofInteger n)) n.toInt
  ofLong : ∀ n, Binary64.Exact n.toInt →
    Binary64.Represents (N.doubleToRawLongBits (N.ofLong n)) n.toInt

/-- The integer an object stands for. -/
def Scalar.Denotes (z : ℤ) : Scalar δ → Prop
  | .integer n => n.toInt = z
  | .long n => n.toInt = z
  | .string s => Decimal.intOf s = some z
  | _ => False

/-- The object is an `Integer` or a `Long`. -/
def Scalar.IsInteger : Scalar δ → Prop
  | .integer _ => True
  | .long _ => True
  | _ => False

namespace TableInfo

/-- The integer is a value of the type. -/
def FieldType.Fits (z : ℤ) : FieldType → Prop
  | .int => -2 ^ 31 ≤ z ∧ z < 2 ^ 31
  | .long => -2 ^ 63 ≤ z ∧ z < 2 ^ 63
  | .double => Binary64.Exact z
  | .string => False

/-- The width of the type. A text has none. -/
def FieldType.width : FieldType → Option ℕ
  | .int => some 4
  | .long => some 8
  | .double => some 8
  | .string => none

/-- **The bytes are read back as the integer.** -/
def FieldType.Reads (z : ℤ) (bytes : List UInt8) : FieldType → Prop
  | .int => bytes.length = 4 ∧ (BitVec.ofNat 32 (BigEndian.read bytes)).toInt = z
  | .long => bytes.length = 8 ∧ (BitVec.ofNat 64 (BigEndian.read bytes)).toInt = z
  | .double =>
    bytes.length = 8 ∧ Binary64.Represents (BitVec.ofNat 64 (BigEndian.read bytes)) z
  | .string => False

/-! ## Bytes -/

theorem reads_intBytes {n : BitVec 32} {z : ℤ} (h : n.toInt = z) :
    FieldType.int.Reads z (intBytes n) := by
  refine ⟨BigEndian.length_write 4 _, ?_⟩
  rw [intBytes, BigEndian.read_write n.isLt, BitVec.ofNat_toNat, BitVec.setWidth_eq, h]

theorem ofNat_read_longBytes (n : BitVec 64) :
    BitVec.ofNat 64 (BigEndian.read (longBytes n)) = n := by
  rw [longBytes, BigEndian.read_write n.isLt, BitVec.ofNat_toNat, BitVec.setWidth_eq]

theorem reads_longBytes {n : BitVec 64} {z : ℤ} (h : n.toInt = z) :
    FieldType.long.Reads z (longBytes n) :=
  ⟨BigEndian.length_write 8 _, by rw [ofNat_read_longBytes, h]⟩

/-- An integer that fits is found again in the lower half. -/
theorem toInt_setWidth {n : BitVec 64} (h : -2 ^ 31 ≤ n.toInt ∧ n.toInt < 2 ^ 31) :
    (n.setWidth 32).toInt = n.toInt := by
  -- the two differ by what is cut off, a multiple of `2 ^ 32`
  rw [BitVec.toInt_setWidth, Int.bmod_eq_iff (by decide)]
  rw [BitVec.toInt_eq_toNat_cond] at h ⊢
  split_ifs at h ⊢ <;> omega

/-! ## Values -/

section Values

variable {N : Numbers δ} {type : FieldType} {v : Scalar δ} {z : ℤ}

/-- The integer in a double column. -/
theorem reads_doubleBytes {d : δ} (h : Binary64.Represents (N.doubleToRawLongBits d) z) :
    FieldType.double.Reads z (doubleBytes N d) :=
  ⟨BigEndian.length_write 8 _, by rwa [doubleBytes, ofNat_read_longBytes]⟩

/-- **An integer that fits is written so that it is read back**, unless it is
an object in a long column. -/
theorem exists_reads (hN : N.Lawful) (hv : v.Denotes z) (hfits : type.Fits z)
    (hnot : ¬ (type = .long ∧ v.IsInteger)) :
    ∃ bytes, type.toBytes N (.scalar v) = .ok (some bytes) ∧ type.Reads z bytes := by
  cases type with
  | int =>
    cases v with
    | integer n =>
      exact ⟨intBytes n, rfl, reads_intBytes hv⟩
    | long n =>
      obtain rfl := hv
      exact ⟨intBytes (n.setWidth 32), rfl, reads_intBytes (toInt_setWidth hfits)⟩
    | string s =>
      refine ⟨intBytes (BitVec.ofInt 32 z), ?_, ?_⟩
      · simp only [FieldType.toBytes, hN.parseInt s z hv hfits.1 hfits.2, parsed]
      · exact reads_intBytes (BitVec.toInt_ofInt_eq_self (by decide) hfits.1 hfits.2)
    | double | other => cases hv
  | long =>
    cases v with
    | integer | long => exact absurd ⟨rfl, trivial⟩ hnot
    | string s =>
      refine ⟨longBytes (BitVec.ofInt 64 z), ?_, ?_⟩
      · simp only [FieldType.toBytes, hN.parseLong s z hv hfits.1 hfits.2, parsed]
      · exact reads_longBytes (BitVec.toInt_ofInt_eq_self (by decide) hfits.1 hfits.2)
    | double | other => cases hv
  | double =>
    cases v with
    | integer n =>
      obtain rfl := hv
      exact ⟨_, rfl, reads_doubleBytes (hN.ofInteger n hfits)⟩
    | long n =>
      obtain rfl := hv
      exact ⟨_, rfl, reads_doubleBytes (hN.ofLong n hfits)⟩
    | string s =>
      obtain ⟨d, hd, hrep⟩ := hN.parseDouble s z hv hfits
      refine ⟨doubleBytes N d, ?_, reads_doubleBytes hrep⟩
      simp only [FieldType.toBytes, hd, parsed]
    | double | other => cases hv
  | string => exact absurd hfits id

/-- An `Integer` or a `Long` in a long column takes four bytes. -/
theorem toBytes_long (hv : v.IsInteger) :
    ∃ bytes, FieldType.long.toBytes N (.scalar v) = .ok (some bytes) ∧ bytes.length = 4 := by
  cases v with
  | integer n => exact ⟨_, rfl, BigEndian.length_write 4 _⟩
  | long n => exact ⟨_, rfl, BigEndian.length_write 4 _⟩
  | double | string | other => cases hv

/-- Every `Integer` and every `Long` fits a long column. -/
theorem exists_fits_long (hv : v.IsInteger) : ∃ z, v.Denotes z ∧ FieldType.long.Fits z := by
  cases v with
  | integer n =>
    have hlo : -2 ^ 31 ≤ n.toInt := n.le_toInt
    have hhi : n.toInt < 2 ^ 31 := n.toInt_lt
    exact ⟨n.toInt, rfl, by omega, by omega⟩
  | long n => exact ⟨n.toInt, rfl, n.le_toInt, n.toInt_lt⟩
  | double | string | other => cases hv

theorem length_parsed {α : Type} {x : Option α} {f : α → List UInt8} {bytes : List UInt8} {w : ℕ}
    (hf : ∀ a, (f a).length = w) (h : parsed x f = .ok (some bytes)) : bytes.length = w := by
  cases x with
  | none => cases h
  | some a =>
    obtain rfl := Option.some.inj (Except.ok.inj h)
    exact hf a

/-- Any other value takes the width of the type, if it is written at all. -/
theorem length_toBytes {val : JsonTree (Scalar δ)} {bytes : List UInt8} {w : ℕ}
    (h : type.toBytes N val = .ok (some bytes)) (hw : type.width = some w)
    (hnot : ¬ (type = .long ∧ ∃ v, val = .scalar v ∧ v.IsInteger)) : bytes.length = w := by
  obtain ⟨v, rfl⟩ : ∃ v, val = .scalar v := by
    cases val with
    | scalar v => exact ⟨v, rfl⟩
    | null | list | map => cases type <;> cases h
  cases type with
  | int =>
    obtain rfl := Option.some.inj hw
    cases v with
    | string s => exact length_parsed (fun _ => BigEndian.length_write 4 _) h
    | integer | long | double =>
      obtain rfl := Option.some.inj (Except.ok.inj h)
      exact BigEndian.length_write 4 _
    | other => cases h
  | long =>
    obtain rfl := Option.some.inj hw
    cases v with
    | integer | long => exact absurd ⟨rfl, _, rfl, trivial⟩ hnot
    | string s => exact length_parsed (fun _ => BigEndian.length_write 8 _) h
    | double =>
      obtain rfl := Option.some.inj (Except.ok.inj h)
      exact BigEndian.length_write 8 _
    | other => cases h
  | double =>
    obtain rfl := Option.some.inj hw
    cases v with
    | string s => exact length_parsed (fun _ => BigEndian.length_write 8 _) h
    | integer | long | double =>
      obtain rfl := Option.some.inj (Except.ok.inj h)
      exact BigEndian.length_write 8 _
    | other => cases h
  | string => cases hw

end Values

/-! ## Columns -/

/-- What a cell is made from: the operation and the record. -/
abbrev Source (δ : Type) : Type := JsonRecord (Scalar δ) × JsonRecord (Scalar δ)

/-- The object `getValue` looks up. -/
def Field.lookedUp (field : Field) (c : Source δ) : Except Java.Exception (JsonTree (Scalar δ)) :=
  (if field.isOperation then c.1 else c.2).getObject field.name

/-- **The cell holds its value**: an integer that fits is written at the
width of the type and read back. -/
def Field.HoldsValue (N : Numbers δ) (field : Field) (c : Source δ) : Prop :=
  ∀ v z, field.lookedUp c = .ok (.scalar v) → v.Denotes z → field.type.Fits z →
    ∃ bytes, field.getValue N c.1 c.2 = .ok (some bytes) ∧ field.type.Reads z bytes

/-- The two cells have the same width, if neither is null. -/
def Field.SameWidth (N : Numbers δ) (field : Field) (c c' : Source δ) : Prop :=
  ∀ bytes bytes', field.getValue N c.1 c.2 = .ok (some bytes) →
    field.getValue N c'.1 c'.2 = .ok (some bytes') → bytes.length = bytes'.length

/-- **The cell is cut down to an int**: the column is a long one and the
object is an `Integer` or a `Long`. -/
def Field.Narrows (field : Field) (c : Source δ) : Prop :=
  field.type = .long ∧ ∃ v, field.lookedUp c = .ok (.scalar v) ∧ v.IsInteger

section Columns

variable {N : Numbers δ} {field : Field} {c : Source δ}

theorem getValue_eq {val : JsonTree (Scalar δ)} (h : field.lookedUp c = .ok val) :
    field.getValue N c.1 c.2 = field.type.toBytes N val := by
  unfold Field.lookedUp at h
  unfold Field.getValue
  simp only [h]
  rfl

theorem exists_lookedUp {bytes : List UInt8} (h : field.getValue N c.1 c.2 = .ok (some bytes)) :
    ∃ val, field.lookedUp c = .ok val ∧ field.type.toBytes N val = .ok (some bytes) :=
  Java.bind_eq_ok.1 h

/-- A cell that is not cut down has the width of the type. -/
theorem length_getValue {bytes : List UInt8} {w : ℕ} (hw : field.type.width = some w)
    (hc : ¬ field.Narrows c) (h : field.getValue N c.1 c.2 = .ok (some bytes)) :
    bytes.length = w := by
  obtain ⟨val, hval, hbytes⟩ := exists_lookedUp h
  refine length_toBytes hbytes hw ?_
  rintro ⟨hlong, v, rfl, hv⟩
  exact hc ⟨hlong, v, hval, hv⟩

/-- **A cell holds its value just if it is not cut down.** -/
theorem holdsValue_iff (hN : N.Lawful) : field.HoldsValue N c ↔ ¬ field.Narrows c := by
  constructor
  · rintro h ⟨hlong, v, hval, hv⟩
    obtain ⟨z, hz, hfits⟩ := exists_fits_long hv
    obtain ⟨bytes, hbytes, hreads⟩ := h v z hval hz (hlong ▸ hfits)
    rw [getValue_eq hval, hlong] at hbytes
    rw [hlong] at hreads
    obtain ⟨bytes', hbytes', hlen⟩ := toBytes_long (N := N) hv
    rw [hbytes] at hbytes'
    obtain rfl := Option.some.inj (Except.ok.inj hbytes')
    have height : bytes.length = 8 := hreads.1
    omega
  · intro h v z hval hv hfits
    obtain ⟨bytes, hbytes, hreads⟩ := exists_reads hN hv hfits fun hlong =>
      h ⟨hlong.1, v, hval, hlong.2⟩
    exact ⟨bytes, (getValue_eq hval).trans hbytes, hreads⟩

end Columns

/-- **A column of numbers holds its values, at one width, just if none of its
cells is cut down to an int.** -/
theorem column_holds_values_iff (N : Numbers δ) (hN : N.Lawful) (field : Field)
    (hfield : field.type ≠ .string) (cells : List (Source δ)) :
    ((∀ c ∈ cells, field.HoldsValue N c) ∧ ∀ c ∈ cells, ∀ c' ∈ cells, field.SameWidth N c c') ↔
      ∀ c ∈ cells, ¬ field.Narrows c := by
  constructor
  · rintro ⟨hholds, -⟩ c hc
    exact (holdsValue_iff hN).1 (hholds c hc)
  · intro h
    refine ⟨fun c hc => (holdsValue_iff hN).2 (h c hc), fun c hc c' hc' bytes bytes' hb hb' => ?_⟩
    obtain ⟨w, hw⟩ : ∃ w, field.type.width = some w := by
      rcases htype : field.type with - | - | - | -
      · exact ⟨4, rfl⟩
      · exact ⟨8, rfl⟩
      · exact ⟨8, rfl⟩
      · exact absurd htype hfield
    rw [length_getValue hw (h c hc) hb, length_getValue hw (h c' hc') hb']

end TableInfo

/-! ## An instance -/

/-- Number classes that know integers, with a pattern for a double. -/
def exactNumbers : Numbers (BitVec 64) where
  intValue _ := 0
  longValue _ := 0
  doubleToRawLongBits d := d
  ofInteger n := Binary64.ofInt n.toInt
  ofLong n := Binary64.ofInt n.toInt
  toString _ := []
  parseInt s := (Decimal.intOf s).bind fun z =>
    if -2 ^ 31 ≤ z ∧ z < 2 ^ 31 then some (BitVec.ofInt 32 z) else none
  parseLong s := (Decimal.intOf s).bind fun z =>
    if -2 ^ 63 ≤ z ∧ z < 2 ^ 63 then some (BitVec.ofInt 64 z) else none
  parseDouble s := (Decimal.intOf s).map Binary64.ofInt

theorem exactNumbers_lawful : exactNumbers.Lawful where
  parseInt s z hs hlo hhi := by
    simp only [exactNumbers, hs, Option.bind_some]
    exact if_pos ⟨hlo, hhi⟩
  parseLong s z hs hlo hhi := by
    simp only [exactNumbers, hs, Option.bind_some]
    exact if_pos ⟨hlo, hhi⟩
  parseDouble s z hs hz := ⟨Binary64.ofInt z, by simp only [exactNumbers, hs, Option.map_some],
    hz.represents_ofInt⟩
  ofInteger _ hz := hz.represents_ofInt
  ofLong _ hz := hz.represents_ofInt

namespace TableInfo

/-- A record with one member `n`. -/
def memberRecord (v : Scalar (BitVec 64)) : JsonRecord (Scalar (BitVec 64)) :=
  ⟨some fun key => if key = "n".toList then .scalar v else .null⟩

theorem column_holds_values_double :
    ∃ bytes, (Field.new "n".toList .double).getValue exactNumbers (memberRecord .other)
        (memberRecord (.integer 7)) = .ok (some bytes) ∧
      FieldType.double.Reads 7 bytes := by
  have hholds := ((column_holds_values_iff exactNumbers exactNumbers_lawful
    (Field.new "n".toList .double) (by decide)
    [(memberRecord .other, memberRecord (.integer 7))]).2 (by
      rintro c - ⟨hlong, -⟩
      cases hlong)).1 _ List.mem_cons_self
  exact hholds (.integer 7) 7 rfl rfl (Binary64.exact_of_natAbs_lt (by decide))

/-- **A `Long` in a long column loses its upper half.** The number `2 ^ 32 + 7`
is written in four bytes, as 7. -/
theorem getValue_narrows_long :
    (Field.new "n".toList .long).getValue exactNumbers (memberRecord .other)
        (memberRecord (.long (2 ^ 32 + 7))) = .ok (some [0, 0, 0, 7]) ∧
      (Field.new "n".toList .long).getValue exactNumbers (memberRecord .other)
        (memberRecord (.string "7".toList)) = .ok (some [0, 0, 0, 0, 0, 0, 0, 7]) :=
  ⟨rfl, rfl⟩

end TableInfo

end DataFormat2

end Xpod
