import Xpod.Common.Java
/-!
# Locations and addresses

`Location.java` and `Util.java`: the record every stage of the loader
passes on, and the two directions between an address and its dotted
text. A row of a table is held in the same record; a column that is NULL
is `none`.

A Java `long` that only carries an address is an integer here. The loader
adds or takes one from such a value only where a strict comparison with
another one has just succeeded, so no such step leaves the range of
`long`; `Util.ipToLong`, which shifts parsed numbers, does wrap.
-/

namespace Xpod

namespace LoadIp

/-- `Location.java`, with the field defaults of `new Location()`. -/
structure Location where
  beginIp : Option String := none
  endIp : Option String := none
  country : Option String := some ""
  province : Option String := some ""
  city : Option String := some ""
  area : Option String := none
  county : Option String := none
  isp : Option String := some ""
  other : Option String := none
  nBeginIp : ℤ := 0
  nEndIp : ℤ := 0
deriving DecidableEq, Repr

/-- The four attributes an address is looked up for. -/
structure Attrs where
  country : Option String
  province : Option String
  city : Option String
  isp : Option String
deriving DecidableEq, Repr

namespace Location

/-- The copy constructor. It copies every field except `county`. -/
def copy (cp : Location) : Location := { cp with county := none }

@[simp] theorem copy_nBeginIp (l : Location) : l.copy.nBeginIp = l.nBeginIp := rfl

@[simp] theorem copy_nEndIp (l : Location) : l.copy.nEndIp = l.nEndIp := rfl

/-- `getValueSql`. String concatenation prints a null field as `null`. -/
def getValueSql (l : Location) : String :=
  "values('" ++ Java.text l.beginIp ++ "','" ++ Java.text l.endIp ++ "','" ++
    Java.text l.country ++ "','" ++ Java.text l.area ++ "','" ++ Java.text l.province ++ "','" ++
    Java.text l.city ++ "','" ++ Java.text l.county ++ "','" ++ Java.text l.isp ++ "','" ++
    Java.text l.other ++ "','" ++ toString l.nBeginIp ++ "','" ++ toString l.nEndIp ++ "')"

/-- What a lookup of an address in the row finds. -/
def attrs (l : Location) : Attrs := ⟨l.country, l.province, l.city, l.isp⟩

/-- The row's range contains the address. -/
def Has (l : Location) (x : ℤ) : Prop := l.nBeginIp ≤ x ∧ x ≤ l.nEndIp

instance (l : Location) (x : ℤ) : Decidable (l.Has x) := inferInstanceAs (Decidable (_ ∧ _))

/-- The row's range is not empty. -/
def Valid (l : Location) : Prop := l.nBeginIp ≤ l.nEndIp

instance (l : Location) : Decidable l.Valid := inferInstanceAs (Decidable (_ ≤ _))

/-- No address is in both ranges. -/
def Disjoint (a b : Location) : Prop := a.nEndIp < b.nBeginIp ∨ b.nEndIp < a.nBeginIp

instance (a b : Location) : Decidable (a.Disjoint b) := inferInstanceAs (Decidable (_ ∨ _))

end Location

namespace Util

/-- `Util.longToIP`. The first part is `longIp >>> 24`, which shifts all 64
bits; the others are single bytes. -/
def longToIP (longIp : ℤ) : String :=
  let n := (longIp % 2 ^ 64).toNat
  toString (n / 2 ^ 24) ++ "." ++ toString (n % 2 ^ 24 / 2 ^ 16) ++ "." ++
    toString (n % 2 ^ 16 / 2 ^ 8) ++ "." ++ toString (n % 2 ^ 8)

/-- A value as the 64-bit register holds it. -/
def wrap (n : ℤ) : ℤ := n.bmod (2 ^ 64)

/-- The digits of `Long.parseLong`, at radix ten. -/
def parseDigits (s : List Char) : Except Java.Exception ℤ :=
  if s ≠ [] ∧ s.all Char.isDigit then .ok (Nat.ofDigitChars 10 s 0) else .error .numberFormat

/-- A value outside the range of `long` is refused. -/
def fits (n : ℤ) : Except Java.Exception ℤ :=
  if -2 ^ 63 ≤ n ∧ n < 2 ^ 63 then .ok n else .error .numberFormat

/-- `Long.parseLong`: an optional sign, at least one digit, and a value that
fits. -/
def parseLong (s : List Char) : Except Java.Exception ℤ :=
  match s with
  | '-' :: s => Int.neg <$> parseDigits s >>= fits
  | '+' :: s => parseDigits s >>= fits
  | s => parseDigits s >>= fits

/-- `substring(from, position)`, where `position` is the next dot: what is
in front of it and what is behind it. A position of -1 makes `substring`
throw. -/
def toDot (s : List Char) : Except Java.Exception (List Char × List Char) :=
  match Java.cutAt '.' s with
  | none => .error .stringIndexOutOfBounds
  | some p => .ok p

/-- `Util.ipToLong`. The four parts are not checked to be bytes. -/
def ipToLong (strIp : String) : Except Java.Exception ℤ := do
  let (s0, r) ← toDot strIp.toList
  let ip0 ← parseLong s0
  let (s1, r) ← toDot r
  let ip1 ← parseLong s1
  let (s2, r) ← toDot r
  let ip2 ← parseLong s2
  let ip3 ← parseLong r
  return wrap (ip0 * 2 ^ 24 + ip1 * 2 ^ 16 + ip2 * 2 ^ 8 + ip3)

/-! ## The round trip -/

theorem toDot_append {a b : List Char} (h : '.' ∉ a) : toDot (a ++ '.' :: b) = .ok (a, b) := by
  rw [toDot, Java.cutAt_append h]

/-- A printed number is read back. -/
theorem parseLong_toDigits {n : ℕ} (hn : n < 2 ^ 63) : parseLong (Nat.toDigits 10 n) = .ok n := by
  have hdig : parseDigits (Nat.toDigits 10 n) = .ok (n : ℤ) := by
    have hall : (Nat.toDigits 10 n).all Char.isDigit = true :=
      List.all_eq_true.2 fun c hc => Nat.isDigit_of_mem_toDigits (by decide) le_rfl hc
    rw [parseDigits, if_pos ⟨Nat.toDigits_ne_nil, hall⟩, Nat.ofDigitChars_ten_toDigits]
  have hneg : ∀ s, Nat.toDigits 10 n ≠ '-' :: s := fun s h =>
    Java.not_mem_toDigits (c := '-') (by decide) n (h ▸ List.mem_cons_self)
  have hpos : ∀ s, Nat.toDigits 10 n ≠ '+' :: s := fun s h =>
    Java.not_mem_toDigits (c := '+') (by decide) n (h ▸ List.mem_cons_self)
  unfold parseLong
  split
  · next s h => exact absurd h (hneg s)
  · next s h => exact absurd h (hpos s)
  · have hfit : -2 ^ 63 ≤ (n : ℤ) ∧ (n : ℤ) < 2 ^ 63 := by omega
    rw [hdig, Java.ok_bind, fits, if_pos hfit]

/-- **Reading an address back.** Every address below `2 ^ 32` survives the
trip through its dotted text. -/
theorem ipToLong_longToIP {n : ℤ} (h0 : 0 ≤ n) (h1 : n < 2 ^ 32) :
    ipToLong (longToIP n) = .ok n := by
  have hm : (n % 2 ^ 64).toNat = n.toNat := by omega
  have hlist : (longToIP n).toList =
      Nat.toDigits 10 (n.toNat / 2 ^ 24) ++ '.' ::
        (Nat.toDigits 10 (n.toNat % 2 ^ 24 / 2 ^ 16) ++ '.' ::
          (Nat.toDigits 10 (n.toNat % 2 ^ 16 / 2 ^ 8) ++ '.' ::
            Nat.toDigits 10 (n.toNat % 2 ^ 8))) := by
    have hdot : ".".toList = ['.'] := rfl
    have hnat : ∀ k : ℕ, (toString k).toList = Nat.toDigits 10 k := fun k => Nat.toList_repr
    simp only [longToIP, hm, String.toList_append, hdot, hnat, List.append_assoc,
      List.cons_append, List.nil_append]
  have hdots : ∀ k, '.' ∉ Nat.toDigits 10 k := Java.not_mem_toDigits (by decide)
  have hsum : wrap (((n.toNat / 2 ^ 24 : ℕ) : ℤ) * 2 ^ 24 +
      ((n.toNat % 2 ^ 24 / 2 ^ 16 : ℕ) : ℤ) * 2 ^ 16 +
      ((n.toNat % 2 ^ 16 / 2 ^ 8 : ℕ) : ℤ) * 2 ^ 8 + ((n.toNat % 2 ^ 8 : ℕ) : ℤ)) = n := by
    rw [wrap, Int.bmod_eq_of_le] <;> omega
  simp only [ipToLong, hlist, toDot_append (hdots _), bind, Except.bind, pure, Except.pure]
  rw [parseLong_toDigits (by omega), parseLong_toDigits (by omega), parseLong_toDigits (by omega),
    parseLong_toDigits (by omega)]
  exact congrArg Except.ok hsum

example : longToIP 3232235777 = "192.168.1.1" := by decide

end Util

/-- A row with the texts of its bounds and a country. -/
def Location.ofBounds (b e : ℤ) (country : Option String) : Location :=
  { beginIp := some (Util.longToIP b)
    endIp := some (Util.longToIP e)
    country := country
    nBeginIp := b
    nEndIp := e }

end LoadIp

end Xpod
