import Mathlib.Data.BitVec
import Mathlib.Tactic
import Xpod.Common.BigEndian
import Xpod.Common.Utf8
import Xpod.IpLookUp.Buffers
/-!
# The format of the data section

What a database means by its bytes, said apart from the decoder. A value
is a control byte of a type and a size, the bytes that do not fit into
those, and a payload. A pointer may stand in its place, of one to four
bytes, each length with a bias of its own.

`Encoded` says that values stand one after the other in a buffer. It is a
relation: the bytes of a number may begin with zeros or not, and any value
may be a pointer or not.
-/

namespace Xpod

namespace IpLookUp

open Storm (Text)

/-! ## Values -/

/-- **A value of a database**, each number within its width. -/
inductive Value
  | string (s : Text)
  | bytes (bs : List UInt8)
  | boolean (b : Bool)
  | uint16 (n : BitVec 16)
  | uint32 (n : BitVec 32)
  | int32 (n : BitVec 32)
  | uint64 (n : BitVec 64)
  | uint128 (n : BitVec 128)
  | array (values : List Value)
  | map (entries : List (Text × Value))

namespace Value

/-- The number of a type. -/
def typeNumber : Value → ℕ
  | string _ => 2
  | bytes _ => 4
  | uint16 _ => 5
  | uint32 _ => 6
  | map _ => 7
  | int32 _ => 8
  | uint64 _ => 9
  | uint128 _ => 10
  | array _ => 11
  | boolean _ => 14

/-- The keys and values of a map, in the order in which they are written. -/
def members (entries : List (Text × Value)) : List Value :=
  entries.flatMap fun entry => [.string entry.1, entry.2]

mutual

/-- The JSON node for a value. -/
def node : Value → JsonNode
  | string s => .text s
  | bytes bs => .binary bs
  | boolean b => .boolean b
  | uint16 n => .int (n.setWidth 32)
  | uint32 n => .long (n.setWidth 64)
  | int32 n => .int n
  | uint64 n => .bigInteger n.toNat
  | uint128 n => .bigInteger n.toNat
  | array values => .array (nodes values)
  | map entries => .object (entryNodes entries)

/-- The nodes of an array. -/
def nodes : List Value → List JsonNode
  | [] => []
  | v :: values => v.node :: nodes values

/-- The entries of an object. -/
def entryNodes : List (Text × Value) → List (Text × JsonNode)
  | [] => []
  | (key, v) :: entries => (key, v.node) :: entryNodes entries

end

/-- What a size of three bytes can say. -/
def maxSize : ℕ := 65821 + 2 ^ 24

/-- **The payload of a value** that is no container, and the size in front
of it. A number may begin with zeros. -/
inductive Payload : Value → ℕ → List UInt8 → Prop
  | string (s : Text) : Payload (.string s) (Utf8.encode s).length (Utf8.encode s)
  | bytes (bs : List UInt8) : Payload (.bytes bs) bs.length bs
  | boolean (b : Bool) : Payload (.boolean b) b.toNat []
  | uint16 {n : BitVec 16} {w : ℕ} (hw : w ≤ 2) (hn : n.toNat < 256 ^ w) :
      Payload (.uint16 n) w (BigEndian.write w n.toNat)
  | uint32 {n : BitVec 32} {w : ℕ} (hw : w ≤ 4) (hn : n.toNat < 256 ^ w) :
      Payload (.uint32 n) w (BigEndian.write w n.toNat)
  | int32 {n : BitVec 32} {w : ℕ} (hw : w ≤ 4) (hn : n.toNat < 256 ^ w) :
      Payload (.int32 n) w (BigEndian.write w n.toNat)
  | uint64 {n : BitVec 64} {w : ℕ} (hw : w ≤ 8) (hn : n.toNat < 256 ^ w) :
      Payload (.uint64 n) w (BigEndian.write w n.toNat)
  | uint128 {n : BitVec 128} {w : ℕ} (hw : w ≤ 16) (hn : n.toNat < 256 ^ w) :
      Payload (.uint128 n) w (BigEndian.write w n.toNat)

end Value

/-! ## Control bytes -/

/-- What a control byte says of a size, and the bytes that say the rest. -/
def sizeField (size : ℕ) : ℕ × List UInt8 :=
  if size < 29 then (size, [])
  else if size < 285 then (29, BigEndian.write 1 (size - 29))
  else if size < 65821 then (30, BigEndian.write 2 (size - 285))
  else (31, BigEndian.write 3 (size - 65821))

/-- The bytes in front of a payload. A type above 7 is extended. -/
def header (type size : ℕ) : List UInt8 :=
  if type ≤ 7 then UInt8.ofNat (type * 32 + (sizeField size).1) :: (sizeField size).2
  else UInt8.ofNat (sizeField size).1 :: UInt8.ofNat (type - 7) :: (sizeField size).2

/-! ## Pointers -/

/-- What is added to a pointer of `k` bytes. -/
def bias : ℕ → ℕ
  | 2 => 2048
  | 3 => 526336
  | _ => 0

/-- **The bytes of a pointer**, with `k` of them behind the control byte.
Up to three, the control byte has the highest bits of the pointer; of a
longer one it has none, and any. -/
inductive PointerBytes : ℕ → ℕ → List UInt8 → Prop
  | short {k p : ℕ} (hk : 1 ≤ k ∧ k ≤ 3) (hp : p < 8 * 256 ^ k) :
      PointerBytes k p (UInt8.ofNat (32 + 8 * (k - 1) + p / 256 ^ k) :: BigEndian.write k p)
  | long {p unused : ℕ} (hunused : unused < 8) (hp : p < 256 ^ 4) :
      PointerBytes 4 p (UInt8.ofNat (32 + 24 + unused) :: BigEndian.write 4 p)

/-! ## Values in a buffer -/

open Value in
/-- **These values stand one after the other**, from the first offset to
the second. -/
inductive Encoded (b : Buffer) (pointerBase : ℤ) : ℕ → List Value → ℕ → Prop
  | nil (off : ℕ) : Encoded b pointerBase off [] off
  | scalar {off size e : ℕ} {v : Value} {payload : List UInt8} {vs : List Value}
      (hpayload : v.Payload size payload) (hsize : size < maxSize)
      (hbytes : b.HasAt off (header v.typeNumber size ++ payload))
      (hvs : Encoded b pointerBase
        (off + (header v.typeNumber size).length + payload.length) vs e) :
      Encoded b pointerBase off (v :: vs) e
  | array {off next e : ℕ} {values vs : List Value}
      (hsize : values.length < maxSize)
      (hbytes : b.HasAt off (header (Value.array values).typeNumber values.length))
      (hvalues : Encoded b pointerBase
        (off + (header (Value.array values).typeNumber values.length).length) values next)
      (hvs : Encoded b pointerBase next vs e) :
      Encoded b pointerBase off (.array values :: vs) e
  | map {off next e : ℕ} {entries : List (Text × Value)} {vs : List Value}
      (hkeys : (entries.map Prod.fst).Nodup) (hsize : entries.length < maxSize)
      (hbytes : b.HasAt off (header (Value.map entries).typeNumber entries.length))
      (hmembers : Encoded b pointerBase
        (off + (header (Value.map entries).typeNumber entries.length).length)
        (members entries) next)
      (hvs : Encoded b pointerBase next vs e) :
      Encoded b pointerBase off (.map entries :: vs) e
  | pointer {off k p target e' e : ℕ} {bs : List UInt8} {v : Value} {vs : List Value}
      (hpointer : PointerBytes k p bs) (hbytes : b.HasAt off bs)
      (htarget : (target : ℤ) = p + bias k + pointerBase)
      (hv : Encoded b pointerBase target [v] e')
      (hvs : Encoded b pointerBase (off + 1 + k) vs e) :
      Encoded b pointerBase off (v :: vs) e

end IpLookUp

end Xpod
