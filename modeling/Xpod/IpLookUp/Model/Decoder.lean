import Mathlib.Data.BitVec
import Mathlib.Tactic
import Xpod.Common.BigEndian
import Xpod.Common.Java
import Xpod.Common.Utf8
import Xpod.Storm.Model.DownLoadStat
/-!
# The decoder of the data section

`Decoder` reads a tree of JSON nodes out of a byte buffer. A value begins
with a control byte of a type and a size, both of which may go on in the
next bytes; a pointer stands for the value at another offset.

An `int` of the source is a `BitVec 32` and a `long` a `BitVec 64`. The
buffer's position is passed along. A call has one less of the stack to
itself than its caller, and fails when there is none left.
-/

namespace Xpod

namespace IpLookUp

open Storm (Text intText)

/-! ## Buffers -/

/-- The contents of a `ByteBuffer`, whose capacity is an `int`. -/
structure Buffer where
  bytes : List UInt8
  length_lt : bytes.length < 2 ^ 31

namespace Buffer

/-- `position(p)` -/
def position (b : Buffer) (p : BitVec 32) : Except Java.Exception ℕ :=
  if p.toInt < 0 ∨ b.bytes.length < p.toInt then .error .illegalArgument else .ok p.toNat

/-- `get()` -/
def get (b : Buffer) (pos : ℕ) : Except Java.Exception (UInt8 × ℕ) :=
  match b.bytes[pos]? with
  | none => .error .bufferUnderflow
  | some x => .ok (x, pos + 1)

/-- `get(bytes)` for an array of `length` bytes. -/
def getByteArray (b : Buffer) (length pos : ℕ) : Except Java.Exception (List UInt8) :=
  if pos + length ≤ b.bytes.length then .ok ((b.bytes.drop pos).take length)
  else .error .bufferUnderflow

/-- `slice()` with `limit(size)`: the bytes from the position on. -/
def slice (b : Buffer) (size pos : ℕ) : Except Java.Exception (List UInt8) :=
  if pos + size ≤ b.bytes.length then .ok ((b.bytes.drop pos).take size)
  else .error .illegalArgument

end Buffer

/-! ## Nodes and types -/

/-- `JsonNode`. Of a floating point number the node holds the bits. -/
inductive JsonNode
  | text (s : Text)
  | double (bits : BitVec 64)
  | float (bits : BitVec 32)
  | binary (bytes : List UInt8)
  | int (n : BitVec 32)
  | long (n : BitVec 64)
  | bigInteger (n : ℕ)
  | boolean (b : Bool)
  | array (nodes : List JsonNode)
  | object (entries : List (Text × JsonNode))

/-- `put(key, value)` of an object: the value of a key is replaced in its
place. -/
def putEntry (key : Text) (value : JsonNode) :
    List (Text × JsonNode) → List (Text × JsonNode)
  | [] => [(key, value)]
  | e :: entries =>
    if e.1 = key then (key, value) :: entries else e :: putEntry key value entries

/-- `asText()`. What the library prints for floating point numbers and
binaries is given. -/
def JsonNode.asText (rendered : JsonNode → Text) : JsonNode → Text
  | .text s => s
  | .int n => intText n.toInt
  | .long n => intText n.toInt
  | .bigInteger n => intText n
  | .boolean b => (if b then "true" else "false").toList
  | .array _ => []
  | .object _ => []
  | node => rendered node

/-- `Type` -/
inductive Kind
  | extended
  | pointer
  | utf8String
  | double
  | bytes
  | uint16
  | uint32
  | map
  | int32
  | uint64
  | uint128
  | array
  | container
  | endMarker
  | boolean
  | float
deriving DecidableEq, Repr

namespace Kind

/-- `Type.values` -/
def values : List Kind :=
  [.extended, .pointer, .utf8String, .double, .bytes, .uint16, .uint32, .map, .int32, .uint64,
    .uint128, .array, .container, .endMarker, .boolean, .float]

/-- `Type.get(i)` -/
def get (i : BitVec 32) : Except Java.Exception Kind :=
  match values[i.toNat]? with
  | none => .error .indexOutOfBounds
  | some kind => .ok kind

/-- `Type.fromControlByte(b)` -/
def fromControlByte (b : BitVec 32) : Except Java.Exception Kind := get ((0xFF &&& b) >>> 5)

/-- `name()` -/
def name : Kind → String
  | extended => "EXTENDED"
  | pointer => "POINTER"
  | utf8String => "UTF8_STRING"
  | double => "DOUBLE"
  | bytes => "BYTES"
  | uint16 => "UINT16"
  | uint32 => "UINT32"
  | map => "MAP"
  | int32 => "INT32"
  | uint64 => "UINT64"
  | uint128 => "UINT128"
  | array => "ARRAY"
  | container => "CONTAINER"
  | endMarker => "END_MARKER"
  | boolean => "BOOLEAN"
  | float => "FLOAT"

end Kind

/-! ## Numbers -/

/-- `buffer.get() & 0xFF`, in `w` bits. -/
def unsigned (w : ℕ) (x : UInt8) : BitVec w := x.toBitVec.setWidth w

/-- The loop that shifts `size` bytes into a number. -/
def shiftIn (b : Buffer) {w : ℕ} : BitVec w → ℕ → ℕ → Except Java.Exception (BitVec w × ℕ)
  | integer, 0, pos => .ok (integer, pos)
  | integer, size + 1, pos => do
    let (x, pos) ← b.get pos
    shiftIn b ((integer <<< 8) ||| unsigned w x) size pos

/-- `decodeInteger(buffer, base, size)` -/
def decodeInteger (b : Buffer) (base : BitVec 32) (size pos : ℕ) :
    Except Java.Exception (BitVec 32 × ℕ) :=
  shiftIn b base size pos

/-- `decodeLong(size)` -/
def decodeLong (b : Buffer) (size pos : ℕ) : Except Java.Exception (BitVec 64 × ℕ) :=
  shiftIn b 0 size pos

/-! ## The decoder -/

/-- A decoder, with what the library prints for floating point numbers and
binaries. -/
structure Decoder where
  buffer : Buffer
  pointerBase : BitVec 64
  rendered : JsonNode → Text

/-- `Result` -/
abbrev Result : Type := JsonNode × BitVec 32

namespace Decoder

variable (d : Decoder)

/-- `pointerValueOffset` -/
def pointerValueOffset : List (BitVec 64) := [0, 0, 1 <<< 11, (1 <<< 19) + (1 <<< 11), 0]

/-- `decodePointer(ctrlByte, offset)` -/
def decodePointer (ctrlByte offset : BitVec 32) (pos : ℕ) :
    Except Java.Exception (BitVec 64 × BitVec 32) := do
  let pointerSize := ((ctrlByte >>> 3) &&& 0x3) + 1
  let base := if pointerSize = 4 then 0 else ctrlByte &&& 0x7
  let (packed, _) ← decodeInteger d.buffer base pointerSize.toNat pos
  let pointer := packed.signExtend 64 + d.pointerBase +
    pointerValueOffset.getD pointerSize.toNat 0
  return (pointer, offset + pointerSize)

/-- `sizeFromCtrlByte(ctrlByte, offset)`, and the position behind the size. -/
def sizeFromCtrlByte (ctrlByte offset : BitVec 32) (pos : ℕ) :
    Except Java.Exception (BitVec 32 × BitVec 32 × ℕ) := do
  let size := ctrlByte &&& 0x1f
  let bytesToRead : BitVec 32 := if size.toNat < 29 then 0 else size - 28
  if size = 29 then
    let (i, pos) ← decodeInteger d.buffer 0 bytesToRead.toNat pos
    return (29 + i, offset + bytesToRead, pos)
  else if size = 30 then
    let (i, pos) ← decodeInteger d.buffer 0 bytesToRead.toNat pos
    return (285 + i, offset + bytesToRead, pos)
  else if 30 < size.toNat then
    let (i, pos) ← decodeInteger d.buffer 0 bytesToRead.toNat pos
    let i := i &&& ((0x0FFFFFFF : BitVec 32) >>> (32 - 8 * bytesToRead.toNat))
    return (65821 + i, offset + bytesToRead, pos)
  else return (size, offset + bytesToRead, pos)

/-- `decodeBoolean(size)` -/
def decodeBoolean (size : ℕ) : Except Java.Exception JsonNode :=
  match size with
  | 0 => .ok (.boolean false)
  | 1 => .ok (.boolean true)
  | _ => .error (.invalidDatabase ("The MaxMind DB file's data section contains bad data: " ++
      "invalid size of boolean."))

/-- `decodeDouble(size)` -/
def decodeDouble (size pos : ℕ) : Except Java.Exception JsonNode :=
  if size ≠ 8 then
    .error (.invalidDatabase ("The MaxMind DB file's data section contains bad data: " ++
      "invalid size of double."))
  else do
    let bytes ← d.buffer.getByteArray 8 pos
    return .double (BitVec.ofNat 64 (BigEndian.read bytes))

/-- `decodeFloat(size)` -/
def decodeFloat (size pos : ℕ) : Except Java.Exception JsonNode :=
  if size ≠ 4 then
    .error (.invalidDatabase ("The MaxMind DB file's data section contains bad data: " ++
      "invalid size of float."))
  else do
    let bytes ← d.buffer.getByteArray 4 pos
    return .float (BitVec.ofNat 32 (BigEndian.read bytes))

/-- `decodeString(size)` -/
def decodeString (size pos : ℕ) : Except Java.Exception Text := do
  let bytes ← d.buffer.slice size pos
  return Utf8.decode bytes

/-- `decodeBigInteger(size)` -/
def decodeBigInteger (size pos : ℕ) : Except Java.Exception JsonNode := do
  let bytes ← d.buffer.getByteArray size pos
  return .bigInteger (BigEndian.read bytes)

section Containers

variable (decode : BitVec 32 → Except Java.Exception Result)

/-- `decodeArray(size, offset)`, with the nodes there are already. -/
def decodeArray : ℕ → BitVec 32 → List JsonNode → Except Java.Exception Result
  | 0, offset, array => .ok (.array array, offset)
  | size + 1, offset, array => do
    let (node, offset) ← decode offset
    decodeArray size offset (array ++ [node])

/-- `decodeMap(size, offset)`, with the entries there are already. -/
def decodeMap : ℕ → BitVec 32 → List (Text × JsonNode) → Except Java.Exception Result
  | 0, offset, map => .ok (.object map, offset)
  | size + 1, offset, map => do
    let (key, offset) ← decode offset
    let (value, offset) ← decode offset
    decodeMap size offset (putEntry (key.asText d.rendered) value map)

/-- `decodeByType(type, offset, size)` -/
def decodeByType (kind : Kind) (offset size : BitVec 32) (pos : ℕ) :
    Except Java.Exception Result := do
  let newOffset := offset + size
  match kind with
  | .map => decodeMap d decode size.toNat offset []
  | .array => decodeArray decode size.toNat offset []
  | .boolean =>
    let node ← decodeBoolean size.toNat
    return (node, offset)
  | .utf8String =>
    let s ← d.decodeString size.toNat pos
    return (.text s, newOffset)
  | .double =>
    let node ← d.decodeDouble size.toNat pos
    return (node, newOffset)
  | .float =>
    let node ← d.decodeFloat size.toNat pos
    return (node, newOffset)
  | .bytes =>
    let bytes ← d.buffer.getByteArray size.toNat pos
    return (.binary bytes, newOffset)
  | .uint16 =>
    let (i, _) ← decodeInteger d.buffer 0 size.toNat pos
    return (.int i, newOffset)
  | .uint32 =>
    let (l, _) ← decodeLong d.buffer size.toNat pos
    return (.long l, newOffset)
  | .int32 =>
    let (i, _) ← decodeInteger d.buffer 0 size.toNat pos
    return (.int i, newOffset)
  | .uint64 =>
    let node ← d.decodeBigInteger size.toNat pos
    return (node, newOffset)
  | .uint128 =>
    let node ← d.decodeBigInteger size.toNat pos
    return (node, newOffset)
  | kind => .error (.invalidDatabase ("Unknown or unexpected type: " ++ kind.name))

end Containers

/-- The extended type of a value: the next byte is signed. -/
def extendedKind (nextByte : UInt8) : Except Java.Exception Kind :=
  let typeNum : BitVec 32 := nextByte.toBitVec.signExtend 32 + 7
  if typeNum.toInt < 8 then
    .error (.invalidDatabase ("Something went horribly wrong in the decoder. An extended type " ++
      "resolved to a type number < 8 (" ++ String.ofList (intText typeNum.toInt) ++ ")"))
  else Kind.get typeNum

/-- `decode(offset)` on a stack of so many calls. -/
def decode : ℕ → BitVec 32 → Except Java.Exception Result
  | 0, _ => .error .stackOverflow
  | stack + 1, offset => do
    if d.buffer.bytes.length ≤ offset.toInt then
      .error (.invalidDatabase ("The MaxMind DB file's data section contains bad data: " ++
        "pointer larger than the database."))
    else
      let pos ← d.buffer.position offset
      let (x, pos) ← d.buffer.get pos
      let ctrlByte := unsigned 32 x
      let offset := offset + 1
      let kind ← Kind.fromControlByte ctrlByte
      if kind = .pointer then
        let (pointer, newOffset) ← d.decodePointer ctrlByte offset pos
        let (node, _) ← decode stack (pointer.setWidth 32)
        return (node, newOffset)
      else if kind = .extended then
        let (nextByte, pos) ← d.buffer.get pos
        let kind ← extendedKind nextByte
        let (size, offset, pos) ← d.sizeFromCtrlByte ctrlByte (offset + 1) pos
        d.decodeByType (decode stack) kind offset size pos
      else
        let (size, offset, pos) ← d.sizeFromCtrlByte ctrlByte offset pos
        d.decodeByType (decode stack) kind offset size pos

end Decoder

end IpLookUp

end Xpod
