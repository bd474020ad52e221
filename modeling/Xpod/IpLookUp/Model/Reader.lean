import Mathlib.Data.BitVec
import Mathlib.Tactic
import Xpod.IpLookUp.Model.Decoder
/-!
# The reader of the search tree

A database begins with the nodes of a binary tree, two records each, and
goes on with the data section. `Reader` walks from the first node down the
bits of an address until a record is no node, and decodes the data the
record points to.

The copies of `Reader` under `hive_ip_lbs` and `strom_kafka` differ in
layout only.
-/

namespace Xpod

namespace IpLookUp

open Storm (Text)

/-- `Metadata`, by the fields the reader uses. -/
structure Metadata where
  ipVersion : BitVec 32
  nodeCount : BitVec 32
  recordSize : BitVec 32
deriving DecidableEq, Repr

namespace Metadata

def nodeByteSize (m : Metadata) : BitVec 32 := m.recordSize.sdiv 8 * 2

def searchTreeSize (m : Metadata) : BitVec 32 := m.nodeCount * m.nodeByteSize

end Metadata

/-! ## The metadata -/

/-- `METADATA_START_MARKER` -/
def metadataStartMarker : List UInt8 :=
  [0xAB, 0xCD, 0xEF, 84, 84, 80, 79, 68, 46, 67, 79, 77]

section FindMetadataStart

variable (buffer : Buffer)

/-- `buffer.capacity()` -/
def fileSize : ℤ := buffer.bytes.length

/-- The inner loop over the `j` that are left: it comes to its end, or
continues the outer one. -/
def markerLoop (i : ℕ) : List ℕ → Except Java.Exception Bool
  | [] => .ok true
  | j :: js => do
    let b ← Java.elementAt buffer.bytes (fileSize buffer - i - j - 1)
    let m ← Java.elementAt metadataStartMarker (metadataStartMarker.length - j - 1)
    if b ≠ m then return false else markerLoop i js

/-- The outer loop over the `i` that are left. -/
def fileLoop (dbName : Option String) : List ℕ → Except Java.Exception ℤ
  | [] => .error (.invalidDatabase ("Could not find DB metadata marker in this file (" ++
      Java.text dbName ++ "). Is this a valid DB file?"))
  | i :: is => do
    let found ← markerLoop buffer i (List.range metadataStartMarker.length)
    if found then return fileSize buffer - i else fileLoop dbName is

/-- `findMetadataStart(dbName)`. The capacity is an `int`, so nothing
overflows. -/
def findMetadataStart (dbName : Option String) : Except Java.Exception ℤ :=
  fileLoop buffer dbName
    (List.range (fileSize buffer - metadataStartMarker.length + 1).toNat)

end FindMetadataStart

/-! ## The tree -/

/-- A reader of a buffer. -/
structure Reader where
  buffer : Buffer
  metadata : Metadata
  rendered : JsonNode → Text

namespace Reader

/-- `DATA_SECTION_SEP_SIZE` -/
def dataSectionSepSize : BitVec 32 := 16

variable (r : Reader)

/-- `decoder` -/
def decoder : Decoder where
  buffer := r.buffer
  pointerBase := (r.metadata.searchTreeSize + dataSectionSepSize).signExtend 64
  rendered := r.rendered

/-- `buffer.get(index)` -/
def byteAt (index : BitVec 32) : Except Java.Exception UInt8 :=
  if index.toInt < 0 then .error .indexOutOfBounds
  else
    match r.buffer.bytes[index.toNat]? with
    | none => .error .indexOutOfBounds
    | some x => .ok x

/-- `readNode(nodeNumber, index)` -/
def readNode (nodeNumber index : BitVec 32) : Except Java.Exception (BitVec 32) := do
  let baseOffset := nodeNumber * r.metadata.nodeByteSize
  if r.metadata.recordSize = 24 then
    let pos ← r.buffer.position (baseOffset + index * 3)
    let (record, _) ← decodeInteger r.buffer 0 3 pos
    return record
  else if r.metadata.recordSize = 28 then
    let x ← r.byteAt (baseOffset + 3)
    let middle : BitVec 32 := x.toBitVec.signExtend 32
    let middle := if index = 0 then (0xF0 &&& middle) >>> 4 else 0x0F &&& middle
    let pos ← r.buffer.position (baseOffset + index * 4)
    let (record, _) ← decodeInteger r.buffer middle 3 pos
    return record
  else if r.metadata.recordSize = 32 then
    let pos ← r.buffer.position (baseOffset + index * 4)
    let (record, _) ← decodeInteger r.buffer 0 4 pos
    return record
  else
    .error (.invalidDatabase ("Unknown record size: " ++
      String.ofList (Storm.intText r.metadata.recordSize.toInt)))

/-- Bit `i` of an address, from the highest of its first byte on. -/
def addressBit (rawAddress : List UInt8) (i : ℕ) : BitVec 32 :=
  1 &&& (unsigned 32 (rawAddress.getD (i / 8) 0) >>> (7 - i % 8))

/-- The loop over the bits `is` that are left. -/
def descend (rawAddress : List UInt8) :
    List ℕ → BitVec 32 → Except Java.Exception (BitVec 32)
  | [], record => .ok record
  | i :: is, record =>
    if r.metadata.nodeCount.toInt ≤ record.toInt then .ok record
    else do
      let record ← r.readNode record (addressBit rawAddress i)
      descend rawAddress is record

/-- `findAddressInTree(address)` -/
def findAddressInTree (rawAddress : List UInt8) : Except Java.Exception (BitVec 32) := do
  let bitLength := rawAddress.length * 8
  let record ← r.descend rawAddress (List.range bitLength) 0
  if record = r.metadata.nodeCount then return 0
  else if r.metadata.nodeCount.toInt < record.toInt then return record
  else .error (.invalidDatabase "Something bad happened")

/-- `resolveDataPointer(pointer)` -/
def resolveDataPointer (pointer : BitVec 32) (stack : ℕ) : Except Java.Exception JsonNode := do
  let resolved := pointer - r.metadata.nodeCount + r.metadata.searchTreeSize
  if r.buffer.bytes.length ≤ resolved.toInt then
    .error (.invalidDatabase ("The MaxMind DB file's search tree is corrupt: " ++
      "contains pointer larger than the database."))
  else
    let (node, _) ← r.decoder.decode stack resolved
    return node

/-- `get(ipAddress)` on a stack of so many calls. -/
def get (rawAddress : List UInt8) (stack : ℕ) : Except Java.Exception (Option JsonNode) := do
  let pointer ← r.findAddressInTree rawAddress
  if pointer = 0 then return none
  else
    let node ← r.resolveDataPointer pointer stack
    return some node

end Reader

end IpLookUp

end Xpod
