import Mathlib.Data.BitVec
import Mathlib.Tactic
import Xpod.Common.BigEndian
import Xpod.Common.Trie
import Xpod.IpLookUp.Buffers
import Xpod.IpLookUp.Model.Reader
/-!
# The walk down the search tree

`findAddressInTree` on a buffer that begins with the records of a node
table walks that table down the bits of the address. When the table holds
a trie no deeper than the address is long, the walk is a lookup in the
trie.
-/

namespace Xpod

namespace IpLookUp

open Buffer

/-! ## Node tables in a buffer -/

/-- The bytes of nodes with records of `w` bytes. -/
def nodeBytes (w : ℕ) (nodes : NodeTable) : List UInt8 :=
  nodes.flatMap fun n => BigEndian.write w n.1 ++ BigEndian.write w n.2

/-- **The buffer begins with the table**, in records of 24 or 32 bits that
are no negative `int`s. -/
structure Reader.Encodes (r : Reader) (nodes : NodeTable) : Prop where
  nodeCount : r.metadata.nodeCount = BitVec.ofNat 32 nodes.length
  recordSize : r.metadata.recordSize = 24 ∨ r.metadata.recordSize = 32
  lt : ∀ n ∈ nodes, n.1 < 2 ^ 31 ∧ n.2 < 2 ^ 31
  fits : ∀ n ∈ nodes, n.1 < 2 ^ r.metadata.recordSize.toNat ∧ n.2 < 2 ^ r.metadata.recordSize.toNat
  bytes : nodeBytes (r.metadata.recordSize.toNat / 8) nodes <+: r.buffer.bytes

theorem length_nodeBytes (w : ℕ) (nodes : NodeTable) :
    (nodeBytes w nodes).length = nodes.length * (2 * w) := by
  induction nodes with
  | nil => simp [nodeBytes]
  | cons n nodes ih =>
    have hcons : nodeBytes w (n :: nodes) =
        (BigEndian.write w n.1 ++ BigEndian.write w n.2) ++ nodeBytes w nodes := rfl
    rw [hcons, List.length_append, ih, List.length_append, BigEndian.length_write,
      BigEndian.length_write, List.length_cons]
    ring

/-- Every node has its own bytes. -/
theorem hasAt_node {b : Buffer} {w pos i : ℕ} {nodes : NodeTable} {n : ℕ × ℕ}
    (h : b.HasAt pos (nodeBytes w nodes)) (hn : nodes[i]? = some n) :
    b.HasAt (pos + i * (2 * w)) (BigEndian.write w n.1) ∧
      b.HasAt (pos + i * (2 * w) + w) (BigEndian.write w n.2) := by
  induction nodes generalizing pos i with
  | nil => simp at hn
  | cons m nodes ih =>
    have hcons : nodeBytes w (m :: nodes) =
        (BigEndian.write w m.1 ++ BigEndian.write w m.2) ++ nodeBytes w nodes := rfl
    rw [hcons] at h
    obtain ⟨hhead, htail⟩ := hasAt_append.1 h
    cases i with
    | zero =>
      obtain rfl := Option.some.inj hn
      obtain ⟨hleft, hright⟩ := hasAt_append.1 hhead
      rw [BigEndian.length_write] at hright
      simpa using ⟨hleft, hright⟩
    | succ i =>
      rw [List.length_append, BigEndian.length_write, BigEndian.length_write] at htail
      have hpos : pos + (i + 1) * (2 * w) = pos + (w + w) + i * (2 * w) := by ring
      rw [hpos]
      exact ih htail hn

section Encodes

variable {r : Reader} {nodes : NodeTable}

/-- The records are of three or four bytes, and `readNode` reads that many. -/
theorem Reader.Encodes.readNode_eq_decode (h : r.Encodes nodes) :
    ∃ w, r.metadata.recordSize.toNat = 8 * w ∧ 0 < w ∧ w ≤ 4 ∧
      ∀ n index, r.readNode n index = do
        let pos ← r.buffer.position (n * BitVec.ofNat 32 (2 * w) + index * BitVec.ofNat 32 w)
        let (record, _) ← decodeInteger r.buffer 0 w pos
        return record := by
  rcases h.recordSize with hsize | hsize
  · refine ⟨3, by rw [hsize]; rfl, by decide, by decide, fun n index => ?_⟩
    have hbytes : r.metadata.nodeByteSize = 6 := by
      rw [Metadata.nodeByteSize, hsize]
      decide
    unfold Reader.readNode
    rw [hbytes, if_pos hsize]
    rfl
  · refine ⟨4, by rw [hsize]; rfl, by decide, by decide, fun n index => ?_⟩
    have hbytes : r.metadata.nodeByteSize = 8 := by
      rw [Metadata.nodeByteSize, hsize]
      decide
    have h24 : ¬ r.metadata.recordSize = 24 := by
      rw [hsize]
      decide
    have h28 : ¬ r.metadata.recordSize = 28 := by
      rw [hsize]
      decide
    unfold Reader.readNode
    rw [hbytes, if_neg h24, if_neg h28, if_pos hsize]
    rfl

/-- An index of a record, as an `int`. -/
def bitIndex (bit : Bool) : BitVec 32 := if bit then 1 else 0

/-- **A node is read from its own bytes.** -/
theorem Reader.Encodes.readNode_eq (h : r.Encodes nodes) {i : ℕ} {n : ℕ × ℕ}
    (hn : nodes[i]? = some n) (bit : Bool) :
    r.readNode (BitVec.ofNat 32 i) (bitIndex bit) =
      .ok (BitVec.ofNat 32 (if bit then n.2 else n.1)) := by
  obtain ⟨w, hw, hpos, -, hread⟩ := h.readNode_eq_decode
  have hbytes : r.buffer.HasAt 0 (nodeBytes w nodes) := by
    have hprefix := h.bytes
    rw [hw, Nat.mul_div_cancel_left w (by decide)] at hprefix
    exact hprefix
  obtain ⟨hleft, hright⟩ := hasAt_node hbytes hn
  rw [Nat.zero_add] at hleft hright
  have hfits : n.1 < 256 ^ w ∧ n.2 < 256 ^ w := by
    have hfits := h.fits n (List.mem_of_getElem? hn)
    rw [hw, pow_mul] at hfits
    exact hfits
  -- the record lies at a position that is no negative `int`
  have hrecord : ∀ (p record : ℕ), record < 256 ^ w →
      r.buffer.HasAt p (BigEndian.write w record) →
      (do let pos ← r.buffer.position (BitVec.ofNat 32 p)
          let (record, _) ← decodeInteger r.buffer 0 w pos
          return record) = .ok (BitVec.ofNat 32 record) := by
    intro p record hlt hat
    have hle := hat.le (by rw [BigEndian.length_write]; exact hpos)
    have hdecode : decodeInteger r.buffer 0 w p =
        .ok (BitVec.ofNat 32 record, p + w) := shiftIn_write (by decide) hlt hat
    rw [position_ofNat (by omega), Java.ok_bind, hdecode]
    rfl
  rw [hread]
  cases bit with
  | false =>
    have hoffset : BitVec.ofNat 32 i * BitVec.ofNat 32 (2 * w) +
        bitIndex false * BitVec.ofNat 32 w = BitVec.ofNat 32 (i * (2 * w)) := by
      rw [← BitVec.ofNat_mul]
      simp [bitIndex]
    rw [hoffset]
    exact hrecord _ _ hfits.1 hleft
  | true =>
    have hoffset : BitVec.ofNat 32 i * BitVec.ofNat 32 (2 * w) +
        bitIndex true * BitVec.ofNat 32 w = BitVec.ofNat 32 (i * (2 * w) + w) := by
      rw [BitVec.ofNat_add, ← BitVec.ofNat_mul]
      simp [bitIndex]
    rw [hoffset]
    exact hrecord _ _ hfits.2 hright

end Encodes

/-! ## The bits of an address -/

/-- **The bits of an address**, the highest of each byte first. -/
def addressBits (rawAddress : List UInt8) : List Bool :=
  rawAddress.flatMap fun x => (List.range 8).map fun j => x.toBitVec.getMsbD j

theorem length_addressBits (a : List UInt8) : (addressBits a).length = a.length * 8 := by
  induction a with
  | nil => rfl
  | cons x a ih =>
    have hcons : addressBits (x :: a) =
        ((List.range 8).map fun j => x.toBitVec.getMsbD j) ++ addressBits a := rfl
    rw [hcons, List.length_append, ih, List.length_map, List.length_range, List.length_cons]
    ring

/-- The bit the loop takes, as a `Bool`. -/
def bitAt (rawAddress : List UInt8) (i : ℕ) : Bool :=
  (rawAddress.getD (i / 8) 0).toBitVec.getMsbD (i % 8)

/-- One bit of a byte, in an `int`. -/
theorem one_and_shiftRight (x : BitVec 8) {k : ℕ} (hk : k < 8) :
    (1 : BitVec 32) &&& (x.setWidth 32 >>> k) = bitIndex (x.getLsbD k) := by
  unfold bitIndex
  ext j hj
  by_cases hj0 : j = 0
  · subst hj0
    cases hb : x.getLsbD k
    · simp [hb]
    · simp [hb]
      omega
  · cases hb : x.getLsbD k <;> simp [hj0]

theorem addressBit_eq (rawAddress : List UInt8) (i : ℕ) :
    Reader.addressBit rawAddress i = bitIndex (bitAt rawAddress i) := by
  have hmod : i % 8 < 8 := Nat.mod_lt i (by decide)
  have hbit : bitAt rawAddress i = (rawAddress.getD (i / 8) 0).toBitVec.getLsbD (7 - i % 8) := by
    rw [bitAt, BitVec.getMsbD_eq_getLsbD, decide_eq_true hmod, Bool.true_and]
  rw [hbit, ← one_and_shiftRight _ (by omega)]
  rfl

theorem map_bitAt (rawAddress : List UInt8) :
    (List.range (rawAddress.length * 8)).map (bitAt rawAddress) = addressBits rawAddress := by
  induction rawAddress with
  | nil => rfl
  | cons x a ih =>
    have hlen : (x :: a).length * 8 = 8 + a.length * 8 := by
      rw [List.length_cons]
      ring
    have hhead : (List.range 8).map (bitAt (x :: a)) =
        (List.range 8).map fun j => x.toBitVec.getMsbD j := by
      refine List.map_congr_left fun j hj => ?_
      have hj : j < 8 := List.mem_range.1 hj
      rw [bitAt, Nat.div_eq_of_lt hj, Nat.mod_eq_of_lt hj]
      rfl
    have htail : (List.range (a.length * 8)).map (bitAt (x :: a) ∘ (8 + ·)) =
        (List.range (a.length * 8)).map (bitAt a) := by
      refine List.map_congr_left fun i _ => ?_
      have hdiv : (8 + i) / 8 = i / 8 + 1 := by omega
      have hmod : (8 + i) % 8 = i % 8 := by omega
      rw [Function.comp_apply, bitAt, bitAt, hdiv, hmod]
      rfl
    rw [hlen, List.range_add, List.map_append, List.map_map, hhead, htail, ih]
    rfl

/-! ## The walk -/

section Walk

variable {r : Reader} {nodes : NodeTable}

theorem Reader.Encodes.length_lt (h : r.Encodes nodes) : nodes.length < 2 ^ 31 := by
  obtain ⟨w, hw, hpos, -, -⟩ := h.readNode_eq_decode
  have hlen := h.bytes.length_le
  have hbuffer := r.buffer.length_lt
  rw [length_nodeBytes, hw, Nat.mul_div_cancel_left w (by decide)] at hlen
  have hle : nodes.length ≤ nodes.length * (2 * w) := Nat.le_mul_of_pos_right _ (by omega)
  omega

/-- A record below 2^31 as an `int`. -/
theorem toInt_ofNat_of_lt {n : ℕ} (h : n < 2 ^ 31) : (BitVec.ofNat 32 n).toInt = n := by
  have htoNat : (BitVec.ofNat 32 n).toNat = n := by
    rw [BitVec.toNat_ofNat]
    omega
  rw [BitVec.toInt_eq_toNat_of_lt (by omega), htoNat]

theorem Reader.Encodes.walk_lt (h : r.Encodes nodes) (bits : List Bool) {record : ℕ}
    (hrecord : record < 2 ^ 31) : nodes.walk bits record < 2 ^ 31 := by
  induction bits generalizing record with
  | nil => exact hrecord
  | cons bit bits ih =>
    rw [NodeTable.walk]
    rcases hnode : nodes[record]? with - | ⟨left, right⟩
    · exact hrecord
    · obtain ⟨hleft, hright⟩ := h.lt _ (List.mem_of_getElem? hnode)
      cases bit with
      | false => exact ih hleft
      | true => exact ih hright

/-- **The loop walks the table.** -/
theorem Reader.Encodes.descend_eq (h : r.Encodes nodes) (rawAddress : List UInt8) (is : List ℕ)
    {record : ℕ} (hrecord : record < 2 ^ 31) :
    r.descend rawAddress is (BitVec.ofNat 32 record) =
      .ok (BitVec.ofNat 32 (nodes.walk (is.map (bitAt rawAddress)) record)) := by
  induction is generalizing record with
  | nil => rfl
  | cons i is ih =>
    rw [Reader.descend, h.nodeCount, toInt_ofNat_of_lt h.length_lt, toInt_ofNat_of_lt hrecord,
      List.map_cons, NodeTable.walk]
    rcases hnode : nodes[record]? with - | ⟨left, right⟩
    · have hle : nodes.length ≤ record := List.getElem?_eq_none_iff.1 hnode
      rw [if_pos (by exact_mod_cast hle)]
    · obtain ⟨hlt, -⟩ := List.getElem?_eq_some_iff.1 hnode
      obtain ⟨hleft, hright⟩ := h.lt _ (List.mem_of_getElem? hnode)
      have hnext : (if bitAt rawAddress i then right else left) < 2 ^ 31 := by
        split_ifs
        · exact hright
        · exact hleft
      rw [if_neg (by omega), addressBit_eq, h.readNode_eq hnode, Java.ok_bind]
      exact ih hnext

/-- What `findAddressInTree` makes of the end of the walk. -/
theorem Reader.Encodes.findAddressInTree_eq (h : r.Encodes nodes) (rawAddress : List UInt8) :
    r.findAddressInTree rawAddress =
      if nodes.walk (addressBits rawAddress) 0 = nodes.length then .ok 0
      else if nodes.length < nodes.walk (addressBits rawAddress) 0 then
        .ok (BitVec.ofNat 32 (nodes.walk (addressBits rawAddress) 0))
      else .error (.invalidDatabase "Something bad happened") := by
  have hzero : 0 < 2 ^ 31 := by decide
  have hwalk := h.walk_lt (addressBits rawAddress) hzero
  have hdescend := h.descend_eq rawAddress (List.range (rawAddress.length * 8)) hzero
  rw [map_bitAt] at hdescend
  have heq : BitVec.ofNat 32 (nodes.walk (addressBits rawAddress) 0) =
      BitVec.ofNat 32 nodes.length ↔ nodes.walk (addressBits rawAddress) 0 = nodes.length := by
    rw [← BitVec.toInt_inj, toInt_ofNat_of_lt hwalk, toInt_ofNat_of_lt h.length_lt]
    exact Nat.cast_inj
  unfold Reader.findAddressInTree
  change (do
    let record ← r.descend rawAddress (List.range (rawAddress.length * 8)) (BitVec.ofNat 32 0)
    _) = _
  rw [hdescend, Java.ok_bind, h.nodeCount]
  simp only [heq, toInt_ofNat_of_lt hwalk, toInt_ofNat_of_lt h.length_lt, Nat.cast_lt]
  rfl

end Walk

/-- **`findAddressInTree` is lookup in a trie.** On every encoded table:
if it holds a trie of depth at most 32, then for every address of four
bytes the descent down the address ends in an empty leaf and the method
returns 0, or it ends in a data leaf and the method returns its pointer;
and, whatever the table holds, the method throws an
`InvalidDatabaseException` exactly when the walk down all 32 bits ends at a
node. -/
theorem findAddressInTree_is_lookup (r : Reader) (nodes : NodeTable) (h : r.Encodes nodes)
    (rawAddress : List UInt8) (haddress : rawAddress.length = 4) :
    (∀ t : Trie, nodes.Holds 0 t → t.depth ≤ 32 →
      (t.descend (addressBits rawAddress) = .empty ∧ r.findAddressInTree rawAddress = .ok 0) ∨
      ∃ pointer, t.descend (addressBits rawAddress) = .leaf pointer ∧
        r.findAddressInTree rawAddress = .ok (BitVec.ofNat 32 pointer)) ∧
    ((∃ message, r.findAddressInTree rawAddress = .error (.invalidDatabase message)) ↔
      nodes.walk (addressBits rawAddress) 0 < nodes.length) := by
  have hfind := h.findAddressInTree_eq rawAddress
  refine ⟨fun t ht hdepth => ?_, ?_⟩
  · have hend := ht.walk (addressBits rawAddress)
    have hleaf : (t.descend (addressBits rawAddress)).depth = 0 := by
      refine Trie.depth_descend ?_
      rw [length_addressBits, haddress]
      exact hdepth
    rcases hdescend : t.descend (addressBits rawAddress) with - | pointer | ⟨left, right⟩
    · rw [hdescend] at hend
      have hempty : nodes.walk (addressBits rawAddress) 0 = nodes.length := hend
      refine Or.inl ⟨rfl, ?_⟩
      rw [hfind, if_pos hempty]
    · rw [hdescend] at hend
      obtain ⟨hlt, hpointer⟩ := hend
      refine Or.inr ⟨pointer, rfl, ?_⟩
      rw [hfind, hpointer, if_neg hlt.ne', if_pos hlt]
    · rw [hdescend] at hleaf
      simp [Trie.depth] at hleaf
  · rw [hfind]
    constructor
    · rintro ⟨message, hmessage⟩
      split_ifs at hmessage with hempty hdata
      omega
    · intro hnode
      exact ⟨_, by rw [if_neg hnode.ne, if_neg hnode.not_gt]⟩

/-- A database of one node: the addresses that begin with a zero have the
text `x`, the others have nothing. -/
def sampleReader (ipVersion : BitVec 32) : Reader where
  buffer := ⟨[0, 0, 17, 0, 0, 1] ++ List.replicate 16 0 ++ [0x41, 0x78], by decide⟩
  metadata := ⟨ipVersion, 1, 24⟩
  rendered := fun _ => []

theorem encodes_sampleReader (ipVersion : BitVec 32) :
    (sampleReader ipVersion).Encodes [(17, 1)] where
  nodeCount := rfl
  recordSize := Or.inl rfl
  lt := by simp
  fits := by
    intro n hn
    obtain rfl := List.mem_singleton.1 hn
    exact ⟨show 17 < 2 ^ 24 by decide, show 1 < 2 ^ 24 by decide⟩
  bytes := by
    have hsize : (sampleReader ipVersion).metadata.recordSize = 24 := rfl
    rw [hsize]
    exact (by decide : nodeBytes 3 [(17, 1)] <+:
      [0, 0, 17, 0, 0, 1] ++ List.replicate 16 0 ++ [0x41, 0x78])

theorem findAddressInTree_is_lookup_sampleReader :
    (sampleReader 4).Encodes [(17, 1)] ∧
      (sampleReader 4).findAddressInTree [10, 0, 0, 1] = .ok 17 := by
  have henc := encodes_sampleReader 4
  refine ⟨henc, ?_⟩
  have hholds : NodeTable.Holds [(17, 1)] 0 (.node (.leaf 17) .empty) :=
    ⟨17, 1, rfl, ⟨by decide, rfl⟩, rfl⟩
  rcases (findAddressInTree_is_lookup _ _ henc [10, 0, 0, 1] rfl).1 _ hholds (by decide) with
    ⟨hempty, -⟩ | ⟨pointer, hleaf, hfind⟩
  · exact absurd hempty (by decide)
  · obtain rfl : 17 = pointer := Trie.leaf.inj hleaf
    exact hfind

end IpLookUp

end Xpod
