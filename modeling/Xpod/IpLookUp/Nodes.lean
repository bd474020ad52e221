import Mathlib.Data.BitVec
import Mathlib.Tactic
import Xpod.Common.BigEndian
import Xpod.IpLookUp.Buffers
import Xpod.IpLookUp.Model.Reader
import Xpod.IpLookUp.SearchTree
/-!
# The three sizes of records

`readNode` knows nodes of two records of 24, 28 or 32 bits, which take 6, 7
and 8 bytes. `Metadata` computes the bytes of a node from the whole bytes of
a record, which is right for 24 and 32 bits and one byte short for 28. So
with records of 28 bits every node but the first is read from bytes of its
neighbour, and the tree is taken to end before it does.
-/

namespace Xpod

namespace IpLookUp

open Buffer

/-- The sizes `readNode` has a case for. -/
inductive RecordSize
  | bits24
  | bits28
  | bits32
deriving DecidableEq, Repr

namespace RecordSize

/-- `record_size` -/
def bits : RecordSize → ℕ
  | bits24 => 24
  | bits28 => 28
  | bits32 => 32

/-- The bytes of a node, as the cases of `readNode` take them apart: with 28
bits the high nibbles of both records share the byte between their other
three. -/
def node (n : ℕ × ℕ) : RecordSize → List UInt8
  | bits24 => BigEndian.write 3 n.1 ++ BigEndian.write 3 n.2
  | bits28 => BigEndian.write 3 n.1 ++
      UInt8.ofNat (n.1 / 2 ^ 24 * 16 + n.2 / 2 ^ 24) :: BigEndian.write 3 n.2
  | bits32 => BigEndian.write 4 n.1 ++ BigEndian.write 4 n.2

/-- The nodes one behind the other. -/
def table (size : RecordSize) (nodes : NodeTable) : List UInt8 :=
  nodes.flatMap fun n => size.node n

theorem length_table28 (nodes : NodeTable) : (bits28.table nodes).length = nodes.length * 7 := by
  induction nodes with
  | nil => rfl
  | cons n nodes ih =>
    have hcons : bits28.table (n :: nodes) = bits28.node n ++ bits28.table nodes := rfl
    have hnode : (bits28.node n).length = 7 := by simp [node]
    rw [hcons, List.length_append, ih, hnode, List.length_cons]
    omega

end RecordSize

namespace Reader

/-- **The buffer begins with the table**, in records of one of the sizes
that are no negative `int`s. -/
structure Stores (r : Reader) (size : RecordSize) (nodes : NodeTable) : Prop where
  nodeCount : r.metadata.nodeCount = BitVec.ofNat 32 nodes.length
  recordSize : r.metadata.recordSize = BitVec.ofNat 32 size.bits
  lt : ∀ n ∈ nodes, n.1 < 2 ^ 31 ∧ n.2 < 2 ^ 31
  fits : ∀ n ∈ nodes, n.1 < 2 ^ size.bits ∧ n.2 < 2 ^ size.bits
  bytes : size.table nodes <+: r.buffer.bytes

/-- The reader with nothing behind the first `searchTreeSize` bytes. A read
behind them throws. -/
def searchTree (r : Reader) : Reader where
  buffer :=
    { bytes := r.buffer.bytes.take r.metadata.searchTreeSize.toNat
      length_lt := lt_of_le_of_lt (List.length_take_le' _ _) r.buffer.length_lt }
  metadata := r.metadata
  rendered := r.rendered

/-- **The node is read from its own bytes**: `readNode` returns its record,
also to a reader that has the bytes of the search tree only. -/
def ReadsOwn (r : Reader) (i : ℕ) (n : ℕ × ℕ) (bit : Bool) : Prop :=
  r.readNode (BitVec.ofNat 32 i) (bitIndex bit) =
      .ok (BitVec.ofNat 32 (if bit then n.2 else n.1)) ∧
    r.searchTree.readNode (BitVec.ofNat 32 i) (bitIndex bit) =
      .ok (BitVec.ofNat 32 (if bit then n.2 else n.1))

variable {r : Reader} {size : RecordSize} {nodes : NodeTable}

/-! ## Whole bytes -/

/-- A table of records of whole bytes. -/
theorem Stores.encodes (h : r.Stores size nodes) (hsize : size ≠ .bits28) : r.Encodes nodes where
  nodeCount := h.nodeCount
  recordSize := by
    rw [h.recordSize]
    cases size <;> simp_all [RecordSize.bits]
  lt := h.lt
  fits := by
    have hbits : r.metadata.recordSize.toNat = size.bits := by
      rw [h.recordSize]
      cases size <;> rfl
    rw [hbits]
    exact h.fits
  bytes := by
    have hbytes := h.bytes
    rw [h.recordSize]
    cases size with
    | bits24 => exact hbytes
    | bits28 => exact absurd rfl hsize
    | bits32 => exact hbytes

/-- The computed size of a tree that fits into an `int`. -/
theorem toNat_searchTreeSize {m : Metadata} {count stride : ℕ}
    (hcount : m.nodeCount = BitVec.ofNat 32 count)
    (hstride : m.nodeByteSize = BitVec.ofNat 32 stride) (hlt : count * stride < 2 ^ 32) :
    m.searchTreeSize.toNat = count * stride := by
  rw [Metadata.searchTreeSize, hcount, hstride, ← BitVec.ofNat_mul, BitVec.toNat_ofNat,
    Nat.mod_eq_of_lt hlt]

/-- The search tree of such a table ends where its bytes do. -/
theorem Encodes.searchTree (h : r.Encodes nodes) : r.searchTree.Encodes nodes where
  nodeCount := h.nodeCount
  recordSize := h.recordSize
  lt := h.lt
  fits := h.fits
  bytes := by
    have hbuffer := r.buffer.length_lt
    have hlength := h.bytes.length_le
    rw [length_nodeBytes] at hlength
    have hstride : r.metadata.nodeByteSize =
        BitVec.ofNat 32 (2 * (r.metadata.recordSize.toNat / 8)) := by
      rw [Metadata.nodeByteSize]
      rcases h.recordSize with hr | hr
      · rw [hr]
        decide
      · rw [hr]
        decide
    have hsize := toNat_searchTreeSize h.nodeCount hstride (by omega)
    change _ <+: r.buffer.bytes.take r.metadata.searchTreeSize.toNat
    rw [hsize, ← length_nodeBytes]
    exact List.prefix_take_iff.2 ⟨h.bytes, le_rfl⟩

/-- With whole bytes every node is read from its own. -/
theorem Stores.readsOwn (h : r.Stores size nodes) (hsize : size ≠ .bits28) {i : ℕ} {n : ℕ × ℕ}
    (hn : nodes[i]? = some n) (bit : Bool) : r.ReadsOwn i n bit := by
  have hencodes := h.encodes hsize
  exact ⟨hencodes.readNode_eq hn bit, hencodes.searchTree.readNode_eq hn bit⟩

/-! ## Twenty-eight bits -/

/-- A number is read only where all its bytes are. -/
theorem le_of_shiftIn {w : ℕ} {b : Buffer} {x y : BitVec w} {k pos pos' : ℕ}
    (h : shiftIn b x (k + 1) pos = .ok (y, pos')) : pos + (k + 1) ≤ b.bytes.length := by
  induction k generalizing x pos with
  | zero =>
    obtain ⟨⟨c, p⟩, hget, -⟩ := Java.bind_eq_ok.1 h
    rw [Buffer.get] at hget
    by_contra hlt
    rw [List.getElem?_eq_none (by omega)] at hget
    simp at hget
  | succ k ih =>
    obtain ⟨⟨c, p⟩, hget, hrest⟩ := Java.bind_eq_ok.1 h
    have hp : p = pos + 1 := by
      rw [Buffer.get] at hget
      rcases hb : b.bytes[pos]? with - | x
      · rw [hb] at hget
        simp at hget
      · rw [hb] at hget
        simpa using (congrArg Prod.snd (Except.ok.inj hget)).symm
    have := ih hrest
    omega

theorem eq_of_position {b : Buffer} {p : BitVec 32} {pos : ℕ} (h : b.position p = .ok pos) :
    pos = p.toNat := by
  rw [Buffer.position] at h
  split at h
  · simp at h
  · exact (Except.ok.inj h).symm

/-- **The last record of the last node lies outside**: its node is taken
to begin six bytes before the computed end, and takes seven. -/
theorem Stores.not_readsOwn (h : r.Stores .bits28 nodes) (hne : nodes ≠ []) {n : ℕ × ℕ} :
    ¬ r.ReadsOwn (nodes.length - 1) n true := by
  rintro ⟨-, hread⟩
  have hpos : 0 < nodes.length := List.length_pos_iff.2 hne
  have hlength := h.bytes.length_le
  rw [RecordSize.length_table28] at hlength
  have hbuffer := r.buffer.length_lt
  have hsize28 : r.metadata.recordSize = 28 := h.recordSize
  have hstride : r.metadata.nodeByteSize = BitVec.ofNat 32 6 := by
    rw [Metadata.nodeByteSize, hsize28]
    decide
  have hend := toNat_searchTreeSize h.nodeCount hstride (by omega)
  -- the reads of `readNode`: the byte of the nibbles, then three more
  unfold Reader.readNode at hread
  change (if r.metadata.recordSize = 24 then _ else if r.metadata.recordSize = 28 then _
    else _) = _ at hread
  rw [if_neg (by rw [hsize28]; decide), if_pos hsize28] at hread
  obtain ⟨x, -, hread⟩ := Java.bind_eq_ok.1 hread
  obtain ⟨pos, hposition, hread⟩ := Java.bind_eq_ok.1 hread
  obtain ⟨⟨record, pos'⟩, hdecode, -⟩ := Java.bind_eq_ok.1 hread
  have hlast : pos = (nodes.length - 1) * 6 + 4 := by
    change Buffer.position _ (BitVec.ofNat 32 (nodes.length - 1) * r.metadata.nodeByteSize +
      BitVec.ofNat 32 4) = _ at hposition
    rw [eq_of_position hposition, hstride, ← BitVec.ofNat_mul, ← BitVec.ofNat_add,
      BitVec.toNat_ofNat]
    omega
  have hle := le_of_shiftIn hdecode
  have htree : r.searchTree.buffer.bytes.length ≤ nodes.length * 6 := by
    rw [← hend]
    exact List.length_take_le _ _
  omega

/-- **Every node is read from its own bytes, except with records of 28
bits.** For every table stored in one of the three sizes, `readNode` returns
each record of each node and reads within the computed size of the search
tree, if and only if the size is not 28 bits or there are no nodes. -/
theorem readNode_reads_own_iff (r : Reader) (size : RecordSize) (nodes : NodeTable)
    (h : r.Stores size nodes) :
    (∀ i n, nodes[i]? = some n → ∀ bit, r.ReadsOwn i n bit) ↔
      size ≠ .bits28 ∨ nodes = [] := by
  constructor
  · intro hall
    by_contra hcon
    obtain ⟨hsize, hne⟩ := not_or.1 hcon
    obtain rfl := not_not.1 hsize
    have hlast : nodes[nodes.length - 1]? = some (nodes.getLast hne) := by
      rw [← List.getLast?_eq_getElem?, List.getLast?_eq_some_getLast hne]
    exact h.not_readsOwn hne (hall _ _ hlast true)
  · rintro (hsize | rfl) i n hn bit
    · exact h.readsOwn hsize hn bit
    · simp at hn

/-- A reader of two nodes, with records of the size. -/
def twoNodes (size : RecordSize) : Reader where
  buffer :=
    { bytes := size.table [(1, 2), (3, 4)]
      length_lt := by cases size <;> decide }
  metadata := ⟨4, 2, BitVec.ofNat 32 size.bits⟩
  rendered _ := []

theorem stores_twoNodes (size : RecordSize) : (twoNodes size).Stores size [(1, 2), (3, 4)] where
  nodeCount := rfl
  recordSize := rfl
  lt := by decide
  fits := by cases size <;> decide
  bytes := List.prefix_rfl

theorem readNode_reads_own_twoNodes :
    (twoNodes .bits24).Stores .bits24 [(1, 2), (3, 4)] ∧
      (twoNodes .bits24).ReadsOwn 1 (3, 4) false ∧ (twoNodes .bits24).ReadsOwn 1 (3, 4) true := by
  have hreads := (readNode_reads_own_iff (twoNodes .bits24) .bits24 _
    (stores_twoNodes .bits24)).2 (Or.inl (by decide)) 1 (3, 4) rfl
  exact ⟨stores_twoNodes .bits24, hreads false, hreads true⟩

/-- **The second node of a table in 28 bits** is read from the last byte of
the first one on. -/
theorem readNode_misreads_twoNodes :
    (twoNodes .bits28).Stores .bits28 [(1, 2), (3, 4)] ∧
      (twoNodes .bits28).readNode 1 0 = .ok 0x20000 ∧
      ¬ (twoNodes .bits28).ReadsOwn 1 (3, 4) false := by
  have hread : (twoNodes .bits28).readNode 1 0 = .ok 0x20000 := rfl
  refine ⟨stores_twoNodes .bits28, hread, fun h => ?_⟩
  have hsame := Except.ok.inj (hread.symm.trans h.1)
  exact absurd hsame (by decide)

end Reader

end IpLookUp

end Xpod
