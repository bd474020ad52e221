import Mathlib.Data.BitVec
import Mathlib.Data.List.GetD
import Mathlib.Tactic
import Xpod.Common.Trie
import Xpod.IpLookUp.SearchTree
/-!
# Addresses of the other family

The walk starts at the first node and takes the bits of the address as
they are, whatever `ipVersion` the metadata has. So an address goes the
way of every longer one that begins with it, and the answer for the longer
one is that for the shorter one as soon as the tree has ended.
-/

namespace Xpod

namespace IpLookUp

/-- What `findAddressInTree` throws at a node. -/
def endsAtNode : Except Java.Exception (BitVec 32) :=
  .error (.invalidDatabase "Something bad happened")

/-! ## Addresses that begin alike -/

section Walk

variable {r : Reader} {a : List UInt8}

theorem descend_append (is js : List ℕ) (record : BitVec 32) :
    r.descend a (is ++ js) record = (r.descend a is record >>= r.descend a js) := by
  induction is generalizing record with
  | nil => rfl
  | cons i is ih =>
    rw [List.cons_append, Reader.descend, Reader.descend]
    split_ifs with hend
    · cases js with
      | nil => rfl
      | cons j js => rw [Java.ok_bind, Reader.descend, if_pos hend]
    · rcases r.readNode record (Reader.addressBit a i) with e | next
      · rfl
      · exact ih next

/-- A walk that has ended goes no further. -/
theorem descend_of_le {record : BitVec 32}
    (h : r.metadata.nodeCount.toInt ≤ record.toInt) (is : List ℕ) :
    r.descend a is record = .ok record := by
  cases is with
  | nil => rfl
  | cons i is => rw [Reader.descend, if_pos h]

theorem descend_congr {a' : List UInt8} {is : List ℕ}
    (h : ∀ i ∈ is, Reader.addressBit a i = Reader.addressBit a' i) (record : BitVec 32) :
    r.descend a is record = r.descend a' is record := by
  induction is generalizing record with
  | nil => rfl
  | cons i is ih =>
    obtain ⟨hi, h⟩ := List.forall_mem_cons.1 h
    rw [Reader.descend, Reader.descend, hi]
    simp only [ih h]

/-- The first bits of a longer address are those of the shorter one. -/
theorem descend_append_address (c : List UInt8) :
    r.descend (a ++ c) (List.range ((a ++ c).length * 8)) 0 =
      (r.descend a (List.range (a.length * 8)) 0 >>=
        r.descend (a ++ c) ((List.range (c.length * 8)).map (a.length * 8 + ·))) := by
  have hlen : (a ++ c).length * 8 = a.length * 8 + c.length * 8 := by
    rw [List.length_append]
    ring
  have hbits : ∀ i ∈ List.range (a.length * 8),
      Reader.addressBit (a ++ c) i = Reader.addressBit a i := by
    intro i hi
    have hi : i / 8 < a.length := by
      have := List.mem_range.1 hi
      omega
    rw [Reader.addressBit, Reader.addressBit, List.getD_append _ _ _ _ hi]
  rw [hlen, List.range_add, descend_append, descend_congr hbits]

/-- **An address is looked up as every longer one that begins with it**,
unless its walk ends at a node. -/
theorem findAddressInTree_append (h : r.findAddressInTree a ≠ endsAtNode) (c : List UInt8) :
    r.findAddressInTree (a ++ c) = r.findAddressInTree a := by
  unfold Reader.findAddressInTree at h ⊢
  simp only at h ⊢
  rw [descend_append_address]
  rcases hwalk : r.descend a (List.range (a.length * 8)) 0 with e | record
  · rfl
  · rw [hwalk, Java.ok_bind] at h
    have hend : r.metadata.nodeCount.toInt ≤ record.toInt := by
      by_contra hnode
      refine h ?_
      have hne : record ≠ r.metadata.nodeCount := by
        rintro rfl
        exact hnode le_rfl
      rw [if_neg hne, if_neg fun hlt => hnode hlt.le]
      rfl
    rw [Java.ok_bind, descend_of_le hend]

theorem get_congr {a' : List UInt8} (h : r.findAddressInTree a = r.findAddressInTree a') :
    r.get a = r.get a' := by
  funext stack
  rw [Reader.get, Reader.get, h]

theorem get_append (h : r.findAddressInTree a ≠ endsAtNode) (c : List UInt8) :
    r.get (a ++ c) = r.get a :=
  get_congr (findAddressInTree_append h c)

/-- Without a stack nothing is decoded. -/
theorem resolveDataPointer_zero (pointer : BitVec 32) :
    r.resolveDataPointer pointer 0 = .error (.invalidDatabase
        ("The MaxMind DB file's search tree is corrupt: " ++
          "contains pointer larger than the database.")) ∨
      r.resolveDataPointer pointer 0 = .error .stackOverflow := by
  unfold Reader.resolveDataPointer
  by_cases hfar : (r.buffer.bytes.length : ℤ) ≤
      (pointer - r.metadata.nodeCount + r.metadata.searchTreeSize).toInt
  · exact Or.inl (if_pos hfar)
  · exact Or.inr (if_neg hfar)

/-- The exception of a walk that ends at a node comes from no other step. -/
theorem findAddressInTree_of_get
    (h : r.get a 0 = .error (.invalidDatabase "Something bad happened")) :
    r.findAddressInTree a = endsAtNode := by
  unfold Reader.get at h
  rcases hfind : r.findAddressInTree a with e | pointer
  · rw [hfind] at h
    rw [endsAtNode, Except.error.inj h]
  · rw [hfind, Java.ok_bind] at h
    by_cases hzero : pointer = 0
    · rw [if_pos hzero] at h
      exact nomatch h
    · rw [if_neg hzero] at h
      rcases resolveDataPointer_zero (r := r) pointer with hcorrupt | hstack
      · rw [hcorrupt, Java.error_bind] at h
        simp at h
      · rw [hstack, Java.error_bind] at h
        simp at h

end Walk

/-! ## Databases -/

/-- **A database**: a reader of a tree that has an end for every address of
the version it is made for. -/
structure Database where
  reader : Reader
  ends4 : reader.metadata.ipVersion = 4 → ∀ a : List UInt8, a.length = 4 →
    reader.findAddressInTree a ≠ endsAtNode
  ends6 : reader.metadata.ipVersion = 6 → ∀ a : List UInt8, a.length = 16 →
    reader.findAddressInTree a ≠ endsAtNode

/-- A table that holds a trie has an end for every address as long as the
trie is deep. -/
theorem Reader.Encodes.ne_endsAtNode {r : Reader} {nodes : NodeTable} (h : r.Encodes nodes)
    {t : Trie} (ht : nodes.Holds 0 t) {a : List UInt8} (hdepth : t.depth ≤ a.length * 8) :
    r.findAddressInTree a ≠ endsAtNode := by
  have hend : nodes.length ≤ nodes.walk (addressBits a) 0 :=
    (ht.walk _).le (Trie.depth_descend (by rw [length_addressBits]; exact hdepth))
  rw [h.findAddressInTree_eq, endsAtNode]
  split_ifs with hempty hdata
  · simp
  · simp
  · omega

namespace Database

variable (db : Database)

/-- **The families are kept apart**: a database for IPv4 has nothing for an
address of sixteen bytes, and a database for IPv6 answers an address of
four bytes as that of sixteen with zeros in front. -/
def FamiliesApart : Prop :=
  (db.reader.metadata.ipVersion = 4 → ∀ a : List UInt8, a.length = 16 → ∀ stack,
    db.reader.get a stack = .ok none ∨ ∃ e, db.reader.get a stack = .error e) ∧
  (db.reader.metadata.ipVersion = 6 → ∀ a : List UInt8, a.length = 4 →
    db.reader.get a = db.reader.get (List.replicate 12 0 ++ a))

/-- **When they are**: a database for IPv4 has no location at all, and a
database for IPv6 ends within the first 32 zeros of an address and has one
answer for every address of four bytes. -/
def NothingToConfuse : Prop :=
  (db.reader.metadata.ipVersion = 4 → ∀ a : List UInt8, a.length = 4 → ∀ stack node,
    db.reader.get a stack ≠ .ok (some node)) ∧
  (db.reader.metadata.ipVersion = 6 →
    db.reader.findAddressInTree [0, 0, 0, 0] ≠ endsAtNode ∧
      ∀ a : List UInt8, a.length = 4 → db.reader.get a = db.reader.get [0, 0, 0, 0])

/-- An IPv6 address is answered as the IPv4 address of its first bytes. -/
theorem get_take (h4 : db.reader.metadata.ipVersion = 4) {a : List UInt8} (ha : 4 ≤ a.length) :
    db.reader.get a = db.reader.get (a.take 4) := by
  have hlen : (a.take 4).length = 4 := by
    rw [List.length_take]
    omega
  have happend := get_append (db.ends4 h4 (a.take 4) hlen) (a.drop 4)
  rwa [List.take_append_drop] at happend

/-- Sixteen bytes with zeros in front are answered as four zeros, if the
tree ends there. -/
theorem get_zeros (h : db.reader.findAddressInTree [0, 0, 0, 0] ≠ endsAtNode)
    (a : List UInt8) :
    db.reader.get (List.replicate 12 0 ++ a) = db.reader.get [0, 0, 0, 0] := by
  have happend := get_append h (List.replicate 8 0 ++ a)
  rwa [← List.append_assoc] at happend

end Database

/-- The database of one node. -/
def sampleDatabase (ipVersion : BitVec 32) : Database where
  reader := sampleReader ipVersion
  ends4 := by
    intro _ a ha
    refine (encodes_sampleReader ipVersion).ne_endsAtNode (t := .node (.leaf 17) .empty) ?_ ?_
    · exact ⟨17, 1, rfl, ⟨by decide, rfl⟩, rfl⟩
    · rw [ha]
      decide
  ends6 := by
    intro _ a ha
    refine (encodes_sampleReader ipVersion).ne_endsAtNode (t := .node (.leaf 17) .empty) ?_ ?_
    · exact ⟨17, 1, rfl, ⟨by decide, rfl⟩, rfl⟩
    · rw [ha]
      decide

end IpLookUp

end Xpod
