import Mathlib.Data.BitVec
import Mathlib.Tactic
import Xpod.Common.BigEndian
import Xpod.Common.Utf8
import Xpod.IpLookUp.ControlBytes
import Xpod.IpLookUp.Format
/-!
# The decoder inverts the format

A value that stands in the buffer is decoded, by any decoder with enough
of a stack, unless there is a size in it that is not seen as it is. Then
it is not: what is decoded instead is shorter somewhere.
-/

namespace Xpod

namespace IpLookUp

open Buffer
open Storm (Text)

/-! ## Sizes in range -/

namespace Value

mutual

/-- Every size in a value is one that is seen as it is. -/
def InRange : Value → Prop
  | string s => (Utf8.encode s).length < sizeLimit
  | bytes bs => bs.length < sizeLimit
  | array values => values.length < sizeLimit ∧ AllInRange values
  | map entries => entries.length < sizeLimit ∧ EntriesInRange entries
  | _ => True

/-- And in the values of an array. -/
def AllInRange : List Value → Prop
  | [] => True
  | v :: values => v.InRange ∧ AllInRange values

/-- And in the keys and values of a map. -/
def EntriesInRange : List (Text × Value) → Prop
  | [] => True
  | (key, v) :: entries =>
    (Utf8.encode key).length < sizeLimit ∧ v.InRange ∧ EntriesInRange entries

end

theorem members_cons (key : Text) (v : Value) (entries : List (Text × Value)) :
    members ((key, v) :: entries) = .string key :: v :: members entries := rfl

theorem length_members (entries : List (Text × Value)) :
    (members entries).length = 2 * entries.length := by
  induction entries with
  | nil => rfl
  | cons entry entries ih =>
    rw [members_cons, List.length_cons, List.length_cons, ih, List.length_cons]
    ring

theorem allInRange_members (entries : List (Text × Value)) :
    AllInRange (members entries) ↔ EntriesInRange entries := by
  induction entries with
  | nil => exact Iff.rfl
  | cons entry entries ih =>
    rw [members_cons, AllInRange, AllInRange, EntriesInRange, InRange, ih]

theorem length_nodes (values : List Value) : (nodes values).length = values.length := by
  induction values with
  | nil => rfl
  | cons v values ih => rw [nodes, List.length_cons, List.length_cons, ih]

theorem length_entryNodes (entries : List (Text × Value)) :
    (entryNodes entries).length = entries.length := by
  induction entries with
  | nil => rfl
  | cons entry entries ih => rw [entryNodes, List.length_cons, List.length_cons, ih]

theorem map_fst_entryNodes (entries : List (Text × Value)) :
    (entryNodes entries).map Prod.fst = entries.map Prod.fst := by
  induction entries with
  | nil => rfl
  | cons entry entries ih => rw [entryNodes, List.map_cons, List.map_cons, ih]

/-- The size of a payload in range. -/
theorem Payload.lt {v : Value} {size : ℕ} {payload : List UInt8} (h : v.Payload size payload)
    (hrange : v.InRange) : size < sizeLimit := by
  unfold sizeLimit
  cases h with
  | string s => exact hrange
  | bytes bs => exact hrange
  | boolean b =>
    have hle := b.toNat_le
    omega
  | uint16 hw hn => omega
  | uint32 hw hn => omega
  | int32 hw hn => omega
  | uint64 hw hn => omega
  | uint128 hw hn => omega

end Value

/-! ## Values one after the other -/

section Sequences

variable (decode : BitVec 32 → Except Java.Exception Result)

/-- So many values from an offset on, and the offset behind them. -/
def decodeValues : ℕ → BitVec 32 → Except Java.Exception (List JsonNode × BitVec 32)
  | 0, offset => .ok ([], offset)
  | n + 1, offset => do
    let (node, offset) ← decode offset
    let (nodes, offset) ← decodeValues n offset
    return (node :: nodes, offset)

variable {decode}

theorem decodeValues_succ {n : ℕ} {offset next last : BitVec 32} {node : JsonNode}
    {nodes : List JsonNode} (hnode : decode offset = .ok (node, next))
    (hnodes : decodeValues decode n next = .ok (nodes, last)) :
    decodeValues decode (n + 1) offset = .ok (node :: nodes, last) := by
  rw [decodeValues, hnode, Java.ok_bind]
  simp only [hnodes]
  rfl

theorem of_decodeValues_succ {n : ℕ} {offset last : BitVec 32} {nodes : List JsonNode}
    (h : decodeValues decode (n + 1) offset = .ok (nodes, last)) :
    ∃ node tail next, nodes = node :: tail ∧ decode offset = .ok (node, next) ∧
      decodeValues decode n next = .ok (tail, last) := by
  obtain ⟨⟨node, next⟩, hnode, h⟩ := Java.bind_eq_ok.1 h
  obtain ⟨⟨tail, last'⟩, htail, h⟩ := Java.bind_eq_ok.1 h
  obtain ⟨rfl, rfl⟩ := Prod.mk.inj (Except.ok.inj h)
  exact ⟨node, tail, next, rfl, hnode, htail⟩

theorem length_of_decodeValues {n : ℕ} {offset last : BitVec 32} {nodes : List JsonNode}
    (h : decodeValues decode n offset = .ok (nodes, last)) : nodes.length = n := by
  induction n generalizing offset nodes with
  | zero =>
    obtain ⟨rfl, -⟩ := Prod.mk.inj (Except.ok.inj h)
    rfl
  | succ n ih =>
    obtain ⟨node, tail, next, rfl, -, htail⟩ := of_decodeValues_succ h
    rw [List.length_cons, ih htail]

theorem decodeArray_eq (n : ℕ) (offset : BitVec 32) (array : List JsonNode) :
    Decoder.decodeArray decode n offset array = (do
      let (nodes, last) ← decodeValues decode n offset
      return (.array (array ++ nodes), last)) := by
  induction n generalizing offset array with
  | zero =>
    rw [Decoder.decodeArray, decodeValues, Java.ok_bind]
    simp only [List.append_nil]
    rfl
  | succ n ih =>
    rw [Decoder.decodeArray, decodeValues]
    rcases decode offset with e | ⟨node, next⟩
    · rfl
    · simp only [Java.ok_bind, ih]
      rcases decodeValues decode n next with e | ⟨nodes, last⟩
      · rfl
      · simp only [Java.ok_bind, List.append_assoc]
        rfl

/-! ## Objects -/

/-- `put` of one entry after the other. -/
def putAll (entries map : List (Text × JsonNode)) : List (Text × JsonNode) :=
  entries.foldl (fun map entry => putEntry entry.1 entry.2 map) map

/-- Keys and values in turn. -/
def readMembers (rendered : JsonNode → Text) : List JsonNode → List (Text × JsonNode)
  | key :: value :: nodes => (key.asText rendered, value) :: readMembers rendered nodes
  | _ => []

theorem decodeMap_eq (d : Decoder) (n : ℕ) (offset : BitVec 32)
    (map : List (Text × JsonNode)) :
    d.decodeMap decode n offset map = (do
      let (nodes, last) ← decodeValues decode (2 * n) offset
      return (.object (putAll (readMembers d.rendered nodes) map), last)) := by
  induction n generalizing offset map with
  | zero => rfl
  | succ n ih =>
    rw [Decoder.decodeMap, show 2 * (n + 1) = 2 * n + 1 + 1 by ring, decodeValues]
    rcases decode offset with e | ⟨key, next⟩
    · rfl
    · simp only [Java.ok_bind, decodeValues]
      rcases decode next with e | ⟨value, next⟩
      · rfl
      · simp only [Java.ok_bind, ih]
        rcases decodeValues decode (2 * n) next with e | ⟨nodes, last⟩
        · rfl
        · rfl

end Sequences

section Entries

variable {key : Text} {value : JsonNode} {map entries : List (Text × JsonNode)}

/-- A new key goes to the end. -/
theorem putEntry_of_not_mem (h : key ∉ map.map Prod.fst) :
    putEntry key value map = map ++ [(key, value)] := by
  induction map with
  | nil => rfl
  | cons e map ih =>
    rw [List.map_cons, List.mem_cons, not_or] at h
    rw [putEntry, if_neg (Ne.symm h.1), ih h.2, List.cons_append]

/-- A key that is there adds nothing. -/
theorem length_putEntry_of_mem (h : key ∈ map.map Prod.fst) :
    (putEntry key value map).length = map.length := by
  induction map with
  | nil => exact absurd h (List.not_mem_nil)
  | cons e map ih =>
    rw [putEntry]
    split_ifs with hkey
    · rfl
    · rw [List.map_cons, List.mem_cons] at h
      rw [List.length_cons, List.length_cons, ih (h.resolve_left (Ne.symm hkey))]

theorem length_putEntry_le (key : Text) (value : JsonNode) (map : List (Text × JsonNode)) :
    (putEntry key value map).length ≤ map.length + 1 := by
  by_cases h : key ∈ map.map Prod.fst
  · rw [length_putEntry_of_mem h]
    exact Nat.le_succ _
  · rw [putEntry_of_not_mem h, List.length_append, List.length_singleton]

theorem length_putAll_le (entries map : List (Text × JsonNode)) :
    (putAll entries map).length ≤ map.length + entries.length := by
  induction entries generalizing map with
  | nil => rfl
  | cons e entries ih =>
    have hput := length_putEntry_le e.1 e.2 map
    have hrest := ih (putEntry e.1 e.2 map)
    rw [List.length_cons]
    exact hrest.trans (by omega)

/-- Distinct keys are put one behind the other. -/
theorem putAll_of_nodup (h : ((map ++ entries).map Prod.fst).Nodup) :
    putAll entries map = map ++ entries := by
  induction entries generalizing map with
  | nil => exact (List.append_nil map).symm
  | cons e entries ih =>
    have hnew : e.1 ∉ map.map Prod.fst := by
      rw [List.map_append, List.nodup_append] at h
      intro hmem
      exact h.2.2 _ hmem _ (by simp) rfl
    have hstep : putAll (e :: entries) map = putAll entries (putEntry e.1 e.2 map) := rfl
    rw [hstep, putEntry_of_not_mem hnew, ih (by simpa using h), List.append_assoc]
    rfl

/-- **If nothing was replaced, the entries are as they were put.** -/
theorem putAll_of_length (h : (putAll entries map).length = map.length + entries.length) :
    putAll entries map = map ++ entries := by
  induction entries generalizing map with
  | nil => exact (List.append_nil map).symm
  | cons e entries ih =>
    have hstep : putAll (e :: entries) map = putAll entries (putEntry e.1 e.2 map) := rfl
    rw [hstep, List.length_cons] at h
    have hle := length_putAll_le entries (putEntry e.1 e.2 map)
    have hnew : e.1 ∉ map.map Prod.fst := by
      intro hmem
      rw [length_putEntry_of_mem hmem] at hle
      omega
    rw [putEntry_of_not_mem hnew] at h
    rw [hstep, putEntry_of_not_mem hnew, ih (by rw [h, List.length_append]; simp; omega),
      List.append_assoc]
    rfl

theorem length_readMembers (rendered : JsonNode → Text) {n : ℕ} {nodes : List JsonNode}
    (h : nodes.length = 2 * n) : (readMembers rendered nodes).length = n := by
  induction n generalizing nodes with
  | zero =>
    obtain rfl := List.eq_nil_of_length_eq_zero h
    rfl
  | succ n ih =>
    match nodes, h with
    | key :: value :: nodes, h =>
      rw [List.length_cons, List.length_cons] at h
      rw [readMembers, List.length_cons, ih (by omega)]

theorem readMembers_nodes (rendered : JsonNode → Text) (entries : List (Text × Value)) :
    readMembers rendered (Value.nodes (Value.members entries)) = Value.entryNodes entries := by
  induction entries with
  | nil => rfl
  | cons entry entries ih =>
    rw [Value.members_cons, Value.nodes, Value.nodes, readMembers, ih, Value.entryNodes]
    rfl

end Entries

/-! ## One value -/

section OneValue

variable {d : Decoder} {decode : BitVec 32 → Except Java.Exception Result}
variable {off pos size : ℕ} {bs : List UInt8}

/-- As much of a text as the size says. -/
theorem decodeByType_string (h : d.buffer.HasAt pos bs) (hpos : pos ≤ d.buffer.bytes.length)
    (hsize : size ≤ bs.length) :
    d.decodeByType decode .utf8String (BitVec.ofNat 32 off) (BitVec.ofNat 32 size) pos =
      .ok (.text (Utf8.decode (bs.take size)), BitVec.ofNat 32 (off + size)) := by
  have hslice := (h.take size).slice hpos
  have hle := h.le_of_le hpos
  have hlt := d.buffer.length_lt
  rw [List.length_take, Nat.min_eq_left hsize] at hslice
  unfold Decoder.decodeByType Decoder.decodeString
  rw [toNat_ofNat_of_lt (by omega), BitVec.ofNat_add off]
  simp only [hslice, Java.ok_bind]
  rfl

/-- As many bytes as the size says. -/
theorem decodeByType_bytes (h : d.buffer.HasAt pos bs) (hpos : pos ≤ d.buffer.bytes.length)
    (hsize : size ≤ bs.length) :
    d.decodeByType decode .bytes (BitVec.ofNat 32 off) (BitVec.ofNat 32 size) pos =
      .ok (.binary (bs.take size), BitVec.ofNat 32 (off + size)) := by
  have hbytes := (h.take size).getByteArray hpos
  have hle := h.le_of_le hpos
  have hlt := d.buffer.length_lt
  rw [List.length_take, Nat.min_eq_left hsize] at hbytes
  unfold Decoder.decodeByType
  rw [toNat_ofNat_of_lt (by omega), BitVec.ofNat_add off]
  simp only [hbytes, Java.ok_bind]
  rfl

section Numbers

variable {n : ℕ} (hn : n < 256 ^ size) (hsize : size < 2 ^ 32)
variable (h : d.buffer.HasAt pos (BigEndian.write size n))
include hn hsize h

/-- A number that becomes an `int`. -/
theorem decodeByType_int {kind : Kind} (hkind : kind = .uint16 ∨ kind = .int32) :
    d.decodeByType decode kind (BitVec.ofNat 32 off) (BitVec.ofNat 32 size) pos =
      .ok (.int (BitVec.ofNat 32 n), BitVec.ofNat 32 (off + size)) := by
  have hread : decodeInteger d.buffer 0 size pos = _ := shiftIn_write (by decide) hn h
  rw [BitVec.ofNat_add off]
  rcases hkind with rfl | rfl <;>
  · unfold Decoder.decodeByType
    simp only [toNat_ofNat_of_lt hsize, hread, Java.ok_bind]
    rfl

/-- A number that becomes a `long`. -/
theorem decodeByType_long :
    d.decodeByType decode .uint32 (BitVec.ofNat 32 off) (BitVec.ofNat 32 size) pos =
      .ok (.long (BitVec.ofNat 64 n), BitVec.ofNat 32 (off + size)) := by
  have hread : decodeLong d.buffer size pos = _ := shiftIn_write (by decide) hn h
  rw [BitVec.ofNat_add off]
  unfold Decoder.decodeByType
  simp only [toNat_ofNat_of_lt hsize, hread, Java.ok_bind]
  rfl

/-- A number that becomes a `BigInteger`. -/
theorem decodeByType_bigInteger {kind : Kind} (hkind : kind = .uint64 ∨ kind = .uint128)
    (hpos : pos ≤ d.buffer.bytes.length) :
    d.decodeByType decode kind (BitVec.ofNat 32 off) (BitVec.ofNat 32 size) pos =
      .ok (.bigInteger n, BitVec.ofNat 32 (off + size)) := by
  have hread : d.decodeBigInteger size pos = .ok (.bigInteger n) := by
    have hbytes := h.getByteArray hpos
    rw [BigEndian.length_write] at hbytes
    rw [Decoder.decodeBigInteger, hbytes, Java.ok_bind, BigEndian.read_write hn]
    rfl
  rw [BitVec.ofNat_add off]
  rcases hkind with rfl | rfl <;>
  · unfold Decoder.decodeByType
    simp only [toNat_ofNat_of_lt hsize, hread, Java.ok_bind]
    rfl

end Numbers

/-- **A payload in range is the value.** -/
theorem decodeByType_payload {v : Value} {payload : List UInt8} (hpayload : v.Payload size payload)
    (hsize : size < sizeLimit) (h : d.buffer.HasAt pos payload)
    (hpos : pos ≤ d.buffer.bytes.length) :
    d.decodeByType decode v.kind (BitVec.ofNat 32 off) (BitVec.ofNat 32 size) pos =
      .ok (v.node, BitVec.ofNat 32 (off + payload.length)) := by
  unfold sizeLimit at hsize
  have hlt : size < 2 ^ 32 := by omega
  cases hpayload with
  | string s =>
    rw [Value.kind, decodeByType_string h hpos le_rfl, List.take_length, Utf8.decode_encode]
    rfl
  | bytes bs =>
    rw [Value.kind, decodeByType_bytes h hpos le_rfl, List.take_length]
    rfl
  | boolean b => cases b <;> rfl
  | uint16 hw hn =>
    rw [Value.kind, decodeByType_int hn hlt h (Or.inl rfl), BigEndian.length_write, Value.node,
      BitVec.ofNat_toNat]
  | int32 hw hn =>
    rw [Value.kind, decodeByType_int hn hlt h (Or.inr rfl), BigEndian.length_write, Value.node,
      BitVec.ofNat_toNat, BitVec.setWidth_eq]
  | uint32 hw hn =>
    rw [Value.kind, decodeByType_long hn hlt h, BigEndian.length_write, Value.node,
      BitVec.ofNat_toNat]
  | uint64 hw hn =>
    rw [Value.kind, decodeByType_bigInteger hn hlt h (Or.inl rfl) hpos, BigEndian.length_write,
      Value.node]
  | uint128 hw hn =>
    rw [Value.kind, decodeByType_bigInteger hn hlt h (Or.inr rfl) hpos, BigEndian.length_write,
      Value.node]

theorem length_header_pos (type size : ℕ) : 0 < (header type size).length := by
  unfold header
  split_ifs <;> exact Nat.succ_pos _

variable {stack : ℕ}

theorem decode_scalar {v : Value} {payload : List UInt8} (hpayload : v.Payload size payload)
    (hmax : size < Value.maxSize) (hsize : size < sizeLimit)
    (h : d.buffer.HasAt off (header v.typeNumber size ++ payload)) :
    d.decode (stack + 1) (BitVec.ofNat 32 off) = .ok (v.node,
      BitVec.ofNat 32 (off + (header v.typeNumber size).length + payload.length)) := by
  obtain ⟨hheader, hbytes⟩ := hasAt_append.1 h
  rw [decode_header v hmax hheader, seenSize_of_lt hsize,
    decodeByType_payload hpayload hsize hbytes (hheader.le (length_header_pos _ _))]

theorem decode_array {values : List Value} (hmax : values.length < Value.maxSize)
    (h : d.buffer.HasAt off (header (Value.array values).typeNumber values.length)) :
    d.decode (stack + 1) (BitVec.ofNat 32 off) = (do
      let (nodes, last) ← decodeValues (d.decode stack) (seenSize values.length)
        (BitVec.ofNat 32 (off + (header (Value.array values).typeNumber values.length).length))
      return (.array nodes, last)) := by
  have hlt := seenSize_lt values.length
  unfold sizeLimit at hlt
  rw [decode_header (.array values) hmax h]
  unfold Value.kind Decoder.decodeByType
  simp only [toNat_ofNat_of_lt (show seenSize values.length < 2 ^ 32 by omega), decodeArray_eq,
    List.nil_append]

theorem decode_map {entries : List (Text × Value)} (hmax : entries.length < Value.maxSize)
    (h : d.buffer.HasAt off (header (Value.map entries).typeNumber entries.length)) :
    d.decode (stack + 1) (BitVec.ofNat 32 off) = (do
      let (nodes, last) ← decodeValues (d.decode stack) (2 * seenSize entries.length)
        (BitVec.ofNat 32 (off + (header (Value.map entries).typeNumber entries.length).length))
      return (.object (putAll (readMembers d.rendered nodes) []), last)) := by
  have hlt := seenSize_lt entries.length
  unfold sizeLimit at hlt
  rw [decode_header (.map entries) hmax h]
  unfold Value.kind Decoder.decodeByType
  simp only [toNat_ofNat_of_lt (show seenSize entries.length < 2 ^ 32 by omega), decodeMap_eq]

end OneValue

/-! ## Values in range are decoded -/

section Runs

variable {d : Decoder} {off e : ℕ} {vs : List Value}

/-- A stack that is deep enough for one value and for those behind it. -/
theorem decodeValues_cons {n : ℕ} {offset next last : BitVec 32} {node : JsonNode}
    {nodes : List JsonNode}
    (hnode : ∃ N, ∀ stack, N ≤ stack → d.decode (stack + 1) offset = .ok (node, next))
    (hnodes : ∃ N, ∀ stack, N ≤ stack →
      decodeValues (d.decode stack) n next = .ok (nodes, last)) :
    ∃ N, ∀ stack, N ≤ stack →
      decodeValues (d.decode stack) (n + 1) offset = .ok (node :: nodes, last) := by
  obtain ⟨N, hN⟩ := hnode
  obtain ⟨M, hM⟩ := hnodes
  refine ⟨N + M + 1, fun stack hstack => ?_⟩
  obtain ⟨stack, rfl⟩ := Nat.exists_eq_add_of_le' (show 1 ≤ stack by omega)
  exact decodeValues_succ (hN stack (by omega)) (hM _ (by omega))

/-- **Values in range are decoded one after the other**, on a stack that is
deep enough. -/
theorem Encoded.decodeValues_eq (h : Encoded d.buffer d.pointerBase.toInt off vs e)
    (hrange : Value.AllInRange vs) :
    ∃ N, ∀ stack, N ≤ stack →
      decodeValues (d.decode stack) vs.length (BitVec.ofNat 32 off) =
        .ok (Value.nodes vs, BitVec.ofNat 32 e) := by
  induction h with
  | nil off => exact ⟨0, fun _ _ => rfl⟩
  | scalar hpayload hsize hbytes hvs ih =>
    exact decodeValues_cons
      ⟨0, fun _ _ => decode_scalar hpayload hsize (hpayload.lt hrange.1) hbytes⟩ (ih hrange.2)
  | array hsize hbytes hvalues hvs ihvalues ihvs =>
    obtain ⟨⟨hlt, hall⟩, hrest⟩ := hrange
    obtain ⟨N, hN⟩ := ihvalues hall
    refine decodeValues_cons ⟨N, fun stack hstack => ?_⟩ (ihvs hrest)
    rw [decode_array hsize hbytes, seenSize_of_lt hlt, hN stack hstack, Value.node]
    rfl
  | map hkeys hsize hbytes hmembers hvs ihmembers ihvs =>
    rename_i entries vs
    obtain ⟨⟨hlt, hall⟩, hrest⟩ := hrange
    obtain ⟨N, hN⟩ := ihmembers ((Value.allInRange_members entries).2 hall)
    refine decodeValues_cons ⟨N, fun stack hstack => ?_⟩ (ihvs hrest)
    have hput : putAll (Value.entryNodes entries) [] = Value.entryNodes entries :=
      putAll_of_nodup (by rw [List.nil_append, Value.map_fst_entryNodes]; exact hkeys)
    rw [decode_map hsize hbytes, seenSize_of_lt hlt, ← Value.length_members, hN stack hstack,
      Java.ok_bind]
    simp only [readMembers_nodes, hput, Value.node]
    rfl
  | pointer hpointer hbytes htarget hv hvs ihv ihvs =>
    obtain ⟨N, hN⟩ := ihv ⟨hrange.1, trivial⟩
    refine decodeValues_cons ⟨N, fun stack hstack => ?_⟩ (ihvs hrange.2)
    obtain ⟨node, tail, next, hnodes, hnode, -⟩ := of_decodeValues_succ (hN stack hstack)
    obtain ⟨rfl, -⟩ := List.cons.inj hnodes
    rw [decode_pointer hpointer hbytes htarget, hnode]
    rfl

/-! ## Values out of range are not -/

/-- A node that is as good as a value where it stands: of the key of a map
only the text is kept. -/
def Matches (rendered : JsonNode → Text) : Value → JsonNode → Prop
  | .string s, node => node.asText rendered = s
  | v, node => node = v.node

theorem matches_node (rendered : JsonNode → Text) (v : Value) : Matches rendered v v.node := by
  cases v <;> rfl

theorem matches_nodes (rendered : JsonNode → Text) (values : List Value) :
    List.Forall₂ (Matches rendered) values (Value.nodes values) := by
  induction values with
  | nil => exact .nil
  | cons v values ih => exact .cons (matches_node rendered v) ih

/-- The entries of a map determine what was read for its keys and values. -/
theorem matches_members {rendered : JsonNode → Text} {entries : List (Text × Value)}
    {nodes : List JsonNode} (hlen : nodes.length = 2 * entries.length)
    (h : readMembers rendered nodes = Value.entryNodes entries) :
    List.Forall₂ (Matches rendered) (Value.members entries) nodes := by
  induction entries generalizing nodes with
  | nil =>
    obtain rfl := List.eq_nil_of_length_eq_zero hlen
    exact .nil
  | cons entry entries ih =>
    match nodes, hlen with
    | key :: value :: nodes, hlen =>
      rw [readMembers, Value.entryNodes] at h
      obtain ⟨hentry, htail⟩ := List.cons.inj h
      obtain ⟨hkey, rfl⟩ := Prod.mk.inj hentry
      rw [List.length_cons, List.length_cons, List.length_cons] at hlen
      exact .cons hkey (.cons (matches_node rendered entry.2) (ih (by omega) htail))

/-- **As many entries as were put leave no room for one that was
replaced**: all were read, and each as it was encoded. -/
theorem matches_of_putAll {rendered : JsonNode → Text} {entries : List (Text × Value)}
    {nodes : List JsonNode} (hlen : nodes.length = 2 * seenSize entries.length)
    (h : putAll (readMembers rendered nodes) [] = Value.entryNodes entries) :
    seenSize entries.length = entries.length ∧
      List.Forall₂ (Matches rendered) (Value.members entries) nodes := by
  have hread := length_readMembers rendered hlen
  have hput := congrArg List.length h
  rw [Value.length_entryNodes] at hput
  have hle := length_putAll_le (readMembers rendered nodes) []
  have hcut := seenSize_le entries.length
  rw [hput, hread, List.length_nil, Nat.zero_add] at hle
  have hseen : seenSize entries.length = entries.length := by omega
  rw [hseen] at hlen hread
  rw [putAll_of_length (by rw [hput, hread, List.length_nil, Nat.zero_add]),
    List.nil_append] at h
  exact ⟨hseen, matches_members hlen h⟩

/-- A payload out of range is cut off. -/
theorem inRange_of_scalar {v : Value} {size stack : ℕ} {payload : List UInt8} {node : JsonNode}
    {next : BitVec 32} (hpayload : v.Payload size payload) (hmax : size < Value.maxSize)
    (h : d.buffer.HasAt off (header v.typeNumber size ++ payload))
    (hdecode : d.decode (stack + 1) (BitVec.ofNat 32 off) = .ok (node, next))
    (hmatch : Matches d.rendered v node) : v.InRange := by
  obtain ⟨hheader, hbytes⟩ := hasAt_append.1 h
  have hpos := hheader.le (length_header_pos _ _)
  rw [decode_header v hmax hheader] at hdecode
  cases hpayload with
  | string s =>
    by_contra hlarge
    have hcut := seenSize_add_le (not_lt.1 hlarge)
    rw [Value.kind, decodeByType_string hbytes hpos (seenSize_le _)] at hdecode
    obtain ⟨rfl, -⟩ := Prod.mk.inj (Except.ok.inj hdecode)
    have hle := Utf8.le_of_decode_take (seenSize_le _) hmatch
    omega
  | bytes bs =>
    by_contra hlarge
    have hcut := seenSize_add_le (not_lt.1 hlarge)
    rw [Value.kind, decodeByType_bytes hbytes hpos (seenSize_le _)] at hdecode
    obtain ⟨hnode, -⟩ := Prod.mk.inj (Except.ok.inj hdecode)
    have hbs := congrArg List.length (JsonNode.binary.inj (hnode.trans hmatch))
    rw [List.length_take] at hbs
    omega
  | boolean | uint16 | uint32 | int32 | uint64 | uint128 => trivial

/-- The first of some values that were decoded, and those behind it. -/
theorem of_decodeValues_cons {v : Value} {stack : ℕ} {nodes : List JsonNode}
    {offset last : BitVec 32}
    (hdecode : decodeValues (d.decode stack) (v :: vs).length offset = .ok (nodes, last))
    (hmatch : List.Forall₂ (Matches d.rendered) (v :: vs) nodes) :
    ∃ stack' node tail next, d.decode (stack' + 1) offset = .ok (node, next) ∧
      Matches d.rendered v node ∧
      decodeValues (d.decode stack) vs.length next = .ok (tail, last) ∧
      List.Forall₂ (Matches d.rendered) vs tail := by
  obtain ⟨node, tail, next, rfl, hnode, htail⟩ := of_decodeValues_succ hdecode
  obtain ⟨hv, hvs⟩ := List.forall₂_cons.1 hmatch
  cases stack with
  | zero => exact nomatch hnode
  | succ stack' => exact ⟨stack', node, tail, next, hnode, hv, htail, hvs⟩

/-- **What is decoded to the values that were encoded is in range**, and
ends where they do. -/
theorem Encoded.allInRange (h : Encoded d.buffer d.pointerBase.toInt off vs e) {stack : ℕ}
    {nodes : List JsonNode} {last : BitVec 32}
    (hdecode : decodeValues (d.decode stack) vs.length (BitVec.ofNat 32 off) = .ok (nodes, last))
    (hmatch : List.Forall₂ (Matches d.rendered) vs nodes) :
    Value.AllInRange vs ∧ last = BitVec.ofNat 32 e := by
  induction h generalizing stack nodes last with
  | nil off =>
    obtain ⟨-, rfl⟩ := Prod.mk.inj (Except.ok.inj hdecode)
    exact ⟨trivial, rfl⟩
  | scalar hpayload hsize hbytes hvs ih =>
    obtain ⟨stack', node, tail, next, hnode, hv, htail, htails⟩ :=
      of_decodeValues_cons hdecode hmatch
    have hrange := inRange_of_scalar hpayload hsize hbytes hnode hv
    rw [decode_scalar hpayload hsize (hpayload.lt hrange) hbytes] at hnode
    obtain ⟨-, rfl⟩ := Prod.mk.inj (Except.ok.inj hnode)
    obtain ⟨hrest, hlast⟩ := ih htail htails
    exact ⟨⟨hrange, hrest⟩, hlast⟩
  | array hsize hbytes hvalues hvs ihvalues ihvs =>
    rename_i values vs
    obtain ⟨stack', node, tail, next, hnode, hv, htail, htails⟩ :=
      of_decodeValues_cons hdecode hmatch
    rw [decode_array hsize hbytes] at hnode
    obtain ⟨⟨nodes, last'⟩, hnodes, heq⟩ := Java.bind_eq_ok.1 hnode
    obtain ⟨hresult, rfl⟩ := Prod.mk.inj (Except.ok.inj heq)
    obtain rfl := JsonNode.array.inj (hresult.trans hv)
    have hseen : seenSize values.length = values.length := by
      rw [← length_of_decodeValues hnodes, Value.length_nodes]
    have hlt : values.length < sizeLimit := hseen ▸ seenSize_lt values.length
    rw [hseen] at hnodes
    obtain ⟨hall, rfl⟩ := ihvalues hnodes (matches_nodes _ _)
    obtain ⟨hrest, hlast⟩ := ihvs htail htails
    exact ⟨⟨⟨hlt, hall⟩, hrest⟩, hlast⟩
  | map hkeys hsize hbytes hmembers hvs ihmembers ihvs =>
    rename_i entries vs
    obtain ⟨stack', node, tail, next, hnode, hv, htail, htails⟩ :=
      of_decodeValues_cons hdecode hmatch
    rw [decode_map hsize hbytes] at hnode
    obtain ⟨⟨nodes, last'⟩, hnodes, heq⟩ := Java.bind_eq_ok.1 hnode
    obtain ⟨hresult, rfl⟩ := Prod.mk.inj (Except.ok.inj heq)
    have hput : putAll (readMembers d.rendered nodes) [] = Value.entryNodes entries :=
      JsonNode.object.inj (hresult.trans hv)
    obtain ⟨hseen, hmatches⟩ := matches_of_putAll (length_of_decodeValues hnodes) hput
    have hlt : entries.length < sizeLimit := hseen ▸ seenSize_lt entries.length
    rw [hseen, ← Value.length_members] at hnodes
    obtain ⟨hall, rfl⟩ := ihmembers hnodes hmatches
    obtain ⟨hrest, hlast⟩ := ihvs htail htails
    exact ⟨⟨⟨hlt, (Value.allInRange_members entries).1 hall⟩, hrest⟩, hlast⟩
  | pointer hpointer hbytes htarget hv hvs ihv ihvs =>
    obtain ⟨stack', node, tail, next, hnode, hmatchv, htail, htails⟩ :=
      of_decodeValues_cons hdecode hmatch
    rw [decode_pointer hpointer hbytes htarget] at hnode
    obtain ⟨⟨node', last'⟩, hnode', heq⟩ := Java.bind_eq_ok.1 hnode
    obtain ⟨rfl, rfl⟩ := Prod.mk.inj (Except.ok.inj heq)
    obtain ⟨hone, -⟩ := ihv (decodeValues_succ hnode' rfl) (.cons hmatchv .nil)
    obtain ⟨hrest, hlast⟩ := ihvs htail htails
    exact ⟨⟨hone.1, hrest⟩, hlast⟩

/-- **The decoder inverts the format exactly where every size is seen as it
is.** -/
theorem decode_inverts_iff {v : Value} (h : Encoded d.buffer d.pointerBase.toInt off [v] e) :
    (∃ N, ∀ stack, N ≤ stack →
      d.decode stack (BitVec.ofNat 32 off) = .ok (v.node, BitVec.ofNat 32 e)) ↔ v.InRange := by
  constructor
  · rintro ⟨N, hN⟩
    exact (h.allInRange (decodeValues_succ (hN N le_rfl) rfl) (matches_nodes _ [v])).1.1
  · intro hrange
    obtain ⟨N, hN⟩ := h.decodeValues_eq ⟨hrange, trivial⟩
    refine ⟨N, fun stack hstack => ?_⟩
    obtain ⟨node, tail, next, hnodes, hnode, htail⟩ := of_decodeValues_succ (hN stack hstack)
    obtain ⟨rfl, -⟩ := List.cons.inj hnodes
    obtain ⟨-, rfl⟩ := Prod.mk.inj (Except.ok.inj htail)
    exact hnode

end Runs

/-- A map with an array in it, the last of whose values is a pointer back
to the beginning. -/
def sampleDecoder : Decoder where
  buffer :=
    ⟨[0x42, 0x62, 0x63, 0xE1, 0x41, 0x61, 0x02, 0x04, 0x01, 0x07, 0x20, 0x00], by decide⟩
  pointerBase := 0
  rendered := fun _ => []

def sampleValue : Value := .map [(['a'], .array [.boolean true, .string ['b', 'c']])]

theorem encoded_sampleValue :
    Encoded sampleDecoder.buffer sampleDecoder.pointerBase.toInt 3 [sampleValue] 12 := by
  have htext : Encoded sampleDecoder.buffer sampleDecoder.pointerBase.toInt 0
      [.string ['b', 'c']] 3 := .scalar (.string ['b', 'c']) (by decide) (by decide) (.nil 3)
  refine .map (by decide) (by decide) (by decide) ?_ (.nil 12)
  refine .scalar (.string ['a']) (by decide) (by decide) ?_
  refine .array (by decide) (by decide) ?_ (.nil 12)
  refine .scalar (.boolean true) (by decide) (by decide) ?_
  exact .pointer (.short (k := 1) (p := 0) (by decide) (by decide)) (by decide)
    (show ((0 : ℕ) : ℤ) = (0 : ℕ) + bias 1 + sampleDecoder.pointerBase.toInt from rfl) htext
    (.nil 12)

theorem decode_inverts_sampleValue :
    ∃ N, ∀ stack, N ≤ stack → sampleDecoder.decode stack 3 = .ok (sampleValue.node, 12) :=
  (decode_inverts_iff encoded_sampleValue).2 ⟨by decide, by decide,
    ⟨by decide, trivial, show (Utf8.encode ['b', 'c']).length < sizeLimit by decide, trivial⟩,
    trivial⟩

/-! ## A text that is one byte too long -/

theorem encode_replicate (n : ℕ) :
    Utf8.encode (List.replicate n 'a') = List.replicate n 0x61 := by
  induction n with
  | zero => rfl
  | succ n ih =>
    rw [List.replicate_succ, Utf8.encode_cons, ih, List.replicate_succ]
    rfl

/-- A text of one letter is cut off where its size is seen to end. -/
theorem decode_replicate {d : Decoder} {n : ℕ} (hn : n < Value.maxSize)
    (h : d.buffer.HasAt 0 (header 2 n ++ List.replicate n 0x61)) (stack : ℕ) :
    d.decode (stack + 1) 0 = .ok (.text (List.replicate (seenSize n) 'a'),
      BitVec.ofNat 32 ((header 2 n).length + seenSize n)) := by
  obtain ⟨hheader, hbytes⟩ := hasAt_append.1 h
  have hpos := hheader.le (length_header_pos _ _)
  rw [← Nat.zero_add (header 2 n).length]
  refine (decode_header (.string []) hn hheader stack).trans ?_
  rw [Value.kind, Value.typeNumber, decodeByType_string hbytes hpos
    (by rw [List.length_replicate]; exact seenSize_le n), List.take_replicate,
    Nat.min_eq_left (seenSize_le n), ← encode_replicate, Utf8.decode_encode]

/-- The shortest text that is too long. -/
def longText : Text := List.replicate sizeLimit 'a'

/-- Its control byte, its size and its bytes. -/
def longDecoder : Decoder where
  buffer := ⟨[0x5F, 0x10, 0x00, 0x00] ++ List.replicate sizeLimit 0x61, by
    rw [List.length_append, List.length_replicate]
    decide⟩
  pointerBase := 0
  rendered := fun _ => []

/-- **A text of 1114397 bytes is read as one of 65821**, and what follows it
is looked for in its midst. -/
theorem longText_cut :
    Encoded longDecoder.buffer longDecoder.pointerBase.toInt 0 [.string longText] (4 + 1114397) ∧
      ∀ stack, longDecoder.decode (stack + 1) 0 =
        .ok (.text (List.replicate 65821 'a'), 4 + 65821) := by
  have hheader : header 2 sizeLimit = [0x5F, 0x10, 0x00, 0x00] := by decide
  have hbytes : longDecoder.buffer.HasAt 0
      (header 2 sizeLimit ++ List.replicate sizeLimit 0x61) := by
    rw [hheader]
    exact List.prefix_rfl
  have hlen : (Utf8.encode longText).length = sizeLimit := by
    rw [longText, encode_replicate, List.length_replicate]
  refine ⟨?_, fun stack => ?_⟩
  · have hpayload := Value.Payload.string longText
    have hat : longDecoder.buffer.HasAt 0
        (header 2 (Utf8.encode longText).length ++ Utf8.encode longText) := by
      rw [hlen, longText, encode_replicate]
      exact hbytes
    have hend : 0 + (header 2 (Utf8.encode longText).length).length +
        (Utf8.encode longText).length = 4 + 1114397 := by
      rw [hlen, hheader]
      rfl
    refine .scalar hpayload (by rw [hlen]; decide) hat ?_
    rw [show (Value.string longText).typeNumber = 2 from rfl, hend]
    exact .nil _
  · have hseen : seenSize sizeLimit = 65821 := by decide
    have hdecode := decode_replicate (show sizeLimit < Value.maxSize by decide) hbytes stack
    rw [hseen, hheader] at hdecode
    exact hdecode

end IpLookUp

end Xpod
