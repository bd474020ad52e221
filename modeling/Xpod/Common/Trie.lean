import Mathlib.Data.List.Basic
import Mathlib.Tactic
/-!
# Binary tries and their node tables

A trie is walked down the bits of a key until it ends. A table of nodes
holds a trie as numbers: a number below that of the nodes is a node, the
number of the nodes itself is an empty trie, and a number above stands for
itself. Any table can be walked, whether it holds a trie or not.
-/

namespace Xpod

/-- A binary trie with numbers at its leaves. -/
inductive Trie
  | empty
  | leaf (n : ℕ)
  | node (left right : Trie)
deriving DecidableEq, Repr

namespace Trie

def depth : Trie → ℕ
  | empty => 0
  | leaf _ => 0
  | node left right => max left.depth right.depth + 1

/-- Where the descent down some bits ends. -/
def descend : Trie → List Bool → Trie
  | node left right, bit :: bits => (if bit then right else left).descend bits
  | t, _ => t

/-- A descent down as many bits as the trie is deep leaves no node. -/
theorem depth_descend {t : Trie} {bits : List Bool} (h : t.depth ≤ bits.length) :
    (t.descend bits).depth = 0 := by
  induction t generalizing bits with
  | empty => cases bits <;> rfl
  | leaf n => cases bits <;> rfl
  | node left right ihleft ihright =>
    cases bits with
    | nil => simp [depth] at h
    | cons bit bits =>
      simp only [depth, List.length_cons, Nat.add_le_add_iff_right, max_le_iff] at h
      cases bit with
      | false => exact ihleft h.1
      | true => exact ihright h.2

end Trie

/-! ## Tables -/

/-- The records of nodes, by their numbers. -/
abbrev NodeTable : Type := List (ℕ × ℕ)

namespace NodeTable

variable (nodes : NodeTable)

/-- **The walk down some bits** from a record. It ends at what is no node. -/
def walk : List Bool → ℕ → ℕ
  | [], record => record
  | bit :: bits, record =>
    match nodes[record]? with
    | none => record
    | some (left, right) => walk bits (if bit then right else left)

/-- The table holds the trie at a record. -/
def Holds : ℕ → Trie → Prop
  | record, .empty => record = nodes.length
  | record, .leaf n => nodes.length < n ∧ record = n
  | record, .node left right =>
    ∃ a b, nodes[record]? = some (a, b) ∧ Holds a left ∧ Holds b right

variable {nodes} {record : ℕ} {t : Trie}

theorem walk_of_le (h : nodes.length ≤ record) (bits : List Bool) :
    nodes.walk bits record = record := by
  cases bits with
  | nil => rfl
  | cons bit bits => rw [walk, List.getElem?_eq_none h]

/-- **The walk follows the trie.** -/
theorem Holds.walk (h : nodes.Holds record t) (bits : List Bool) :
    nodes.Holds (nodes.walk bits record) (t.descend bits) := by
  induction t generalizing bits record with
  | empty =>
    have hrecord : nodes.walk bits record = record := walk_of_le (le_of_eq (Eq.symm h)) bits
    rw [hrecord]
    cases bits <;> exact h
  | leaf n =>
    obtain ⟨hn, rfl⟩ := h
    rw [walk_of_le hn.le]
    cases bits <;> exact ⟨hn, rfl⟩
  | node left right ihleft ihright =>
    cases bits with
    | nil => exact h
    | cons bit bits =>
      obtain ⟨a, b, hnode, hleft, hright⟩ := h
      rw [NodeTable.walk, hnode]
      cases bit with
      | false => exact ihleft hleft bits
      | true => exact ihright hright bits

/-- A trie without nodes is held by a record that is no node. -/
theorem Holds.le (h : nodes.Holds record t) (hdepth : t.depth = 0) :
    nodes.length ≤ record := by
  cases t with
  | empty => exact le_of_eq (Eq.symm h)
  | leaf n =>
    obtain ⟨hn, rfl⟩ := h
    exact hn.le
  | node left right => simp [Trie.depth] at hdepth

end NodeTable

end Xpod
