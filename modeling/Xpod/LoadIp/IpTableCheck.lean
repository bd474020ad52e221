import Mathlib.Tactic
import Xpod.Common.TreeSet
import Xpod.LoadIp.Model.IpTableCheck
/-!
# The check decides disjointness

The comparator is no order: two rows that overlap a third need not overlap
each other. But the rows the set holds lie one behind the other, and along
such rows the comparisons with any row change sign at most once, so descent
finds an overlap if there is one. A row that begins no earlier than the
others can only overlap the last of them, which is the row printed.
-/

namespace Xpod

namespace LoadIp

namespace IpTableCheck

/-- The two rows share an address. -/
def Overlap (a b : Location) : Prop := ∃ x, a.Has x ∧ b.Has x

variable {a b c row : Location} {seen rows : List Location}

/-! ## The comparator -/

theorem compare_neg : compare a b < 0 ↔ a.nEndIp < b.nBeginIp := by
  unfold compare
  split_ifs <;> omega

theorem compare_pos (ha : a.Valid) (hb : b.Valid) : 0 < compare a b ↔ b.nEndIp < a.nBeginIp := by
  unfold Location.Valid at ha hb
  unfold compare
  split_ifs <;> omega

/-- Valid rows that compare as 0 share an address. -/
theorem compare_eq_zero (ha : a.Valid) (hb : b.Valid) : compare a b = 0 ↔ Overlap a b := by
  unfold Location.Valid at ha hb
  have hshare : Overlap a b ↔ b.nBeginIp ≤ a.nEndIp ∧ a.nBeginIp ≤ b.nEndIp := by
    constructor
    · rintro ⟨x, hxa, hxb⟩
      exact ⟨hxb.1.trans hxa.2, hxa.1.trans hxb.2⟩
    · rintro ⟨h1, h2⟩
      exact ⟨max a.nBeginIp b.nBeginIp, ⟨le_max_left _ _, max_le ha h1⟩,
        le_max_right _ _, max_le h2 hb⟩
  rw [hshare]
  unfold compare
  constructor
  · intro h
    split_ifs at h <;> omega
  · intro h
    rw [if_neg (by omega), if_neg (by omega)]

/-- **Rows that lie one behind the other guide the descent** for every
row. -/
theorem guides_of_apart (hrow : row.Valid) (hv : ∀ l ∈ seen, l.Valid)
    (h : seen.Pairwise fun a b => a.nEndIp < b.nBeginIp) :
    TreeSet.Guides compare row seen := by
  refine List.Pairwise.imp_of_mem ?_ h
  intro a b ha hb hab
  have hva : a.nBeginIp ≤ a.nEndIp := hv a ha
  have hvb : b.nBeginIp ≤ b.nEndIp := hv b hb
  rw [compare_neg, compare_neg, compare_pos hrow (hv b hb), compare_pos hrow (hv a ha)]
  constructor <;> intro h <;> omega

/-! ## The loop -/

/-- What is so in front of a round: the set holds the rows seen, in order and
one behind the other, and `last` is the last of them. -/
structure Inv (set : TreeSet Location) (last : Option Location) (seen : List Location) :
    Prop where
  elements : set.toList = seen.map readRow
  last_eq : last = (seen.map readRow).getLast?
  valid : ∀ l ∈ seen, l.Valid
  apart : seen.Pairwise fun a b => a.nEndIp < b.nBeginIp

variable {B : TreeSet.Balancing Location} {set : TreeSet Location} {last : Option Location}

theorem inv_start : Inv .empty none [] := ⟨rfl, rfl, by simp, List.Pairwise.nil⟩

/-- **The set holds the row exactly if the row overlaps one that was seen.** -/
theorem Inv.contains_iff (h : Inv set last seen) (hrow : row.Valid) :
    set.contains compare (readRow row) = true ↔ ∃ l ∈ seen, Overlap row l := by
  have hvalid : ∀ l ∈ seen.map readRow, l.Valid := List.forall_mem_map.2 h.valid
  have hapart : (seen.map readRow).Pairwise fun a b => a.nEndIp < b.nBeginIp :=
    List.pairwise_map.2 h.apart
  have hrow' : (readRow row).Valid := hrow
  have hguides := guides_of_apart hrow' hvalid hapart
  rw [← h.elements] at hguides
  rw [TreeSet.contains_iff hguides, h.elements]
  constructor
  · rintro ⟨l, hl, h0⟩
    obtain ⟨l, hmem, rfl⟩ := List.mem_map.1 hl
    exact ⟨l, hmem, (compare_eq_zero hrow' (h.valid l hmem)).1 h0⟩
  · rintro ⟨l, hl, hoverlap⟩
    exact ⟨readRow l, List.mem_map_of_mem hl, (compare_eq_zero hrow' (h.valid l hl)).2 hoverlap⟩

/-- A row that begins no earlier than those seen overlaps none of them but
the last. -/
theorem Inv.overlaps_last (h : Inv set last seen) (hle : ∀ l ∈ seen, l.nBeginIp ≤ row.nBeginIp)
    (hover : ∃ l ∈ seen, Overlap row l) :
    ∃ front a, seen = front ++ [a] ∧ Overlap a row ∧ last = some (readRow a) := by
  obtain ⟨l, hl, x, hxrow, hxl⟩ := hover
  obtain rfl | ⟨front, a, rfl⟩ := seen.eq_nil_or_concat'
  · simp at hl
  have hlast : l = a := by
    rcases List.mem_append.1 hl with hfront | ha
    · -- an earlier row ends in front of the last one, and so in front of this one
      have hend := (List.pairwise_append.1 h.apart).2.2 l hfront a (List.mem_singleton.2 rfl)
      have hbegin := hle a (by simp)
      obtain ⟨h1, -⟩ := hxrow
      obtain ⟨-, h2⟩ := hxl
      omega
    · exact List.mem_singleton.1 ha
  subst hlast
  refine ⟨front, l, rfl, ⟨x, hxl, hxrow⟩, ?_⟩
  rw [h.last_eq]
  simp

/-- A row that overlaps none of those seen is put behind them. -/
theorem Inv.step (h : Inv set last seen) (hrow : row.Valid)
    (hle : ∀ l ∈ seen, l.nBeginIp ≤ row.nBeginIp) (hnone : ¬ ∃ l ∈ seen, Overlap row l) :
    Inv (set.add compare B (readRow row)) (some (readRow row)) (seen ++ [row]) := by
  have hbehind : ∀ l ∈ seen, l.nEndIp < row.nBeginIp := by
    intro l hl
    by_contra hlt
    have hb := hle l hl
    exact hnone ⟨l, hl, row.nBeginIp, ⟨le_rfl, hrow⟩, hb, not_lt.1 hlt⟩
  refine ⟨?_, by simp, ?_, ?_⟩
  · rw [TreeSet.toList_add_of_pos, h.elements, List.map_append]
    · rfl
    · rw [h.elements]
      intro l hl
      obtain ⟨l, hmem, rfl⟩ := List.mem_map.1 hl
      exact (compare_pos (a := readRow row) hrow (h.valid l hmem)).2 (hbehind l hmem)
  · intro l hl
    rcases List.mem_append.1 hl with hl | hl
    · exact h.valid l hl
    · rw [List.mem_singleton.1 hl]
      exact hrow
  · refine List.pairwise_append.2 ⟨h.apart, List.pairwise_singleton _ _, ?_⟩
    intro l hl r hr
    rw [List.mem_singleton.1 hr]
    exact hbehind l hl

/-- The outcome of a check of the rows: whether they are disjoint, and if
not, two rows next to each other that overlap, as printed. -/
structure Decides (rows : List Location) (o : Outcome) : Prop where
  ok_iff : o.ok = true ↔ rows.Pairwise fun a b => ¬ Overlap a b
  out_of_false : o.ok = false → ∃ front last location behind,
    rows = front ++ last :: location :: behind ∧ Overlap last location ∧
      o.out = [text last, text location, "\n\n"]

theorem Inv.not_overlap (h : Inv set last seen) : seen.Pairwise fun a b => ¬ Overlap a b := by
  refine h.apart.imp ?_
  rintro a b hab ⟨x, ⟨-, hxa⟩, hxb, -⟩
  omega

/-- **From any round on**, with rows in order to come. -/
theorem checkLoop_decides (h : Inv set last seen) (hv : ∀ r ∈ rows, r.Valid)
    (hs : (seen ++ rows).Pairwise fun a b => a.nBeginIp ≤ b.nBeginIp) :
    ∃ o, checkLoop B set last rows = .ok o ∧ Decides (seen ++ rows) o := by
  induction rows generalizing set last seen with
  | nil =>
    refine ⟨⟨true, []⟩, rfl, ⟨iff_of_true rfl ?_, by simp⟩⟩
    rw [List.append_nil]
    exact h.not_overlap
  | cons row rows ih =>
    obtain ⟨hrow, hrows⟩ := List.forall_mem_cons.1 hv
    have hle : ∀ l ∈ seen, l.nBeginIp ≤ row.nBeginIp := fun l hl =>
      (List.pairwise_append.1 hs).2.2 l hl row List.mem_cons_self
    by_cases hover : ∃ l ∈ seen, Overlap row l
    · obtain ⟨front, a, rfl, hshare, rfl⟩ := h.overlaps_last hle hover
      refine ⟨_, if_pos ((h.contains_iff hrow).2 hover), iff_of_false (by simp) ?_,
        fun _ => ⟨front, a, row, rows, ?_, hshare, rfl⟩⟩
      · intro hapart
        have hcross := (List.pairwise_append.1 hapart).2.2 a (by simp) row List.mem_cons_self
        exact hcross hshare
      · simp
    · obtain ⟨o, ho, hd⟩ := ih (h.step hrow hle hover) hrows (by simpa using hs)
      rw [List.append_assoc] at hd
      exact ⟨o, (if_neg fun hc => hover ((h.contains_iff hrow).1 hc)).trans ho, hd⟩

/-- **The check decides disjointness.** For every table in order with no
empty range, and however the tree is balanced, `check` returns whether no
two rows share an address; and when it returns false, the two rows it
prints overlap. -/
theorem check_decides_disjointness (B : TreeSet.Balancing Location) (rows : List Location)
    (hv : ∀ r ∈ rows, r.Valid) (hs : rows.Pairwise fun a b => a.nBeginIp ≤ b.nBeginIp) :
    ∃ o, check B rows = .ok o ∧ Decides rows o :=
  checkLoop_decides inv_start hv hs

theorem check_decides_disjointness_overlap :
    ∃ o, check (.none Location)
        [Location.ofBounds 0 5 (some "A"), Location.ofBounds 3 8 (some "B")] = .ok o ∧
      o.ok = false ∧
      Decides [Location.ofBounds 0 5 (some "A"), Location.ofBounds 3 8 (some "B")] o := by
  obtain ⟨o, ho, hd⟩ := check_decides_disjointness (.none Location)
    [Location.ofBounds 0 5 (some "A"), Location.ofBounds 3 8 (some "B")] (by decide) (by decide)
  refine ⟨o, ho, ?_, hd⟩
  rw [← Except.ok.inj ho]

end IpTableCheck

end LoadIp

end Xpod
