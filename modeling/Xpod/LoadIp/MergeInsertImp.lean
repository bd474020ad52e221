import Xpod.LoadIp.Helpers.MergeInsertImp
/-!
# What merging leaves in the table

Rows passed to `Insert` in order and disjoint are overlaid on `ip_table`
exactly, up to the null columns that an insert writes as empty texts.
Rows in any other order leave the table disjoint only under a condition
on pairs of rows.
-/

namespace Xpod

namespace LoadIp

/-- `ip_table` as `MergeInsertImp` expects it: rows in the order of their
first addresses, disjoint, none empty, with a country and a first address
to dereference. -/
structure IpTable where
  rows : List Location
  valid : ∀ r ∈ rows, r.Valid
  sorted : rows.Pairwise fun a b => a.nBeginIp ≤ b.nBeginIp
  disjoint : rows.Pairwise Location.Disjoint
  filled : ∀ r ∈ rows, r.country ≠ none ∧ r.beginIp ≠ none

/-- What a lookup of an address finds: the attributes of a row that
contains it. -/
def lookup (rows : List Location) (x : ℤ) : Option Attrs :=
  (rows.find? fun r => r.Has x).map Location.attrs

namespace MergeInsertImp

open Overlay Location

/-- In order and disjoint, each row ends before the next begins. -/
theorem pairwise_lt {rows : List Location} (hv : ∀ r ∈ rows, r.Valid)
    (hs : rows.Pairwise fun a b => a.nBeginIp ≤ b.nBeginIp)
    (hd : rows.Pairwise Location.Disjoint) :
    rows.Pairwise fun a b => a.nEndIp < b.nBeginIp := by
  induction rows with
  | nil => exact List.Pairwise.nil
  | cons a rows ih =>
    rw [List.pairwise_cons] at hs hd ⊢
    refine ⟨fun b hb => ?_, ih (fun r hr => hv r (List.mem_cons_of_mem _ hr)) hs.2 hd.2⟩
    have hbv := hv b (List.mem_cons_of_mem _ hb)
    have hab := hs.1 b hb
    simp only [Location.Valid] at hbv
    rcases hd.1 b hb with h | h <;> omega

section Lookup

variable {rows : List Location} {x : ℤ}

theorem lookup_eq_none : lookup rows x = none ↔ ∀ r ∈ rows, ¬ r.Has x := by
  simp [lookup]

/-- In a table where the address is found once, the lookup finds it. -/
theorem lookup_of_view {a : Attrs} (h : view rows x = {a}) :
    (lookup rows x).map Attrs.plain = some a := by
  have hne : lookup rows x ≠ none := by
    intro hnone
    rw [view_eq_zero.2 (lookup_eq_none.1 hnone)] at h
    exact absurd h.symm (Multiset.singleton_ne_zero a)
  obtain ⟨b, hb⟩ := Option.ne_none_iff_exists'.1 hne
  obtain ⟨r, hr, rfl⟩ := Option.map_eq_some_iff.1 hb
  have hx : decide (r.Has x) = true :=
    List.find?_some (p := fun r : Location => decide (r.Has x)) hr
  have hmem : r.plain ∈ view rows x :=
    List.mem_map.2 ⟨r, List.mem_filter.2 ⟨List.mem_of_find?_eq_some hr, hx⟩, rfl⟩
  rw [h, Multiset.mem_singleton] at hmem
  rw [hb, ← hmem]
  rfl

theorem lookup_of_view_zero (h : view rows x = 0) : lookup rows x = none :=
  lookup_eq_none.2 (view_eq_zero.1 h)

/-- Where two tables hold the same, once at most, their lookups find the
same. -/
theorem lookup_congr {rows' : List Location} (h : view rows x = view rows' x)
    (hone : (view rows' x).card ≤ 1) :
    (lookup rows x).map Attrs.plain = (lookup rows' x).map Attrs.plain := by
  rcases Nat.lt_or_ge 0 (view rows' x).card with hpos | hzero
  · obtain ⟨a, ha⟩ := Multiset.card_eq_one.1 (le_antisymm hone hpos)
    rw [lookup_of_view (h.trans ha), lookup_of_view ha]
  · have hz := Multiset.card_eq_zero.1 (Nat.le_zero.1 hzero)
    rw [lookup_of_view_zero (h.trans hz), lookup_of_view_zero hz]

/-- Rows without a null column are read as they are. -/
theorem lookup_plain (h : ∀ r ∈ rows, r.attrs.plain = r.attrs) :
    (lookup rows x).map Attrs.plain = lookup rows x := by
  rcases hl : lookup rows x with - | a
  · rfl
  · obtain ⟨r, hr, rfl⟩ := Option.map_eq_some_iff.1 hl
    exact congrArg some (h r (List.mem_of_find?_eq_some hr))

end Lookup

/-- At the start nothing is behind the cursor and nothing is in hand. -/
theorem tracks_start (T : IpTable) : Tracks T.rows { rs := T.rows } [] [] where
  perm := List.Perm.refl _
  same := List.Forall₂.nil
  origin := fun _ hr => Or.inl hr
  apart := by simp
  order := pairwise_lt T.valid T.sorted T.disjoint
  valid := T.valid
  filled := T.filled
  clean := rfl

/-- **The run returns, and its table is the patches laid over `T`.** -/
theorem returns_laid (T : IpTable) {M : List Location} (hv : ∀ m ∈ M, m.Valid) :
    ∃ s A C, Returns T.rows M s ∧ Tracks T.rows s A C ∧
      ∀ x, view (table T.rows s) x =
        ((M.map patch).foldl Layers.overlay ⟨fun _ => 0, view T.rows⟩).total x := by
  obtain ⟨s, A, C, hall, htracks, hlay⟩ :=
    insertAll_laid hv (tracks_start T) (Nat.lt_succ_self _)
  refine ⟨s, A, C, returns_of_insertAll hall, htracks, fun x => ?_⟩
  rw [← htracks.total, hlay]
  rfl

/-- Every row of the table tracked has a range that is not empty. -/
theorem Tracks.table_valid {T A C : List Location} {s : MergeInsertImp} (h : Tracks T s A C) :
    ∀ r ∈ table T s, r.Valid := by
  intro r hr
  rcases List.mem_append.1 (h.perm.mem_iff.1 hr) with hr | hr
  · rcases List.mem_append.1 hr with hr | hr
    · exact h.valid r (List.mem_append_left _ hr)
    · obtain ⟨c, hc, hsame⟩ := Lists.exists_right_of_mem h.same hr
      rw [Location.Valid, hsame.nBeginIp, hsame.nEndIp]
      exact h.valid c (List.mem_append_right _ (List.mem_append_left _ hc))
  · exact h.valid r (by simp [ahead, hr])

/-- Rows in order and disjoint are patches that fit. -/
theorem fits_of_sorted {M : List Location} {t : ℤ → Multiset Attrs} (hv : ∀ m ∈ M, m.Valid)
    (hs : M.Pairwise fun a b => a.nBeginIp ≤ b.nBeginIp) (hd : M.Pairwise Location.Disjoint) :
    (M.map patch).Pairwise (Layers.Fits t) := by
  refine List.pairwise_map.2 ((pairwise_lt hv hs hd).imp_of_mem fun {a b} ha hb hab => ?_)
  have hav := hv a ha
  have hbv := hv b hb
  simp only [Location.Valid] at hav hbv
  refine ⟨Or.inl hab, fun hlt => ?_⟩
  simp only [patch] at hlt
  omega

/-- **Overlaying.** For every table and every sequence of rows in order,
disjoint and not empty, the run returns without reporting a wrong address,
its statements leave disjoint rows, and a lookup finds the incoming row's
attributes where there is one and the table's own elsewhere, a null
column reading as the empty text. Where no such column is null, the
lookup finds exactly these. -/
theorem merge_overlays_table (T : IpTable) (M : List Location) (hv : ∀ m ∈ M, m.Valid)
    (hs : M.Pairwise fun a b => a.nBeginIp ≤ b.nBeginIp) (hd : M.Pairwise Location.Disjoint) :
    ∃ s, Returns T.rows M s ∧ s.errors = [] ∧ (table T.rows s).Pairwise Location.Disjoint ∧
      (∀ x, (lookup (table T.rows s) x).map Attrs.plain =
        ((lookup M x).or (lookup T.rows x)).map Attrs.plain) ∧
      ((∀ r ∈ T.rows ++ M, r.attrs.plain = r.attrs) →
        ∀ x, lookup (table T.rows s) x = (lookup M x).or (lookup T.rows x)) := by
  obtain ⟨s, A, C, hret, htracks, hview⟩ := returns_laid T hv
  have hpv : ∀ p ∈ M.map patch, p.lo ≤ p.hi := by
    intro p hp
    obtain ⟨m, hm, rfl⟩ := List.mem_map.1 hp
    exact hv m hm
  have hfits := fits_of_sorted (t := view T.rows) hv hs hd
  have hT := (pairwise_disjoint_iff T.valid).1 T.disjoint
  have hlook : ∀ x, (lookup (table T.rows s) x).map Attrs.plain =
      ((lookup M x).or (lookup T.rows x)).map Attrs.plain := by
    intro x
    rcases hM : lookup M x with - | a
    · have hno : ∀ p ∈ M.map patch, ¬ p.Has x := by
        intro p hp
        obtain ⟨m, hm, rfl⟩ := List.mem_map.1 hp
        exact lookup_eq_none.1 hM m hm
      rw [Option.none_or]
      exact lookup_congr ((hview x).trans (Layers.total_of_not_has hpv hno)) (hT x)
    · obtain ⟨m, hm, rfl⟩ := Option.map_eq_some_iff.1 hM
      have hmx : m.Has x := by
        simpa using List.find?_some (p := fun r : Location => decide (r.Has x)) hm
      have hmem := List.mem_map_of_mem (f := patch) (List.mem_of_find?_eq_some hm)
      exact lookup_of_view ((hview x).trans (Layers.total_of_has hpv hfits hmem hmx))
  refine ⟨s, hret, htracks.clean, ?_, hlook, fun hplain x => ?_⟩
  · rw [pairwise_disjoint_iff htracks.table_valid]
    intro x
    rw [hview]
    exact (Layers.single_iff hpv hT).2 hfits x
  · have hrows : ∀ r ∈ table T.rows s, r.attrs.plain = r.attrs := by
      intro r hr
      rcases htracks.origin r hr with hr | ⟨ip, rfl⟩
      · exact hplain r (List.mem_append_left _ hr)
      · rfl
    have hTM := hlook x
    rw [lookup_plain hrows] at hTM
    rw [hTM]
    rcases hM : lookup M x with - | a
    · rw [Option.none_or]
      exact lookup_plain fun r hr => hplain r (List.mem_append_left _ hr)
    · rw [Option.some_or, ← hM]
      exact lookup_plain fun r hr => hplain r (List.mem_append_right _ hr)

/-- A table of one row whose province is null. -/
def oneRow : IpTable where
  rows := [{ ofBounds 0 10 (some "A") with province := none }]
  valid := by decide
  sorted := by decide
  disjoint := by decide
  filled := by decide

theorem merge_overlays_oneRow :
    ∃ s, Returns oneRow.rows [ofBounds 5 6 (some "B")] s ∧ s.errors = [] ∧
      (table oneRow.rows s).Pairwise Location.Disjoint ∧
      ∀ x, (lookup (table oneRow.rows s) x).map Attrs.plain =
        ((lookup [ofBounds 5 6 (some "B")] x).or (lookup oneRow.rows x)).map Attrs.plain := by
  obtain ⟨s, hret, herr, hdis, hlook, -⟩ := merge_overlays_table oneRow
    [ofBounds 5 6 (some "B")] (by decide) (by decide) (by decide)
  exact ⟨s, hret, herr, hdis, hlook⟩

/-- **A null column does not survive a split.** The row is split around the
incoming one, and its front is stored with an empty province where the
table had null. -/
theorem merge_blanks_null_province :
    lookup [ofBounds 5 6 (some "B")] 0 = none ∧
      lookup oneRow.rows 0 = some ⟨some "A", none, some "", some ""⟩ ∧
      ∃ s, Returns oneRow.rows [ofBounds 5 6 (some "B")] s ∧
        lookup (table oneRow.rows s) 0 = some ⟨some "A", some "", some "", some ""⟩ :=
  ⟨by decide, by decide, exists_returns (n := 2) rfl⟩

/-- Two incoming rows, the earlier one first, keep the table disjoint: they
share no address, and if the later one lies in front it meets no row of
the table. -/
def Compatible (T : List Location) (a b : Location) : Prop :=
  a.Disjoint b ∧ (b.nEndIp < a.nBeginIp → ∀ r ∈ T, r.Disjoint b)

instance (T : List Location) (a b : Location) : Decidable (Compatible T a b) :=
  inferInstanceAs (Decidable (_ ∧ (_ → _)))

theorem compatible_iff_fits {T : List Location} (hT : ∀ r ∈ T, r.Valid) {a b : Location}
    (hb : b.Valid) : Compatible T a b ↔ Layers.Fits (view T) (patch a) (patch b) := by
  refine and_congr Iff.rfl (imp_congr Iff.rfl ?_)
  constructor
  · intro h x hx
    refine view_eq_zero.2 ?_
    rintro r hr ⟨h1, h2⟩
    have h3 : b.nBeginIp ≤ x := hx.1
    have h4 : x ≤ b.nEndIp := hx.2
    rcases h r hr with h5 | h5 <;> omega
  · intro h r hr
    by_contra hno
    have hrv := hT r hr
    simp only [Location.Valid] at hrv hb
    simp only [Location.Disjoint, not_or, not_lt] at hno
    have hzero := h (max r.nBeginIp b.nBeginIp) ⟨le_max_right _ _, by simp only [patch]; omega⟩
    exact view_eq_zero.1 hzero r hr ⟨le_max_left _ _, by omega⟩

end MergeInsertImp

end LoadIp

end Xpod
