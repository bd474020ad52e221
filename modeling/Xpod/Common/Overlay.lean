import Mathlib.Algebra.Order.Group.Multiset
import Mathlib.Tactic
/-!
# Laying ranges over a map that is read forwards

A map from integers to values is corrected by patches, each a closed
range with one value. The map is read through a cursor that only moves
forwards: what lies behind it is settled and never looked at again, what
lies ahead still gives way to a patch. `Layers` holds, for every point,
the values settled and the values ahead; `overlay` is one patch.

After a sequence of patches a point holds the value of every patch that
contains it, and its old values too unless the first patch reaching as
far as the point contained it (`total_foldl`). From that follows when
the result is single-valued (`single_iff`).
-/

namespace Xpod

namespace Overlay

variable {α : Type*}

/-- A closed range with a value. -/
structure Patch (α : Type*) where
  lo : ℤ
  hi : ℤ
  val : α

namespace Patch

/-- The patch contains the point. -/
def Has (p : Patch α) (x : ℤ) : Prop := p.lo ≤ x ∧ x ≤ p.hi

instance (p : Patch α) (x : ℤ) : Decidable (p.Has x) := inferInstanceAs (Decidable (_ ∧ _))

/-- No point is in both patches. -/
def Disjoint (p q : Patch α) : Prop := p.hi < q.lo ∨ q.hi < p.lo

end Patch

/-- The values of every point, behind the cursor and ahead of it. -/
@[ext]
structure Layers (α : Type*) where
  settled : ℤ → Multiset α
  ahead : ℤ → Multiset α

namespace Layers

/-- All values of a point. -/
def total (s : Layers α) (x : ℤ) : Multiset α := s.settled x + s.ahead x

/-- One patch: points in front of it are settled as they are, points in it
take its value and lose what lay ahead, points behind it are not
reached. -/
def overlay (s : Layers α) (p : Patch α) : Layers α where
  settled x :=
    if x < p.lo then s.settled x + s.ahead x
    else if x ≤ p.hi then s.settled x + {p.val} else s.settled x
  ahead x := if x ≤ p.hi then 0 else s.ahead x

section Overlay

variable {s s' : Layers α} {p : Patch α} {x : ℤ}

theorem overlay_of_lt (h : x < p.lo) (hv : p.lo ≤ p.hi) :
    (s.overlay p).settled x = s.settled x + s.ahead x ∧ (s.overlay p).ahead x = 0 := by
  simp only [overlay]
  exact ⟨if_pos h, if_pos (by omega)⟩

theorem overlay_of_has (h : p.Has x) :
    (s.overlay p).settled x = s.settled x + {p.val} ∧ (s.overlay p).ahead x = 0 := by
  simp only [overlay]
  rw [if_neg (not_lt.2 h.1), if_pos h.2, if_pos h.2]
  exact ⟨rfl, rfl⟩

theorem overlay_of_gt (h : p.hi < x) (hv : p.lo ≤ p.hi) :
    (s.overlay p).settled x = s.settled x ∧ (s.overlay p).ahead x = s.ahead x := by
  simp only [overlay]
  rw [if_neg (by omega), if_neg (not_le.2 h), if_neg (not_le.2 h)]
  exact ⟨rfl, rfl⟩

/-- **The patch does not see what it is about to settle or to replace**: in
front of it only the total counts, in it only what is settled. -/
theorem overlay_congr (hv : p.lo ≤ p.hi) (hlt : ∀ x, x < p.lo → s'.total x = s.total x)
    (hhas : ∀ x, p.Has x → s'.settled x = s.settled x)
    (hgt : ∀ x, p.hi < x → s'.settled x = s.settled x ∧ s'.ahead x = s.ahead x) :
    s'.overlay p = s.overlay p := by
  have hpt : ∀ x, (s'.overlay p).settled x = (s.overlay p).settled x ∧
      (s'.overlay p).ahead x = (s.overlay p).ahead x := by
    intro x
    rcases lt_or_ge x p.lo with h1 | h1
    · rw [(overlay_of_lt h1 hv).1, (overlay_of_lt h1 hv).1, (overlay_of_lt h1 hv).2,
        (overlay_of_lt h1 hv).2]
      exact ⟨hlt x h1, rfl⟩
    · rcases le_or_gt x p.hi with h2 | h2
      · rw [(overlay_of_has ⟨h1, h2⟩).1, (overlay_of_has ⟨h1, h2⟩).1, (overlay_of_has ⟨h1, h2⟩).2,
          (overlay_of_has ⟨h1, h2⟩).2, hhas x ⟨h1, h2⟩]
        exact ⟨rfl, rfl⟩
      · rw [(overlay_of_gt h2 hv).1, (overlay_of_gt h2 hv).1, (overlay_of_gt h2 hv).2,
          (overlay_of_gt h2 hv).2]
        exact hgt x h2
  ext1
  · exact funext fun x => (hpt x).1
  · exact funext fun x => (hpt x).2

/-- **A patch may be laid in two pieces.** -/
theorem overlay_split {lo k hi : ℤ} {v : α} (h1 : lo ≤ k) (h2 : k < hi) :
    (s.overlay ⟨lo, k, v⟩).overlay ⟨k + 1, hi, v⟩ = s.overlay ⟨lo, hi, v⟩ := by
  ext1
  · funext x
    simp only [overlay]
    split_ifs <;> first | omega | simp
  · funext x
    simp only [overlay]
    split_ifs <;> first | omega | rfl

end Overlay

/-! ## A sequence of patches -/

/-- The patches that contain the point, by their values. -/
def covering (ps : List (Patch α)) (x : ℤ) : Multiset α :=
  ((ps.filter fun p => p.Has x).map Patch.val : List α)

/-- The first patch that reaches as far as the point contains it, so what
the point held before gives way. -/
def GivesWay : List (Patch α) → ℤ → Prop
  | [], _ => False
  | p :: ps, x => if x ≤ p.hi then p.lo ≤ x else GivesWay ps x

instance decidableGivesWay : ∀ (ps : List (Patch α)) (x : ℤ), Decidable (GivesWay ps x)
  | [], _ => inferInstanceAs (Decidable False)
  | p :: ps, x =>
    have := decidableGivesWay ps x
    inferInstanceAs (Decidable (if x ≤ p.hi then p.lo ≤ x else GivesWay ps x))

section GivesWay

variable {p : Patch α} {ps : List (Patch α)} {x : ℤ}

theorem not_givesWay_cons (h : x < p.lo) (hv : p.lo ≤ p.hi) : ¬ GivesWay (p :: ps) x := by
  rw [GivesWay, if_pos (by omega)]
  exact not_le.2 h

theorem givesWay_cons_of_has (h : p.Has x) : GivesWay (p :: ps) x := by
  rw [GivesWay, if_pos h.2]
  exact h.1

theorem givesWay_cons_of_gt (h : p.hi < x) : GivesWay (p :: ps) x ↔ GivesWay ps x := by
  rw [GivesWay, if_neg (not_le.2 h)]

end GivesWay

@[simp] theorem covering_nil (x : ℤ) : covering ([] : List (Patch α)) x = 0 := rfl

theorem covering_cons (p : Patch α) (ps : List (Patch α)) (x : ℤ) :
    covering (p :: ps) x = (if p.Has x then {p.val} else 0) + covering ps x := by
  unfold covering
  by_cases h : p.Has x
  · rw [List.filter_cons_of_pos (by simpa using h), if_pos h]
    rfl
  · rw [List.filter_cons_of_neg (by simpa using h), if_neg h, zero_add]

theorem covering_ne_zero {p : Patch α} {ps : List (Patch α)} {x : ℤ} (hp : p ∈ ps)
    (hx : p.Has x) : 0 < (covering ps x).card := by
  simp only [covering, Multiset.coe_card, List.length_map]
  exact List.length_pos_of_mem (List.mem_filter.2 ⟨hp, by simpa using hx⟩)

/-- **What a sequence of patches leaves.** A point holds what was settled
before, the value of every patch that contains it, and what lay ahead
unless that gives way. -/
theorem total_foldl {ps : List (Patch α)} (hv : ∀ p ∈ ps, p.lo ≤ p.hi) (s : Layers α) (x : ℤ) :
    (ps.foldl overlay s).total x =
      s.settled x + covering ps x + (if GivesWay ps x then 0 else s.ahead x) := by
  induction ps generalizing s with
  | nil => simp [total, GivesWay]
  | cons p ps ih =>
    have hp := hv p List.mem_cons_self
    rw [List.foldl_cons, ih (fun q hq => hv q (List.mem_cons_of_mem _ hq)), covering_cons]
    rcases lt_or_ge x p.lo with h1 | h1
    · have hno : ¬ p.Has x := fun h => absurd h.1 (not_le.2 h1)
      rw [(overlay_of_lt h1 hp).1, (overlay_of_lt h1 hp).2, if_neg hno,
        if_neg (not_givesWay_cons h1 hp), ite_self, add_zero, zero_add, add_right_comm]
    · rcases le_or_gt x p.hi with h2 | h2
      · have hpx : p.Has x := ⟨h1, h2⟩
        rw [(overlay_of_has hpx).1, (overlay_of_has hpx).2, if_pos hpx,
          if_pos (givesWay_cons_of_has hpx), ite_self, add_assoc (s.settled x)]
      · have hno : ¬ p.Has x := fun h => absurd h.2 (not_le.2 h2)
        rw [(overlay_of_gt h2 hp).1, (overlay_of_gt h2 hp).2, if_neg hno, zero_add]
        simp only [givesWay_cons_of_gt h2]

/-- One patch does not spoil another: they are disjoint, and one that lies
in front of an earlier one meets no value of the map. -/
def Fits (t : ℤ → Multiset α) (p q : Patch α) : Prop :=
  p.Disjoint q ∧ (q.hi < p.lo → ∀ x, q.Has x → t x = 0)

variable {t : ℤ → Multiset α} {ps : List (Patch α)}

/-- Where patches fit, what a point of a patch held gives way. -/
theorem givesWay_of_fits (hv : ∀ p ∈ ps, p.lo ≤ p.hi) (hf : ps.Pairwise (Fits t))
    {q : Patch α} (hq : q ∈ ps) {x : ℤ} (hx : q.Has x) : GivesWay ps x ∨ t x = 0 := by
  induction ps with
  | nil => simp at hq
  | cons p ps ih =>
    rw [List.pairwise_cons] at hf
    have hp := hv p List.mem_cons_self
    rcases List.mem_cons.1 hq with rfl | hq
    · exact Or.inl (givesWay_cons_of_has hx)
    · rcases le_or_gt x p.hi with h1 | h1
      · by_cases h2 : p.lo ≤ x
        · exact Or.inl (givesWay_cons_of_has ⟨h2, h1⟩)
        · obtain ⟨hd | hd, hzero⟩ := hf.1 q hq
          · have := hx.1
            omega
          · exact Or.inr (hzero hd x hx)
      · rw [givesWay_cons_of_gt h1]
        exact ih (fun r hr => hv r (List.mem_cons_of_mem _ hr)) hf.2 hq

/-- Disjoint patches cover a point once at most. -/
theorem card_covering_le_one (hd : ps.Pairwise Patch.Disjoint) (x : ℤ) :
    (covering ps x).card ≤ 1 := by
  induction ps with
  | nil => simp
  | cons p ps ih =>
    rw [List.pairwise_cons] at hd
    rw [covering_cons, Multiset.card_add]
    by_cases hp : p.Has x
    · have hzero : covering ps x = 0 := by
        simp only [covering, Multiset.coe_eq_zero, List.map_eq_nil_iff, List.filter_eq_nil_iff,
          decide_eq_true_eq]
        rintro q hq ⟨hq1, hq2⟩
        have hp1 := hp.1
        have hp2 := hp.2
        rcases hd.1 q hq with h | h <;> omega
      simp [hp, hzero]
    · simpa [hp] using ih hd.2

theorem fits_of_single (hv : ∀ p ∈ ps, p.lo ≤ p.hi) (ht : ∀ x, (t x).card ≤ 1)
    (h : ∀ x, (covering ps x).card + (if GivesWay ps x then 0 else (t x).card) ≤ 1) :
    ps.Pairwise (Fits t) := by
  induction ps with
  | nil => exact List.Pairwise.nil
  | cons p ps ih =>
    have hp := hv p List.mem_cons_self
    simp only [covering_cons, Multiset.card_add] at h
    refine List.pairwise_cons.2 ⟨fun q hq => ?_, ih (fun q hq => hv q (List.mem_cons_of_mem _ hq))
      fun x => ?_⟩
    · have hqv := hv q (List.mem_cons_of_mem _ hq)
      have hdis : p.Disjoint q := by
        -- two patches that meet share the later of their first points
        by_contra hno
        simp only [Patch.Disjoint, not_or, not_lt] at hno
        have hpx : p.Has (max p.lo q.lo) := ⟨le_max_left _ _, by omega⟩
        have hqx : q.Has (max p.lo q.lo) := ⟨le_max_right _ _, by omega⟩
        have h1 := h (max p.lo q.lo)
        rw [if_pos hpx, Multiset.card_singleton] at h1
        have h2 := covering_ne_zero hq hqx
        omega
      refine ⟨hdis, fun hlt x hx => ?_⟩
      have h1 := h x
      have hx2 := hx.2
      rw [if_neg fun hpx : p.Has x => absurd hpx.1 (by omega),
        if_neg (not_givesWay_cons (by omega) hp), Multiset.card_zero] at h1
      have h2 := covering_ne_zero hq hx
      exact Multiset.card_eq_zero.1 (by omega)
    · have h1 := h x
      have h2 := ht x
      rcases lt_or_ge x p.lo with hx1 | hx1
      · rw [if_neg (not_givesWay_cons hx1 hp)] at h1
        split <;> omega
      · rcases le_or_gt x p.hi with hx2 | hx2
        · have hpx : p.Has x := ⟨hx1, hx2⟩
          rw [if_pos hpx, Multiset.card_singleton] at h1
          split <;> omega
        · simp only [givesWay_cons_of_gt hx2] at h1
          omega

/-- **When the result is single-valued.** Patches laid over a single-valued
map leave a single-valued map exactly when they are disjoint from one
another and one that lies in front of an earlier one meets no value of
the map. -/
theorem single_iff (hv : ∀ p ∈ ps, p.lo ≤ p.hi) (ht : ∀ x, (t x).card ≤ 1) :
    (∀ x, ((ps.foldl overlay ⟨fun _ => 0, t⟩).total x).card ≤ 1) ↔ ps.Pairwise (Fits t) := by
  have hcard : ∀ x, ((ps.foldl overlay ⟨fun _ => 0, t⟩).total x).card =
      (covering ps x).card + (if GivesWay ps x then 0 else (t x).card) := by
    intro x
    rw [total_foldl hv, zero_add, Multiset.card_add]
    split <;> rfl
  simp only [hcard]
  refine ⟨fits_of_single hv ht, fun hf x => ?_⟩
  have h1 := card_covering_le_one (hf.imp fun h => h.1) x
  have h2 := ht x
  by_cases hcov : (covering ps x).card = 0
  · split <;> omega
  · obtain ⟨q, hq, hqx⟩ : ∃ q ∈ ps, q.Has x := by
      by_contra hno
      push Not at hno
      refine hcov ?_
      simp only [covering, Multiset.coe_card, List.length_map, List.length_eq_zero_iff,
        List.filter_eq_nil_iff, decide_eq_true_eq]
      exact hno
    rcases givesWay_of_fits hv hf hq hqx with hg | hz
    · rw [if_pos hg]
      omega
    · rw [hz, Multiset.card_zero, ite_self]
      omega

/-- **Patches that fit replace.** A point of a patch holds the patch's value
and nothing else. -/
theorem total_of_has (hv : ∀ p ∈ ps, p.lo ≤ p.hi) (hf : ps.Pairwise (Fits t)) {p : Patch α}
    (hp : p ∈ ps) {x : ℤ} (hx : p.Has x) :
    (ps.foldl overlay ⟨fun _ => 0, t⟩).total x = {p.val} := by
  have hcov : covering ps x = {p.val} := by
    have hmem : p.val ∈ covering ps x :=
      List.mem_map.2 ⟨p, List.mem_filter.2 ⟨hp, by simpa using hx⟩, rfl⟩
    have hone := card_covering_le_one (hf.imp fun h => h.1) x
    obtain ⟨a, ha⟩ := Multiset.card_eq_one.1
      (le_antisymm hone (covering_ne_zero hp hx))
    rw [ha, Multiset.mem_singleton] at hmem
    rw [ha, hmem]
  rw [total_foldl hv, hcov]
  rcases givesWay_of_fits hv hf hp hx with hg | hz
  · simp [hg]
  · simp [hz]

/-- A point of no patch holds what it held. -/
theorem total_of_not_has (hv : ∀ p ∈ ps, p.lo ≤ p.hi) {x : ℤ} (hx : ∀ p ∈ ps, ¬ p.Has x) :
    (ps.foldl overlay ⟨fun _ => 0, t⟩).total x = t x := by
  have hcov : covering ps x = 0 := by
    simp only [covering, Multiset.coe_eq_zero, List.map_eq_nil_iff, List.filter_eq_nil_iff,
      decide_eq_true_eq]
    exact hx
  have hg : ¬ GivesWay ps x := by
    clear hcov
    induction ps with
    | nil => exact id
    | cons p ps ih =>
      have hp := hx p List.mem_cons_self
      rcases lt_or_ge x p.lo with h1 | h1
      · exact not_givesWay_cons h1 (hv p List.mem_cons_self)
      · rw [givesWay_cons_of_gt (not_le.1 fun h2 => hp ⟨h1, h2⟩)]
        exact ih (fun q hq => hv q (List.mem_cons_of_mem _ hq))
          fun q hq => hx q (List.mem_cons_of_mem _ hq)
  rw [total_foldl hv, hcov, if_neg hg, zero_add, zero_add]

end Layers

end Overlay

end Xpod
