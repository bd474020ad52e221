import Mathlib.Data.List.Basic
import Mathlib.Tactic
import Xpod.Common.Sweep.Flatten
/-!
# How much a sweep delivers

Cutting invents no boundaries: every strip in play begins where a source
begins or right behind the end of one, and ends in front of such a point.
The strips a sweep delivers begin at different points, so there are at most
as many as boundaries, and none begins at the last one.
-/

namespace Xpod

namespace Sweep

/-- A source begins at the point, or ends right in front of it. -/
def Boundary (rows : List Strip) (x : ℤ) : Prop := ∃ r ∈ rows, x = r.lo ∨ x = r.hi + 1

/-- The strip lies between two boundaries. -/
structure OnBoundaries (rows : List Strip) (p : Strip) : Prop where
  lo : Boundary rows p.lo
  hi : Boundary rows (p.hi + 1)

section Meet

variable {rows : List Strip} {l c p : Strip}

/-- **A cut invents no boundaries.** -/
theorem OnBoundaries.meet (hl : OnBoundaries rows l) (hc : OnBoundaries rows c)
    (hp : p = (meet l c).keep ∨ p ∈ (Sweep.meet l c).out ∨ p ∈ (Sweep.meet l c).again) :
    OnBoundaries rows p := by
  -- the front of the open strip ends where the newcomer begins
  have hfront : OnBoundaries rows { l with hi := c.lo - 1 } :=
    ⟨hl.lo, by simpa using hc.lo⟩
  rcases meet_cases l c with ⟨-, hk, ho, ha⟩ | ⟨-, -, hk, ho, ha⟩ | ⟨-, -, hk, ho, ha⟩
  · rw [hk, ho, ha] at hp
    rcases hp with rfl | hp | hp
    · exact hc
    · split at hp
      · rwa [List.mem_singleton.1 hp]
      · simp at hp
    · split at hp
      · rw [List.mem_singleton.1 hp]
        exact ⟨hc.hi, hl.hi⟩
      · simp at hp
  · rw [hk, ho, ha] at hp
    rcases hp with rfl | hp | hp
    · exact ⟨hc.lo, hl.hi⟩
    · split at hp
      · rwa [List.mem_singleton.1 hp]
      · simp at hp
    · rw [List.mem_singleton.1 hp]
      exact ⟨hl.hi, hc.hi⟩
  · rw [hk, ho, ha] at hp
    rcases hp with rfl | hp | hp
    · exact hc
    · rwa [List.mem_singleton.1 hp]
    · simp at hp

end Meet

/-- All strips in play and all that are finished lie between boundaries. -/
def Bounded (rows : List Strip) (s : State) : Prop :=
  ∀ p, p ∈ s.live ∨ p ∈ s.done → OnBoundaries rows p

theorem bounded_start (rows : List Strip) : Bounded rows (State.start rows) := by
  intro p hp
  have hmem : p ∈ rows := by simpa [State.live, State.start] using hp
  exact ⟨⟨p, hmem, Or.inl rfl⟩, ⟨p, hmem, Or.inr rfl⟩⟩

/-- One turn. -/
theorem Bounded.step {rows : List Strip} {s t : State} (h : Bounded rows s)
    (hstep : s.step = some t) : Bounded rows t := by
  obtain ⟨c, q, u, hn, ⟨hl, rfl⟩ | ⟨l, hl, rfl⟩⟩ := step_cases hstep
  · intro p hp
    refine h p (hp.imp_left fun hlive => mem_live.2 (Or.inr ?_))
    rw [mem_next hn]
    simpa [State.live, State.opened] using hlive
  · have hc : OnBoundaries rows c :=
      h c (Or.inl (mem_live.2 (Or.inr ((mem_next hn).2 (Or.inl rfl)))))
    have hopen : OnBoundaries rows l := h l (Or.inl (mem_live.2 (Or.inl hl)))
    rintro p (hp | hp)
    · rcases mem_live_met.1 hp with hk | hqu | ha
      · exact hopen.meet hc (Or.inl hk)
      · exact h p (Or.inl (mem_live.2 (Or.inr ((mem_next hn).2 (Or.inr hqu)))))
      · exact hopen.meet hc (Or.inr (Or.inr ha))
    · rcases List.mem_append.1 hp with hdone | hout
      · exact h p (Or.inr hdone)
      · exact hopen.meet hc (Or.inr (Or.inl hout))

/-- **Every strip the sweep delivers begins at a boundary.** -/
theorem boundary_of_mem_result {rows : List Strip} {t : State}
    (h : Reaches (State.start rows) t) {p : Strip} (hp : p ∈ t.result) : Boundary rows p.lo := by
  have hbounded : Bounded rows t :=
    h.invariant (bounded_start rows) fun _ _ hs => Bounded.step hs
  refine (hbounded p ?_).lo
  rcases List.mem_append.1 hp with hdone | hlast
  · exact Or.inr hdone
  · exact Or.inl (mem_live.2 (Or.inl (by simpa using hlast)))

/-- **At most two for each source, less one.** -/
theorem length_result_lt {rows : List Strip} {t : State} (hne : rows ≠ [])
    (hv : ∀ r ∈ rows, r.lo ≤ r.hi) (hs : rows.Pairwise fun a b => a.lo ≤ b.lo)
    (hreach : Reaches (State.start rows) t) (hstop : t.step = none) :
    t.result.length < 2 * rows.length := by
  obtain ⟨hord, hval, hcut, -⟩ :=
    result_of_stopped (inv_of_reaches (inv_start hv hs) hreach) hstop
  obtain ⟨m, hm, hmax⟩ : ∃ m ∈ rows, ∀ r ∈ rows, r.hi ≤ m.hi := by
    obtain ⟨m, hm, hmax⟩ := rows.toFinset.exists_max_image Strip.hi
      (List.toFinset_nonempty_iff rows |>.2 hne)
    exact ⟨m, List.mem_toFinset.1 hm, fun r hr => hmax r (List.mem_toFinset.2 hr)⟩
  -- the strips begin at different points
  have hnodup : (t.result.map Strip.lo).Nodup := by
    refine List.pairwise_map.2 (List.Pairwise.imp_of_mem ?_ hord)
    intro a b ha _ hab heq
    have := hval a ha
    omega
  -- and none behind the last end
  have hsub : t.result.map Strip.lo ⊆
      rows.map Strip.lo ++ (rows.map fun r => r.hi + 1).erase (m.hi + 1) := by
    intro x hx
    obtain ⟨p, hp, rfl⟩ := List.mem_map.1 hx
    obtain ⟨r, hr, hlo | hhi⟩ := boundary_of_mem_result hreach hp
    · exact List.mem_append_left _ (hlo ▸ List.mem_map_of_mem hr)
    · have hinside : p.lo ≤ m.hi := by
        obtain ⟨r', hr', hpr⟩ := hcut p hp
        exact (hval p hp).trans (hpr.hi.trans (hmax r' hr'))
      refine List.mem_append_right _ ((List.mem_erase_of_ne (by omega)).2 ?_)
      exact List.mem_map.2 ⟨r, hr, hhi.symm⟩
  have hlast : m.hi + 1 ∈ rows.map fun r => r.hi + 1 := List.mem_map.2 ⟨m, hm, rfl⟩
  have hpos : 0 < rows.length := List.length_pos_iff.2 hne
  have hle := (List.subperm_of_subset hnodup hsub).length_le
  rw [List.length_append, List.length_erase_of_mem hlast] at hle
  simp only [List.length_map] at hle
  omega

end Sweep

end Xpod
