import Xpod.Common.Sweep.Basic
/-!
# The sweep flattens

From sources read in the order of their first points, the sweep stops
and delivers disjoint strips, in order, that cover exactly what the
sources cover. `Inv` is what every turn keeps: nothing that waits begins
before the open strip, everything finished ends before it, and no point
of a source is lost between the four places a strip can be.
-/

namespace Xpod

namespace Sweep

/-- The strips still in play: the open one, the waiting ones and the
sources not read. -/
def State.live (s : State) : List Strip := s.last.toList ++ (s.queue ++ s.unread)

theorem mem_live {s : State} {p : Strip} :
    p ∈ s.live ↔ s.last = some p ∨ p ∈ s.queue ++ s.unread := by
  simp [State.live]

/-- **The invariant of the sweep** over the sources it was started with. -/
structure Inv (rows : List Strip) (s : State) : Prop where
  /-- No strip in play is empty. -/
  valid : ∀ p ∈ s.live, p.lo ≤ p.hi
  /-- The sources not read are still in order. -/
  sorted : s.unread.Pairwise fun a b => a.lo ≤ b.lo
  /-- Nothing waits that begins before the open strip. -/
  front : ∀ l, s.last = some l → ∀ p ∈ s.queue ++ s.unread, l.lo ≤ p.lo
  /-- Before the first turn nothing waits and nothing is finished. -/
  fresh : s.last = none → s.queue = [] ∧ s.done = []
  /-- Finished strips end before the open one. -/
  before : ∀ l, s.last = some l → ∀ p ∈ s.done, p.hi < l.lo
  /-- No finished strip is empty, and they follow one another. -/
  doneValid : ∀ p ∈ s.done, p.lo ≤ p.hi
  doneOrder : s.done.Pairwise fun a b => a.hi < b.lo
  /-- Every strip is cut from a source. -/
  cut : ∀ p, p ∈ s.live ∨ p ∈ s.done → ∃ r ∈ rows, p.CutOf r
  /-- Every point of a source is in some strip. -/
  cover : ∀ x r, r ∈ rows → r.Has x → ∃ p, (p ∈ s.live ∨ p ∈ s.done) ∧ p.Has x

section Turn

variable {s t : State} {c : Strip} {q u : List Strip}

/-- A turn moves strips about; it takes none away and adds none. -/
theorem perm_next (h : s.next = some (c, q, u)) :
    (s.queue ++ s.unread).Perm (c :: (q ++ u)) := by
  obtain ⟨hq, rfl⟩ := next_eq_some.1 h
  have h1 : (s.waiting ++ s.unread.drop 1).Perm ((c :: q) ++ s.unread.drop 1) := by
    rw [← hq]
    exact (perm_sortQueue _).symm.append_right _
  rwa [State.waiting, List.append_assoc, List.take_append_drop] at h1

theorem mem_next (h : s.next = some (c, q, u)) {p : Strip} :
    p ∈ s.queue ++ s.unread ↔ p = c ∨ p ∈ q ++ u := by
  rw [(perm_next h).mem_iff, List.mem_cons]

/-- The strip taken begins no later than anything that waits or is unread. -/
theorem next_front (hs : s.unread.Pairwise fun a b => a.lo ≤ b.lo)
    (h : s.next = some (c, q, u)) {p : Strip} (hp : p ∈ q ++ u) : c.lo ≤ p.lo := by
  rcases List.mem_append.1 hp with hq | hu
  · exact next_lo_le h hq
  · obtain rfl := (next_eq_some.1 h).2
    rcases hun : s.unread with - | ⟨r, rs⟩
    · rw [hun] at hu; simp at hu
    · rw [hun] at hu hs
      have hr : c.lo ≤ r.lo := by
        have hmem : r ∈ c :: q := (mem_waiting_of_next h).2 (by simp [State.waiting, hun])
        rcases List.mem_cons.1 hmem with rfl | hrq
        · exact le_rfl
        · exact next_lo_le h hrq
      exact hr.trans ((List.pairwise_cons.1 hs).1 p (by simpa using hu))

/-- What is in play after a cut. -/
theorem mem_live_met {l p : Strip} :
    p ∈ (s.met l c q u).live ↔
      p = (meet l c).keep ∨ p ∈ q ++ u ∨ p ∈ (meet l c).again := by
  rw [mem_live]
  simp only [State.met, Option.some.injEq, List.mem_append, eq_comm]
  tauto

end Turn

/-- The sweep starts in its invariant. -/
theorem inv_start {rows : List Strip} (hv : ∀ r ∈ rows, r.lo ≤ r.hi)
    (hs : rows.Pairwise fun a b => a.lo ≤ b.lo) : Inv rows (State.start rows) where
  valid p hp := hv p (by simpa [mem_live, State.start] using hp)
  sorted := hs
  front l hl := by simp [State.start] at hl
  fresh _ := ⟨rfl, rfl⟩
  before l hl := by simp [State.start] at hl
  doneValid p hp := by simp [State.start] at hp
  doneOrder := List.Pairwise.nil
  cut p hp := by
    refine ⟨p, ?_, Strip.CutOf.refl p⟩
    simpa [mem_live, State.start] using hp
  cover x r hr hx := ⟨r, Or.inl (by simpa [mem_live, State.start] using hr), hx⟩

/-- The first turn opens a strip. -/
theorem inv_open {rows : List Strip} {s : State} {c : Strip} {q u : List Strip}
    (hi : Inv rows s) (hn : s.next = some (c, q, u)) (hl : s.last = none) :
    Inv rows (s.opened c q u) := by
  have hmem : ∀ p, p ∈ (s.opened c q u).live ↔ p ∈ s.live := by
    intro p
    rw [mem_live, mem_live, mem_next hn, hl]
    simp only [State.opened, Option.some.injEq, reduceCtorEq, false_or, eq_comm]
  have hdone : s.done = [] := (hi.fresh hl).2
  refine ⟨fun p hp => hi.valid p ((hmem p).1 hp), ?_, ?_, by simp, ?_, hi.doneValid, hi.doneOrder,
    ?_, ?_⟩
  · obtain rfl := (next_eq_some.1 hn).2
    exact hi.sorted.sublist (List.drop_sublist 1 _)
  · rintro l hl' p hp
    obtain rfl := Option.some.inj hl'
    exact next_front hi.sorted hn hp
  · intro l _ p hp
    simp [hdone] at hp
  · intro p hp
    exact hi.cut p (hp.imp (hmem p).1 id)
  · intro x r hr hx
    obtain ⟨p, hp, hpx⟩ := hi.cover x r hr hx
    exact ⟨p, hp.imp (hmem p).2 id, hpx⟩

/-- At most one strip is finished at a time. -/
theorem pairwise_meet_out (l c : Strip) (R : Strip → Strip → Prop) :
    (meet l c).out.Pairwise R := by
  rcases meet_cases l c with ⟨-, -, h, -⟩ | ⟨-, -, -, h, -⟩ | ⟨-, -, -, h, -⟩ <;> rw [h]
  · split <;> simp
  · split <;> simp
  · simp

/-- After a meeting every strip is still cut from a source. -/
theorem cut_met {rows : List Strip} {s : State} {l c : Strip} {q u : List Strip}
    (hi : Inv rows s) (hn : s.next = some (c, q, u)) (hl : s.last = some l) {p : Strip}
    (hp : p ∈ (s.met l c q u).live ∨ p ∈ (s.met l c q u).done) : ∃ r ∈ rows, p.CutOf r := by
  have hcq : c ∈ s.queue ++ s.unread := (mem_next hn).2 (Or.inl rfl)
  have hlive : l ∈ s.live := mem_live.2 (Or.inl hl)
  have hclive : c ∈ s.live := mem_live.2 (Or.inr hcq)
  have hcv := hi.valid c hclive
  have hlc : l.lo ≤ c.lo := hi.front l hl c hcq
  obtain ⟨rl, hrl, hcutl⟩ := hi.cut l (Or.inl hlive)
  obtain ⟨rc, hrc, hcutc⟩ := hi.cut c (Or.inl hclive)
  rcases hp with hp | hp
  · rcases mem_live_met.1 hp with rfl | hp | hp
    · exact ⟨rc, hrc, (meet_keep_cutOf l c).trans hcutc⟩
    · exact hi.cut p (Or.inl (mem_live.2 (Or.inr ((mem_next hn).2 (Or.inr hp)))))
    · rcases (of_mem_meet_again hlc hcv hp).1 with h | h
      · exact ⟨rl, hrl, h.trans hcutl⟩
      · exact ⟨rc, hrc, h.trans hcutc⟩
  · rcases List.mem_append.1 hp with hp | hp
    · exact hi.cut p (Or.inr hp)
    · exact ⟨rl, hrl, (of_mem_meet_out (hi.valid l hlive) hlc hcv hp).1.trans hcutl⟩

/-- A meeting uncovers no point: the newcomer's stay with it, the open
strip keeps the others. -/
theorem cover_met {rows : List Strip} {s : State} {l c : Strip} {q u : List Strip}
    (hi : Inv rows s) (hn : s.next = some (c, q, u)) (hl : s.last = some l) {p : Strip} {x : ℤ}
    (hp : p ∈ s.live ∨ p ∈ s.done) (hpx : p.Has x) :
    ∃ p, (p ∈ (s.met l c q u).live ∨ p ∈ (s.met l c q u).done) ∧ p.Has x := by
  have hcq : c ∈ s.queue ++ s.unread := (mem_next hn).2 (Or.inl rfl)
  have hcv := hi.valid c (mem_live.2 (Or.inr hcq))
  have hlc : l.lo ≤ c.lo := hi.front l hl c hcq
  have hmem := fun p => mem_live_met (s := s) (l := l) (c := c) (q := q) (u := u) (p := p)
  have hnew : c.Has x → ∃ p, (p ∈ (s.met l c q u).live ∨ p ∈ (s.met l c q u).done) ∧
      p.Has x := by
    intro hcx
    rcases meet_newcomer_keeps (l := l) hcx with h | ⟨p, hp, -, hpx⟩
    · exact ⟨_, Or.inl ((hmem _).2 (Or.inl rfl)), h⟩
    · exact ⟨p, Or.inl ((hmem p).2 (Or.inr (Or.inr hp))), hpx⟩
  rcases hp with hp | hp
  · rcases mem_live.1 hp with hlp | hp
    · obtain rfl : l = p := Option.some.inj (hl.symm.trans hlp)
      by_cases hcx : c.Has x
      · exact hnew hcx
      · rcases meet_open_keeps hlc hcv hpx hcx with ⟨-, p', hp', -, hx'⟩ | ⟨-, p', hp', -, hx'⟩
        · exact ⟨p', Or.inr (List.mem_append_right _ hp'), hx'⟩
        · exact ⟨p', Or.inl ((hmem p').2 (Or.inr (Or.inr hp'))), hx'⟩
    · rcases (mem_next hn).1 hp with rfl | hp
      · exact hnew hpx
      · exact ⟨p, Or.inl ((hmem p).2 (Or.inr (Or.inl hp))), hpx⟩
  · exact ⟨p, Or.inr (List.mem_append_left _ hp), hpx⟩

/-- Every later turn keeps the invariant: the open strip and the newcomer
are replaced by what `meet` makes of them. -/
theorem inv_meet {rows : List Strip} {s : State} {l c : Strip} {q u : List Strip}
    (hi : Inv rows s) (hn : s.next = some (c, q, u)) (hl : s.last = some l) :
    Inv rows (s.met l c q u) := by
  have hcq : c ∈ s.queue ++ s.unread := (mem_next hn).2 (Or.inl rfl)
  have hqu : ∀ p ∈ q ++ u, p ∈ s.queue ++ s.unread := fun p hp => (mem_next hn).2 (Or.inr hp)
  have hlive : l ∈ s.live := mem_live.2 (Or.inl hl)
  have hclive : c ∈ s.live := mem_live.2 (Or.inr hcq)
  have hlv := hi.valid l hlive
  have hcv := hi.valid c hclive
  have hlc : l.lo ≤ c.lo := hi.front l hl c hcq
  have hmem := fun p => mem_live_met (s := s) (l := l) (c := c) (q := q) (u := u) (p := p)
  refine ⟨?_, ?_, ?_, by simp, ?_, ?_, ?_, ?_, ?_⟩
  · intro p hp
    rcases (hmem p).1 hp with rfl | hp | hp
    · exact meet_keep_valid hcv
    · exact hi.valid p (mem_live.2 (Or.inr (hqu p hp)))
    · exact (of_mem_meet_again hlc hcv hp).2.2.1
  · obtain rfl := (next_eq_some.1 hn).2
    exact hi.sorted.sublist (List.drop_sublist 1 _)
  · intro l' hl' p hp
    obtain rfl := Option.some.inj hl'
    rw [meet_keep_lo]
    have hp' : p ∈ q ++ u ∨ p ∈ (meet l c).again := by
      simp only [State.met_queue, State.met_unread, List.mem_append] at hp ⊢
      tauto
    rcases hp' with hp | hp
    · exact next_front hi.sorted hn hp
    · exact (of_mem_meet_again hlc hcv hp).2.2.2.2.le
  · intro l' hl' p hp
    obtain rfl := Option.some.inj hl'
    rw [meet_keep_lo]
    rcases List.mem_append.1 hp with hp | hp
    · exact (hi.before l hl p hp).trans_le hlc
    · exact (of_mem_meet_out hlv hlc hcv hp).2.2.2
  · intro p hp
    rcases List.mem_append.1 hp with hp | hp
    · exact hi.doneValid p hp
    · exact (of_mem_meet_out hlv hlc hcv hp).2.2.1
  · refine List.pairwise_append.2 ⟨hi.doneOrder, pairwise_meet_out l c _, ?_⟩
    intro a ha b hb
    rw [(of_mem_meet_out hlv hlc hcv hb).2.1]
    exact hi.before l hl a ha
  · intro p hp
    exact cut_met hi hn hl hp
  · intro x r hr hx
    obtain ⟨p, hp, hpx⟩ := hi.cover x r hr hx
    exact cover_met hi hn hl hp hpx

/-- **One turn keeps the invariant.** -/
theorem inv_step {rows : List Strip} {s t : State} (hi : Inv rows s) (h : s.step = some t) :
    Inv rows t := by
  obtain ⟨c, q, u, hn, ⟨hl, rfl⟩ | ⟨l, hl, rfl⟩⟩ := step_cases h
  · exact inv_open hi hn hl
  · exact inv_meet hi hn hl

/-- Every state a sweep reaches has the invariant. -/
theorem inv_of_reaches {rows : List Strip} {s t : State} (hi : Inv rows s) (h : Reaches s t) :
    Inv rows t :=
  h.invariant hi fun _ _ => inv_step

/-! ## The sweep stops -/

/-- The points still in play, and one turn more while no strip is open. -/
def State.weight (s : State) : ℕ :=
  (s.live.map Strip.size).sum + if s.last = none then 1 else 0

/-- A turn moves strips about without changing how many points they hold. -/
theorem sum_size_next {s : State} {c : Strip} {q u : List Strip} (h : s.next = some (c, q, u)) :
    ((s.queue ++ s.unread).map Strip.size).sum = c.size + ((q ++ u).map Strip.size).sum := by
  rw [((perm_next h).map Strip.size).sum_eq]
  simp

/-- **Every turn lightens the state.** -/
theorem weight_step {rows : List Strip} {s t : State} (hi : Inv rows s) (h : s.step = some t) :
    t.weight < s.weight := by
  obtain ⟨c, q, u, hn, ⟨hl, rfl⟩ | ⟨l, hl, rfl⟩⟩ := step_cases h
  · have hsum := sum_size_next hn
    simp only [State.weight, State.live, State.opened, hl] at hsum ⊢
    simp at hsum ⊢
    omega
  · have hsum := sum_size_next hn
    have hcq : c ∈ s.queue ++ s.unread := (mem_next hn).2 (Or.inl rfl)
    have hlt := meet_size_lt (hi.valid l (mem_live.2 (Or.inl hl))) (hi.front l hl c hcq)
      (hi.valid c (mem_live.2 (Or.inr hcq)))
    simp only [State.weight, State.live, State.met, hl] at hsum ⊢
    simp at hsum ⊢
    omega

/-- With as much fuel as the state weighs, the sweep stops. -/
theorem run_isSome {rows : List Strip} : ∀ {n : ℕ} {s : State}, Inv rows s → s.weight < n →
    ∃ t, s.run n = some t
  | 0, _, _, h => absurd h (Nat.not_lt_zero _)
  | n + 1, s, hi, h => by
    rw [State.run]
    rcases hs : s.step with - | t
    · exact ⟨s, rfl⟩
    · have := weight_step hi hs
      exact run_isSome (inv_step hi hs) (by omega)

/-! ## What it delivers -/

/-- **The sweep flattens**: what it delivers is in order and disjoint, no
strip of it is empty, each is cut from a source, and no point of a
source is lost. -/
theorem result_of_stopped {rows : List Strip} {t : State} (hi : Inv rows t) (ht : t.step = none) :
    t.result.Pairwise (fun a b => a.hi < b.lo) ∧ (∀ p ∈ t.result, p.lo ≤ p.hi) ∧
      (∀ p ∈ t.result, ∃ r ∈ rows, p.CutOf r) ∧
      ∀ x, (∃ p ∈ t.result, p.Has x) ↔ ∃ r ∈ rows, r.Has x := by
  obtain ⟨hq, hu⟩ := step_eq_none.1 ht
  have hmem : ∀ p, p ∈ t.result ↔ p ∈ t.live ∨ p ∈ t.done := by
    intro p
    simp only [State.result, State.live, hq, hu, List.append_nil, List.mem_append]
    tauto
  refine ⟨?_, ?_, fun p hp => hi.cut p ((hmem p).1 hp), fun x => ⟨?_, ?_⟩⟩
  · refine List.pairwise_append.2 ⟨hi.doneOrder, ?_, ?_⟩
    · rcases t.last with - | l <;> simp
    · intro a ha b hb
      exact hi.before b (by simpa using hb) a ha
  · intro p hp
    rcases (hmem p).1 hp with h | h
    · exact hi.valid p h
    · exact hi.doneValid p h
  · rintro ⟨p, hp, hx⟩
    obtain ⟨r, hr, hcut⟩ := hi.cut p ((hmem p).1 hp)
    exact ⟨r, hr, hcut.has hx⟩
  · rintro ⟨r, hr, hx⟩
    obtain ⟨p, hp, hpx⟩ := hi.cover x r hr hx
    exact ⟨p, (hmem p).2 hp, hpx⟩

end Sweep

end Xpod
