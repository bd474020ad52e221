import Xpod.Common.Lists
import Xpod.Common.Sweep.Flatten
/-!
# Whose strip a point ends in

Sources are numbered in the order they are read, and at a point the
newcomer always beats the open strip. So one expects the last source
containing a point to keep it. It does, unless a tail of another source
is queued behind a waiting strip of that last source which begins at the
same point: the queue breaks the tie by arrival, the tail is taken
second, and it wins. `State.Overtakes` is that event, read off the state
before the turn, and `result_src_iff` says it is the only way.

Both directions are invariants of the turn. `Held` follows the last
source's strip as long as the event has not happened; `Ahead` follows the
pair the event created until the point has changed hands.
-/

namespace Xpod

namespace Sweep

/-- The sources as they are read: none empty, in the order of first
points, numbered upwards. -/
structure Sources (rows : List Strip) : Prop where
  valid : ∀ r ∈ rows, r.lo ≤ r.hi
  sorted : rows.Pairwise fun a b => a.lo ≤ b.lo
  numbered : rows.Pairwise fun a b => a.src < b.src

/-- Source `m` is the last one that contains `x`. -/
structure Top (rows : List Strip) (x : ℤ) (m : ℕ) : Prop where
  mem : ∃ r ∈ rows, r.src = m ∧ r.Has x
  le : ∀ r ∈ rows, r.Has x → r.src ≤ m

/-- A source read earlier does not begin later. -/
theorem Sources.lo_le {rows : List Strip} (h : Sources rows) {a b : Strip} (ha : a ∈ rows)
    (hb : b ∈ rows) (hab : a.src < b.src) : a.lo ≤ b.lo := by
  by_contra hlo
  have hboth := h.sorted.and h.numbered
  obtain rfl := Lists.eq_of_pairwise hboth ha hb (fun hab => hlo hab.1) fun hba => by omega
  exact lt_irrefl _ hab

/-- **The event.** The turn about to be taken queues a tail that contains
`x`, of a source other than `m`, behind a strip of `m` that contains `x`
and begins where the tail begins. -/
def State.Overtakes (s : State) (x : ℤ) (m : ℕ) : Prop :=
  match s.last, s.next with
  | some l, some (c, q, _) =>
    ∃ r ∈ (meet l c).again, ∃ w ∈ q, w.lo = r.lo ∧ r.Has x ∧ w.Has x ∧ w.src = m ∧ r.src ≠ m
  | _, _ => False

theorem overtakes_iff {s : State} {x : ℤ} {m : ℕ} {l c : Strip} {q u : List Strip}
    (hl : s.last = some l) (hn : s.next = some (c, q, u)) :
    s.Overtakes x m ↔ ∃ r ∈ (meet l c).again, ∃ w ∈ q,
      w.lo = r.lo ∧ r.Has x ∧ w.Has x ∧ w.src = m ∧ r.src ≠ m := by
  simp only [State.Overtakes, hl, hn]

/-- In such a turn a strip is open and one is about to be taken. -/
theorem State.Overtakes.cases {s : State} {x : ℤ} {m : ℕ} (h : s.Overtakes x m) :
    ∃ l c q u, s.last = some l ∧ s.next = some (c, q, u) := by
  rcases hl : s.last with - | l
  · simp [State.Overtakes, hl] at h
  rcases hn : s.next with - | ⟨c, q, u⟩
  · simp [State.Overtakes, hl, hn] at h
  exact ⟨l, c, q, u, rfl, rfl⟩

/-! ## The order of arrival -/

/-- Among strips that begin at one point, the sort keeps the order. -/
theorem filter_sortQueue (q : List Strip) (a : ℤ) :
    (sortQueue q).filter (fun p => p.lo = a) = q.filter fun p => p.lo = a := by
  have hins : ∀ (p : Strip) (l : List Strip),
      (l.orderedInsert (fun a b => a.lo ≤ b.lo) p).filter (fun p => p.lo = a) =
        (p :: l).filter fun p => p.lo = a := by
    intro p l
    induction l with
    | nil => rfl
    | cons b l ih =>
      rw [List.orderedInsert_cons]
      split
      · rfl
      · next hlt =>
        rw [List.filter_cons, ih]
        by_cases hb : b.lo = a
        · have hp : ¬ p.lo = a := by omega
          simp [hb, hp]
        · simp [hb, List.filter_cons]
  induction q with
  | nil => rfl
  | cons p q ih =>
    change ((sortQueue q).orderedInsert (fun a b => a.lo ≤ b.lo) p).filter _ = _
    rw [hins, List.filter_cons, List.filter_cons, ih]

/-- Two strips that begin together leave the queue in the order they
arrived. -/
theorem pair_sublist_waiting {s : State} {c : Strip} {q u : List Strip} {a b : Strip}
    (hn : s.next = some (c, q, u)) (hab : a.lo = b.lo) (h : [a, b].Sublist (c :: q)) :
    [a, b].Sublist s.waiting := by
  have hf := h.filter fun p => p.lo = b.lo
  rw [← (next_eq_some.1 hn).1, filter_sortQueue] at hf
  have hpair : ([a, b].filter fun p => p.lo = b.lo) = [a, b] := by simp [hab]
  rw [hpair] at hf
  exact hf.trans List.filter_sublist

/-- And those waiting in order are taken in order. -/
theorem pair_sublist_taken {s : State} {c : Strip} {q u : List Strip} {a b : Strip}
    (hn : s.next = some (c, q, u)) (hab : a.lo = b.lo) (h : [a, b].Sublist s.queue) :
    [a, b].Sublist (c :: q) := by
  rw [← (next_eq_some.1 hn).1]
  exact sublist_sortQueue (by simp [hab]) (h.trans (List.sublist_append_left _ _))

/-- A pair within an appended list lies on one side or across. -/
theorem pair_sublist_append {α : Type*} {a b : α} {l₁ l₂ : List α} (h : [a, b].Sublist (l₁ ++ l₂)) :
    [a, b].Sublist l₁ ∨ (a ∈ l₁ ∧ b ∈ l₂) ∨ [a, b].Sublist l₂ := by
  obtain ⟨m₁, m₂, hm, h1, h2⟩ := List.sublist_append_iff.1 h
  rcases m₁ with - | ⟨y, - | ⟨z, m₁⟩⟩
  · obtain rfl : [a, b] = m₂ := by simpa using hm
    exact Or.inr (Or.inr h2)
  · simp only [List.cons_append, List.nil_append, List.cons.injEq] at hm
    obtain ⟨rfl, rfl⟩ := hm
    exact Or.inr (Or.inl ⟨h1.subset (by simp), h2.subset (by simp)⟩)
  · simp only [List.cons_append, List.cons.injEq] at hm
    obtain ⟨rfl, rfl, hm⟩ := hm
    obtain ⟨rfl, rfl⟩ : m₁ = [] ∧ m₂ = [] := by simpa using hm
    exact Or.inl h1

theorem pair_sublist_append_of_mem {α : Type*} {a b : α} {l₁ l₂ : List α} (ha : a ∈ l₁)
    (hb : b ∈ l₂) : [a, b].Sublist (l₁ ++ l₂) :=
  (List.singleton_sublist.2 ha).append (List.singleton_sublist.2 hb)

/-- A turn queues at most one tail. -/
theorem again_length (l c : Strip) : (meet l c).again.length ≤ 1 := by
  rcases meet_cases l c with ⟨-, -, -, h⟩ | ⟨-, -, -, -, h⟩ | ⟨-, -, -, -, h⟩ <;> rw [h]
  · split <;> simp
  · simp
  · simp

/-! ## The last source holds its point -/

/-- **What holds as long as no tail has overtaken**: the last source still
has the point, no other strip containing it waits behind one of that
source with the same beginning, and every tail that waits is walled off
by a strip ending right before it. -/
structure Held (rows : List Strip) (x : ℤ) (m : ℕ) (s : State) : Prop where
  /-- The sources not read are the last ones of the table. -/
  rest : s.unread.IsSuffix rows
  /-- Sources not read come after every strip in play. -/
  later : ∀ p, s.last = some p ∨ p ∈ s.queue → ∀ r ∈ s.unread, p.src < r.src
  /-- The last source has the point. -/
  own : ∃ p, (p ∈ s.live ∨ p ∈ s.done) ∧ p.src = m ∧ p.Has x
  /-- A waiting strip is a whole source, or a strip ends right before it. -/
  wall : ∀ w ∈ s.queue, w ∈ rows ∨ ∀ l, s.last = some l → l.lo < w.lo →
    ∃ v, (v = l ∨ v ∈ s.queue) ∧ v.hi + 1 = w.lo
  /-- Nothing with the point waits behind the last source's strip and
  begins with it. -/
  order : ∀ a b, [a, b].Sublist s.queue → a.lo = b.lo → a.src = m → a.Has x → b.Has x →
    b.src = m
  /-- Nor behind the open strip, when that is the last source's. -/
  tie : ∀ l, s.last = some l → l.src = m → l.Has x → ∀ w ∈ s.queue, w.Has x → w.lo = l.lo →
    w.src = m

section Held

variable {rows : List Strip} {x : ℤ} {m : ℕ} {s t : State}

theorem held_start (hm : Top rows x m) : Held rows x m (State.start rows) where
  rest := List.suffix_rfl
  later p hp := by simp [State.start] at hp
  own := by
    obtain ⟨r, hr, hrm, hx⟩ := hm.mem
    exact ⟨r, Or.inl (mem_live.2 (Or.inr (by simpa [State.start] using hr))), hrm, hx⟩
  wall w hw := by simp [State.start] at hw
  order a b h := by simp [State.start] at h
  tie l hl := by simp [State.start] at hl

/-- What is taken is a waiting strip, or the next source. -/
theorem mem_queue_or_read {c : Strip} {q u : List Strip} (hn : s.next = some (c, q, u)) {p : Strip}
    (hp : p ∈ c :: q) : p ∈ s.queue ∨ ∃ rs, s.unread = p :: rs ∧ u = rs := by
  have hw := (mem_waiting_of_next hn).1 hp
  obtain rfl := (next_eq_some.1 hn).2
  rcases List.mem_append.1 hw with h | h
  · exact Or.inl h
  · rcases hu : s.unread with - | ⟨r, rs⟩
    · rw [hu] at h; simp at h
    · rw [hu] at h
      obtain rfl : p = r := by simpa using h
      exact Or.inr ⟨rs, rfl, rfl⟩

/-- A source read now, with a strip of the last source already in play,
does not contain the point. -/
theorem Held.read_not_has (hh : Held rows x m s) (hm : Top rows x m) {p r : Strip}
    {rs : List Strip} (hp : s.last = some p ∨ p ∈ s.queue) (hpm : p.src = m)
    (hr : s.unread = r :: rs) : ¬ r.Has x := by
  intro hx
  have hmem : r ∈ s.unread := by rw [hr]; simp
  have h1 := hh.later p hp r hmem
  have h2 := hm.le r (hh.rest.subset hmem) hx
  omega

/-- Among the strips a turn chooses from, none with the point follows the
last source's and begins with it. -/
theorem Held.order_taken (hh : Held rows x m s) (hm : Top rows x m) {c : Strip}
    {q u : List Strip} (hn : s.next = some (c, q, u)) {a b : Strip} (h : [a, b].Sublist (c :: q))
    (hab : a.lo = b.lo) (ha : a.src = m) (hax : a.Has x) (hbx : b.Has x) : b.src = m := by
  rcases pair_sublist_append (pair_sublist_waiting hn hab h) with h | ⟨h1, h2⟩ | h
  · exact hh.order a b h hab ha hax hbx
  · rcases hu : s.unread with - | ⟨r, rs⟩
    · rw [hu] at h2; simp at h2
    · rw [hu] at h2
      obtain rfl : b = r := by simpa using h2
      exact absurd hbx (hh.read_not_has hm (Or.inr h1) ha hu)
  · have hlen := h.length_le
    simp only [List.length_cons, List.length_nil, List.length_take] at hlen
    omega

/-- **The last source does not lose its point**: a newcomer containing it
that meets the last source's strip is that source's own. -/
theorem Held.newcomer (hi : Inv rows s) (hh : Held rows x m s) (hs : Sources rows)
    (hm : Top rows x m) {l c : Strip} {q u : List Strip} (hn : s.next = some (c, q, u))
    (hl : s.last = some l) (hlm : l.src = m) (hlx : l.Has x) (hcx : c.Has x) : c.src = m := by
  have hcq : c ∈ s.queue ++ s.unread := (mem_next hn).2 (Or.inl rfl)
  have hlc := hi.front l hl c hcq
  have hcv := hi.valid c (mem_live.2 (Or.inr hcq))
  rcases mem_queue_or_read hn (List.mem_cons_self (a := c)) with hq | ⟨rs, hu, -⟩
  swap
  · exact absurd hcx (hh.read_not_has hm (Or.inl hl) hlm hu)
  by_contra hne
  have hlt : l.lo < c.lo := by
    rcases eq_or_lt_of_le hlc with h | h
    · exact absurd (hh.tie l hl hlm hlx c hq hcx h.symm) hne
    · exact h
  rcases hh.wall c hq with hrow | hwall
  · -- a whole source: it was read before `m`, so it cannot begin behind its strip
    have hsrc : c.src < m := lt_of_le_of_ne (hm.le c hrow hcx) hne
    obtain ⟨r, hr, hcut⟩ := hi.cut l (Or.inl (mem_live.2 (Or.inl hl)))
    have := hs.lo_le hrow hr (by rw [← hcut.src, hlm]; exact hsrc)
    have := hcut.lo
    omega
  · -- a tail: the wall before it is the open strip, which then ends short of the point
    obtain ⟨v, hv, hvhi⟩ := hwall l hl hlt
    rcases hv with rfl | hv
    · have := hlx.2
      have := hcx.1
      omega
    · have hvv := hi.valid v (mem_live.2 (Or.inr (List.mem_append_left _ hv)))
      rcases (mem_next hn).1 (List.mem_append_left _ hv) with rfl | hv'
      · omega
      · have := next_front hi.sorted hn hv'
        omega

/-- The wall before a waiting tail survives the cut: whichever of the two
strips ended there, one of the pieces does. -/
theorem wall_met {l c w v : Strip} {q u : List Strip} (hn : s.next = some (c, q, u))
    (hcw : c.lo < w.lo) (hv : v = l ∨ v ∈ s.queue) (hvw : v.hi + 1 = w.lo) :
    ∃ v', (v' = (meet l c).keep ∨ v' ∈ q ++ (meet l c).again) ∧ v'.hi + 1 = w.lo := by
  rcases hv with rfl | hv
  · rcases meet_cases v c with ⟨h1, hk, -, ha⟩ | ⟨-, -, hk, -, -⟩ | ⟨-, h2, -⟩
    · by_cases heq : c.hi = v.hi
      · exact ⟨_, Or.inl rfl, by rw [hk, heq]; exact hvw⟩
      · refine ⟨{ v with lo := c.hi + 1 }, Or.inr (List.mem_append_right _ ?_), hvw⟩
        rw [ha, if_pos heq]
        simp
    · exact ⟨_, Or.inl rfl, by rw [hk]; exact hvw⟩
    · omega
  · have hmem : v ∈ c :: q := (mem_waiting_of_next hn).2 (List.mem_append_left _ hv)
    rcases List.mem_cons.1 hmem with rfl | hvq
    · rcases meet_cases l v with ⟨-, hk, -⟩ | ⟨-, -, -, -, ha⟩ | ⟨-, -, hk, -⟩
      · exact ⟨_, Or.inl rfl, by rw [hk]; exact hvw⟩
      · refine ⟨{ v with lo := l.hi + 1 }, Or.inr (List.mem_append_right _ ?_), hvw⟩
        rw [ha]
        simp
      · exact ⟨_, Or.inl rfl, by rw [hk]; exact hvw⟩
    · exact ⟨v, Or.inr (List.mem_append_left _ hvq), hvw⟩

theorem held_opened (hi : Inv rows s) (hh : Held rows x m s) (hs : Sources rows) {c : Strip}
    {q u : List Strip} (hn : s.next = some (c, q, u)) (hl : s.last = none) :
    Held rows x m (s.opened c q u) := by
  obtain ⟨hq0, hd0⟩ := hi.fresh hl
  -- with nothing waiting, the strip taken is the next source
  obtain ⟨rs, hu, rfl⟩ : ∃ rs, s.unread = c :: rs ∧ u = rs := by
    rcases mem_queue_or_read hn (List.mem_cons_self (a := c)) with h | h
    · rw [hq0] at h; simp at h
    · exact h
  have hqnil : q = [] := by
    have hlen := ((perm_sortQueue s.waiting).length_eq)
    rw [(next_eq_some.1 hn).1] at hlen
    simp only [State.waiting, hq0, hu, List.nil_append, List.take_succ_cons, List.take_zero,
      List.length_cons, List.length_nil] at hlen
    exact List.length_eq_zero_iff.1 (by omega)
  subst hqnil
  refine ⟨?_, ?_, ?_, by simp, by simp, by simp⟩
  · exact (List.suffix_cons c u).trans (hu ▸ hh.rest)
  · intro p hp r hr
    obtain rfl : c = p := by simpa using hp
    have hnum := hs.numbered.sublist hh.rest.sublist
    rw [hu, List.pairwise_cons] at hnum
    exact hnum.1 r hr
  · obtain ⟨p, hp, hpm, hpx⟩ := hh.own
    refine ⟨p, Or.inl ?_, hpm, hpx⟩
    rcases hp with hp | hp
    · rw [mem_live, hl, mem_next hn] at hp
      rw [mem_live]
      rcases hp with hp | rfl | hp
      · simp at hp
      · exact Or.inl rfl
      · exact Or.inr hp
    · rw [hd0] at hp; simp at hp

/-- The last source's point after a cut. -/
theorem own_met (hi : Inv rows s) (hh : Held rows x m s) (hs : Sources rows) (hm : Top rows x m)
    {l c : Strip} {q u : List Strip} (hn : s.next = some (c, q, u)) (hl : s.last = some l) :
    ∃ p, (p ∈ (s.met l c q u).live ∨ p ∈ (s.met l c q u).done) ∧ p.src = m ∧ p.Has x := by
  have hcq : c ∈ s.queue ++ s.unread := (mem_next hn).2 (Or.inl rfl)
  have hlc := hi.front l hl c hcq
  have hcv := hi.valid c (mem_live.2 (Or.inr hcq))
  have hnew : c.src = m → c.Has x →
      ∃ p, (p ∈ (s.met l c q u).live ∨ p ∈ (s.met l c q u).done) ∧ p.src = m ∧ p.Has x := by
    intro hcm hcx
    rcases meet_newcomer_keeps (l := l) hcx with h | ⟨p, hp, hcut, hpx⟩
    · exact ⟨_, Or.inl (mem_live_met.2 (Or.inl rfl)), by rw [(meet_keep_cutOf l c).src, hcm], h⟩
    · exact ⟨p, Or.inl (mem_live_met.2 (Or.inr (Or.inr hp))), by rw [hcut.src, hcm], hpx⟩
  obtain ⟨p, hp, hpm, hpx⟩ := hh.own
  rcases hp with hp | hp
  · rcases mem_live.1 hp with hlp | hp
    · obtain rfl : l = p := Option.some.inj (hl.symm.trans hlp)
      by_cases hcx : c.Has x
      · exact hnew (hh.newcomer hi hs hm hn hl hpm hpx hcx) hcx
      · rcases meet_open_keeps hlc hcv hpx hcx with
          ⟨-, p', hp', hcut, hx'⟩ | ⟨-, p', hp', hcut, hx'⟩
        · exact ⟨p', Or.inr (List.mem_append_right _ hp'), by rw [hcut.src, hpm], hx'⟩
        · exact ⟨p', Or.inl (mem_live_met.2 (Or.inr (Or.inr hp'))), by rw [hcut.src, hpm], hx'⟩
    · rcases (mem_next hn).1 hp with rfl | hp
      · exact hnew hpm hpx
      · exact ⟨p, Or.inl (mem_live_met.2 (Or.inr (Or.inl hp))), hpm, hpx⟩
  · exact ⟨p, Or.inr (List.mem_append_left _ hp), hpm, hpx⟩

/-- **A turn that does not overtake keeps the point held.** -/
theorem held_met (hi : Inv rows s) (hh : Held rows x m s) (hs : Sources rows) (hm : Top rows x m)
    (ho : ¬ s.Overtakes x m) {l c : Strip} {q u : List Strip} (hn : s.next = some (c, q, u))
    (hl : s.last = some l) : Held rows x m (s.met l c q u) := by
  have hcq : c ∈ s.queue ++ s.unread := (mem_next hn).2 (Or.inl rfl)
  have hlc := hi.front l hl c hcq
  have hcv := hi.valid c (mem_live.2 (Or.inr hcq))
  have hu := (next_eq_some.1 hn).2
  have hnum : s.unread.Pairwise fun a b => a.src < b.src := hs.numbered.sublist hh.rest.sublist
  refine ⟨?_, ?_, own_met hi hh hs hm hn hl, ?_, ?_, ?_⟩
  · exact (hu ▸ List.drop_suffix 1 s.unread).trans hh.rest
  · -- every piece comes from a strip that was in play, or from the source just read
    have hold : ∀ p, s.last = some p ∨ p ∈ c :: q → ∀ r ∈ u, p.src < r.src := by
      intro p hp r hr
      have hru : r ∈ s.unread := List.mem_of_mem_drop (hu ▸ hr)
      rcases hp with hp | hp
      · exact hh.later p (Or.inl hp) r hru
      · rcases mem_queue_or_read hn hp with h | ⟨rs, hun, rfl⟩
        · exact hh.later p (Or.inr h) r hru
        · rw [hun, List.pairwise_cons] at hnum
          exact hnum.1 r hr
    intro p hp r hr
    simp only [State.met_last, Option.some.injEq, State.met_queue, List.mem_append] at hp
    rcases hp with rfl | hp | hp
    · rw [(meet_keep_cutOf l c).src]
      exact hold c (Or.inr (List.mem_cons_self (a := c))) r hr
    · exact hold p (Or.inr (List.mem_cons_of_mem c hp)) r hr
    · rcases (of_mem_meet_again hlc hcv hp).1 with h | h
      · rw [h.src]; exact hold l (Or.inl hl) r hr
      · rw [h.src]; exact hold c (Or.inr (List.mem_cons_self (a := c))) r hr
  · -- a waiting strip keeps its wall; a tail that is queued has the newcomer for one
    intro w hw
    rcases List.mem_append.1 hw with hw | hw
    · rcases mem_queue_or_read hn (List.mem_cons_of_mem c hw) with hwq | ⟨rs, hun, -⟩
      · rcases hh.wall w hwq with hrow | hwall
        · exact Or.inl hrow
        · refine Or.inr fun l' hl' hlt => ?_
          obtain rfl := Option.some.inj hl'
          rw [meet_keep_lo] at hlt
          obtain ⟨v, hv, hvw⟩ := hwall l hl (lt_of_le_of_lt hlc hlt)
          exact wall_met hn hlt hv hvw
      · exact Or.inl (hh.rest.subset (by rw [hun]; simp))
    · refine Or.inr fun l' hl' _ => ?_
      obtain rfl := Option.some.inj hl'
      exact ⟨_, Or.inl rfl, (of_mem_meet_again hlc hcv hw).2.1.symm⟩
  · -- a pair in the wrong order would be made by this turn, which does not overtake
    intro a b hab hlo ham hax hbx
    rcases pair_sublist_append hab with h | ⟨h1, h2⟩ | h
    · exact hh.order_taken hm hn (h.trans (List.sublist_cons_self c q)) hlo ham hax hbx
    · by_contra hne
      exact ho ((overtakes_iff hl hn).2 ⟨b, h2, a, h1, hlo, hbx, hax, ham, hne⟩)
    · have := h.length_le
      have := again_length l c
      simp only [List.length_cons, List.length_nil] at *
      omega
  · intro l' hl' hlm hlx w hw hwx hwlo
    obtain rfl := Option.some.inj hl'
    rw [(meet_keep_cutOf l c).src] at hlm
    rw [meet_keep_lo] at hwlo
    rcases List.mem_append.1 hw with hw | hw
    · exact hh.order_taken hm hn ((List.singleton_sublist.2 hw).cons_cons c) hwlo.symm hlm
        ((meet_keep_cutOf l c).has hlx) hwx
    · have := (of_mem_meet_again hlc hcv hw).2.2.2.2
      omega

/-- As long as no turn overtakes, the last source holds its point. -/
theorem held_of_reaches (hs : Sources rows) (hm : Top rows x m)
    (ho : ∀ s, Reaches (State.start rows) s → ¬ s.Overtakes x m)
    (h : Reaches (State.start rows) t) : Held rows x m t := by
  have hi0 := inv_start hs.valid hs.sorted
  induction h with
  | refl => exact held_start hm
  | @tail a b hab hstep ih =>
    have hi := inv_of_reaches hi0 hab
    obtain ⟨c, q, u, hn, ⟨hl, rfl⟩ | ⟨l, hl, rfl⟩⟩ := step_cases hstep
    · exact held_opened hi ih hs hn hl
    · exact held_met hi ih hs hm (ho a hab) hn hl

end Held

/-! ## Once overtaken, the point is lost -/

/-- How many strips of source `m` contain `x`. -/
def State.holders (s : State) (x : ℤ) (m : ℕ) : ℕ :=
  (s.live ++ s.done).countP fun p => p.src = m ∧ p.Has x

/-- Strips that follow one another without a gap, from one point up to
another, among those that wait. -/
inductive Tiles (q : List Strip) : ℤ → ℤ → Prop
  /-- Nothing left to bridge. -/
  | nil {b : ℤ} : Tiles q b b
  /-- A waiting strip, then the rest behind it. -/
  | cons {t : Strip} {b : ℤ} : t ∈ q → t.lo ≤ t.hi → t.hi < b → Tiles q (t.hi + 1) b →
      Tiles q t.lo b

/-- Tiles survive as long as the strips beyond the first point do. -/
theorem Tiles.mono {q q' : List Strip} {a b : ℤ} (h : Tiles q a b)
    (hsub : ∀ t ∈ q, a ≤ t.lo → t ∈ q') : Tiles q' a b := by
  induction h with
  | nil => exact Tiles.nil
  | @cons t b ht hv hb _ ih =>
    exact Tiles.cons (hsub t ht le_rfl) hv hb (ih fun t' ht' hle => hsub t' ht' (by omega))

/-- **The pair an overtaking creates**, followed until the point changes
hands. A strip `p` of source `m` and one `w` of another both contain `x`,
and `p` is ahead: it waits in front with the same first point, or it is
open while `w` waits, or it waits further on while strips that come
before `w` bridge the gap, so that `w` will be cut back to where `p`
begins and arrive there second. -/
inductive Ahead (x : ℤ) (m : ℕ) (s : State) : Prop
  /-- Both wait, and begin together. -/
  | waits {p w : Strip} : [p, w].Sublist s.queue → p.lo = w.lo → p.src = m → w.src ≠ m →
      p.Has x → w.Has x → Ahead x m s
  /-- `p` is open, and `w` begins with it. -/
  | opens {p w : Strip} : s.last = some p → w ∈ s.queue → p.lo = w.lo → p.src = m → w.src ≠ m →
      p.Has x → w.Has x → Ahead x m s
  /-- The open strip begins with `w` and is the first tile of the bridge. -/
  | bridgeOpen {l p w : Strip} : s.last = some l → l.lo = w.lo → l.hi < p.lo → w ∈ s.queue →
      p ∈ s.queue → Tiles s.queue (l.hi + 1) p.lo → p.src = m → w.src ≠ m → p.Has x → w.Has x →
      Ahead x m s
  /-- The first tile of the bridge waits in front of `w`. -/
  | bridgeWaits {t p w : Strip} : [t, w].Sublist s.queue → t.lo = w.lo → t.lo ≤ t.hi →
      t.hi < p.lo → p ∈ s.queue → Tiles s.queue (t.hi + 1) p.lo → p.src = m → w.src ≠ m →
      p.Has x → w.Has x → Ahead x m s

section Ahead

variable {rows : List Strip} {x : ℤ} {m : ℕ} {s t : State}

/-- A piece cut off only when it is not empty counts as its points do. -/
theorem countP_cut {b : Prop} [Decidable b] {p : Strip} {x : ℤ} {m : ℕ} {P : Prop} [Decidable P]
    (hp : p.src = m ∧ p.Has x ↔ P) (hb : ¬ b → ¬ P) :
    (if b then [p] else []).countP (fun p => p.src = m ∧ p.Has x) = if P then 1 else 0 := by
  by_cases h : b
  · rw [if_pos h]
    simp only [List.countP_cons, List.countP_nil, decide_eq_true_eq, hp, zero_add]
  · rw [if_neg h, if_neg (hb h), List.countP_nil]

/-- **Who holds a point after a meeting**: the newcomer where it stands,
the open strip elsewhere, and each only once. -/
theorem countP_meet {l c : Strip} (hlc : l.lo ≤ c.lo) (hc : c.lo ≤ c.hi) (x : ℤ) (m : ℕ) :
    ((meet l c).keep :: ((meet l c).again ++ (meet l c).out)).countP
        (fun p => p.src = m ∧ p.Has x) =
      if c.Has x then (if c.src = m then 1 else 0)
      else (if l.src = m ∧ l.Has x then 1 else 0) := by
  rcases meet_cases l c with ⟨h1, hk, ho, ha⟩ | ⟨h1, h2, hk, ho, ha⟩ | ⟨h1, h2, hk, ho, ha⟩
  -- the newcomer lies inside the open strip, which keeps what is left and right of it
  · have hl : (meet l c).out.countP (fun p => p.src = m ∧ p.Has x) =
        if l.src = m ∧ l.lo ≤ x ∧ x < c.lo then 1 else 0 := by
      rw [ho]
      exact countP_cut (by simp only [Strip.Has]; omega) (by omega)
    have hr : (meet l c).again.countP (fun p => p.src = m ∧ p.Has x) =
        if l.src = m ∧ c.hi < x ∧ x ≤ l.hi then 1 else 0 := by
      rw [ha]
      exact countP_cut (by simp only [Strip.Has]; omega) (by omega)
    rw [List.countP_cons, List.countP_append, hl, hr, hk]
    simp only [Strip.Has]
    grind
  -- the newcomer reaches further: what is beyond the open strip waits again
  · have hl : (meet l c).out.countP (fun p => p.src = m ∧ p.Has x) =
        if l.src = m ∧ l.lo ≤ x ∧ x < c.lo then 1 else 0 := by
      rw [ho]
      exact countP_cut (by simp only [Strip.Has]; omega) (by omega)
    rw [List.countP_cons, List.countP_append, hl, hk, ha]
    simp only [Strip.Has, List.countP_cons, List.countP_nil]
    grind
  -- they do not meet
  · rw [hk, ho, ha]
    simp only [Strip.Has, List.nil_append, List.countP_cons, List.countP_nil]
    grind

/-- So a meeting makes no new holder, and a newcomer takes the point from
the open strip. -/
theorem holders_meet {l c : Strip} (hlc : l.lo ≤ c.lo) (hc : c.lo ≤ c.hi) (x : ℤ) (m : ℕ) :
    ((meet l c).keep :: ((meet l c).again ++ (meet l c).out)).countP
        (fun p => p.src = m ∧ p.Has x) ≤ [l, c].countP (fun p => p.src = m ∧ p.Has x) ∧
      (l.src = m → l.Has x → c.src ≠ m → c.Has x →
        ((meet l c).keep :: ((meet l c).again ++ (meet l c).out)).countP
          (fun p => p.src = m ∧ p.Has x) = 0) := by
  rw [countP_meet hlc hc]
  refine ⟨?_, fun _ _ hne hcx => by rw [if_pos hcx, if_neg hne]⟩
  simp only [List.countP_cons, List.countP_nil, decide_eq_true_eq]
  by_cases hcx : c.Has x
  · rw [if_pos hcx]
    split_ifs <;> simp_all
  · rw [if_neg hcx]
    omega

/-- A turn opens a strip without changing who holds what. -/
theorem holders_opened {c : Strip} {q u : List Strip} (hn : s.next = some (c, q, u))
    (hl : s.last = none) : (s.opened c q u).holders x m = s.holders x m := by
  have hperm := (perm_next hn).countP_eq fun p => decide (p.src = m ∧ p.Has x)
  simp only [State.holders, State.live, State.opened, hl, List.countP_append, Option.toList_some,
    Option.toList_none, List.countP_nil, List.countP_cons] at hperm ⊢
  omega

/-- The holders before and after a cut, apart from the two strips that met. -/
theorem holders_met {l c : Strip} {q u : List Strip} (hn : s.next = some (c, q, u))
    (hl : s.last = some l) :
    ∃ k, s.holders x m = [l, c].countP (fun p => p.src = m ∧ p.Has x) + k ∧
      (s.met l c q u).holders x m =
        ((meet l c).keep :: ((meet l c).again ++ (meet l c).out)).countP
          (fun p => p.src = m ∧ p.Has x) + k := by
  refine ⟨(q ++ u ++ s.done).countP fun p => p.src = m ∧ p.Has x, ?_, ?_⟩
  · have hperm := (perm_next hn).countP_eq fun p => decide (p.src = m ∧ p.Has x)
    simp only [State.holders, State.live, hl, List.countP_append, Option.toList_some,
      List.countP_nil, List.countP_cons] at hperm ⊢
    omega
  · simp only [State.holders, State.live, State.met, List.countP_append, Option.toList_some,
      List.countP_nil, List.countP_cons]
    omega

/-- **No turn makes another holder.** -/
theorem holders_step (hi : Inv rows s) (h : s.step = some t) : t.holders x m ≤ s.holders x m := by
  obtain ⟨c, q, u, hn, ⟨hl, rfl⟩ | ⟨l, hl, rfl⟩⟩ := step_cases h
  · exact (holders_opened hn hl).le
  · have hcq : c ∈ s.queue ++ s.unread := (mem_next hn).2 (Or.inl rfl)
    obtain ⟨k, hs, ht⟩ := holders_met (x := x) (m := m) hn hl
    have := (holders_meet (hi.front l hl c hcq) (hi.valid c (mem_live.2 (Or.inr hcq))) x m).1
    omega

/-- Sources are numbered apart, so at most one holds the point at first. -/
theorem holders_start (hs : Sources rows) : (State.start rows).holders x m ≤ 1 := by
  have hcount : ∀ l : List Strip, l.Pairwise (fun a b => a.src < b.src) →
      l.countP (fun p => p.src = m ∧ p.Has x) ≤ 1 := by
    intro l
    induction l with
    | nil => intro _; simp
    | cons a l ih =>
      intro hp
      rw [List.pairwise_cons] at hp
      rw [List.countP_cons]
      split
      · next ha =>
        have hzero : l.countP (fun p => p.src = m ∧ p.Has x) = 0 := by
          rw [List.countP_eq_zero]
          intro b hb hbm
          have := hp.1 b hb
          simp only [decide_eq_true_eq] at ha hbm
          omega
        omega
      · exact ih hp.2
  simpa [State.holders, State.live, State.start] using hcount rows hs.numbered

/-- The event makes a pair. -/
theorem ahead_of_overtakes {l c : Strip} {q u : List Strip} (hn : s.next = some (c, q, u))
    (hl : s.last = some l) (h : s.Overtakes x m) : Ahead x m (s.met l c q u) := by
  obtain ⟨r, hr, w, hw, hlo, hrx, hwx, hwm, hrm⟩ := (overtakes_iff hl hn).1 h
  exact Ahead.waits (pair_sublist_append_of_mem hw hr) hlo hwm hrm hwx hrx

/-- A strip beginning behind the one taken keeps waiting. -/
theorem mem_queue_of_lt {c p : Strip} {q u : List Strip} (hn : s.next = some (c, q, u))
    (hp : p ∈ s.queue) (hlt : c.lo < p.lo) : p ∈ q := by
  have hmem : p ∈ c :: q := (mem_waiting_of_next hn).2 (List.mem_append_left _ hp)
  rcases List.mem_cons.1 hmem with rfl | h
  · omega
  · exact h

/-- Nothing taken begins behind a strip that waits. -/
theorem taken_lo_le {c p : Strip} {q u : List Strip} (hn : s.next = some (c, q, u))
    (hp : p ∈ s.queue) : c.lo ≤ p.lo := by
  have hmem : p ∈ c :: q := (mem_waiting_of_next hn).2 (List.mem_append_left _ hp)
  rcases List.mem_cons.1 hmem with rfl | h
  · exact le_rfl
  · exact next_lo_le hn h

/-- Tiles behind the strip taken stay in place. -/
theorem Tiles.met {c : Strip} {q u e : List Strip} {a b : ℤ} (h : Tiles s.queue a b)
    (hn : s.next = some (c, q, u)) (hlt : c.lo < a) : Tiles (q ++ e) a b :=
  h.mono fun _ ht hle => List.mem_append_left _ (mem_queue_of_lt hn ht (by omega))

section Pair

variable {l c p w : Strip} {q u : List Strip}

/-- The front strip of a waiting pair is taken: it opens, or is cut and
waits again behind the strip that cut it. -/
theorem ahead_taken (hlo : c.lo = w.lo) (hw : w ∈ q)
    (hcm : c.src = m) (hwm : w.src ≠ m) (hcx : c.Has x) (hwx : w.Has x) (hlc : l.lo ≤ c.lo)
    (hcv : c.lo ≤ c.hi) : Ahead x m (s.met l c q u) := by
  rcases meet_newcomer_keeps (l := l) hcx with h | ⟨p, hp, hcut, hpx⟩
  · refine Ahead.opens (p := (meet l c).keep) (w := w) rfl (List.mem_append_left _ hw) ?_ ?_ hwm h
      hwx
    · rw [meet_keep_lo, hlo]
    · rw [(meet_keep_cutOf l c).src, hcm]
  · have hplo := (of_mem_meet_again hlc hcv hp).2.1
    refine Ahead.bridgeOpen (l := (meet l c).keep) (p := p) (w := w) rfl ?_ (by omega)
      (List.mem_append_left _ hw) (List.mem_append_right _ hp) ?_ ?_ hwm hpx hwx
    · rw [meet_keep_lo, hlo]
    · rw [← hplo]; exact Tiles.nil
    · rw [hcut.src, hcm]

/-- The open strip of source `m` meets a newcomer that begins with it and
does not take the point. -/
theorem ahead_opens_met (hlo : l.lo = w.lo) (hcl : c.lo = l.lo)
    (hw : w ∈ q) (hlm : l.src = m) (hwm : w.src ≠ m) (hlx : l.Has x) (hwx : w.Has x)
    (hcx : ¬ c.Has x) (hcv : c.lo ≤ c.hi) : Ahead x m (s.met l c q u) := by
  rcases meet_open_keeps (le_of_eq hcl.symm) hcv hlx hcx with ⟨hlt, -⟩ | ⟨-, p, hp, hcut, hpx⟩
  · have := hlx.1
    omega
  · have hplo := (of_mem_meet_again (le_of_eq hcl.symm) hcv hp).2.1
    refine Ahead.bridgeOpen (l := (meet l c).keep) (p := p) (w := w) rfl ?_ (by omega)
      (List.mem_append_left _ hw) (List.mem_append_right _ hp) ?_ ?_ hwm hpx hwx
    · rw [meet_keep_lo, hcl, hlo]
    · rw [← hplo]; exact Tiles.nil
    · rw [hcut.src, hlm]

/-- A newcomer that begins with the open strip leaves a bridge from the
new open strip to wherever the old one led. -/
theorem tiles_met {b : ℤ} (hn : s.next = some (c, q, u)) (hcl : c.lo = l.lo) (hlv : l.lo ≤ l.hi)
    (hlb : l.hi < b) (ht : Tiles s.queue (l.hi + 1) b) :
    (meet l c).keep.hi ≤ l.hi ∧ Tiles (q ++ (meet l c).again) ((meet l c).keep.hi + 1) b := by
  have hrest : Tiles (q ++ (meet l c).again) (l.hi + 1) b := ht.met hn (by omega)
  rcases meet_cases l c with ⟨h1, hk, -, ha⟩ | ⟨-, -, hk, -, -⟩ | ⟨-, h2, -⟩
  · rw [hk]
    refine ⟨h1, ?_⟩
    by_cases heq : c.hi = l.hi
    · rw [heq]; exact hrest
    · have hmem : ({ l with lo := c.hi + 1 } : Strip) ∈ q ++ (meet l c).again := by
        rw [ha, if_pos heq]; simp
      exact Tiles.cons (t := { l with lo := c.hi + 1 }) hmem (by simp only; omega) hlb hrest
  · rw [hk]
    exact ⟨le_rfl, hrest⟩
  · omega

/-- The bridge whose first tile is the open strip. -/
theorem ahead_bridgeOpen (hi : Inv rows s) (hn : s.next = some (c, q, u)) (hl : s.last = some l)
    (hlw : l.lo = w.lo) (hlp : l.hi < p.lo) (hw : w ∈ s.queue) (hp : p ∈ s.queue)
    (ht : Tiles s.queue (l.hi + 1) p.lo) (hpm : p.src = m) (hwm : w.src ≠ m) (hpx : p.Has x)
    (hwx : w.Has x) : Ahead x m (s.met l c q u) := by
  have hcq : c ∈ s.queue ++ s.unread := (mem_next hn).2 (Or.inl rfl)
  have hlv := hi.valid l (mem_live.2 (Or.inl hl))
  have hcv := hi.valid c (mem_live.2 (Or.inr hcq))
  have hcl : c.lo = l.lo := by
    have := hi.front l hl c hcq
    have := taken_lo_le hn hw
    omega
  have hpq : p ∈ q := mem_queue_of_lt hn hp (by omega)
  obtain ⟨hk, htiles⟩ := tiles_met hn hcl hlv hlp ht
  have hwmem : w ∈ c :: q := (mem_waiting_of_next hn).2 (List.mem_append_left _ hw)
  rcases List.mem_cons.1 hwmem with rfl | hwq
  · -- `w` is cut back to where the bridge goes on, and arrives behind its next tile
    have hlt : l.hi < w.hi := lt_of_lt_of_le hlp (hpx.1.trans hwx.2)
    rcases meet_cases l w with ⟨h1, -⟩ | ⟨-, -, -, -, ha⟩ | ⟨-, h2, -⟩
    · omega
    · have hmem : ({ w with lo := l.hi + 1 } : Strip) ∈ (meet l w).again := by rw [ha]; simp
      have hwx' : ({ w with lo := l.hi + 1 } : Strip).Has x :=
        ⟨by have := hpx.1; simp only; omega, hwx.2⟩
      generalize hb : l.hi + 1 = b at ht
      cases ht with
      | nil =>
        exact Ahead.waits (pair_sublist_append_of_mem hpq hmem) hb.symm hpm hwm hpx hwx'
      | @cons t b' htq htv hb' hrest =>
        have htq' : t ∈ q := mem_queue_of_lt hn htq (by omega)
        exact Ahead.bridgeWaits (pair_sublist_append_of_mem htq' hmem) hb.symm htv hb'
          (List.mem_append_left _ hpq) (hrest.met hn (by omega)) hpm hwm hpx hwx'
    · omega
  · exact Ahead.bridgeOpen rfl (by rw [meet_keep_lo, hcl, hlw]) (by omega)
      (List.mem_append_left _ hwq) (List.mem_append_left _ hpq) htiles hpm hwm hpx hwx

/-- The bridge whose first tile waits in front of `w`. -/
theorem ahead_bridgeWaits {t : Strip} (hn : s.next = some (c, q, u))
    (htw : [t, w].Sublist s.queue) (hlo : t.lo = w.lo) (htv : t.lo ≤ t.hi) (htp : t.hi < p.lo)
    (hp : p ∈ s.queue) (ht : Tiles s.queue (t.hi + 1) p.lo) (hpm : p.src = m) (hwm : w.src ≠ m)
    (hpx : p.Has x) (hwx : w.Has x) : Ahead x m (s.met l c q u) := by
  have hct : c.lo ≤ t.lo := taken_lo_le hn (htw.subset (by simp))
  have hpq : p ∈ q := mem_queue_of_lt hn hp (by omega)
  have hrest : Tiles (q ++ (meet l c).again) (t.hi + 1) p.lo := ht.met hn (by omega)
  cases pair_sublist_taken hn hlo htw with
  | cons _ h =>
    exact Ahead.bridgeWaits (h.trans (List.sublist_append_left _ _)) hlo htv htp
      (List.mem_append_left _ hpq) hrest hpm hwm hpx hwx
  | cons_cons _ h =>
    -- the tile itself is taken, and the open strip cuts it in two or opens it whole
    have hwq : w ∈ q := h.subset (by simp)
    refine Ahead.bridgeOpen (l := (meet l c).keep) (p := p) (w := w) rfl
      (by rw [meet_keep_lo, hlo]) ?_ (List.mem_append_left _ hwq) (List.mem_append_left _ hpq) ?_
      hpm hwm hpx hwx
    · exact lt_of_le_of_lt (meet_keep_cutOf l c).hi htp
    · rcases meet_cases l c with ⟨-, hk, -⟩ | ⟨h1, h2, hk, -, ha⟩ | ⟨-, -, hk, -⟩
      · rw [hk]; exact hrest
      · rw [hk]
        have hmem : ({ c with lo := l.hi + 1 } : Strip) ∈ q ++ (meet l c).again := by
          rw [ha]; simp
        exact Tiles.cons (t := { c with lo := l.hi + 1 }) hmem (by simp only; omega) htp hrest
      · rw [hk]; exact hrest

/-- **A turn follows the pair, or takes the point from source `m`.** -/
theorem ahead_met (hi : Inv rows s) (h1 : s.holders x m ≤ 1) (ha : Ahead x m s)
    (hn : s.next = some (c, q, u)) (hl : s.last = some l) :
    Ahead x m (s.met l c q u) ∨ (s.met l c q u).holders x m = 0 := by
  have hcq : c ∈ s.queue ++ s.unread := (mem_next hn).2 (Or.inl rfl)
  have hlc := hi.front l hl c hcq
  have hcv := hi.valid c (mem_live.2 (Or.inr hcq))
  cases ha with
  | @waits p w hpw hlo hpm hwm hpx hwx =>
    cases pair_sublist_taken hn hlo hpw with
    | cons _ h =>
      exact Or.inl (Ahead.waits (h.trans (List.sublist_append_left _ _)) hlo hpm hwm hpx hwx)
    | cons_cons _ h =>
      exact Or.inl (ahead_taken hlo (h.subset (by simp)) hpm hwm hpx hwx hlc hcv)
  | @opens p w hp hw hlo hpm hwm hpx hwx =>
    obtain rfl : l = p := Option.some.inj (hl.symm.trans hp)
    have hcl : c.lo = l.lo := by
      have := taken_lo_le hn hw
      omega
    obtain ⟨k, hs, ht⟩ := holders_met (x := x) (m := m) hn hl
    obtain ⟨hle, hzero⟩ := holders_meet (l := l) (c := c) hlc hcv x m
    by_cases hcx : c.Has x
    · right
      by_cases hcm : c.src = m
      · -- two strips of one source cannot both hold the point
        simp [hpm, hpx, hcm, hcx] at hs
        omega
      · have := hzero hpm hpx hcm hcx
        simp [hpm, hpx, hcm] at hs
        omega
    · have hwmem : w ∈ c :: q := (mem_waiting_of_next hn).2 (List.mem_append_left _ hw)
      rcases List.mem_cons.1 hwmem with rfl | hwq
      · exact absurd hwx hcx
      · exact Or.inl (ahead_opens_met hlo hcl hwq hpm hwm hpx hwx hcx hcv)
  | bridgeOpen hl' hlw hlp hw hp ht hpm hwm hpx hwx =>
    obtain rfl := Option.some.inj (hl.symm.trans hl')
    exact Or.inl (ahead_bridgeOpen hi hn hl hlw hlp hw hp ht hpm hwm hpx hwx)
  | bridgeWaits htw hlo htv htp hp ht hpm hwm hpx hwx =>
    exact Or.inl (ahead_bridgeWaits hn htw hlo htv htp hp ht hpm hwm hpx hwx)

end Pair

/-- From the pair on, source `m` is ahead or has lost the point. -/
theorem ahead_of_reaches (hi : Inv rows s) (h1 : s.holders x m ≤ 1)
    (ha : Ahead x m s ∨ s.holders x m = 0) (h : Reaches s t) :
    Ahead x m t ∨ t.holders x m = 0 := by
  have hall : Inv rows t ∧ t.holders x m ≤ 1 ∧ (Ahead x m t ∨ t.holders x m = 0) := by
    refine h.invariant
      (I := fun t => Inv rows t ∧ t.holders x m ≤ 1 ∧ (Ahead x m t ∨ t.holders x m = 0))
      ⟨hi, h1, ha⟩ ?_
    rintro a b ⟨hia, h1a, haa⟩ hstep
    have hle := holders_step (x := x) (m := m) hia hstep
    refine ⟨inv_step hia hstep, hle.trans h1a, ?_⟩
    rcases haa with haa | h0
    · obtain ⟨c, q, u, hn, ⟨hl, rfl⟩ | ⟨l, hl, rfl⟩⟩ := step_cases hstep
      · -- nothing waits before the first turn, so there is no pair yet
        have hq := (hia.fresh hl).1
        cases haa with
        | waits h => rw [hq] at h; simp at h
        | opens h => rw [hl] at h; simp at h
        | bridgeOpen h => rw [hl] at h; simp at h
        | bridgeWaits h => rw [hq] at h; simp at h
      · exact ahead_met hia h1a haa hn hl
    · exact Or.inr (by omega)
  exact hall.2.2

/-- A state the sweep passes through lies before the one it stops in. -/
theorem reaches_stopped {a : State} (hs : Reaches a s) (ht : Reaches a t) (hstop : t.step = none) :
    Reaches s t := by
  induction hs using Relation.ReflTransGen.head_induction_on with
  | refl => exact ht
  | head hab _ ih =>
    rcases Relation.ReflTransGen.cases_head ht with rfl | ⟨b', hab', hrest⟩
    · rw [hstop] at hab; simp at hab
    · obtain rfl := Option.some.inj (hab.symm.trans hab')
      exact ih hrest

/-- **A source that is overtaken at a point loses it.** -/
theorem holders_eq_zero_of_overtakes (hs : Sources rows) (hreach : Reaches (State.start rows) s)
    (ho : s.Overtakes x m) (ht : Reaches (State.start rows) t) (hstop : t.step = none) :
    t.holders x m = 0 := by
  have hi0 := inv_start hs.valid hs.sorted
  obtain ⟨his, hone⟩ :=
    hreach.invariant (I := fun s => Inv rows s ∧ s.holders x m ≤ 1) ⟨hi0, holders_start hs⟩
      fun a b hab hstep => ⟨inv_step hab.1 hstep, (holders_step hab.1 hstep).trans hab.2⟩
  obtain ⟨l, c, q, u, hl, hn⟩ := ho.cases
  have hstep : s.step = some (s.met l c q u) := by simp [State.step, hn, hl]
  have hrest : Reaches (s.met l c q u) t := by
    rcases Relation.ReflTransGen.cases_head (reaches_stopped hreach ht hstop) with
      rfl | ⟨b, hb, hrest⟩
    · rw [hstop] at hstep; simp at hstep
    · obtain rfl := Option.some.inj (hstep.symm.trans hb)
      exact hrest
  -- the turn that overtakes makes the pair, and at the end nothing waits
  have hq := (step_eq_none.1 hstop).1
  rcases ahead_of_reaches (inv_step his hstep) ((holders_step his hstep).trans hone)
    (Or.inl (ahead_of_overtakes hn hl ho)) hrest with ha | h0
  · cases ha with
    | waits h => rw [hq] at h; simp at h
    | opens _ h => rw [hq] at h; simp at h
    | bridgeOpen _ _ _ h => rw [hq] at h; simp at h
    | bridgeWaits h => rw [hq] at h; simp at h
  · exact h0

end Ahead

/-- The delivered strips are disjoint, so one at most contains a point. -/
theorem eq_of_mem_result {rows : List Strip} {t : State} (hi : Inv rows t) (hstop : t.step = none)
    {p p' : Strip} (hp : p ∈ t.result) (hp' : p' ∈ t.result) {x : ℤ} (hpx : p.Has x)
    (hpx' : p'.Has x) : p = p' := by
  obtain ⟨hp1, hp2⟩ := hpx
  obtain ⟨hp1', hp2'⟩ := hpx'
  refine Lists.eq_of_pairwise (result_of_stopped hi hstop).1 hp hp' ?_ ?_
  · intro hlt
    omega
  · intro hlt
    omega

/-- **Whose strip a point ends in.** The last source containing a point
ends up with it exactly when no turn overtakes it there. -/
theorem result_src_iff {rows : List Strip} {x : ℤ} {m : ℕ} {t : State} (hs : Sources rows)
    (hm : Top rows x m) (ht : Reaches (State.start rows) t) (hstop : t.step = none) :
    (∀ p ∈ t.result, p.Has x → p.src = m) ↔
      ∀ s, Reaches (State.start rows) s → ¬ s.Overtakes x m := by
  have hi := inv_of_reaches (inv_start hs.valid hs.sorted) ht
  obtain ⟨hq, hu⟩ := step_eq_none.1 hstop
  constructor
  · intro hwin s hreach ho
    have hzero := holders_eq_zero_of_overtakes hs hreach ho ht hstop
    obtain ⟨r, hr, -, hrx⟩ := hm.mem
    obtain ⟨p, hp, hpx⟩ := ((result_of_stopped hi hstop).2.2.2 x).2 ⟨r, hr, hrx⟩
    have hnone := List.countP_eq_zero.1 hzero p (by
      simp only [State.result, State.live, List.mem_append] at hp ⊢
      tauto)
    exact hnone (by simp only [decide_eq_true_eq]; exact ⟨hwin p hp hpx, hpx⟩)
  · intro ho p hp hpx
    obtain ⟨p', hp', hpm, hpx'⟩ := (held_of_reaches hs hm ho ht).own
    have hmem : p' ∈ t.result := by
      simp only [State.live, hq, hu, List.append_nil] at hp'
      simp only [State.result, List.mem_append]
      tauto
    obtain rfl := eq_of_mem_result hi hstop hp hmem hpx hpx'
    exact hpm

end Sweep

end Xpod
