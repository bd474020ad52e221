import Mathlib.Data.List.Sort
import Mathlib.Logic.Relation
import Mathlib.Tactic
/-!
# Sweeping overlapping ranges, one at a time

A strip is a closed range of integers cut from a numbered source. The
sweep keeps one open strip, a queue of strips waiting for their turn and
the sources not read yet; it reads one source a turn, takes the waiting
strip that begins first, and lets it cut the open strip. What the open
strip loses behind the newcomer goes back to the queue, what it keeps in
front is finished. `meet` is that cut, `next` the turn, `step` the two
together.

Nothing here names a program: the strips carry no data beyond their
bounds and the number of the source they come from.
-/

namespace Xpod

namespace Sweep

/-- A closed range of integers, and the number of the source it is cut from. -/
structure Strip where
  lo : ℤ
  hi : ℤ
  src : ℕ
deriving DecidableEq, Repr

namespace Strip

/-- The strip contains the point. -/
def Has (p : Strip) (x : ℤ) : Prop := p.lo ≤ x ∧ x ≤ p.hi

instance (p : Strip) (x : ℤ) : Decidable (p.Has x) := inferInstanceAs (Decidable (_ ∧ _))

/-- One strip lies within another, and both come from the same source. -/
structure CutOf (p r : Strip) : Prop where
  src : p.src = r.src
  lo : r.lo ≤ p.lo
  hi : p.hi ≤ r.hi

theorem CutOf.refl (p : Strip) : p.CutOf p := ⟨rfl, le_rfl, le_rfl⟩

theorem CutOf.trans {p q r : Strip} (h : p.CutOf q) (h' : q.CutOf r) : p.CutOf r :=
  ⟨h.src.trans h'.src, h'.lo.trans h.lo, h.hi.trans h'.hi⟩

theorem CutOf.has {p r : Strip} (h : p.CutOf r) {x : ℤ} (hx : p.Has x) : r.Has x :=
  ⟨h.lo.trans hx.1, hx.2.trans h.hi⟩

/-- How many points a strip contains. -/
def size (p : Strip) : ℕ := (p.hi - p.lo + 1).toNat

end Strip

/-! ## The cut -/

/-- What becomes of an open strip and the newcomer that reaches it: the
strips that are finished, the new open strip, and what goes back to the
queue. -/
structure Meet where
  out : List Strip
  keep : Strip
  again : List Strip

/-- The newcomer takes its range from the open strip. Where it ends
inside the open strip, the open strip's tail goes back to the queue;
where it reaches past, its own tail does. -/
def meet (l c : Strip) : Meet :=
  if c.hi ≤ l.hi then
    { out := if c.lo ≠ l.lo then [{ l with hi := c.lo - 1 }] else []
      keep := c
      again := if c.hi ≠ l.hi then [{ l with lo := c.hi + 1 }] else [] }
  else if c.lo ≤ l.hi then
    { out := if c.lo ≠ l.lo then [{ l with hi := c.lo - 1 }] else []
      keep := { c with hi := l.hi }
      again := [{ c with lo := l.hi + 1 }] }
  else
    { out := [l], keep := c, again := [] }

/-- **The three shapes of a cut.** The newcomer ends within the open
strip, or begins within it and ends past it, or lies wholly behind it. -/
theorem meet_cases (l c : Strip) :
    (c.hi ≤ l.hi ∧ (meet l c).keep = c ∧
      (meet l c).out = (if c.lo ≠ l.lo then [{ l with hi := c.lo - 1 }] else []) ∧
      (meet l c).again = (if c.hi ≠ l.hi then [{ l with lo := c.hi + 1 }] else [])) ∨
    (l.hi < c.hi ∧ c.lo ≤ l.hi ∧ (meet l c).keep = { c with hi := l.hi } ∧
      (meet l c).out = (if c.lo ≠ l.lo then [{ l with hi := c.lo - 1 }] else []) ∧
      (meet l c).again = [{ c with lo := l.hi + 1 }]) ∨
    (l.hi < c.hi ∧ l.hi < c.lo ∧ (meet l c).keep = c ∧ (meet l c).out = [l] ∧
      (meet l c).again = []) := by
  unfold meet
  by_cases h1 : c.hi ≤ l.hi
  · rw [if_pos h1]
    exact Or.inl ⟨h1, rfl, rfl, rfl⟩
  · rw [if_neg h1]
    by_cases h2 : c.lo ≤ l.hi
    · rw [if_pos h2]
      exact Or.inr (Or.inl ⟨not_le.1 h1, h2, rfl, rfl, rfl⟩)
    · rw [if_neg h2]
      exact Or.inr (Or.inr ⟨not_le.1 h1, not_le.1 h2, rfl, rfl, rfl⟩)

section Meet

variable {l c p : Strip} {x : ℤ}

/-- The new open strip begins where the newcomer does. -/
@[simp] theorem meet_keep_lo (l c : Strip) : (meet l c).keep.lo = c.lo := by
  rcases meet_cases l c with ⟨-, h, -⟩ | ⟨-, -, h, -⟩ | ⟨-, -, h, -⟩ <;> rw [h]

/-- The new open strip is cut from the newcomer. -/
theorem meet_keep_cutOf (l c : Strip) : (meet l c).keep.CutOf c := by
  rcases meet_cases l c with ⟨-, h, -⟩ | ⟨h1, -, h, -⟩ | ⟨-, -, h, -⟩ <;> rw [h]
  · exact Strip.CutOf.refl c
  · exact ⟨rfl, le_rfl, h1.le⟩
  · exact Strip.CutOf.refl c

/-- The new open strip is not empty. -/
theorem meet_keep_valid (hc : c.lo ≤ c.hi) : (meet l c).keep.lo ≤ (meet l c).keep.hi := by
  rcases meet_cases l c with ⟨-, h, -⟩ | ⟨-, h2, h, -⟩ | ⟨-, -, h, -⟩ <;> rw [h]
  · exact hc
  · exact h2
  · exact hc

/-- What is finished is the front of the open strip: it ends before the
newcomer begins. -/
theorem of_mem_meet_out (hl : l.lo ≤ l.hi) (hlc : l.lo ≤ c.lo) (hc : c.lo ≤ c.hi)
    (hp : p ∈ (meet l c).out) : p.CutOf l ∧ p.lo = l.lo ∧ p.lo ≤ p.hi ∧ p.hi < c.lo := by
  rcases meet_cases l c with ⟨h1, -, h, -⟩ | ⟨h1, h2, -, h, -⟩ | ⟨h1, h2, -, h, -⟩
  · rw [h] at hp
    split at hp
    · obtain rfl := List.mem_singleton.1 hp
      exact ⟨⟨rfl, le_rfl, by simp only; omega⟩, rfl, by simp only; omega, by simp only; omega⟩
    · simp at hp
  · rw [h] at hp
    split at hp
    · obtain rfl := List.mem_singleton.1 hp
      exact ⟨⟨rfl, le_rfl, by simp only; omega⟩, rfl, by simp only; omega, by simp only; omega⟩
    · simp at hp
  · rw [h] at hp
    obtain rfl := List.mem_singleton.1 hp
    exact ⟨Strip.CutOf.refl p, rfl, hl, h2⟩

/-- What goes back to the queue is a tail of the open strip or of the
newcomer, and begins right behind the new open strip. -/
theorem of_mem_meet_again (hlc : l.lo ≤ c.lo) (hc : c.lo ≤ c.hi) (hp : p ∈ (meet l c).again) :
    (p.CutOf l ∨ p.CutOf c) ∧ p.lo = (meet l c).keep.hi + 1 ∧ p.lo ≤ p.hi ∧ l.lo < p.lo ∧
      c.lo < p.lo := by
  rcases meet_cases l c with ⟨h1, hk, -, h⟩ | ⟨h1, h2, hk, -, h⟩ | ⟨h1, h2, -, -, h⟩
  · rw [h] at hp
    split at hp
    · obtain rfl := List.mem_singleton.1 hp
      refine ⟨Or.inl ⟨rfl, ?_, le_rfl⟩, by rw [hk], ?_, ?_, ?_⟩ <;> simp only <;> omega
    · simp at hp
  · rw [h] at hp
    obtain rfl := List.mem_singleton.1 hp
    refine ⟨Or.inr ⟨rfl, ?_, le_rfl⟩, by rw [hk], ?_, ?_, ?_⟩ <;> simp only <;> omega
  · rw [h] at hp
    simp at hp

/-- **The newcomer keeps every point it has**, in the new open strip or in
its own tail. -/
theorem meet_newcomer_keeps (hx : c.Has x) :
    ((meet l c).keep.Has x) ∨ ∃ p ∈ (meet l c).again, p.CutOf c ∧ p.Has x := by
  obtain ⟨hx1, hx2⟩ := hx
  rcases meet_cases l c with ⟨-, hk, -⟩ | ⟨h1, h2, hk, -, h⟩ | ⟨-, -, hk, -⟩
  · exact Or.inl (by rw [hk]; exact ⟨hx1, hx2⟩)
  · rcases le_or_gt x l.hi with hxl | hxl
    · exact Or.inl (by rw [hk]; exact ⟨hx1, hxl⟩)
    · refine Or.inr ⟨{ c with lo := l.hi + 1 }, by rw [h]; exact List.mem_singleton.2 rfl,
        ⟨rfl, ?_, le_rfl⟩, ?_, hx2⟩ <;> simp only <;> omega
  · exact Or.inl (by rw [hk]; exact ⟨hx1, hx2⟩)

/-- **The open strip keeps every point the newcomer does not have**: in
front of it the point is finished, behind it the point is queued again. -/
theorem meet_open_keeps (hlc : l.lo ≤ c.lo) (hc : c.lo ≤ c.hi) (hx : l.Has x) (hxc : ¬ c.Has x) :
    (x < c.lo ∧ ∃ p ∈ (meet l c).out, p.CutOf l ∧ p.Has x) ∨
      (c.hi < x ∧ ∃ p ∈ (meet l c).again, p.CutOf l ∧ p.Has x) := by
  obtain ⟨hx1, hx2⟩ := hx
  have hside : x < c.lo ∨ c.hi < x := by
    by_contra hno
    exact hxc ⟨by omega, by omega⟩
  rcases meet_cases l c with ⟨h1, -, ho, ha⟩ | ⟨h1, h2, -, ho, -⟩ | ⟨h1, h2, -, ho, -⟩
  · rcases hside with hlt | hgt
    · refine Or.inl ⟨hlt, { l with hi := c.lo - 1 }, by rw [ho, if_pos (by omega)]; simp,
        ⟨rfl, le_rfl, ?_⟩, hx1, ?_⟩ <;> simp only <;> omega
    · refine Or.inr ⟨hgt, { l with lo := c.hi + 1 }, by rw [ha, if_pos (by omega)]; simp,
        ⟨rfl, ?_, le_rfl⟩, ?_, hx2⟩ <;> simp only <;> omega
  · refine Or.inl ⟨by omega, { l with hi := c.lo - 1 }, by rw [ho, if_pos (by omega)]; simp,
      ⟨rfl, le_rfl, ?_⟩, hx1, ?_⟩ <;> simp only <;> omega
  · exact Or.inl ⟨by omega, l, by rw [ho]; exact List.mem_singleton.2 rfl,
      Strip.CutOf.refl l, hx1, hx2⟩

/-- A cut uses up points: the sizes of what stays open or queued add up to
less than the two strips that met. -/
theorem meet_size_lt (hl : l.lo ≤ l.hi) (hlc : l.lo ≤ c.lo) (hc : c.lo ≤ c.hi) :
    (meet l c).keep.size + ((meet l c).again.map Strip.size).sum < l.size + c.size := by
  simp only [Strip.size]
  rcases meet_cases l c with ⟨h1, hk, -, h⟩ | ⟨h1, h2, hk, -, h⟩ | ⟨h1, h2, hk, -, h⟩
  · rw [hk, h]
    split <;> simp [Strip.size] <;> omega
  · rw [hk, h]
    simp [Strip.size]
    omega
  · rw [hk, h]
    simp
    omega

end Meet

/-! ## The turn -/

/-- The sweep's state: the open strip, the waiting strips, the sources not
read, and what is finished, oldest first. -/
structure State where
  last : Option Strip
  queue : List Strip
  unread : List Strip
  done : List Strip
deriving DecidableEq

/-- The queue in the order of first points, ties in the order of arrival. -/
def sortQueue (q : List Strip) : List Strip := q.insertionSort fun a b => a.lo ≤ b.lo

/-- Read one source if there is one, and take the strip that begins first. -/
def State.next (s : State) : Option (Strip × List Strip × List Strip) :=
  match sortQueue (s.queue ++ s.unread.take 1) with
  | [] => none
  | c :: q => some (c, q, s.unread.drop 1)

/-- The first strip taken is opened. -/
@[simps] def State.opened (s : State) (c : Strip) (q u : List Strip) : State :=
  { s with last := some c, queue := q, unread := u }

/-- The open strip `l` met the newcomer `c`. -/
@[simps] def State.met (s : State) (l c : Strip) (q u : List Strip) : State :=
  { last := some (meet l c).keep
    queue := q ++ (meet l c).again
    unread := u
    done := s.done ++ (meet l c).out }

/-- One turn of the sweep; `none` once nothing waits and nothing is unread. -/
def State.step (s : State) : Option State :=
  match s.next with
  | none => none
  | some (c, q, u) =>
    match s.last with
    | none => some (s.opened c q u)
    | some l => some (s.met l c q u)

/-- The sweep before its first turn. -/
def State.start (rows : List Strip) : State := ⟨none, [], rows, []⟩

/-- What the sweep delivers once it stops: the finished strips, then the
open one. -/
def State.result (s : State) : List Strip := s.done ++ s.last.toList

/-- One state leads to another in some number of turns. -/
def Reaches : State → State → Prop := Relation.ReflTransGen fun s t => s.step = some t

theorem perm_sortQueue (q : List Strip) : (sortQueue q).Perm q := List.perm_insertionSort _ q

theorem pairwise_sortQueue (q : List Strip) : (sortQueue q).Pairwise fun a b => a.lo ≤ b.lo := by
  have : Std.Total fun a b : Strip => a.lo ≤ b.lo := ⟨fun a b => le_total a.lo b.lo⟩
  have : IsTrans Strip fun a b => a.lo ≤ b.lo := ⟨fun a b c => le_trans⟩
  exact List.pairwise_insertionSort _ q

/-- The sort is stable: strips that stand in order keep their order. -/
theorem sublist_sortQueue {a q : List Strip} (ha : a.Pairwise fun a b => a.lo ≤ b.lo)
    (h : a.Sublist q) : a.Sublist (sortQueue q) := List.sublist_insertionSort ha h

/-- The strips a turn chooses from. -/
def State.waiting (s : State) : List Strip := s.queue ++ s.unread.take 1

theorem next_eq_some {s : State} {c : Strip} {q u : List Strip} :
    s.next = some (c, q, u) ↔ sortQueue s.waiting = c :: q ∧ u = s.unread.drop 1 := by
  unfold State.next State.waiting
  split
  · next h => simp [h]
  · next c' q' h =>
    rw [h]
    simp only [Option.some.injEq, Prod.mk.injEq, List.cons.injEq]
    constructor
    · rintro ⟨rfl, rfl, rfl⟩; exact ⟨⟨rfl, rfl⟩, rfl⟩
    · rintro ⟨⟨rfl, rfl⟩, rfl⟩; exact ⟨rfl, rfl, rfl⟩

/-- The sweep stops exactly when nothing waits and nothing is unread. -/
theorem next_eq_none {s : State} : s.next = none ↔ s.queue = [] ∧ s.unread = [] := by
  unfold State.next
  split
  · next h =>
    have hnil := (perm_sortQueue (s.queue ++ s.unread.take 1)).symm
    rw [h, List.perm_nil] at hnil
    rw [List.append_eq_nil_iff] at hnil
    refine ⟨fun _ => ⟨hnil.1, ?_⟩, fun _ => rfl⟩
    rcases hu : s.unread with - | ⟨r, rs⟩
    · rfl
    · rw [hu] at hnil; simp at hnil
  · next c q h =>
    refine ⟨by simp, fun ⟨hq, hu⟩ => ?_⟩
    rw [hq, hu] at h
    simp [sortQueue] at h

section Turn

variable {s t : State} {c : Strip} {q u : List Strip}

/-- The strip chosen is one that waited or the one just read. -/
theorem mem_waiting_of_next (h : s.next = some (c, q, u)) {p : Strip} :
    p ∈ c :: q ↔ p ∈ s.waiting := by
  rw [← (next_eq_some.1 h).1]
  exact (perm_sortQueue _).mem_iff

/-- It begins no later than any other. -/
theorem next_lo_le (h : s.next = some (c, q, u)) {p : Strip} (hp : p ∈ q) : c.lo ≤ p.lo := by
  have hs := pairwise_sortQueue s.waiting
  rw [(next_eq_some.1 h).1, List.pairwise_cons] at hs
  exact hs.1 p hp

theorem step_eq_none : s.step = none ↔ s.queue = [] ∧ s.unread = [] := by
  rw [← next_eq_none]
  unfold State.step
  rcases h : s.next with - | ⟨c, q, u⟩
  · simp
  · rcases hl : s.last with - | l <;> simp

/-- **What a turn does**: the first strip only opens, every later one meets
the open strip. -/
theorem step_cases (h : s.step = some t) :
    ∃ c q u, s.next = some (c, q, u) ∧
      ((s.last = none ∧ t = s.opened c q u) ∨ ∃ l, s.last = some l ∧ t = s.met l c q u) := by
  unfold State.step at h
  rcases hn : s.next with - | ⟨c, q, u⟩
  · rw [hn] at h; simp at h
  · rw [hn] at h
    refine ⟨c, q, u, rfl, ?_⟩
    rcases hl : s.last with - | l
    · rw [hl] at h
      exact Or.inl ⟨rfl, (Option.some.inj h).symm⟩
    · rw [hl] at h
      exact Or.inr ⟨l, rfl, (Option.some.inj h).symm⟩

end Turn

/-! ## Whole runs -/

/-- Turns until the sweep stops, or `none` when the fuel does not last. -/
def State.run : ℕ → State → Option State
  | 0, _ => none
  | n + 1, s =>
    match s.step with
    | none => some s
    | some t => t.run n

/-- A run that stops has reached a state with nothing left to do. -/
theorem reaches_of_run : ∀ {n : ℕ} {s t : State}, s.run n = some t → Reaches s t ∧ t.step = none
  | 0, _, _, h => by simp [State.run] at h
  | n + 1, s, t, h => by
    rw [State.run] at h
    rcases hs : s.step with - | s'
    · rw [hs] at h
      obtain rfl := Option.some.inj h
      exact ⟨Relation.ReflTransGen.refl, hs⟩
    · rw [hs] at h
      obtain ⟨hr, ht⟩ := reaches_of_run h
      exact ⟨Relation.ReflTransGen.head hs hr, ht⟩

/-- **The invariant rule.** What the start has and every turn keeps, every
state reached has. -/
theorem Reaches.invariant {I : State → Prop} {s t : State} (h : Reaches s t) (h0 : I s)
    (hstep : ∀ a b, I a → a.step = some b → I b) : I t := by
  induction h with
  | refl => exact h0
  | tail _ hab ih => exact hstep _ _ ih hab

end Sweep

end Xpod
