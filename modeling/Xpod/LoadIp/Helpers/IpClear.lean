import Xpod.Common.Lists
import Xpod.Common.Sweep.Winner
import Xpod.LoadIp.Model.IpClear
/-!
# The flattener is a sweep

`IpClear.transfer` follows the general sweep turn by turn: its open row,
its pending list and its loaded rows are strips of the input rows, with
the text and the attributes carried along. What the sweep delivers is
therefore what `transfer` loads.

Two things stand between the code and the sweep's own guarantee. The
messages of the outer branch dereference `country`, so a null one ends
the run (`NullDeref`). And the pending list breaks a tie by arrival, so a
remainder can displace the last row that contains an address
(`Sweep.State.Overtakes`).
-/

namespace Xpod

namespace LoadIp

/-- The texts of the bounds are those of the numbers. -/
structure Location.Named (l : Location) : Prop where
  beginIp : l.beginIp = some (Util.longToIP l.nBeginIp)
  endIp : l.endIp = some (Util.longToIP l.nEndIp)

instance (l : Location) : Decidable l.Named :=
  decidable_of_iff (l.beginIp = some (Util.longToIP l.nBeginIp) ∧
    l.endIp = some (Util.longToIP l.nEndIp)) ⟨fun h => ⟨h.1, h.2⟩, fun h => ⟨h.beginIp, h.endIp⟩⟩

namespace IpClear

open Sweep

/-- The rows as the sweep sees them: their bounds, and their place in the
order they are read. -/
def strips (rows : List Location) : List Strip :=
  rows.zipIdx.map fun p => ⟨p.1.nBeginIp, p.1.nEndIp, p.2⟩

/-- The country of the row with number `i`. -/
def countryOf (rows : List Location) (i : ℕ) : Option String := rows[i]?.bind Location.country

/-- The messages of the outer branch throw: `last.country` is null, or it
is another country's name and `current.country` is null. -/
def Throws (last current : Option String) : Prop :=
  last = none ∨ (last ≠ some "中国" ∧ current = none)

instance (last current : Option String) : Decidable (Throws last current) :=
  inferInstanceAs (Decidable (_ ∨ _))

/-- **The failing turn.** The strip about to be taken begins within the open
one and ends behind it, and the messages of that branch throw. -/
def NullDeref (rows : List Location) (t : State) : Prop :=
  match t.last, t.next with
  | some l, some (c, _, _) =>
    l.hi < c.hi ∧ c.lo ≤ l.hi ∧ Throws (countryOf rows l.src) (countryOf rows c.src)
  | _, _ => False

/-- In such a turn a strip is open and one is about to be taken. -/
theorem NullDeref.cases {rows : List Location} {t : State} (h : NullDeref rows t) :
    ∃ l c q u, t.last = some l ∧ t.next = some (c, q, u) ∧ l.hi < c.hi ∧ c.lo ≤ l.hi ∧
      Throws (countryOf rows l.src) (countryOf rows c.src) := by
  rcases hl : t.last with - | l
  · simp [NullDeref, hl] at h
  rcases hn : t.next with - | ⟨c, q, u⟩
  · simp [NullDeref, hl, hn] at h
  simp only [NullDeref, hl, hn] at h
  exact ⟨l, c, q, u, rfl, rfl, h⟩

/-! ## Locations and strips -/

/-- The location is the strip `p` of the rows, with its row's attributes and,
where the row's texts match its bounds, with texts that match its own. -/
structure CutFrom (rows : List Location) (l : Location) (p : Strip) : Prop where
  lo : l.nBeginIp = p.lo
  hi : l.nEndIp = p.hi
  source : ∃ r, rows[p.src]? = some r ∧ l.attrs = r.attrs ∧ (r.Named → l.Named)

section CutFrom

variable {rows : List Location} {l c : Location} {p q : Strip}

theorem CutFrom.country (h : CutFrom rows l p) : l.country = countryOf rows p.src := by
  obtain ⟨r, hr, ha, -⟩ := h.source
  rw [countryOf, hr]
  exact congrArg Attrs.country ha

theorem CutFrom.copy (h : CutFrom rows l p) : CutFrom rows l.copy p where
  lo := h.lo
  hi := h.hi
  source := by
    obtain ⟨r, hr, ha, hn⟩ := h.source
    exact ⟨r, hr, ha, fun hr => ⟨(hn hr).beginIp, (hn hr).endIp⟩⟩

/-- Cutting off the end of a location cuts off the end of its strip. -/
theorem CutFrom.cutEnd (h : CutFrom rows l p) (e : ℤ) :
    CutFrom rows { l.copy with nEndIp := e, endIp := some (Util.longToIP e) }
      { p with hi := e } where
  lo := h.lo
  hi := rfl
  source := by
    obtain ⟨r, hr, ha, hn⟩ := h.source
    exact ⟨r, hr, ha, fun hr => ⟨(hn hr).beginIp, rfl⟩⟩

/-- Cutting off the front of a location cuts off the front of its strip. -/
theorem CutFrom.cutFront (h : CutFrom rows l p) (b : ℤ) :
    CutFrom rows { l.copy with nBeginIp := b, beginIp := some (Util.longToIP b) }
      { p with lo := b } where
  lo := rfl
  hi := h.hi
  source := by
    obtain ⟨r, hr, ha, hn⟩ := h.source
    exact ⟨r, hr, ha, fun hr => ⟨rfl, (hn hr).endIp⟩⟩

/-- The piece in front of `current` is the strip the cut finishes. -/
theorem frontOf_cutFrom (hl : CutFrom rows l p) (hc : CutFrom rows c q) :
    List.Forall₂ (CutFrom rows) (frontOf l c).toList
      (if q.lo ≠ p.lo then [{ p with hi := q.lo - 1 }] else []) := by
  rw [frontOf, hl.lo, hc.lo]
  split
  · exact List.Forall₂.cons (hl.cutEnd _) List.Forall₂.nil
  · exact List.Forall₂.nil

/-- The piece behind `current` is the strip the cut queues again. -/
theorem behindOf_cutFrom (hl : CutFrom rows l p) (hc : CutFrom rows c q) :
    List.Forall₂ (CutFrom rows) (behindOf l c).toList
      (if q.hi ≠ p.hi then [{ p with lo := q.hi + 1 }] else []) := by
  rw [behindOf, hl.hi, hc.hi]
  split
  · exact List.Forall₂.cons (hl.cutFront _) List.Forall₂.nil
  · exact List.Forall₂.nil

end CutFrom

/-! ## The sort -/

theorem forall₂_orderedInsert {rows : List Location} {l : Location} {p : Strip}
    (h : CutFrom rows l p) {q : List Location} {q' : List Strip}
    (hq : List.Forall₂ (CutFrom rows) q q') :
    List.Forall₂ (CutFrom rows) (q.orderedInsert (fun a b => compare a b ≤ 0) l)
      (q'.orderedInsert (fun a b => a.lo ≤ b.lo) p) := by
  induction hq with
  | nil => exact List.Forall₂.cons h List.Forall₂.nil
  | @cons a b q q' hab hq ih =>
    have hle : compare l a ≤ 0 ↔ p.lo ≤ b.lo := by rw [compare_le_zero, h.lo, hab.lo]
    rw [List.orderedInsert_cons, List.orderedInsert_cons]
    by_cases hpb : p.lo ≤ b.lo
    · rw [if_pos (hle.2 hpb), if_pos hpb]
      exact List.Forall₂.cons h (List.Forall₂.cons hab hq)
    · rw [if_neg (hpb ∘ hle.1), if_neg hpb]
      exact List.Forall₂.cons hab ih

/-- Sorting the pending list sorts the queue. -/
theorem forall₂_sort {rows : List Location} {q : List Location} {q' : List Strip}
    (hq : List.Forall₂ (CutFrom rows) q q') :
    List.Forall₂ (CutFrom rows) (sort q) (sortQueue q') := by
  induction hq with
  | nil => exact List.Forall₂.nil
  | cons hab _ ih => exact forall₂_orderedInsert hab ih

/-! ## One turn -/

/-- The messages throw exactly on the countries `Throws` names; otherwise
only the lines printed change. -/
theorem report_eq (s : IpClear) (last current : Location) (one : Option Location)
    (two three : Location) :
    (Throws last.country current.country ∧
        s.report last current one two three = .error .nullPointer) ∨
      (¬ Throws last.country current.country ∧
        ∃ lines, s.report last current one two three = .ok { s with out := lines }) := by
  rcases hl : last.country with - | a
  · exact Or.inl ⟨Or.inl rfl, by simp [report, hl]⟩
  · by_cases ha : a = "中国"
    · subst ha
      refine Or.inr ⟨by simp [Throws], ?_⟩
      simp only [report, hl, Java.equals_some, Java.ok_bind, println]
      simp only [BEq.rfl, if_true, pure, Except.pure, Java.ok_bind]
      split <;> exact ⟨_, rfl⟩
    · rcases hc : current.country with - | b
      · refine Or.inl ⟨Or.inr ⟨by simpa using ha, rfl⟩, ?_⟩
        simp [report, hl, hc, Ne.symm ha]
      · refine Or.inr ⟨by simp [Throws], ?_⟩
        simp only [report, hl, hc, Java.equals_some, Java.ok_bind, println]
        have : ((some "中国" : Option String) == some a) = false := by simp [Ne.symm ha]
        simp only [this, Bool.false_eq_true, if_false, Java.ok_bind, pure, Except.pure]
        split <;> split <;> exact ⟨_, rfl⟩

theorem report_bind {s : IpClear} {last current two three : Location} {one : Option Location}
    {k : IpClear → Except Java.Exception IpClear} (h : ¬ Throws last.country current.country) :
    ∃ lines, (s.report last current one two three >>= k) = k { s with out := lines } := by
  rcases report_eq s last current one two three with ⟨ht, -⟩ | ⟨-, lines, hr⟩
  · exact absurd ht h
  · exact ⟨lines, by rw [hr, Java.ok_bind]⟩

theorem report_bind_error {s : IpClear} {last current two three : Location}
    {one : Option Location} {k : IpClear → Except Java.Exception IpClear}
    (h : Throws last.country current.country) :
    (s.report last current one two three >>= k) = .error .nullPointer := by
  rcases report_eq s last current one two three with ⟨-, hr⟩ | ⟨hno, -⟩
  · rw [hr, Java.error_bind]
  · exact absurd h hno

/-- What a turn of the loop leaves, up to the counter and the lines
printed. -/
structure Turned (s s' : IpClear) (keep : Location) (again out : List Location) : Prop where
  rs : s'.rs = s.rs
  last : s'.last = some keep
  queue : s'.ordLocations = s.ordLocations ++ again
  loaded : s'.loaded = s.loaded ++ out

theorem turned_inner (s : IpClear) (last current : Location) :
    Turned s (s.inner last current) current.copy (behindOf last current).toList
      (frontOf last current).toList where
  rs := by simp only [inner, load, println]; split <;> split <;> rfl
  last := rfl
  queue := by simp only [inner, load, println]; split <;> split <;> rfl
  loaded := by simp only [inner, load, println]; split <;> split <;> rfl

theorem turned_outer {s : IpClear} {last current : Location}
    (h : ¬ Throws last.country current.country) :
    ∃ s', s.outer last current = .ok s' ∧
      Turned s s'
        { current.copy with nEndIp := last.nEndIp, endIp := some (Util.longToIP last.nEndIp) }
        [{ current.copy with
            nBeginIp := last.nEndIp + 1, beginIp := some (Util.longToIP (last.nEndIp + 1)) }]
        (frontOf last current).toList := by
  have hout : ∃ lines, s.outer last current = .ok
      { s.loadFront (frontOf last current) with
        ordLocations := (s.loadFront (frontOf last current)).ordLocations ++
          [{ current.copy with
            nBeginIp := last.nEndIp + 1, beginIp := some (Util.longToIP (last.nEndIp + 1)) }]
        out := lines
        last := some { current.copy with
          nEndIp := last.nEndIp, endIp := some (Util.longToIP last.nEndIp) } } := by
    unfold outer
    exact report_bind h
  obtain ⟨lines, hout⟩ := hout
  exact ⟨_, hout, by simp, rfl, by simp, by simp⟩

/-! ## The simulation -/

/-- The object's fields are the sweep's state. -/
structure Sim (rows : List Location) (s : IpClear) (t : State) : Prop where
  rs : List.Forall₂ (fun row => CutFrom rows (readRow row)) s.rs t.unread
  queue : List.Forall₂ (CutFrom rows) s.ordLocations t.queue
  last : Option.Rel (CutFrom rows) s.last t.last
  loaded : List.Forall₂ (CutFrom rows) s.loaded t.done

section Sim

variable {rows : List Location} {s : IpClear} {t t' : State}

theorem sim_start (rows : List Location) : Sim rows { rs := rows } (State.start (strips rows)) where
  rs := by
    refine List.forall₂_iff_get.2 ⟨by simp [State.start, strips], fun i h₁ h₂ => ?_⟩
    simp only [State.start, strips, List.get_eq_getElem, List.getElem_map, List.getElem_zipIdx,
      Nat.zero_add]
    exact ⟨rfl, rfl, rows[i], List.getElem?_eq_getElem h₁, rfl, fun h => ⟨h.beginIp, h.endIp⟩⟩
  queue := List.Forall₂.nil
  last := Option.Rel.none
  loaded := List.Forall₂.nil

theorem Sim.last_none (h : Sim rows s t) (hl : t.last = none) : s.last = none := by
  have hrel := h.last
  rw [hl] at hrel
  generalize s.last = o at hrel
  cases hrel
  rfl

theorem Sim.last_some (h : Sim rows s t) {l : Strip} (hl : t.last = some l) :
    ∃ last, s.last = some last ∧ CutFrom rows last l := by
  have hrel := h.last
  rw [hl] at hrel
  generalize s.last = o at hrel ⊢
  cases hrel with
  | some hlc => exact ⟨_, rfl, hlc⟩

/-- What the loop chooses from is what the turn chooses from, in the same
order. -/
theorem Sim.sorted (h : Sim rows s t) :
    List.Forall₂ (CutFrom rows) (sort (s.ordLocations ++ (s.rs.take 1).map readRow))
      (sortQueue t.waiting) :=
  forall₂_sort (List.rel_append h.queue
    (List.forall₂_map_left_iff.2 (List.forall₂_take 1 h.rs)))

theorem Sim.takeCurrent_none (h : Sim rows s t) (hn : t.next = none) : s.takeCurrent = none := by
  obtain ⟨hq, hu⟩ := next_eq_none.1 hn
  have hs := h.sorted
  rw [show t.waiting = [] by simp [State.waiting, hq, hu]] at hs
  rw [takeCurrent_eq, List.forall₂_nil_right_iff.1 hs]

theorem Sim.takeCurrent_some (h : Sim rows s t) {c : Strip} {q u : List Strip}
    (hn : t.next = some (c, q, u)) :
    ∃ current s', s.takeCurrent = some (current, s') ∧ CutFrom rows current c ∧
      Sim rows s' { t with queue := q, unread := u } ∧ s'.last = s.last := by
  obtain ⟨hsort, rfl⟩ := next_eq_some.1 hn
  have hs := h.sorted
  rw [hsort] at hs
  obtain ⟨current, q', hc, hq, heq⟩ := List.forall₂_cons_right_iff.1 hs
  refine ⟨current, { s with rs := s.rs.drop 1, ordLocations := q' }, ?_, hc, ?_, rfl⟩
  · rw [takeCurrent_eq, heq]
  · exact ⟨List.forall₂_drop 1 h.rs, hq, h.last, h.loaded⟩

/-- **What a turn leaves is the cut's**: once the pieces of the code are the
pieces of the cut, the simulation continues. -/
theorem Turned.sim {s' : IpClear} {l c : Strip} {q u : List Strip} {keep : Location}
    {again out : List Location} (ht : Turned s s' keep again out)
    (h : Sim rows s { t with queue := q, unread := u })
    (hk : CutFrom rows keep (meet l c).keep)
    (ha : List.Forall₂ (CutFrom rows) again (meet l c).again)
    (ho : List.Forall₂ (CutFrom rows) out (meet l c).out) : Sim rows s' (t.met l c q u) where
  rs := ht.rs ▸ h.rs
  queue := ht.queue ▸ List.rel_append h.queue ha
  last := ht.last ▸ Option.Rel.some hk
  loaded := ht.loaded ▸ List.rel_append h.loaded ho

/-- **The turn, simulated.** A turn that does not dereference null does to
the object what the cut does to the sweep. -/
theorem Sim.turn_ok {l c : Strip} {q u : List Strip} {last current : Location}
    (h : Sim rows s { t with queue := q, unread := u }) (hlast : s.last = some last)
    (hl : CutFrom rows last l) (hc : CutFrom rows current c)
    (hok : ¬ (l.hi < c.hi ∧ c.lo ≤ l.hi ∧ Throws (countryOf rows l.src) (countryOf rows c.src))) :
    ∃ s', s.turn current = .ok s' ∧ Sim rows s' (t.met l c q u) := by
  simp only [turn, hlast, hl.hi, hc.hi, hc.lo]
  rcases meet_cases l c with ⟨h1, hk, ho, ha⟩ | ⟨h1, h2, hk, ho, ha⟩ | ⟨h1, h2, hk, ho, ha⟩
  · rw [if_pos h1]
    refine ⟨_, rfl, (turned_inner s last current).sim h ?_ ?_ ?_⟩
    · rw [hk]; exact hc.copy
    · rw [ha]; exact behindOf_cutFrom hl hc
    · rw [ho]; exact frontOf_cutFrom hl hc
  · rw [if_neg (not_le.2 h1), if_pos h2]
    have hthrow : ¬ Throws last.country current.country := by
      rw [hl.country, hc.country]
      exact fun ht => hok ⟨h1, h2, ht⟩
    obtain ⟨s', hs', ht⟩ := turned_outer (s := s) hthrow
    refine ⟨s', hs', ht.sim h ?_ ?_ ?_⟩
    · rw [hk, hl.hi]; exact hc.cutEnd _
    · rw [ha, hl.hi]; exact List.Forall₂.cons (hc.cutFront _) List.Forall₂.nil
    · rw [ho]; exact frontOf_cutFrom hl hc
  · rw [if_neg (not_le.2 h1), if_neg (not_le.2 h2)]
    have ht : Turned s { s.load (some last) with last := some current } current [] [last] :=
      ⟨rfl, rfl, (List.append_nil _).symm, rfl⟩
    refine ⟨_, rfl, ht.sim h ?_ ?_ ?_⟩
    · rw [hk]; exact hc
    · rw [ha]; exact List.Forall₂.nil
    · rw [ho]; exact List.Forall₂.cons hl List.Forall₂.nil

/-- The failing turn throws. -/
theorem turn_error {last current : Location} (hlast : s.last = some last)
    (h1 : last.nEndIp < current.nEndIp) (h2 : current.nBeginIp ≤ last.nEndIp)
    (ht : Throws last.country current.country) : s.turn current = .error .nullPointer := by
  simp only [turn, hlast]
  rw [if_neg (not_le.2 h1), if_pos h2]
  unfold outer
  exact report_bind_error ht

/-! ## Whole runs -/

theorem Sim.loop_stopped (h : Sim rows s t) (hstop : t.step = none) (n : ℕ) :
    transferLoop (n + 1) s = some (.ok s) := by
  rw [transferLoop, h.takeCurrent_none (next_eq_none.2 (step_eq_none.1 hstop))]

theorem Sim.loop_step (h : Sim rows s t) (hstep : t.step = some t') (hok : ¬ NullDeref rows t) :
    ∃ s', Sim rows s' t' ∧ ∀ n, transferLoop (n + 1) s = transferLoop n s' := by
  obtain ⟨c, q, u, hn, ⟨hl, rfl⟩ | ⟨l, hl, rfl⟩⟩ := step_cases hstep
  · obtain ⟨current, s₁, htake, hc, hs₁, hlast⟩ := h.takeCurrent_some hn
    refine ⟨{ s₁ with last := some current }, ⟨hs₁.rs, hs₁.queue, Option.Rel.some hc, hs₁.loaded⟩,
      fun n => ?_⟩
    rw [transferLoop, htake]
    simp only [turn, hlast, h.last_none hl]
  · obtain ⟨current, s₁, htake, hc, hs₁, hlast⟩ := h.takeCurrent_some hn
    obtain ⟨last, hsl, hlc⟩ := h.last_some hl
    simp only [NullDeref, hl, hn] at hok
    obtain ⟨s', hturn, hs'⟩ := hs₁.turn_ok (hlast.trans hsl) hlc hc hok
    refine ⟨s', hs', fun n => ?_⟩
    rw [transferLoop, htake]
    simp only [hturn]

theorem Sim.loop_error (h : Sim rows s t) (hbad : NullDeref rows t) (n : ℕ) :
    transferLoop (n + 1) s = some (.error .nullPointer) := by
  obtain ⟨l, c, q, u, hl, hn, h1, h2, hthrow⟩ := hbad.cases
  obtain ⟨current, s₁, htake, hc, hs₁, hlast⟩ := h.takeCurrent_some hn
  obtain ⟨last, hsl, hlc⟩ := h.last_some hl
  have hturn : s₁.turn current = .error .nullPointer := by
    refine turn_error (hlast.trans hsl) ?_ ?_ ?_
    · rw [hlc.hi, hc.hi]; exact h1
    · rw [hc.lo, hlc.hi]; exact h2
    · rw [hlc.country, hc.country]; exact hthrow
  rw [transferLoop, htake]
  simp only [hturn]

/-- A run of the sweep whose turns dereference no null is a run of the
loop. -/
theorem Sim.run_ok : ∀ {n : ℕ} {s : IpClear} {t t' : State}, Sim rows s t → t.run n = some t' →
    (∀ u, Reaches t u → ¬ NullDeref rows u) →
    ∃ s', transferLoop n s = some (.ok s') ∧ Sim rows s' t'
  | 0, _, _, _, _, hrun, _ => by simp [State.run] at hrun
  | n + 1, s, t, t', h, hrun, hok => by
    rw [State.run] at hrun
    rcases hstep : t.step with - | t₁
    · rw [hstep] at hrun
      obtain rfl := Option.some.inj hrun
      exact ⟨s, h.loop_stopped hstep n, h⟩
    · rw [hstep] at hrun
      obtain ⟨s₁, hs₁, hloop⟩ := h.loop_step hstep (hok t Relation.ReflTransGen.refl)
      rw [hloop]
      exact hs₁.run_ok hrun fun u hu => hok u (Relation.ReflTransGen.head hstep hu)

/-- A turn that dereferences null ends the loop there, or an earlier one
has. -/
theorem Sim.run_error {u : State} (h : Sim rows s t) (hr : Reaches t u) (hbad : NullDeref rows u) :
    ∃ n, transferLoop n s = some (.error .nullPointer) := by
  induction hr using Relation.ReflTransGen.head_induction_on generalizing s with
  | refl => exact ⟨1, h.loop_error hbad 0⟩
  | @head a b hstep _ ih =>
    by_cases hok : NullDeref rows a
    · exact ⟨1, h.loop_error hok 0⟩
    · obtain ⟨s₁, hs₁, hloop⟩ := h.loop_step hstep hok
      obtain ⟨n, hn⟩ := ih hs₁
      exact ⟨n + 1, (hloop n).trans hn⟩

theorem finish_loaded (s : IpClear) : s.finish.loaded = s.loaded ++ s.last.toList := by
  by_cases hq : s.ordLocations = [] <;> simp [finish, load, println, hq]

theorem Sim.finish (h : Sim rows s t) :
    List.Forall₂ (CutFrom rows) s.finish.loaded t.result := by
  rw [finish_loaded, State.result]
  refine List.rel_append h.loaded ?_
  rcases hl : t.last with - | l
  · rw [h.last_none hl]
    exact List.Forall₂.nil
  · obtain ⟨last, hsl, hlc⟩ := h.last_some hl
    rw [hsl]
    exact List.Forall₂.cons hlc List.Forall₂.nil

end Sim

/-! ## The rows as sources -/

section Rows

variable {rows : List Location}

theorem mem_strips {p : Strip} :
    p ∈ strips rows ↔ ∃ r, rows[p.src]? = some r ∧ p.lo = r.nBeginIp ∧ p.hi = r.nEndIp := by
  simp only [strips, List.mem_map, Prod.exists, List.mem_zipIdx_iff_getElem?]
  constructor
  · rintro ⟨r, i, hr, rfl⟩
    exact ⟨r, hr, rfl, rfl⟩
  · rintro ⟨r, hr, hlo, hhi⟩
    exact ⟨r, p.src, hr, by rw [← hlo, ← hhi]⟩

theorem exists_strip_has {x : ℤ} : (∃ p ∈ strips rows, p.Has x) ↔ ∃ r ∈ rows, r.Has x := by
  constructor
  · rintro ⟨p, hp, hx⟩
    obtain ⟨r, hr, hlo, hhi⟩ := mem_strips.1 hp
    exact ⟨r, List.mem_of_getElem? hr, hlo ▸ hx.1, hhi ▸ hx.2⟩
  · rintro ⟨r, hr, hx⟩
    obtain ⟨i, hi⟩ := List.getElem?_of_mem hr
    exact ⟨⟨r.nBeginIp, r.nEndIp, i⟩, mem_strips.2 ⟨r, hi, rfl, rfl⟩, hx⟩

/-- Rows that are not empty and come in order are sources of the sweep. -/
theorem sources_strips (hv : ∀ r ∈ rows, r.Valid)
    (hs : rows.Pairwise fun a b => a.nBeginIp ≤ b.nBeginIp) : Sources (strips rows) where
  valid := by
    intro p hp
    obtain ⟨r, hr, hlo, hhi⟩ := mem_strips.1 hp
    rw [hlo, hhi]
    exact hv r (List.mem_of_getElem? hr)
  sorted := by
    refine List.pairwise_iff_getElem.2 fun i j hi hj hij => ?_
    simp only [strips, List.getElem_map, List.getElem_zipIdx]
    exact List.pairwise_iff_getElem.1 hs i j (by simpa [strips] using hi)
      (by simpa [strips] using hj) hij
  numbered := by
    refine List.pairwise_iff_getElem.2 fun i j hi hj hij => ?_
    simpa [strips] using hij

/-- **The loop returns.** If no turn dereferences null, `transfer` ends and
loads what the sweep delivers. -/
theorem returns_ok (hv : ∀ r ∈ rows, r.Valid)
    (hs : rows.Pairwise fun a b => a.nBeginIp ≤ b.nBeginIp)
    (hok : ∀ t, Reaches (State.start (strips rows)) t → ¬ NullDeref rows t) :
    ∃ s t, Returns rows (.ok s) ∧ Reaches (State.start (strips rows)) t ∧ t.step = none ∧
      List.Forall₂ (CutFrom rows) s.loaded t.result := by
  have hsrc := sources_strips hv hs
  obtain ⟨t, ht⟩ := run_isSome (inv_start hsrc.valid hsrc.sorted)
    (Nat.lt_succ_self (State.start (strips rows)).weight)
  obtain ⟨s, hloop, hsim⟩ := (sim_start rows).run_ok ht hok
  obtain ⟨hreach, hstop⟩ := reaches_of_run ht
  exact ⟨s.finish, t, returns_of_transferLoop hloop, hreach, hstop, hsim.finish⟩

/-- **The loop throws.** If some turn dereferences null, `transfer` ends with
the exception. -/
theorem returns_error {t : State} (ht : Reaches (State.start (strips rows)) t)
    (hbad : NullDeref rows t) : Returns rows (.error .nullPointer) := by
  obtain ⟨n, hn⟩ := (sim_start rows).run_error ht hbad
  exact returns_of_transferLoop hn

/-- A run that returns has no such turn. -/
theorem Returns.not_nullDeref {s : IpClear} (h : Returns rows (.ok s)) {t : State}
    (ht : Reaches (State.start (strips rows)) t) : ¬ NullDeref rows t := by
  intro hbad
  have hthrown := h.unique (returns_error ht hbad)
  simp at hthrown

end Rows

end IpClear

end LoadIp

end Xpod
