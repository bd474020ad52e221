import Mathlib.Tactic
import Xpod.Common.Java
import Xpod.LoadIp.Model.MergeInsertImp
/-!
# Which columns a piece keeps

`merge` cuts the row in hand and the incoming row into pieces. A piece that
is a copy loses `county`, which the copy constructor leaves out; a row that
is changed in place keeps everything. So the columns of a row survive
unless one of its copies is inserted: the front of a table row that an
incoming row is laid into, and every piece of an incoming row that reaches
over the end of a table row.

A run is followed here together with the rows its locations come from.
-/

namespace Xpod

namespace LoadIp

/-- The descriptive columns as a statement writes them, null as the empty
text. -/
structure Columns where
  country : String
  area : String
  province : String
  city : String
  county : String
  isp : String
  other : String
deriving DecidableEq, Repr

/-- The columns of a row. -/
def Location.columns (l : Location) : Columns where
  country := l.country.getD ""
  area := l.area.getD ""
  province := l.province.getD ""
  city := l.city.getD ""
  county := l.county.getD ""
  isp := l.isp.getD ""
  other := l.other.getD ""

namespace MergeInsertImp

/-- The rows the statements insert, in order. -/
def inserted (s : MergeInsertImp) : List Location :=
  s.sqlStringList.filterMap fun
    | .insert row => some row
    | .delete _ => none

/-! ## Rows and what is left of them -/

/-- A row of the table or an incoming one, and a location cut from it. -/
structure Part where
  row : Location
  rest : Location
deriving DecidableEq, Repr

namespace Part

/-- A row nothing was taken from. -/
def whole (row : Location) : Part := ⟨row, row⟩

/-- The row the statement for the part inserts. -/
def stored (p : Part) : Location := MergeInsertImp.stored p.rest

/-- **The part is a piece of the row with all its columns.** -/
def Carries (p : Part) : Prop := p.stored.columns = p.row.columns

instance (p : Part) : Decidable p.Carries := inferInstanceAs (Decidable (_ = _))

/-- The part lies within its row. -/
def Within (p : Part) : Prop := p.row.nBeginIp ≤ p.rest.nBeginIp ∧ p.rest.nEndIp ≤ p.row.nEndIp

theorem carries_iff {p : Part} : p.Carries ↔ p.rest.columns = p.row.columns := Iff.rfl

end Part

/-- The parts the four shapes of `merge` insert, for the table row `c` and
the incoming row `m`. -/
def overlapParts (c m : Part) : List Part :=
  if m.rest.nEndIp ≥ c.rest.nEndIp ∧ m.rest.nBeginIp ≤ c.rest.nBeginIp then
    [⟨m.row, endAt m.rest c.rest.nEndIp⟩]
  else if m.rest.nEndIp ≤ c.rest.nEndIp ∧ m.rest.nBeginIp ≥ c.rest.nBeginIp then
    (if c.rest.nBeginIp ≠ m.rest.nBeginIp then
      [⟨c.row, endAt c.rest (m.rest.nBeginIp - 1)⟩] else []) ++
    m :: if c.rest.nEndIp ≠ m.rest.nEndIp then
      [⟨c.row, shrink c.rest (m.rest.nEndIp + 1)⟩] else []
  else if m.rest.nBeginIp < c.rest.nBeginIp ∧ m.rest.nEndIp < c.rest.nEndIp ∧
      m.rest.nEndIp ≥ c.rest.nBeginIp then
    [m, ⟨c.row, shrink c.rest (m.rest.nEndIp + 1)⟩]
  else if m.rest.nEndIp > c.rest.nEndIp ∧ m.rest.nBeginIp > c.rest.nBeginIp ∧
      m.rest.nBeginIp ≤ c.rest.nEndIp then
    [⟨c.row, { c.rest with
      nEndIp := m.rest.nBeginIp - 1
      endIp := some (Util.longToIP (m.rest.nBeginIp - 1)) }⟩]
  else []

/-- What the four shapes leave of the two rows. -/
def overlapLeft (c m : Location) : Option Location × Option Location :=
  if m.nEndIp ≥ c.nEndIp ∧ m.nBeginIp ≤ c.nBeginIp then
    (none, if m.nEndIp ≠ c.nEndIp then some (beginAt m (c.nEndIp + 1)) else none)
  else if m.nEndIp ≤ c.nEndIp ∧ m.nBeginIp ≥ c.nBeginIp then
    (if c.nEndIp ≠ m.nEndIp then some (named (shrink c (m.nEndIp + 1))) else none, none)
  else if m.nBeginIp < c.nBeginIp ∧ m.nEndIp < c.nEndIp ∧ m.nEndIp ≥ c.nBeginIp then
    (some (named (shrink c (m.nEndIp + 1))), none)
  else if m.nEndIp > c.nEndIp ∧ m.nBeginIp > c.nBeginIp ∧ m.nBeginIp ≤ c.nEndIp then
    (none, some m)
  else (some c, none)

/-- The parts a round inserts. -/
def roundParts (c m : Part) : List Part :=
  if m.rest.nEndIp < c.rest.nBeginIp then [m]
  else if m.rest.nBeginIp > c.rest.nEndIp then []
  else overlapParts c m

/-- What a round leaves of the table row and of the incoming one. -/
def roundLeft (c m : Location) : Option Location × Option Location :=
  if m.nEndIp < c.nBeginIp then (some c, none)
  else if m.nBeginIp > c.nEndIp then (none, some m)
  else overlapLeft c m

/-! ## The run, with its rows -/

/-- A round of the loop of `Insert`: the table row in hand, if there is one,
and the incoming row. -/
structure Visit where
  current : Option Part
  toMerge : Part
deriving DecidableEq, Repr

/-- The parts a round inserts. -/
def Visit.parts (v : Visit) : List Part :=
  match v.current with
  | none => [v.toMerge]
  | some c => roundParts c v.toMerge

/-- The rounds of `Insert`, and the row that the one in hand afterwards comes
from. A row just read comes from itself. -/
def visitsOf : ℕ → MergeInsertImp → Option Location → Part → List Visit × Option Location
  | 0, _, held, _ => ([], held)
  | n + 1, s, held, m =>
    match s.fetch.current with
    | none => ([⟨none, m⟩], none)
    | some current =>
      let row := if s.current.isNone then current else held.getD current
      match s.fetch.round current m.rest with
      | .error _ => ([], some row)
      | .ok (_, none) => ([⟨some ⟨row, current⟩, m⟩], some row)
      | .ok (s, some toMerge) =>
        let more := visitsOf n s (some row) ⟨m.row, toMerge⟩
        (⟨some ⟨row, current⟩, m⟩ :: more.1, more.2)

/-- The rounds of a sequence of calls. -/
def visitsFrom (fuel : ℕ) : MergeInsertImp → Option Location → List Location → List Visit
  | _, _, [] => []
  | s, held, m :: ms =>
    let visits := visitsOf fuel s held (.whole m)
    match Insert fuel s m with
    | some (.ok s) => visits.1 ++ visitsFrom fuel s visits.2 ms
    | _ => visits.1

/-- **The rounds of a run** over the table `T` with the incoming rows `M`. -/
def visits (fuel : ℕ) (T M : List Location) : List Visit := visitsFrom fuel { rs := T } none M

/-- The parts a run inserts, in order. -/
def pieces (fuel : ℕ) (T M : List Location) : List Part := (visits fuel T M).flatMap Visit.parts

/-! ## One round -/

section Round

variable {s s' : MergeInsertImp} {c m : Location} {left : Option Location}

/-- **What `overlap` inserts and leaves.** -/
theorem overlap_eq (hc : s.current = some c) (row row' : Location) :
    (s.overlap c m).1.rs = s.rs ∧
      ((s.overlap c m).1.current, (s.overlap c m).2) = overlapLeft c m ∧
      (s.overlap c m).1.inserted =
        s.inserted ++ (overlapParts ⟨row, c⟩ ⟨row', m⟩).map Part.stored := by
  unfold overlap overlapLeft overlapParts
  split_ifs <;> simp [inserted, insert, Part.stored, hc]

/-- The line about a row that is overlaid changes nothing else. -/
theorem merge_eq (h : s.merge c m = .ok (s', left)) (hc : s.current = some c)
    (row row' : Location) :
    s'.rs = s.rs ∧ (s'.current, left) = overlapLeft c m ∧
      s'.inserted = s.inserted ++ (overlapParts ⟨row, c⟩ ⟨row', m⟩).map Part.stored := by
  obtain ⟨china, -, h⟩ := Java.bind_eq_ok.1 h
  obtain ⟨s₁, hs₁, hrs, hcurrent, hinserted⟩ : ∃ s₁ : MergeInsertImp,
      s₁ = (if china then
        { s.delete c with outTxt := (s.delete c).outTxt ++ [overlayLine c m] } else s.delete c) ∧
        s₁.rs = s.rs ∧ s₁.current = some c ∧ s₁.inserted = s.inserted := by
    refine ⟨_, rfl, ?_⟩
    cases china <;> exact ⟨rfl, hc, by simp [inserted, delete]⟩
  have hresult : s₁.overlap c m = (s', left) := hs₁ ▸ Except.ok.inj h
  have heq := overlap_eq (m := m) hcurrent row row'
  rwa [hresult, hrs, hinserted] at heq

/-- **What a round inserts and leaves.** -/
theorem round_eq (h : s.round c m = .ok (s', left)) (hc : s.current = some c)
    (row row' : Location) :
    s'.rs = s.rs ∧ (s'.current, left) = roundLeft c m ∧
      s'.inserted = s.inserted ++ (roundParts ⟨row, c⟩ ⟨row', m⟩).map Part.stored := by
  obtain ⟨marked, -, h⟩ := Java.bind_eq_ok.1 h
  -- the mark is printed and nothing else
  obtain ⟨s₁, hs₁, hrs, hcurrent, hinserted⟩ : ∃ s₁ : MergeInsertImp,
      s₁ = (if marked then { s with out := s.out ++ ["error"] } else s) ∧
        s₁.rs = s.rs ∧ s₁.current = some c ∧ s₁.inserted = s.inserted := by
    refine ⟨_, rfl, ?_⟩
    cases marked <;> exact ⟨rfl, hc, rfl⟩
  rw [← hs₁] at h
  rw [← hrs, ← hinserted]
  unfold roundLeft roundParts
  dsimp only at h ⊢
  split_ifs at h ⊢
  · obtain ⟨rfl, rfl⟩ := Prod.mk.inj (Except.ok.inj h)
    simp [inserted, insert, Part.stored, hcurrent]
  · obtain ⟨rfl, rfl⟩ := Prod.mk.inj (Except.ok.inj h)
    simp [inserted]
  · exact merge_eq h hcurrent row row'

end Round

/-! ## Whole runs -/

/-- The rows not read, and the one in hand with the row it comes from, all
have the property. -/
structure Holds (P : Part → Prop) (s : MergeInsertImp) (held : Option Location) : Prop where
  rs : ∀ row ∈ s.rs, P (.whole row)
  current : ∀ c, s.current = some c → ∃ row, held = some row ∧ P ⟨row, c⟩

/-- All that a round inserts and leaves has the property. -/
@[mk_iff]
structure Kept (P : Part → Prop) (c m : Part) : Prop where
  current : ∀ l, (roundLeft c.rest m.rest).1 = some l → P ⟨c.row, l⟩
  toMerge : ∀ l, (roundLeft c.rest m.rest).2 = some l → P ⟨m.row, l⟩
  parts : ∀ p ∈ roundParts c m, P p

section Runs

variable {P : Part → Prop} {Q : Visit → Prop} {n : ℕ} {s s' : MergeInsertImp}
  {held : Option Location} {m : Part}

theorem rs_fetch_of_none (h : s.fetch.current = none) : s.fetch.rs = [] := by
  rcases hcurrent : s.current with - | c
  · rcases hrs : s.rs with - | ⟨row, rs⟩
    · simp [fetch, hcurrent, hrs]
    · simp [fetch, hcurrent, hrs] at h
  · simp [fetch, hcurrent] at h

/-- The row a round works on is one in hand or one just read. -/
theorem Holds.fetch (h : Holds P s held) {c : Location} (hc : s.fetch.current = some c) :
    (∀ row ∈ s.fetch.rs, P (.whole row)) ∧
      P ⟨if s.current.isNone then c else held.getD c, c⟩ := by
  rcases hcurrent : s.current with - | c'
  · rcases hrs : s.rs with - | ⟨row, rs⟩
    · simp [MergeInsertImp.fetch, hcurrent, hrs] at hc
    · have hfetch : s.fetch = { s with current := some row, rs := rs } := by
        simp [MergeInsertImp.fetch, hcurrent, hrs]
      have hall := h.rs
      rw [hrs] at hall
      rw [hfetch] at hc ⊢
      obtain rfl := Option.some.inj hc
      exact ⟨fun r hr => hall r (List.mem_cons_of_mem _ hr), hall row List.mem_cons_self⟩
  · have hfetch : s.fetch = s := by simp [MergeInsertImp.fetch, hcurrent]
    rw [hfetch, hcurrent] at hc
    obtain rfl := Option.some.inj hc
    obtain ⟨row, rfl, hrow⟩ := h.current c' hcurrent
    rw [hfetch]
    exact ⟨h.rs, hrow⟩

/-- **The rule for runs.** A property of parts that a round keeps, where a
condition on the round may be needed for it, holds of all parts a call of
`Insert` works on, if its rounds all meet the condition. -/
theorem visitsOf_forall
    (hround : ∀ c m : Part, P c → P m → Q ⟨some c, m⟩ → Kept P c m)
    (hs : Holds P s held) (hm : P m) (hQ : ∀ v ∈ (visitsOf n s held m).1, Q v) :
    (∀ v ∈ (visitsOf n s held m).1, (∀ c, v.current = some c → P c) ∧ P v.toMerge) ∧
      ∀ s', Insert n s m.rest = some (.ok s') → Holds P s' (visitsOf n s held m).2 := by
  induction n generalizing s held m with
  | zero => simp [visitsOf, Insert]
  | succ n ih =>
    rcases hc : s.fetch.current with - | c
    · -- no table rows are left
      simp only [visitsOf, Insert, hc] at hQ ⊢
      refine ⟨by simp [hm], fun s' h => ?_⟩
      obtain rfl := Except.ok.inj (Option.some.inj h)
      have hrs : s.fetch.rs = [] := rs_fetch_of_none hc
      exact ⟨by simp [insert, hrs], by simp [insert, hc]⟩
    · obtain ⟨hrs, hrow⟩ := hs.fetch hc
      simp only [visitsOf, Insert, hc] at hQ ⊢
      generalize (if s.current.isNone then c else held.getD c) = row at hQ hrow ⊢
      rcases hr : s.fetch.round c m.rest with e | ⟨s₁, left⟩
      · simp
      · obtain ⟨hrs₁, hleft, -⟩ := round_eq hr hc row m.row
        obtain ⟨hcurrent, hrest⟩ := Prod.ext_iff.1 hleft
        simp only [hr] at hQ ⊢
        have hQv : Q ⟨some ⟨row, c⟩, m⟩ := by
          cases left <;> exact hQ _ (by simp)
        obtain ⟨hkeep, hgo, -⟩ := hround ⟨row, c⟩ m hrow hm hQv
        have hs₁ : Holds P s₁ (some row) :=
          ⟨hrs₁ ▸ hrs, fun l hl => ⟨row, rfl, hkeep l (hcurrent ▸ hl)⟩⟩
        have hv : (∀ c', some (⟨row, c⟩ : Part) = some c' → P c') ∧ P m :=
          ⟨fun c' hc' => Option.some.inj hc' ▸ hrow, hm⟩
        cases left with
        | none =>
          refine ⟨by simpa using hv, fun s' h => ?_⟩
          rw [← Except.ok.inj (Option.some.inj h)]
          exact hs₁
        | some rest =>
          have hm' : P ⟨m.row, rest⟩ := hgo rest hrest.symm
          have hmore := ih (m := ⟨m.row, rest⟩) hs₁ hm' fun v hv =>
            hQ v (List.mem_cons_of_mem _ hv)
          exact ⟨List.forall_mem_cons.2 ⟨hv, hmore.1⟩, hmore.2⟩

/-- The same for a sequence of calls. -/
theorem visitsFrom_forall
    (hround : ∀ c m : Part, P c → P m → Q ⟨some c, m⟩ → Kept P c m)
    {ms : List Location} (hs : Holds P s held) (hm : ∀ m ∈ ms, P (.whole m))
    (hQ : ∀ v ∈ visitsFrom n s held ms, Q v) :
    ∀ v ∈ visitsFrom n s held ms, (∀ c, v.current = some c → P c) ∧ P v.toMerge := by
  induction ms generalizing s held with
  | nil => simp [visitsFrom]
  | cons m ms ih =>
    obtain ⟨hmrow, hms⟩ := List.forall_mem_cons.1 hm
    rw [visitsFrom] at hQ ⊢
    have hfirst : ∀ v ∈ (visitsOf n s held (.whole m)).1, Q v := by
      intro v hv
      rcases hi : Insert n s m with - | (e | s') <;> rw [hi] at hQ
      · exact hQ v hv
      · exact hQ v hv
      · exact hQ v (List.mem_append_left _ hv)
    obtain ⟨hvisits, hnext⟩ := visitsOf_forall hround hs hmrow hfirst
    rcases hi : Insert n s m with - | (e | s')
    · exact hvisits
    · exact hvisits
    · rw [hi] at hQ
      intro v hv
      rcases List.mem_append.1 hv with hv | hv
      · exact hvisits v hv
      · exact ih (hnext s' hi) hms (fun v hv => hQ v (List.mem_append_right _ hv)) v hv

/-- **The rule for pieces.** A property of the rows that a round keeps holds
of all a run inserts, if its rounds all meet the condition. -/
theorem pieces_forall
    (hround : ∀ c m : Part, P c → P m → Q ⟨some c, m⟩ → Kept P c m)
    {T M : List Location} (hrows : ∀ row ∈ T ++ M, P (.whole row))
    (hQ : ∀ v ∈ visits n T M, Q v) : ∀ p ∈ pieces n T M, P p := by
  intro p hp
  obtain ⟨v, hv, hp⟩ := List.mem_flatMap.1 hp
  have hT : Holds P { rs := T } none :=
    ⟨fun row hrow => hrows row (List.mem_append_left _ hrow), by simp⟩
  obtain ⟨hcurrent, htoMerge⟩ := visitsFrom_forall hround hT
    (fun m hm => hrows m (List.mem_append_right _ hm)) hQ v hv
  rcases v with ⟨- | c, m⟩
  · rw [List.mem_singleton.1 hp]
    exact htoMerge
  · exact (hround c m (hcurrent c rfl) htoMerge (hQ _ hv)).parts p hp

/-- **A call inserts the parts of its rounds.** -/
theorem inserted_eq_visitsOf (held : Option Location) (h : Insert n s m.rest = some (.ok s')) :
    s'.inserted = s.inserted ++ ((visitsOf n s held m).1.flatMap Visit.parts).map Part.stored := by
  induction n generalizing s held m with
  | zero => simp [Insert] at h
  | succ n ih =>
    have hfetch : s.fetch.inserted = s.inserted := by
      unfold fetch
      split <;> rfl
    rcases hc : s.fetch.current with - | c
    · simp only [visitsOf, Insert, hc] at h ⊢
      rw [← Except.ok.inj (Option.some.inj h), ← hfetch]
      simp [inserted, insert, Visit.parts, Part.stored]
    · simp only [visitsOf, Insert, hc] at h ⊢
      generalize (if s.current.isNone then c else held.getD c) = row
      rcases hr : s.fetch.round c m.rest with e | ⟨s₁, left⟩
      · simp [hr] at h
      · obtain ⟨-, -, hinserted⟩ := round_eq hr hc row m.row
        rw [hfetch] at hinserted
        simp only [hr] at h ⊢
        cases left with
        | none =>
          rw [← Except.ok.inj (Option.some.inj h), hinserted]
          simp [Visit.parts]
        | some rest =>
          have hmore := ih (m := ⟨m.row, rest⟩) (some row) h
          rw [hmore, hinserted, List.flatMap_cons, List.map_append, List.append_assoc]
          rfl

/-- **A run inserts its pieces.** -/
theorem inserted_eq_visitsFrom {ms : List Location} (held : Option Location)
    (h : insertAll n s ms = some (.ok s')) :
    s'.inserted = s.inserted ++ ((visitsFrom n s held ms).flatMap Visit.parts).map Part.stored := by
  induction ms generalizing s held with
  | nil =>
    rw [← Except.ok.inj (Option.some.inj h)]
    simp [visitsFrom]
  | cons m ms ih =>
    rw [insertAll] at h
    rw [visitsFrom]
    rcases hi : Insert n s m with - | (e | s₁)
    · rw [hi] at h
      simp at h
    · rw [hi] at h
      simp at h
    · rw [hi] at h
      have hfirst := inserted_eq_visitsOf (m := .whole m) held hi
      rw [ih _ h, hfirst, List.flatMap_append, List.map_append, List.append_assoc]

end Runs

/-! ## Runs end -/

section Ends

variable {n : ℕ} {s s' : MergeInsertImp} {c m : Location}

/-- The rows a call may still meet. -/
def rowsAhead (s : MergeInsertImp) : ℕ := s.current.toList.length + s.rs.length

theorem rowsAhead_fetch : s.fetch.rowsAhead = s.rowsAhead := by
  rcases hcurrent : s.current with - | c <;> rcases hrs : s.rs with - | ⟨row, rs⟩ <;>
    simp [fetch, rowsAhead, hcurrent, hrs, Nat.add_comm]

/-- A loop that goes on has done with the table row in hand. -/
theorem fst_roundLeft {l : Location} (h : (roundLeft c m).2 = some l) :
    (roundLeft c m).1 = none := by
  unfold roundLeft overlapLeft at h ⊢
  split_ifs at h ⊢ <;> rfl

/-- A call ends, by an exception if not with its statements, and leaves no
more rows than there were. -/
theorem exists_Insert (h : s.rowsAhead < n) :
    ∃ r, Insert n s m = some r ∧ ∀ s', r = .ok s' → s'.rowsAhead ≤ s.rowsAhead := by
  -- a row in hand is given up in every round but the last
  induction n generalizing s m with
  | zero => omega
  | succ n ih =>
    rw [← rowsAhead_fetch] at h ⊢
    rcases hc : s.fetch.current with - | c
    · refine ⟨.ok (s.fetch.insert m), by simp only [Insert, hc], ?_⟩
      rintro s' ⟨⟩
      exact le_rfl
    rcases hr : s.fetch.round c m with e | ⟨s₁, left⟩
    · exact ⟨.error e, by simp only [Insert, hc, hr], by simp⟩
    obtain ⟨hrs, hleft, -⟩ := round_eq hr hc c m
    obtain ⟨hcurrent, hrest⟩ := Prod.ext_iff.1 hleft
    cases left with
    | none =>
      refine ⟨.ok s₁, by simp only [Insert, hc, hr], ?_⟩
      rintro s' ⟨⟩
      have hle : s₁.current.toList.length ≤ 1 := by cases s₁.current <;> simp
      simp only [rowsAhead, hrs, hc, Option.toList_some, List.length_singleton]
      omega
    | some l =>
      have hnone : s₁.current = none := hcurrent.trans (fst_roundLeft hrest.symm)
      have hlt : s₁.rowsAhead < s.fetch.rowsAhead := by
        simp [rowsAhead, hrs, hc, hnone]
      obtain ⟨r, hi, hle⟩ := ih (m := l) (hlt.trans_le (Nat.le_of_lt_succ h))
      exact ⟨r, by simp only [Insert, hc, hr, hi], fun s' hs' => (hle s' hs').trans hlt.le⟩

/-- A sequence of calls ends. -/
theorem exists_insertAll {ms : List Location} (h : s.rowsAhead < n) :
    ∃ r, insertAll n s ms = some r := by
  induction ms generalizing s with
  | nil => exact ⟨_, rfl⟩
  | cons m ms ih =>
    obtain ⟨r, hi, hle⟩ := exists_Insert (m := m) h
    rcases r with e | s₁
    · exact ⟨.error e, by simp only [insertAll, hi]⟩
    · obtain ⟨r, hr⟩ := ih ((hle s₁ rfl).trans_lt h)
      exact ⟨r, by simp only [insertAll, hi, hr]⟩

end Ends

/-! ## The shapes of a round -/

/-- The incoming row covers the table row: it is inserted by copies. -/
def Covers (c m : Location) : Prop :=
  m.nBeginIp ≤ c.nBeginIp ∧ c.nBeginIp ≤ m.nEndIp ∧ m.nBeginIp ≤ c.nEndIp ∧ c.nEndIp ≤ m.nEndIp

/-- The incoming row is laid into the table row behind its beginning: the
front of the table row is inserted by a copy. -/
def LaidInto (c m : Location) : Prop :=
  c.nBeginIp < m.nBeginIp ∧ m.nBeginIp ≤ c.nEndIp ∧ m.nEndIp ≤ c.nEndIp ∧ c.nBeginIp ≤ m.nEndIp

section Shapes

variable {P : Part → Prop} {c m : Part} (hc : P c) (hm : P m)
  (hfront : ∀ b, c.rest.nBeginIp ≤ b →
    P ⟨c.row, shrink c.rest b⟩ ∧ P ⟨c.row, named (shrink c.rest b)⟩)
  (hback : ∀ e ≤ c.rest.nEndIp,
    P ⟨c.row, { c.rest with nEndIp := e, endIp := some (Util.longToIP e) }⟩)
  (hcovers : Covers c.rest m.rest → P ⟨m.row, endAt m.rest c.rest.nEndIp⟩ ∧
    P ⟨m.row, beginAt m.rest (c.rest.nEndIp + 1)⟩)
  (hlaid : LaidInto c.rest m.rest → P ⟨c.row, endAt c.rest (m.rest.nBeginIp - 1)⟩)

include hm hfront hback hcovers hlaid

theorem overlap_forall (h1 : c.rest.nBeginIp ≤ m.rest.nEndIp)
    (h2 : m.rest.nBeginIp ≤ c.rest.nEndIp) :
    (∀ l, (overlapLeft c.rest m.rest).1 = some l → P ⟨c.row, l⟩) ∧
      (∀ l, (overlapLeft c.rest m.rest).2 = some l → P ⟨m.row, l⟩) ∧
      ∀ p ∈ overlapParts c m, P p := by
  unfold overlapLeft overlapParts
  by_cases h3 : m.rest.nEndIp ≥ c.rest.nEndIp ∧ m.rest.nBeginIp ≤ c.rest.nBeginIp
  · -- the incoming row covers the current one
    obtain ⟨hend, hbegin⟩ := hcovers ⟨h3.2, h1, h2, h3.1⟩
    simp only [if_pos h3]
    refine ⟨?_, ?_, ?_⟩
    · rintro l ⟨⟩
    · intro l hl
      split_ifs at hl
      cases hl
      exact hbegin
    · simpa using hend
  by_cases h4 : m.rest.nEndIp ≤ c.rest.nEndIp ∧ m.rest.nBeginIp ≥ c.rest.nBeginIp
  · -- it lies inside
    obtain ⟨hshrink, hnamed⟩ := hfront (m.rest.nEndIp + 1) (by omega)
    simp only [if_neg h3, if_pos h4]
    refine ⟨?_, ?_, ?_⟩
    · intro l hl
      split_ifs at hl
      cases hl
      exact hnamed
    · rintro l ⟨⟩
    · intro p hp
      rw [List.mem_append, List.mem_cons] at hp
      rcases hp with hp | rfl | hp
      · split_ifs at hp with hne
        · rw [List.mem_singleton.1 hp]
          exact hlaid ⟨by omega, h2, h4.1, h1⟩
        · cases hp
      · exact hm
      · split_ifs at hp with hne
        · rw [List.mem_singleton.1 hp]
          exact hshrink
        · cases hp
  by_cases h5 : m.rest.nBeginIp < c.rest.nBeginIp ∧ m.rest.nEndIp < c.rest.nEndIp ∧
      m.rest.nEndIp ≥ c.rest.nBeginIp
  · -- it overlaps the front
    obtain ⟨hshrink, hnamed⟩ := hfront (m.rest.nEndIp + 1) (by omega)
    simp only [if_neg h3, if_neg h4, if_pos h5]
    refine ⟨?_, ?_, ?_⟩
    · rintro l ⟨⟩
      exact hnamed
    · rintro l ⟨⟩
    · simpa using ⟨hm, hshrink⟩
  -- the row that overlaps the back is the last: the error branch is not reached
  have h6 : m.rest.nEndIp > c.rest.nEndIp ∧ m.rest.nBeginIp > c.rest.nBeginIp ∧
      m.rest.nBeginIp ≤ c.rest.nEndIp := by omega
  simp only [if_neg h3, if_neg h4, if_neg h5, if_pos h6]
  refine ⟨?_, ?_, ?_⟩
  · rintro l ⟨⟩
  · rintro l ⟨⟩
    exact hm
  · simpa using hback (m.rest.nBeginIp - 1) (by omega)

include hc

/-- **What holds of all a round inserts and leaves**: of a row with its
address in place, of the table row with its front or its back taken, of the
two copies of an incoming row that covers it and of the copy of the front that
an incoming row laid into it leaves. -/
theorem round_forall : Kept P c m := by
  rw [kept_iff]
  unfold roundLeft roundParts
  by_cases h1 : m.rest.nEndIp < c.rest.nBeginIp
  · simp only [if_pos h1]
    refine ⟨?_, ?_, ?_⟩
    · rintro l ⟨⟩
      exact hc
    · rintro l ⟨⟩
    · simpa using hm
  by_cases h2 : m.rest.nBeginIp > c.rest.nEndIp
  · simp only [if_neg h1, if_pos h2]
    refine ⟨?_, ?_, ?_⟩
    · rintro l ⟨⟩
    · rintro l ⟨⟩
      exact hm
    · simp
  simp only [if_neg h1, if_neg h2]
  exact overlap_forall hm hfront hback hcovers hlaid (not_lt.1 h1) (not_lt.1 h2)

end Shapes

/-! ## Rows -/

/-- The part lies within its row, which is one of those given. -/
def Part.Of (rows : List Location) (p : Part) : Prop := p.Within ∧ p.row ∈ rows

/-- A round cuts within the rows it is given. -/
theorem round_of {rows : List Location} {c m : Part} (hc : c.Of rows) (hm : m.Of rows) :
    Kept (Part.Of rows) c m := by
  obtain ⟨⟨hc1, hc2⟩, hcrow⟩ := id hc
  obtain ⟨⟨hm1, hm2⟩, hmrow⟩ := id hm
  refine round_forall hc hm ?_ ?_ ?_ ?_
  · intro b hb
    exact ⟨⟨⟨hc1.trans hb, hc2⟩, hcrow⟩, ⟨hc1.trans hb, hc2⟩, hcrow⟩
  · intro e he
    exact ⟨⟨hc1, he.trans hc2⟩, hcrow⟩
  · rintro ⟨-, -, hbegin, hend⟩
    refine ⟨⟨⟨hm1, hend.trans hm2⟩, hmrow⟩, ⟨?_, hm2⟩, hmrow⟩
    change m.row.nBeginIp ≤ c.rest.nEndIp + 1
    omega
  · rintro ⟨hbegin, hend, -, -⟩
    refine ⟨⟨hc1, ?_⟩, hcrow⟩
    change m.rest.nBeginIp - 1 ≤ c.row.nEndIp
    omega

/-! ## Columns -/

/-- **The round loses a county**: the row it copies has one. -/
def Visit.Drops (v : Visit) : Prop :=
  ∃ c, v.current = some c ∧
    ((Covers c.rest v.toMerge.rest ∧ v.toMerge.row.columns.county ≠ "") ∨
      (LaidInto c.rest v.toMerge.rest ∧ c.row.columns.county ≠ ""))

theorem columns_copy {l : Location} (h : l.columns.county = "") : l.copy.columns = l.columns := by
  simp only [Location.columns] at h
  simp only [Location.columns, Location.copy, h]
  rfl

theorem columns_endAt (l : Location) (e : ℤ) : (endAt l e).columns = l.copy.columns := rfl

theorem columns_beginAt (l : Location) (b : ℤ) : (beginAt l b).columns = l.copy.columns := rfl

/-- A copy carries the columns of a row without a county, and only of such
a row. -/
theorem columns_copy_eq_iff {row l : Location} (h : l.columns = row.columns) :
    l.copy.columns = row.columns ↔ row.columns.county = "" := by
  constructor
  · intro hcopy
    rw [← hcopy]
    rfl
  · intro hcounty
    rw [columns_copy (h ▸ hcounty), h]

/-- **A round that loses no county keeps all columns**, in what it inserts
and in what it leaves. -/
theorem round_carries {c m : Part} (hc : c.Carries) (hm : m.Carries)
    (hd : ¬ Visit.Drops ⟨some c, m⟩) : Kept Part.Carries c m := by
  rw [Part.carries_iff] at hc hm
  have hcover : Covers c.rest m.rest → m.row.columns.county = "" := by
    intro h
    by_contra hne
    exact hd ⟨c, rfl, Or.inl ⟨h, hne⟩⟩
  have hlaid : LaidInto c.rest m.rest → c.row.columns.county = "" := by
    intro h
    by_contra hne
    exact hd ⟨c, rfl, Or.inr ⟨h, hne⟩⟩
  refine round_forall hc hm ?_ ?_ ?_ ?_
  -- what is cut in place keeps its columns
  · intro b _
    exact ⟨hc, hc⟩
  · intro e _
    exact hc
  · intro h
    rw [Part.carries_iff, Part.carries_iff, columns_endAt, columns_beginAt]
    exact ⟨(columns_copy_eq_iff hm).2 (hcover h), (columns_copy_eq_iff hm).2 (hcover h)⟩
  · intro h
    rw [Part.carries_iff, columns_endAt]
    exact (columns_copy_eq_iff hc).2 (hlaid h)

/-- A round that loses a county inserts a piece without it. -/
theorem Visit.Drops.exists_part {v : Visit} (h : v.Drops) : ∃ p ∈ v.parts, ¬ p.Carries := by
  obtain ⟨c, hc, ⟨⟨h1, h2, h3, h4⟩, hcounty⟩ | ⟨⟨h1, h2, h3, h4⟩, hcounty⟩⟩ := h
  · refine ⟨⟨v.toMerge.row, endAt v.toMerge.rest c.rest.nEndIp⟩, ?_, ?_⟩
    · simp only [Visit.parts, hc, roundParts, overlapParts]
      rw [if_neg (not_lt.2 h2), if_neg (not_lt.2 h3), if_pos ⟨h4, h1⟩]
      exact List.mem_singleton_self _
    · intro hcarries
      exact hcounty (congrArg Columns.county hcarries).symm
  · refine ⟨⟨c.row, endAt c.rest (v.toMerge.rest.nBeginIp - 1)⟩, ?_, ?_⟩
    · simp only [Visit.parts, hc, roundParts, overlapParts]
      rw [if_neg (not_lt.2 h4), if_neg (not_lt.2 h2), if_neg (by omega), if_pos ⟨h3, h1.le⟩,
        if_pos h1.ne]
      exact List.mem_append_left _ (List.mem_singleton_self _)
    · intro hcarries
      exact hcounty (congrArg Columns.county hcarries).symm

/-- **A run keeps all columns as long as it loses no county.** A run ends,
and if no exception ends it, its rows are inserted from its pieces. Every
piece lies within a row of the table or an incoming one, and all of them carry
the columns of their rows just if no round loses a county. -/
theorem inserts_keep_columns_iff (T M : List Location) (n : ℕ) (hn : T.length < n) :
    (∃ r, insertAll n { rs := T } M = some r ∧
        ∀ s, r = .ok s → s.inserted = (pieces n T M).map Part.stored) ∧
      (∀ p ∈ pieces n T M, p.Of (T ++ M)) ∧
      ((∀ p ∈ pieces n T M, p.Carries) ↔ ∀ v ∈ visits n T M, ¬ v.Drops) := by
  refine ⟨?_, ?_, ?_, ?_⟩
  · obtain ⟨r, hr⟩ : ∃ r, insertAll n { rs := T } M = some r :=
      exists_insertAll (by simpa [rowsAhead])
    refine ⟨r, hr, ?_⟩
    rintro s rfl
    exact inserted_eq_visitsFrom none hr
  · exact pieces_forall (Q := fun _ => True) (fun c m hc hm _ => round_of hc hm)
      (fun row hrow => ⟨⟨le_rfl, le_rfl⟩, hrow⟩) (by simp)
  · intro hcarries v hv hdrops
    obtain ⟨p, hp, hnot⟩ := hdrops.exists_part
    exact hnot (hcarries p (List.mem_flatMap.2 ⟨v, hv, hp⟩))
  · exact pieces_forall (fun c m => round_carries) (fun row _ => rfl)

/-- A row with a county. -/
def countyRow : Location := { Location.ofBounds 0 10 (some "A") with county := some "X" }

/-- A row over the front of a table row leaves its county alone. -/
theorem inserts_keep_columns_front :
    [countyRow].length < 2 ∧
      ∀ v ∈ visits 2 [countyRow] [Location.ofBounds (-5) 3 (some "B")], ¬ v.Drops :=
  ⟨by decide, (inserts_keep_columns_iff [countyRow] [Location.ofBounds (-5) 3 (some "B")] 2
    (by decide)).2.2.1 (by decide)⟩

/-- **A row laid into the middle costs the front its county.** Of the three
rows inserted the last one, cut in place, still has it. -/
theorem insert_loses_county :
    ∃ s, Returns [countyRow] [Location.ofBounds 5 6 (some "B")] s ∧
      s.inserted.map (fun l => (l.nBeginIp, l.nEndIp, l.country, l.county)) =
        [(0, 4, some "A", some ""), (5, 6, some "B", some ""), (7, 10, some "A", some "X")] :=
  exists_returns (n := 2) rfl

end MergeInsertImp

end LoadIp

end Xpod
