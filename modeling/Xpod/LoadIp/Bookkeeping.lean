import Xpod.Common.Sweep.Boundaries
import Xpod.LoadIp.IpClear
/-!
# The counters of the flattener

`transfer` prints how many rows it delivers more than it read. Every turn
that makes one row more or one less of the open row and the newcomer
counts it, so the rows in play and those loaded are always the rows read
and the counter. The rows loaded begin at bounds of the rows read and are
fewer than twice as many.
-/

namespace Xpod

namespace LoadIp

namespace IpClear

open Sweep Location

/-- `insertNum`: the calls of `load` that were given a row. -/
def insertNum (s : IpClear) : ℕ := s.loaded.length

/-- The rows in play and those loaded, less the counter. -/
def tally (s : IpClear) : ℤ :=
  s.rs.length + s.ordLocations.length + s.last.toList.length + s.loaded.length - s.count

/-! ## One turn -/

/-- Choosing the current location takes it out of play. -/
theorem tally_takeCurrent {s s' : IpClear} {current : Location}
    (h : s.takeCurrent = some (current, s')) : s'.tally + 1 = s.tally ∧ s'.last = s.last := by
  rw [takeCurrent_eq] at h
  have hlength : (sort (s.ordLocations ++ (s.rs.take 1).map readRow)).length =
      s.ordLocations.length + (s.rs.take 1).length := by
    rw [sort, List.length_insertionSort, List.length_append, List.length_map]
  rcases hsort : sort (s.ordLocations ++ (s.rs.take 1).map readRow) with - | ⟨c, q⟩
  · rw [hsort] at h
    simp at h
  · rw [hsort] at h hlength
    obtain ⟨rfl, rfl⟩ := Prod.mk.inj (Option.some.inj h)
    refine ⟨?_, rfl⟩
    have hrs : (s.rs.take 1).length + (s.rs.drop 1).length = s.rs.length := by
      rw [← List.length_append, List.take_append_drop]
    simp only [tally, List.length_cons] at hlength ⊢
    omega

/-- The loop ends when nothing waits and nothing is unread. -/
theorem takeCurrent_eq_none {s : IpClear} (h : s.takeCurrent = none) :
    s.rs = [] ∧ s.ordLocations = [] := by
  rw [takeCurrent_eq] at h
  rcases hsort : sort (s.ordLocations ++ (s.rs.take 1).map readRow) with - | ⟨c, q⟩
  · have hnil : s.ordLocations ++ (s.rs.take 1).map readRow = [] :=
      List.perm_nil.1 (hsort ▸ (List.perm_insertionSort _ _).symm)
    obtain ⟨hord, hrs⟩ := List.append_eq_nil_iff.1 hnil
    refine ⟨?_, hord⟩
    rcases hr : s.rs with - | ⟨row, rs⟩
    · rfl
    · rw [hr] at hrs
      simp at hrs
  · rw [hsort] at h
    simp at h

/-- The inner branch counts what it makes of two rows. -/
theorem tally_inner {s : IpClear} {last : Location} (current : Location)
    (hlast : s.last = some last) : (s.inner last current).tally = s.tally + 1 := by
  unfold inner tally
  rcases frontOf last current with - | one <;> rcases behindOf last current with - | three <;>
    simp [load, println, hlast] <;> omega

/-- The messages of the outer branch print and nothing else. -/
theorem tally_report {s s' : IpClear} {last current two three : Location}
    {one : Option Location} (h : s.report last current one two three = .ok s') :
    s'.tally = s.tally ∧ s'.last = s.last := by
  rcases report_eq s last current one two three with ⟨-, hr⟩ | ⟨-, lines, hr⟩
  · rw [hr] at h
    simp at h
  · rw [hr] at h
    rw [← Except.ok.inj h]
    exact ⟨rfl, rfl⟩

theorem tally_loadFront (s : IpClear) (one : Option Location) :
    (s.loadFront one).tally = s.tally ∧ (s.loadFront one).last = s.last := by
  rcases one with - | one
  · exact ⟨rfl, rfl⟩
  · refine ⟨?_, rfl⟩
    simp only [loadFront, Option.isSome_some, if_true, tally, load, println, Option.toList_some,
      List.length_append, List.length_singleton]
    push_cast
    ring

/-- So does the outer one. -/
theorem tally_outer {s s' : IpClear} {last current : Location} (hlast : s.last = some last)
    (h : s.outer last current = .ok s') : s'.tally = s.tally + 1 := by
  obtain ⟨s₁, hreport, hs'⟩ := Java.bind_eq_ok.1 h
  obtain ⟨htally, hlast₁⟩ := tally_report hreport
  obtain ⟨hfront, hlast₂⟩ := tally_loadFront s (frontOf last current)
  obtain rfl := Except.ok.inj hs'
  rw [hlast] at hlast₂
  simp only [tally, hlast₁, hlast₂, List.length_append, List.length_singleton,
    Option.toList_some] at htally hfront ⊢
  push_cast at htally
  omega

/-- **A turn keeps the tally**: it puts the current location back into play
or counts what became of it. -/
theorem tally_turn {s s' : IpClear} {current : Location} (h : s.turn current = .ok s') :
    s'.tally = s.tally + 1 := by
  unfold turn at h
  rcases hlast : s.last with - | last
  · rw [hlast] at h
    rw [← Except.ok.inj h]
    simp [tally, hlast]
    omega
  · rw [hlast] at h
    dsimp only at h
    split_ifs at h
    · rw [← Except.ok.inj h]
      exact tally_inner current hlast
    · exact tally_outer hlast h
    · rw [← Except.ok.inj h]
      simp [tally, load, hlast]
      omega

/-! ## Whole runs -/

/-- **The loop keeps the tally**, and leaves nothing waiting or unread. -/
theorem tally_transferLoop {n : ℕ} {s s' : IpClear} (h : transferLoop n s = some (.ok s')) :
    s'.tally = s.tally ∧ s'.rs = [] ∧ s'.ordLocations = [] := by
  induction n generalizing s with
  | zero => simp [transferLoop] at h
  | succ n ih =>
    rw [transferLoop] at h
    rcases htake : s.takeCurrent with - | ⟨current, s₁⟩
    · rw [htake] at h
      obtain rfl := Except.ok.inj (Option.some.inj h)
      exact ⟨rfl, takeCurrent_eq_none htake⟩
    · rw [htake] at h
      dsimp only at h
      rcases hturn : s₁.turn current with e | s₂
      · rw [hturn] at h
        simp at h
      · rw [hturn] at h
        obtain ⟨htally, hempty⟩ := ih h
        have hone := (tally_takeCurrent htake).1
        have htwo := tally_turn hturn
        exact ⟨by omega, hempty⟩

/-- **The books balance**: the count printed last is how many rows were
loaded more than were read; each row loaded begins where a row begins or
right behind the end of one; and fewer than twice as many are loaded. -/
structure Balanced (rows : List Location) (s : IpClear) : Prop where
  printed : ∃ count : ℤ, s.out.getLast? = some ("new count " ++ toString count) ∧
    (s.insertNum : ℤ) = rows.length + count
  bounds : ∀ l ∈ s.loaded, ∃ r ∈ rows, l.nBeginIp = r.nBeginIp ∨ l.nBeginIp = r.nEndIp + 1
  linear : s.insertNum ≤ 2 * rows.length - 1

theorem finish_out (s : IpClear) :
    s.finish.out.getLast? = some ("new count " ++ toString s.count) := by
  unfold finish
  dsimp only
  split <;> simp [println, load]

/-- What `transfer` prints and loads adds up. -/
theorem printed_of_returns {rows : List Location} {s : IpClear} (h : Returns rows (.ok s)) :
    ∃ count : ℤ, s.out.getLast? = some ("new count " ++ toString count) ∧
      (s.insertNum : ℤ) = rows.length + count := by
  obtain ⟨n, hn⟩ := h
  obtain ⟨r, hloop, hr⟩ := Option.map_eq_some_iff.1 (hn n le_rfl)
  rcases r with e | s₀
  · simp [Except.map] at hr
  · obtain rfl := Except.ok.inj hr
    obtain ⟨htally, hrs, hord⟩ := tally_transferLoop hloop
    refine ⟨s₀.count, finish_out s₀, ?_⟩
    rw [insertNum, finish_loaded, List.length_append]
    simp only [tally, hrs, hord, List.length_nil, Option.toList_none] at htally
    push_cast at htally ⊢
    omega

end IpClear

end LoadIp

end Xpod
