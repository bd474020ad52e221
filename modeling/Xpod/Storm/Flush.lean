import Mathlib.Data.BitVec
import Mathlib.Tactic
import Xpod.Common.Counters
import Xpod.Storm.Balance
import Xpod.Storm.Model.StatActors
/-!
# No update is lost or doubled between the statistics actors

A map that was sent is no longer the value of a variable of `act`, and
only the maps the variables refer to are written to. So a batch stays as
it was sent, and the system of the two actors and its heap behaves as the
actor whose batches are values. For that actor a tick moves what a
container holds into a batch, and every other message adds its increments
to a container.
-/

namespace Xpod

namespace Storm

namespace WriteToHbase

/-! ## What a message contributes -/

/-- The table an operation belongs to. -/
def table : Module → Table
  | .songListen => .songStat
  | .songDownload => .downloadStat

/-- The merge of an entry of a message. -/
def mergeOf (pubinfo : PubInfo) (entry : StatKey × StatValue) : Merge :=
  ⟨table entry.1.module, entry.1, entry.2, pubinfo⟩

/-- The merges a message asks for. -/
def Message.merges : Message → List Merge
  | .stats entries pubinfo => entries.map (mergeOf pubinfo)
  | .tick => []

/-- **The contributions of messages** to the cells of a table. -/
def contributions (t : Table) (ms : List Message) : List ((Text × Text) × Count) :=
  ms.flatMap fun m => m.merges.flatMap (Merge.increments t)

/-- The containers of the actor. -/
def Actor.containers (a : Actor) : Containers := ⟨a.songKeyCount, a.downKeyCount⟩

section Actor

variable {a : Actor} {pubinfo : PubInfo}

theorem mergeStat_containers (pubinfo : PubInfo) (ha : a.running = true)
    (entry : StatKey × StatValue) :
    (mergeStat pubinfo a entry).containers = a.containers.merge (mergeOf pubinfo entry) ∧
      (mergeStat pubinfo a entry).sent = a.sent := by
  obtain ⟨⟨module, statType, cdnInfo, quality⟩, count⟩ := entry
  obtain ⟨song, down, sent, running⟩ := a
  obtain rfl : running = true := ha
  cases module <;> exact ⟨rfl, rfl⟩

/-- A message that does not crash is merged entry by entry. -/
theorem foldl_mergeStat_containers (ha : a.running = true) (hp : ¬ Unmergeable pubinfo)
    (entries : List (StatKey × StatValue)) :
    (entries.foldl (mergeStat pubinfo) a).containers =
        (entries.map (mergeOf pubinfo)).foldl Containers.merge a.containers ∧
      (entries.foldl (mergeStat pubinfo) a).sent = a.sent := by
  induction entries generalizing a with
  | nil => exact ⟨rfl, rfl⟩
  | cons entry entries ih =>
    obtain ⟨hcontainers, hsent⟩ := mergeStat_containers pubinfo ha entry
    obtain ⟨ihcontainers, ihsent⟩ := ih ((mergeStat_running ha entry).2 hp)
    rw [List.foldl_cons, List.map_cons, List.foldl_cons, ihcontainers, ihsent, hcontainers, hsent]
    exact ⟨rfl, rfl⟩

theorem act_stats (ha : a.running = true) {entries : List (StatKey × StatValue)}
    (hm : ¬ (Message.stats entries pubinfo).Crashes) :
    (act a (.stats entries pubinfo)).containers =
        (Message.stats entries pubinfo).merges.foldl Containers.merge a.containers ∧
      (act a (.stats entries pubinfo)).sent = a.sent := by
  have hact : act a (.stats entries pubinfo) = entries.foldl (mergeStat pubinfo) a := by
    simp [act, ha]
  rw [hact]
  rcases entries with - | ⟨entry, entries⟩
  · exact ⟨rfl, rfl⟩
  · exact foldl_mergeStat_containers ha (fun hp => hm ⟨List.cons_ne_nil _ _, hp⟩) _

end Actor

/-! ## Conservation -/

/-- A cell summed over the batches of a table. -/
def batchSum (t : Table) (cell : Text × Text) (sent : List (Container × Table)) : Count :=
  (sent.map fun b => if b.2 = t then value b.1 cell else 0).sum

theorem batchSum_append (t : Table) (cell : Text × Text) (sent more : List (Container × Table)) :
    batchSum t cell (sent ++ more) = batchSum t cell sent + batchSum t cell more := by
  simp [batchSum]

/-- A container without rows holds nothing. -/
theorem value_of_no_entries {c : Container} (hc : c.entries.length = 0) (cell : Text × Text) :
    value c cell = 0 := by
  obtain rfl : c = ∅ := AList.ext (List.length_eq_zero_iff.1 hc)
  rfl

theorem batchSum_send (t t' : Table) (cell : Text × Text) (c : Container) :
    batchSum t cell (send c t') = if t' = t then value c cell else 0 := by
  unfold send
  split
  · simp [batchSum]
  · next hc => simp [batchSum, value_of_no_entries (Nat.eq_zero_of_not_pos hc)]

section Conservation

variable {a : Actor}

/-- **One turn keeps the account**: a tick moves a cell from the container
to a batch, a message adds its contributions. -/
theorem act_conserves (ha : a.running = true) {m : Message} (hm : ¬ m.Crashes) (t : Table)
    (cell : Text × Text) :
    batchSum t cell (act a m).sent + value ((act a m).containers.of t) cell =
      batchSum t cell a.sent + value (a.containers.of t) cell +
        (Counters.amounts cell (m.merges.flatMap (Merge.increments t))).sum := by
  cases m with
  | stats entries pubinfo =>
    obtain ⟨hcontainers, hsent⟩ := act_stats ha hm
    rw [hcontainers, hsent, value_of_foldl, add_assoc]
  | tick =>
    have hact : act a .tick = { a with
        sent := a.sent ++ send a.songKeyCount .songStat ++ send a.downKeyCount .downloadStat
        songKeyCount := ∅
        downKeyCount := ∅ } := by
      simp [act, ha]
    have hempty : value ((act a .tick).containers.of t) cell = 0 := by
      rw [hact]
      cases t <;> rfl
    rw [hempty, hact, batchSum_append, batchSum_append, batchSum_send, batchSum_send]
    cases t <;> simp [Actor.containers, Containers.of, Message.merges]

/-- **Every run keeps the account.** -/
theorem run_conserves (ha : a.running = true) {ms : List Message} (hms : ∀ m ∈ ms, ¬ m.Crashes)
    (t : Table) (cell : Text × Text) :
    batchSum t cell (run a ms).sent + value ((run a ms).containers.of t) cell =
      batchSum t cell a.sent + value (a.containers.of t) cell +
        (Counters.amounts cell (contributions t ms)).sum := by
  induction ms generalizing a with
  | nil => simp [run, contributions]
  | cons m ms ih =>
    obtain ⟨hm, hms⟩ := List.forall_mem_cons.1 hms
    change batchSum t cell (run (act a m) ms).sent +
      value ((run (act a m) ms).containers.of t) cell = _
    rw [ih ((act_running ha m).2 hm) hms, act_conserves ha hm, contributions, contributions,
      List.flatMap_cons, Counters.amounts_append, List.sum_append]
    simp only [add_assoc]

end Conservation

/-! ## Where cells come from -/

/-- The container has the cell. -/
def Has (c : Container) (cell : Text × Text) : Prop :=
  ∃ row, c.lookup cell.1 = some row ∧ (row.lookup cell.2).isSome = true

theorem not_has_empty (cell : Text × Text) : ¬ Has ∅ cell := by
  rintro ⟨row, hrow, -⟩
  simp at hrow

/-- `add` makes no cell but its own. -/
theorem of_has_add {c : Container} {r f : Text} {n : Count} {cell : Text × Text}
    (h : Has (add c r f n) cell) : cell = (r, f) ∨ Has c cell := by
  obtain ⟨r', f'⟩ := cell
  obtain ⟨row, hrow, hcell⟩ := h
  by_cases hr : r' = r
  · subst hr
    by_cases hf : f' = f
    · exact Or.inl (by rw [hf])
    · right
      rcases hold : c.lookup r' with - | old
      · simp only [add, hold, AList.lookup_insert, Option.some.injEq] at hrow
        rw [← hrow, lookup_singleton, if_neg hf] at hcell
        simp at hcell
      · refine ⟨old, hold, ?_⟩
        rcases hcount : old.lookup f with - | count <;>
          simp only [add, hold, hcount, AList.lookup_insert, Option.some.injEq] at hrow <;>
          rwa [← hrow, AList.lookup_insert_ne hf] at hcell
  · right
    refine ⟨row, ?_, hcell⟩
    rcases hold : c.lookup r with - | old
    · simpa only [add, hold, AList.lookup_insert_ne hr] using hrow
    · rcases hcount : old.lookup f with - | count <;>
        simpa only [add, hold, hcount, AList.lookup_insert_ne hr] using hrow

theorem of_has_foldl {is : List ((Text × Text) × Count)} {c : Container} {cell : Text × Text}
    (h : Has (is.foldl (fun c i => add c i.1.1 i.1.2 i.2) c) cell) :
    cell ∈ is.map Prod.fst ∨ Has c cell := by
  induction is generalizing c with
  | nil => exact Or.inr h
  | cons i is ih =>
    rcases ih h with hmem | hhas
    · exact Or.inl (List.mem_cons_of_mem _ hmem)
    · rcases of_has_add hhas with rfl | hhas
      · exact Or.inl List.mem_cons_self
      · exact Or.inr hhas

/-- The cell is in the container or a batch of the table. -/
def Actor.Has (a : Actor) (t : Table) (cell : Text × Text) : Prop :=
  WriteToHbase.Has (a.containers.of t) cell ∨ ∃ b ∈ a.sent, b.2 = t ∧ WriteToHbase.Has b.1 cell

section Provenance

variable {a : Actor} {t : Table} {cell : Text × Text}

theorem of_has_merges {cs : Containers} {ms : List Merge}
    (h : Has ((ms.foldl Containers.merge cs).of t) cell) :
    cell ∈ (ms.flatMap (Merge.increments t)).map Prod.fst ∨ Has (cs.of t) cell := by
  induction ms generalizing cs with
  | nil => exact Or.inr h
  | cons m ms ih =>
    rw [List.flatMap_cons, List.map_append, List.mem_append]
    rcases ih h with hmem | hhas
    · exact Or.inl (Or.inr hmem)
    · rw [of_merge] at hhas
      exact (of_has_foldl hhas).imp_left Or.inl

/-- A turn brings no cell to a table but those its operations count in. -/
theorem of_has_act (ha : a.running = true) {m : Message} (hm : ¬ m.Crashes)
    (h : (act a m).Has t cell) :
    cell ∈ (m.merges.flatMap (Merge.increments t)).map Prod.fst ∨ a.Has t cell := by
  cases m with
  | stats entries pubinfo =>
    obtain ⟨hcontainers, hsent⟩ := act_stats ha hm
    rw [Actor.Has, hcontainers, hsent] at h
    rcases h with h | h
    · exact (of_has_merges h).imp_right Or.inl
    · exact Or.inr (Or.inr h)
  | tick =>
    right
    have hsend : ∀ c t', ∀ b ∈ send c t', b = (c, t') := by
      intro c t' b hb
      unfold send at hb
      split at hb
      · exact List.mem_singleton.1 hb
      · simp at hb
    simp only [act, ha, Bool.not_true, Bool.false_eq_true, if_false] at h
    rcases h with h | ⟨b, hb, rfl, hcell⟩
    · cases t <;> exact absurd h (not_has_empty cell)
    · rcases List.mem_append.1 hb with hb | hb
      · rcases List.mem_append.1 hb with hb | hb
        · exact Or.inr ⟨b, hb, rfl, hcell⟩
        · obtain rfl := hsend _ _ b hb
          exact Or.inl hcell
      · obtain rfl := hsend _ _ b hb
        exact Or.inl hcell

/-- **Every cell of a table comes from an operation of that table.** -/
theorem of_has_run (ha : a.running = true) {ms : List Message} (hms : ∀ m ∈ ms, ¬ m.Crashes)
    (h : (run a ms).Has t cell) :
    cell ∈ (contributions t ms).map Prod.fst ∨ a.Has t cell := by
  induction ms generalizing a with
  | nil => exact Or.inr h
  | cons m ms ih =>
    obtain ⟨hm, hms⟩ := List.forall_mem_cons.1 hms
    rw [contributions, List.flatMap_cons, List.map_append, List.mem_append]
    rcases ih ((act_running ha m).2 hm) hms h with hmem | hhas
    · exact Or.inl (Or.inr hmem)
    · exact (of_has_act ha hm hhas).imp_left Or.inl

end Provenance

/-! ## Batches stay as they were sent -/

namespace System

/-- The state with its references followed. -/
def view (s : System) : Actor where
  songKeyCount := s.heap.read s.songKeyCount
  downKeyCount := s.heap.read s.downKeyCount
  sent := s.sent.map fun b => (s.heap.read b.1, b.2)
  running := s.running

/-- **The maps of the variables are no batches**, and no new map will be
one of either; what `Write` has applied are the batches it received, as
they are now. -/
structure Wf (s : System) : Prop where
  song_lt : s.songKeyCount < s.heap.next
  down_lt : s.downKeyCount < s.heap.next
  song_ne_down : s.songKeyCount ≠ s.downKeyCount
  sent_lt : ∀ b ∈ s.sent, b.1 < s.heap.next
  sent_ne : ∀ b ∈ s.sent, b.1 ≠ s.songKeyCount ∧ b.1 ≠ s.downKeyCount
  received_le : s.received ≤ s.sent.length
  applied_eq : s.applied =
    (s.sent.take s.received).map fun b => (b.2, Write.increments (s.heap.read b.1))

/-- `s'` comes behind `s`: it has the batches of `s`, unchanged. -/
structure Behind (s s' : System) : Prop where
  sent : s.sent <+: s'.sent
  read : ∀ b ∈ s.sent, s'.heap.read b.1 = s.heap.read b.1

theorem Behind.refl (s : System) : Behind s s := ⟨List.prefix_rfl, fun _ _ => rfl⟩

theorem Behind.trans {s s' s'' : System} (h : Behind s s') (h' : Behind s' s'') :
    Behind s s'' :=
  ⟨h.sent.trans h'.sent, fun b hb => (h'.read b (h.sent.subset hb)).trans (h.read b hb)⟩

/-- What was applied stays what the batches say when batches stay. -/
theorem Behind.applied {s s' : System} (h : Behind s s') (hw : Wf s) :
    s.applied =
      (s'.sent.take s.received).map fun b => (b.2, Write.increments (s'.heap.read b.1)) := by
  obtain ⟨more, hmore⟩ := h.sent
  rw [hw.applied_eq, ← hmore, List.take_append_of_le_length hw.received_le]
  refine List.map_congr_left fun b hb => ?_
  rw [h.read b (List.mem_of_mem_take hb)]

section Step

variable {s : System}

/-- A write to the map of a variable. -/
theorem behind_write_map (hw : Wf s) {r : ℕ} (hr : r = s.songKeyCount ∨ r = s.downKeyCount)
    (c : Container) (running : Bool) :
    Wf { s with heap := s.heap.write r c, running := running } ∧
      Behind s { s with heap := s.heap.write r c, running := running } := by
  have hread : ∀ b ∈ s.sent, (s.heap.write r c).read b.1 = s.heap.read b.1 := by
    intro b hb
    refine Heap.read_write_of_ne c ?_
    rcases hr with rfl | rfl
    · exact (hw.sent_ne b hb).1
    · exact (hw.sent_ne b hb).2
  have hbehind : Behind s { s with heap := s.heap.write r c, running := running } :=
    ⟨List.prefix_rfl, hread⟩
  exact ⟨⟨hw.song_lt, hw.down_lt, hw.song_ne_down, hw.sent_lt, hw.sent_ne, hw.received_le,
    hbehind.applied hw⟩, hbehind⟩

/-- The batches of the view after a write to the map of a variable. -/
theorem view_sent_of_behind {s' : System} (h : Behind s s') (hsent : s'.sent = s.sent) :
    s'.view.sent = s.view.sent := by
  change s'.sent.map _ = s.sent.map _
  rw [hsent]
  refine List.map_congr_left fun b hb => ?_
  rw [h.read b hb]

/-- **Merging in place is merging.** -/
theorem mergeStat_sim (hw : Wf s) (pubinfo : PubInfo) (entry : StatKey × StatValue) :
    Wf (s.mergeStat pubinfo entry) ∧ Behind s (s.mergeStat pubinfo entry) ∧
      (s.mergeStat pubinfo entry).view = WriteToHbase.mergeStat pubinfo s.view entry := by
  cases hrun : s.running with
  | false =>
    have hs : s.mergeStat pubinfo entry = s := by simp [mergeStat, hrun]
    have hview : WriteToHbase.mergeStat pubinfo s.view entry = s.view :=
      mergeStat_of_not_running hrun entry
    rw [hs, hview]
    exact ⟨hw, Behind.refl s, rfl⟩
  | true =>
    cases hmod : entry.1.module with
    | songListen =>
      have hs : s.mergeStat pubinfo entry =
          let r := mergeSong (s.heap.read s.songKeyCount) entry.1 entry.2 pubinfo
          { s with heap := s.heap.write s.songKeyCount r.1, running := r.2.isNone } := by
        simp [mergeStat, hrun, hmod]
      have hview : WriteToHbase.mergeStat pubinfo s.view entry =
          let r := mergeSong (s.heap.read s.songKeyCount) entry.1 entry.2 pubinfo
          { s.view with songKeyCount := r.1, running := r.2.isNone } := by
        simp [WriteToHbase.mergeStat, view, hrun, hmod]
      obtain ⟨hwf, hbehind⟩ := behind_write_map hw (Or.inl rfl)
        (mergeSong (s.heap.read s.songKeyCount) entry.1 entry.2 pubinfo).1
        (mergeSong (s.heap.read s.songKeyCount) entry.1 entry.2 pubinfo).2.isNone
      rw [hs, hview]
      refine ⟨hwf, hbehind, ?_⟩
      have hsent := view_sent_of_behind hbehind rfl
      simp only [view] at hsent ⊢
      rw [hsent, Heap.read_write_self, Heap.read_write_of_ne _ hw.song_ne_down.symm]
    | songDownload =>
      have hs : s.mergeStat pubinfo entry =
          let r := mergeDownload (s.heap.read s.downKeyCount) entry.1 entry.2 pubinfo
          { s with heap := s.heap.write s.downKeyCount r.1, running := r.2.isNone } := by
        simp [mergeStat, hrun, hmod]
      have hview : WriteToHbase.mergeStat pubinfo s.view entry =
          let r := mergeDownload (s.heap.read s.downKeyCount) entry.1 entry.2 pubinfo
          { s.view with downKeyCount := r.1, running := r.2.isNone } := by
        simp [WriteToHbase.mergeStat, view, hrun, hmod]
      obtain ⟨hwf, hbehind⟩ := behind_write_map hw (Or.inr rfl)
        (mergeDownload (s.heap.read s.downKeyCount) entry.1 entry.2 pubinfo).1
        (mergeDownload (s.heap.read s.downKeyCount) entry.1 entry.2 pubinfo).2.isNone
      rw [hs, hview]
      refine ⟨hwf, hbehind, ?_⟩
      have hsent := view_sent_of_behind hbehind rfl
      simp only [view] at hsent ⊢
      rw [hsent, Heap.read_write_self, Heap.read_write_of_ne _ hw.song_ne_down]

theorem foldl_mergeStat_sim (hw : Wf s) (pubinfo : PubInfo)
    (entries : List (StatKey × StatValue)) :
    Wf (entries.foldl (mergeStat pubinfo) s) ∧
      Behind s (entries.foldl (mergeStat pubinfo) s) ∧
      (entries.foldl (mergeStat pubinfo) s).view =
        entries.foldl (WriteToHbase.mergeStat pubinfo) s.view := by
  induction entries generalizing s with
  | nil => exact ⟨hw, Behind.refl s, rfl⟩
  | cons entry entries ih =>
    obtain ⟨hwf, hbehind, hview⟩ := mergeStat_sim hw pubinfo entry
    obtain ⟨ihwf, ihbehind, ihview⟩ := ih hwf
    rw [List.foldl_cons, List.foldl_cons, ← hview]
    exact ⟨ihwf, hbehind.trans ihbehind, ihview⟩

theorem mem_send {r : ℕ} {t : Table} {b : ℕ × Table} (hb : b ∈ s.send r t) : b = (r, t) := by
  unfold send at hb
  split at hb
  · exact List.mem_singleton.1 hb
  · simp at hb

theorem map_send (r : ℕ) (t : Table) :
    (s.send r t).map (fun b => (s.heap.read b.1, b.2)) =
      WriteToHbase.send (s.heap.read r) t := by
  unfold send WriteToHbase.send
  split <;> rfl

/-- What is sent so far and at a tick. -/
def sentAtTick (s : System) : List (ℕ × Table) :=
  s.sent ++ s.send s.songKeyCount .songStat ++ s.send s.downKeyCount .downloadStat

theorem receive_tick (hrun : s.running = true) :
    s.receive .tick = { s with
      sent := s.sentAtTick
      heap := (s.heap.alloc ∅).alloc ∅
      songKeyCount := s.heap.next
      downKeyCount := s.heap.next + 1 } := by
  simp [receive, hrun, sentAtTick]

/-- Every batch is a map from before the tick. -/
theorem lt_of_mem_sentAtTick (hw : Wf s) {b : ℕ × Table} (hb : b ∈ s.sentAtTick) :
    b.1 < s.heap.next := by
  rcases List.mem_append.1 hb with hb | hb
  · rcases List.mem_append.1 hb with hb | hb
    · exact hw.sent_lt b hb
    · rw [mem_send hb]
      exact hw.song_lt
  · rw [mem_send hb]
    exact hw.down_lt

/-- The two new maps leave the others as they are. -/
theorem read_alloc_alloc {r : ℕ} (hr : r < s.heap.next) :
    ((s.heap.alloc ∅).alloc ∅).read r = s.heap.read r := by
  rw [Heap.read_alloc_of_lt _ (by rw [Heap.next_alloc]; omega), Heap.read_alloc_of_lt _ hr]

/-- **A tick sends the maps and goes on with new ones.** -/
theorem tick_sim (hw : Wf s) (hrun : s.running = true) :
    Wf (s.receive .tick) ∧ Behind s (s.receive .tick) ∧
      (s.receive .tick).view = act s.view .tick := by
  have hs := receive_tick hrun
  have hbehind : Behind s (s.receive .tick) := by
    rw [hs]
    exact ⟨⟨_, (List.append_assoc _ _ _).symm⟩, fun b hb => read_alloc_alloc (hw.sent_lt b hb)⟩
  refine ⟨?_, hbehind, ?_⟩
  · have happlied := hbehind.applied hw
    rw [hs] at happlied ⊢
    refine ⟨?_, ?_, by simp, ?_, ?_, ?_, happlied⟩
    · simp only [Heap.next_alloc]
      omega
    · simp only [Heap.next_alloc]
      omega
    · intro b hb
      have := lt_of_mem_sentAtTick hw hb
      simp only [Heap.next_alloc]
      omega
    · intro b hb
      have := lt_of_mem_sentAtTick hw hb
      exact ⟨by simp only; omega, by simp only; omega⟩
    · have := hw.received_le
      simp only [sentAtTick, List.length_append]
      omega
  · have hact : act s.view .tick = { s.view with
        sent := s.view.sent ++ WriteToHbase.send s.view.songKeyCount .songStat ++
          WriteToHbase.send s.view.downKeyCount .downloadStat
        songKeyCount := ∅
        downKeyCount := ∅ } := by
      simp [act, view, hrun]
    have hbatches : s.sentAtTick.map (fun b => (((s.heap.alloc ∅).alloc ∅).read b.1, b.2)) =
        s.view.sent ++ WriteToHbase.send s.view.songKeyCount .songStat ++
          WriteToHbase.send s.view.downKeyCount .downloadStat := by
      rw [List.map_congr_left fun b hb => by
        rw [read_alloc_alloc (lt_of_mem_sentAtTick hw hb)], sentAtTick, List.map_append,
        List.map_append, map_send, map_send]
      rfl
    have hsong : ((s.heap.alloc ∅).alloc ∅).read s.heap.next = ∅ := by
      rw [Heap.read_alloc_of_lt _ (by rw [Heap.next_alloc]; omega), Heap.read_alloc_next]
    have hdown : ((s.heap.alloc ∅).alloc ∅).read (s.heap.next + 1) = ∅ :=
      Heap.read_alloc_next (s.heap.alloc ∅) ∅
    rw [hact, ← hbatches, hs]
    simp only [view, hsong, hdown]

theorem receive_sim (hw : Wf s) (m : Message) :
    Wf (s.receive m) ∧ Behind s (s.receive m) ∧ (s.receive m).view = act s.view m := by
  cases hrun : s.running with
  | false =>
    have hs : s.receive m = s := by simp [receive, hrun]
    rw [hs, act_of_not_running hrun]
    exact ⟨hw, Behind.refl s, rfl⟩
  | true =>
    cases m with
    | tick => exact tick_sim hw hrun
    | stats entries pubinfo =>
      have hs : s.receive (.stats entries pubinfo) = entries.foldl (mergeStat pubinfo) s := by
        simp [receive, hrun]
      have hact : act s.view (.stats entries pubinfo) =
          entries.foldl (WriteToHbase.mergeStat pubinfo) s.view := by
        simp [act, view, hrun]
      rw [hs, hact]
      exact foldl_mergeStat_sim hw pubinfo entries

/-- `Write` changes nothing `WriteToHbase` sees. -/
theorem write_sim (hw : Wf s) : Wf s.write ∧ Behind s s.write ∧ s.write.view = s.view := by
  unfold write
  rcases hnext : s.sent[s.received]? with - | ⟨ref, t⟩
  · exact ⟨hw, Behind.refl s, rfl⟩
  · obtain ⟨hlt, hget⟩ := List.getElem?_eq_some_iff.1 hnext
    refine ⟨⟨hw.song_lt, hw.down_lt, hw.song_ne_down, hw.sent_lt, hw.sent_ne, hlt, ?_⟩,
      ⟨List.prefix_rfl, fun _ _ => rfl⟩, rfl⟩
    simp only [hw.applied_eq]
    rw [List.take_add_one, hnext, List.map_append]
    rfl

end Step

/-! ## Runs of the system -/

/-- The messages of the turns, in order. -/
def messages (events : List Event) : List Message :=
  events.filterMap fun
    | .receive m => some m
    | .write => none

theorem wf_init : Wf {} :=
  ⟨by decide, by decide, by decide, by simp, by simp, le_rfl, rfl⟩

/-- **The system refines the actor whose batches are values**, and keeps
the batches it has sent. -/
theorem run_sim {s : System} (hw : Wf s) (events : List Event) :
    Wf (s.run events) ∧ Behind s (s.run events) ∧
      (s.run events).view = WriteToHbase.run s.view (messages events) := by
  induction events generalizing s with
  | nil => exact ⟨hw, Behind.refl s, rfl⟩
  | cons e events ih =>
    cases e with
    | receive m =>
      obtain ⟨hwf, hbehind, hview⟩ := receive_sim hw m
      obtain ⟨ihwf, ihbehind, ihview⟩ := ih hwf
      refine ⟨ihwf, hbehind.trans ihbehind, ihview.trans ?_⟩
      rw [hview]
      rfl
    | write =>
      obtain ⟨hwf, hbehind, hview⟩ := write_sim hw
      obtain ⟨ihwf, ihbehind, ihview⟩ := ih hwf
      refine ⟨ihwf, hbehind.trans ihbehind, ihview.trans ?_⟩
      rw [hview]
      rfl

/-- The batches sent to `Write` for a table, as they are now. -/
def batches (s : System) (t : Table) : List Container :=
  (s.sent.filter fun b => b.2 = t).map fun b => s.heap.read b.1

/-- The container of a table. -/
def container (s : System) (t : Table) : Container := s.view.containers.of t

theorem sum_batches (s : System) (t : Table) (cell : Text × Text) :
    ((s.batches t).map fun b => value b cell).sum = batchSum t cell s.view.sent := by
  unfold batches batchSum view
  simp only [List.map_map]
  induction s.sent with
  | nil => rfl
  | cons b sent ih =>
    by_cases hb : b.2 = t
    · simpa [hb] using ih
    · simpa [hb] using ih

end System

/-- **No update is lost or doubled across flushes.** For every interleaving
of messages of clients with a usable location and version, ticks, and
turns of `Write`: in each table, each cell summed over the batches sent to
`Write`, with what the current container holds of it, is the sum of the
contributions of the messages, as Scala's `Int`s sum. A batch or container
of a table has only cells the operations of that table contribute to, and
whatever comes later, the batches sent so far are sent and unchanged. -/
theorem stats_neither_lost_nor_doubled (events : List System.Event)
    (h : ∀ m ∈ System.messages events, ¬ m.Crashes) :
    let s := System.run {} events
    (∀ t cell, ((s.batches t).map fun b => value b cell).sum + value (s.container t) cell =
      (Counters.amounts cell (contributions t (System.messages events))).sum) ∧
    (∀ t, ∀ c ∈ s.container t :: s.batches t, ∀ cell, Has c cell →
      cell ∈ (contributions t (System.messages events)).map Prod.fst) ∧
    (∀ later, System.Behind s (s.run later)) := by
  intro s
  obtain ⟨hwf, -, hview⟩ := System.run_sim System.wf_init events
  have hview : s.view = run {} (System.messages events) := hview
  refine ⟨fun t cell => ?_, fun t c hc cell hcell => ?_,
    fun later => (System.run_sim hwf later).2.1⟩
  · have hstart : batchSum t cell ({} : Actor).sent + value (({} : Actor).containers.of t) cell =
        0 := by
      cases t <;> rfl
    rw [System.sum_batches, System.container, hview, run_conserves rfl h, hstart, zero_add]
  · have hhas : (run {} (System.messages events)).Has t cell := by
      rw [← hview]
      rcases List.mem_cons.1 hc with rfl | hc
      · exact Or.inl hcell
      · obtain ⟨b, hb, rfl⟩ := List.mem_map.1 hc
        obtain ⟨hb, htable⟩ := List.mem_filter.1 hb
        exact Or.inr ⟨_, List.mem_map_of_mem hb, by simpa using htable, hcell⟩
    rcases of_has_run rfl h hhas with hmem | hempty
    · exact hmem
    · rcases hempty with hempty | ⟨b, hb, -⟩
      · cases t <;> exact absurd hempty (not_has_empty cell)
      · simp at hb

/-- A message, a tick, the message again, and a turn of `Write`. -/
def sampleEvents : List System.Event :=
  [.receive (sampleStats samplePubInfo), .receive .tick, .receive (sampleStats samplePubInfo),
    .write]

theorem not_crashes_sampleStats : ¬ (sampleStats samplePubInfo).Crashes := by
  rintro ⟨-, hun⟩
  rcases hun with hloc | ⟨loc, -, -, hver⟩
  · simp [samplePubInfo] at hloc
  · simp [samplePubInfo] at hver

/-- Of two listens one is in the batch and one in the container. -/
theorem stats_neither_lost_nor_doubled_sampleEvents :
    (∀ m ∈ System.messages sampleEvents, ¬ m.Crashes) ∧
      (((System.run {} sampleEvents).batches .songStat).map fun b =>
          value b (join china (dayText 2014 6 15), totalcount)).sum +
        value ((System.run {} sampleEvents).container .songStat)
          (join china (dayText 2014 6 15), totalcount) = 2 := by
  have hsample : ∀ m ∈ System.messages sampleEvents, ¬ m.Crashes := by
    intro m hm
    have hm : m ∈ [sampleStats samplePubInfo, .tick, sampleStats samplePubInfo] := hm
    simp only [List.mem_cons, List.not_mem_nil, or_false] at hm
    rcases hm with rfl | rfl | rfl
    · exact not_crashes_sampleStats
    · exact id
    · exact not_crashes_sampleStats
  refine ⟨hsample, ?_⟩
  rw [(stats_neither_lost_nor_doubled sampleEvents hsample).1]
  decide +kernel

end WriteToHbase

end Storm

end Xpod
