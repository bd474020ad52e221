import Mathlib.Tactic
import Xpod.Storm.Model.DownLoadStat
/-!
# When a log stops the statistics

`mergeSong` and `mergeDownload` read the client's location and version
without a check, outside any `try`. A null location throws at the first
entry of a message, a null version of a client on the mainland throws in
the loop over the keys, and either ends the actor. Messages of other
clients are ignored as intended.
-/

namespace Xpod

namespace Storm

namespace WriteToHbase

/-! ## When a merge throws -/

theorem innerNames_snd (ls : List Text) (i : ℕ) (key : Text) (j : ℕ) (ks : List (Option Text)) :
    (innerNames ls i key j ks).2 = if none ∈ ks then some .nullPointer else none := by
  induction ks generalizing j with
  | nil => rfl
  | cons k ks ih =>
    cases k with
    | none => simp [innerNames]
    | some other => simp [innerNames, ih]

/-- Without a null among the keys every inner loop runs to its end. -/
theorem outerNames_cons (ls : List Text) {ks : List (Option Text)} (hks : none ∉ ks) (i : ℕ)
    (key : Text) (rest : List (Option Text)) :
    outerNames ls ks i (some key :: rest) =
      if key.isEmpty then outerNames ls ks (i + 1) rest
      else ((innerNames ls i key 0 ks).1 ++ (outerNames ls ks (i + 1) rest).1,
        (outerNames ls ks (i + 1) rest).2) := by
  have hinner := innerNames_snd ls i key 0 ks
  rw [if_neg hks] at hinner
  rcases hn : innerNames ls i key 0 ks with ⟨ns, e⟩
  rw [hn] at hinner
  obtain rfl : e = none := hinner
  rw [outerNames, hn]

theorem outerNames_snd_of_notMem (ls : List Text) {ks : List (Option Text)} (hks : none ∉ ks)
    (i : ℕ) {rest : List (Option Text)} (h : none ∉ rest) :
    (outerNames ls ks i rest).2 = none := by
  induction rest generalizing i with
  | nil => rfl
  | cons k rest ih =>
    cases k with
    | none => simp at h
    | some key =>
      have hrest := ih (i + 1) (by simpa using h)
      rw [outerNames_cons ls hks]
      split
      · exact hrest
      · exact hrest

/-- A null key is met by the outer loop if no inner loop met it before. -/
theorem outerNames_snd_of_mem (ls : List Text) (ks : List (Option Text)) (i : ℕ)
    {rest : List (Option Text)} (h : none ∈ rest) :
    (outerNames ls ks i rest).2 = some .nullPointer := by
  induction rest generalizing i with
  | nil => simp at h
  | cons k rest ih =>
    cases k with
    | none => rfl
    | some key =>
      have hrest := ih (i + 1) (by simpa using h)
      by_cases hks : none ∈ ks
      · have hinner := innerNames_snd ls i key 0 ks
        rw [if_pos hks] at hinner
        rcases hn : innerNames ls i key 0 ks with ⟨ns, e⟩
        rw [hn] at hinner
        obtain rfl : e = some .nullPointer := hinner
        rw [outerNames, hn]
        split
        · exact hrest
        · rfl
      · rw [outerNames_cons ls hks]
        split
        · exact hrest
        · exact hrest

theorem none_mem_keys {stat : StatKey} {pubinfo : PubInfo} {loc : Location} :
    none ∈ keys stat pubinfo loc ↔ pubinfo.version = none := by
  rcases hcdn : stat.cdnInfo with - | ⟨name, domain⟩
  · simp [keys, hcdn, eq_comm]
  · simp [keys, hcdn, eq_comm]

/-- **The nulls a merge trips over.** -/
def Unmergeable (pubinfo : PubInfo) : Prop :=
  pubinfo.location = none ∨
    ∃ loc, pubinfo.location = some loc ∧ isMainland loc = true ∧ pubinfo.version = none

theorem names_snd (stat : StatKey) (pubinfo : PubInfo) :
    (names stat pubinfo).2.isNone = true ↔ ¬ Unmergeable pubinfo := by
  rcases hloc : pubinfo.location with - | loc
  · simp [names, hloc, Unmergeable]
  · by_cases hmain : isMainland loc = true
    · by_cases hver : pubinfo.version = none
      · have hmem : none ∈ keys stat pubinfo loc := none_mem_keys.2 hver
        simp [names, hloc, hmain, Unmergeable, hver, outerNames_snd_of_mem _ _ _ hmem]
      · have hmem : none ∉ keys stat pubinfo loc := mt none_mem_keys.1 hver
        simp [names, hloc, hmain, Unmergeable, hver, outerNames_snd_of_notMem _ hmem _ hmem]
    · simp [names, hloc, hmain, Unmergeable]

/-! ## What a message does -/

/-- A message whose first entry throws. -/
def Message.Crashes : Message → Prop
  | .stats entries pubinfo => entries ≠ [] ∧ Unmergeable pubinfo
  | .tick => False

/-- **The messages the statistics are about**: those of clients on the
mainland whose version is known, and ticks. -/
def Message.usable : Message → Bool
  | .stats _ pubinfo =>
    match pubinfo.location with
    | none => false
    | some loc => isMainland loc && pubinfo.version.isSome
  | .tick => true

variable {a : Actor} {pubinfo : PubInfo}

theorem mergeStat_running (ha : a.running = true) (entry : StatKey × StatValue) :
    (mergeStat pubinfo a entry).running = true ↔ ¬ Unmergeable pubinfo := by
  rw [← names_snd entry.1]
  simp only [mergeStat, ha]
  cases entry.1.module <;> rfl

theorem act_of_not_running (ha : a.running = false) (m : Message) : act a m = a := by
  simp [act, ha]

theorem mergeStat_of_not_running (ha : a.running = false) (entry : StatKey × StatValue) :
    mergeStat pubinfo a entry = a := by
  simp [mergeStat, ha]

/-- The loop over the entries ends where an entry throws. -/
theorem foldl_mergeStat_running (ha : a.running = true) (entries : List (StatKey × StatValue)) :
    (entries.foldl (mergeStat pubinfo) a).running = true ↔
      entries = [] ∨ ¬ Unmergeable pubinfo := by
  induction entries generalizing a with
  | nil => simp [ha]
  | cons entry entries ih =>
    rw [List.foldl_cons]
    by_cases hun : Unmergeable pubinfo
    · have hstop : (mergeStat pubinfo a entry).running = false :=
        Bool.eq_false_iff.2 fun h => (mergeStat_running ha entry).1 h hun
      have hfold : entries.foldl (mergeStat pubinfo) (mergeStat pubinfo a entry) =
          mergeStat pubinfo a entry :=
        List.foldl_fixed' (fun e => mergeStat_of_not_running hstop e) entries
      simp [hfold, hstop, hun]
    · have hgo := (mergeStat_running ha entry).2 hun
      simp [ih hgo, hun]

/-- **The actor survives exactly the messages that do not crash.** -/
theorem act_running (ha : a.running = true) (m : Message) :
    (act a m).running = true ↔ ¬ m.Crashes := by
  cases m with
  | tick => simp [act, ha, Message.Crashes]
  | stats entries pubinfo =>
    simp only [act, ha, Bool.not_true, Bool.false_eq_true, if_false, Message.Crashes]
    rw [foldl_mergeStat_running ha]
    tauto

/-- A client outside the mainland is not counted. -/
theorem mergeStat_of_not_mainland {loc : Location} (hloc : pubinfo.location = some loc)
    (hmain : isMainland loc = false) (ha : a.running = true) (entry : StatKey × StatValue) :
    mergeStat pubinfo a entry = a := by
  have hnames : names entry.1 pubinfo = ([], none) := by simp [names, hloc, hmain]
  obtain ⟨song, down, sent, running⟩ := a
  obtain rfl : running = true := ha
  cases hmod : entry.1.module <;>
    simp [mergeStat, mergeSong, mergeDownload, adds, addAll, hnames, hmod]

/-- A message that is neither usable nor a crash changes nothing. -/
theorem act_of_not_usable (ha : a.running = true) {m : Message} (hm : ¬ m.Crashes)
    (hu : m.usable = false) : act a m = a := by
  cases m with
  | tick => simp [Message.usable] at hu
  | stats entries pubinfo =>
    simp only [act, ha, Bool.not_true, Bool.false_eq_true, if_false]
    rcases entries with - | ⟨entry, entries⟩
    · rfl
    have hmerge : ¬ Unmergeable pubinfo := fun h => hm ⟨List.cons_ne_nil _ _, h⟩
    rcases hloc : pubinfo.location with - | loc
    · exact absurd (Or.inl hloc) hmerge
    have hmain : isMainland loc = false := by
      by_contra hmain
      rw [Bool.not_eq_false] at hmain
      have hver : pubinfo.version = none := by
        simpa [Message.usable, hloc, hmain] using hu
      exact hmerge (Or.inr ⟨loc, hloc, hmain, hver⟩)
    exact List.foldl_fixed' (fun e => mergeStat_of_not_mainland hloc hmain ha e) _

/-! ## Runs -/

theorem run_of_not_running (ha : a.running = false) (ms : List Message) : run a ms = a :=
  List.foldl_fixed' (fun m => act_of_not_running ha m) ms

/-- **One bad log does not stop the statistics**: the actor still runs
behind the messages, and its containers and what it sent are those of the
usable messages alone. -/
def Unharmed (a : Actor) (ms : List Message) : Prop :=
  (run a ms).running = true ∧ run a ms = run a (ms.filter Message.usable)

theorem unharmed_of_not_crashes (ha : a.running = true) {ms : List Message}
    (h : ∀ m ∈ ms, ¬ m.Crashes) : Unharmed a ms := by
  induction ms generalizing a with
  | nil => exact ⟨ha, rfl⟩
  | cons m ms ih =>
    obtain ⟨hm, hms⟩ := List.forall_mem_cons.1 h
    have hstep := ih ((act_running ha m).2 hm) hms
    cases hu : m.usable with
    | true => simpa [Unharmed, run, hu] using hstep
    | false =>
      rw [act_of_not_usable ha hm hu] at hstep
      have hact := act_of_not_usable ha hm hu
      simpa [Unharmed, run, hu, hact] using hstep

/-- The first crash ends the run. -/
theorem not_running_of_crashes {ms : List Message} {m : Message} (hmem : m ∈ ms)
    (hm : m.Crashes) : (run a ms).running = false := by
  induction ms generalizing a with
  | nil => simp at hmem
  | cons m' ms ih =>
    change (run (act a m') ms).running = false
    by_cases hstop : (act a m').running = false
    · rw [run_of_not_running hstop]
      exact hstop
    · rcases List.mem_cons.1 hmem with rfl | hmem
      · rw [Bool.not_eq_false] at hstop
        have ha : a.running = true := by
          by_contra hne
          rw [act_of_not_running (by simpa using hne)] at hstop
          exact hne hstop
        exact absurd hm ((act_running ha m).1 hstop)
      · exact ih hmem

/-- **The statistics go on exactly when no log crashes the actor.** For
every sequence of messages and ticks: the actor still runs and holds, and
has sent, what the usable messages alone give, if and only if no message
with entries has a null location or is of a client on the mainland with a
null version. -/
theorem act_unharmed_iff (ms : List Message) :
    Unharmed {} ms ↔ ∀ m ∈ ms, ¬ m.Crashes := by
  refine ⟨fun h m hmem hm => ?_, unharmed_of_not_crashes rfl⟩
  rw [Unharmed, not_running_of_crashes hmem hm] at h
  exact absurd h.1 (by simp)

/-- A client on the mainland of whom nothing else is known. -/
def samplePubInfo : PubInfo where
  nettype := 2
  version := some ['7']
  location := some { country := some china }
  dateHour := ⟨2014, 6, 15, 9, by decide⟩

def sampleStats (pubinfo : PubInfo) : Message :=
  .stats [(⟨.songListen, 0, none, ['-', '1']⟩, { count := 1 })] pubinfo

/-- **A client without a location, or without a version, is the last one
counted**: the actor is gone and the next message changes nothing. -/
theorem act_stopped_by_null :
    ¬ Unharmed {} [sampleStats { samplePubInfo with location := none },
        sampleStats samplePubInfo] ∧
      (run {} [sampleStats { samplePubInfo with location := none },
        sampleStats samplePubInfo]).songKeyCount = ∅ ∧
      ¬ Unharmed {} [sampleStats { samplePubInfo with version := none },
        sampleStats samplePubInfo] := by
  exact ⟨fun h => absurd h.1 (by decide), rfl, fun h => absurd h.1 (by decide)⟩

end WriteToHbase

end Storm

end Xpod
