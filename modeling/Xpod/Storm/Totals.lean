import Mathlib.Data.BitVec
import Mathlib.Data.List.AList
import Mathlib.Tactic
import Xpod.Common.Counters
import Xpod.Common.Lists
import Xpod.Storm.Flush
import Xpod.Storm.Model.StatBolt
/-!
# When the totals of times are exact

The sums of buffer counts, response times and loading times are `Int`s
three times over: in the map of a log, in the container of an interval
between two ticks, and in the batch `Write` reads, where a sum that is not
positive is left out. All of these are the exact sum modulo 2^32, so the
only question is whether the exact sum of an interval is what the signed
`Int` reads.
-/

namespace Xpod

namespace Storm

/-! ## What a wrapped sum is written as -/

/-- The increment `Write` makes of a count. -/
def Write.amount (v : Count) : ℤ := if 0 < v.toInt then v.toInt else 0

@[simp] theorem Write.amount_zero : Write.amount 0#32 = 0 := rfl

/-- Of a sum that is not negative `Write` makes at most the sum, and the
sum itself exactly when it fits in a positive `Int`. -/
theorem Write.amount_natCast (n : ℕ) :
    Write.amount (n : Count) ≤ n ∧ (Write.amount (n : Count) = n ↔ n < 2 ^ 31) := by
  have htoInt : (n : Count).toInt = (n : ℤ).bmod (2 ^ 32) := by
    rw [BitVec.natCast_eq_ofNat, BitVec.toInt_ofNat']
  rw [Write.amount, htoInt, Int.bmod_def]
  split_ifs <;> omega

/-! ## Exact tallies -/

/-- The number an operation carries under a name. -/
def Operation.number (op : Operation) (name : String) : ℤ :=
  match op.getObject name.toList with
  | some (.integer n) => n.toInt
  | some (.long n) => n.toInt
  | _ => 0

/-- The number is a non-negative `Int`. -/
def Operation.FitsAt (op : Operation) (name : String) : Prop :=
  0 ≤ op.number name ∧ op.number name < 2 ^ 31

/-- **The operations the totals are about**: those whose counts and times
are non-negative `Int`s. -/
structure Operation.Fits (op : Operation) : Prop where
  bufferCount : op.FitsAt "buffer_count"
  responseTime : op.FitsAt "response_time"
  loadingTime : op.FitsAt "loading_time"

/-- The number, as the exact sums add it. -/
def Operation.exactNumber (op : Operation) (name : String) : ℕ := (op.number name).toNat

theorem Operation.getIntDefZero_eq {op : Operation} {name : String} (h : op.FitsAt name) :
    op.getIntDefZero name = (op.exactNumber name : Count) := by
  obtain ⟨hlo, hhi⟩ := h
  unfold Operation.number at hlo hhi
  unfold Operation.getIntDefZero Operation.exactNumber Operation.number
  rcases hobj : op.getObject name.toList with - | (n | n | - | -)
  · simp
  · simp only [hobj] at hlo ⊢
    apply BitVec.eq_of_toNat_eq
    rw [BitVec.natCast_eq_ofNat, BitVec.toNat_ofNat]
    have hn := n.isLt
    rw [BitVec.toInt_eq_toNat_cond] at hlo ⊢
    split_ifs at hlo ⊢ <;> omega
  · simp only [hobj] at hlo hhi ⊢
    apply BitVec.eq_of_toNat_eq
    rw [BitVec.natCast_eq_ofNat, BitVec.toNat_ofNat, BitVec.toNat_setWidth]
    have hn := n.isLt
    rw [BitVec.toInt_eq_toNat_cond] at hlo hhi ⊢
    split_ifs at hlo hhi ⊢ <;> omega
  · simp
  · simp

namespace DownLoadStatBolt

/-- A tally with its counters taken to another type. -/
def Tally.map {ν μ : Type} (f : ν → μ) (v : Tally ν) : Tally μ :=
  ⟨f v.count, f v.kadunCount, f v.responseTime, f v.loadTime⟩

/-- An exact tally, as the `Int`s of `statValue` hold it. -/
def Tally.wrap (v : Tally ℕ) : Tally Count := v.map Nat.cast

/-- Wrapping around commutes with the accumulation. -/
theorem accumulate_wrap {op : Operation} (hop : op.Fits) (song : Bool) (cc : Option (Tally ℕ)) :
    accumulate op.getIntDefZero song (cc.map Tally.wrap) =
      (accumulate op.exactNumber song cc).wrap := by
  have hbuffer := Operation.getIntDefZero_eq hop.bufferCount
  have hresponse := Operation.getIntDefZero_eq hop.responseTime
  have hloading := Operation.getIntDefZero_eq hop.loadingTime
  cases cc with
  | none => cases song <;> simp [accumulate, Tally.wrap, Tally.map, hbuffer, hresponse, hloading]
  | some v => cases song <;> simp [accumulate, Tally.wrap, Tally.map, hbuffer, hresponse, hloading]

/-- An entry of a map, with its tally wrapped around. -/
def wrapEntry (e : Sigma fun _ : StatKey => Tally ℕ) : Sigma fun _ : StatKey => Tally Count :=
  ⟨e.1, e.2.wrap⟩

/-- The map of a log holds the exact tallies, wrapped around. -/
def Wraps (stats : Stats Count) (exact : Stats ℕ) : Prop :=
  stats.entries = exact.entries.map wrapEntry

section Wraps

variable {stats : Stats Count} {exact : Stats ℕ}

theorem dlookup_map_wrapEntry (k : StatKey) (l : List (Sigma fun _ : StatKey => Tally ℕ)) :
    (l.map wrapEntry).dlookup k = (l.dlookup k).map Tally.wrap := by
  induction l with
  | nil => rfl
  | cons e l ih =>
    obtain ⟨k', v⟩ := e
    by_cases hk : k = k'
    · subst hk
      rw [List.map_cons, List.dlookup_cons_eq]
      exact List.dlookup_cons_eq (l.map wrapEntry) k v.wrap
    · rw [List.map_cons, List.dlookup_cons_ne l ⟨k', v⟩ hk,
        List.dlookup_cons_ne (l.map wrapEntry) (wrapEntry ⟨k', v⟩) hk, ih]

theorem kerase_map_wrapEntry (k : StatKey) (l : List (Sigma fun _ : StatKey => Tally ℕ)) :
    (l.map wrapEntry).kerase k = (l.kerase k).map wrapEntry := by
  induction l with
  | nil => rfl
  | cons e l ih =>
    by_cases hk : k = e.1
    · have hwrap : k = (wrapEntry e).1 := hk
      rw [List.map_cons, List.kerase_cons_eq hk, List.kerase_cons_eq hwrap]
    · have hwrap : k ≠ (wrapEntry e).1 := hk
      rw [List.map_cons, List.kerase_cons_ne hk, List.kerase_cons_ne hwrap, List.map_cons, ih]

theorem Wraps.lookup (h : Wraps stats exact) (k : StatKey) :
    stats.lookup k = (exact.lookup k).map Tally.wrap := by
  change List.dlookup k stats.entries = _
  rw [h, dlookup_map_wrapEntry]
  rfl

theorem Wraps.insert (h : Wraps stats exact) (k : StatKey) (v : Tally ℕ) :
    Wraps (stats.insert k v.wrap) (exact.insert k v) := by
  rw [Wraps, AList.entries_insert, AList.entries_insert, h, kerase_map_wrapEntry]
  rfl

theorem Wraps.empty : Wraps ∅ ∅ := rfl

/-- **The map of a log wraps the exact tallies around.** -/
theorem statsLoop_wraps {operations : List Operation} (hops : ∀ op ∈ operations, op.Fits)
    (h : Wraps stats exact) {stats' : Stats Count}
    (hrun : statsLoop Operation.getIntDefZero operations stats = .ok stats') :
    ∃ exact', statsLoop Operation.exactNumber operations exact = .ok exact' ∧
      Wraps stats' exact' := by
  induction operations generalizing stats exact with
  | nil =>
    obtain rfl := Except.ok.inj hrun
    exact ⟨exact, rfl, h⟩
  | cons op operations ih =>
    obtain ⟨hop, hops⟩ := List.forall_mem_cons.1 hops
    rw [statsLoop] at hrun ⊢
    rcases hstat : statOf op with e | stat
    · rw [hstat] at hrun
      exact absurd hrun (by simp)
    rw [hstat, Java.ok_bind] at hrun
    rcases stat with - | stat
    · obtain ⟨exact', hexact, hwraps⟩ := ih hops h hrun
      exact ⟨exact', hexact, hwraps⟩
    · rcases hmodule : op.getString "module" with e | module
      · rw [hmodule] at hrun
        exact absurd hrun (by simp)
      simp only [hmodule, Java.ok_bind] at hrun ⊢
      rw [h.lookup, accumulate_wrap hop] at hrun
      exact ih hops (h.insert stat _) hrun

end Wraps

end DownLoadStatBolt

namespace WriteToHbase

open DownLoadStatBolt

/-! ## Exact contributions -/

/-- The columns of counts and times. -/
def timeColumns : List Text :=
  ["totalkaduncount".toList, "totalrespondtime".toList, "totalloadtime".toList]

/-- What an exact tally adds to the columns of counts and times. -/
def exactFields (v : Tally ℕ) : List (Text × ℕ) :=
  [("totalkaduncount".toList, v.kadunCount), ("totalrespondtime".toList, v.responseTime),
   ("totalloadtime".toList, v.loadTime)]

/-- The exact amounts of an entry, by cell: those of a song, in the rows
`mergeSong` adds to. -/
def exactIncrements (p : PubInfo) (e : Sigma fun _ : StatKey => Tally ℕ) :
    List ((Text × Text) × ℕ) :=
  if e.1.module = .songListen then
    (names e.1 p).1.flatMap fun name =>
      ((exactFields e.2).map fun f => ((join name p.date, f.1), f.2)) ++
        (exactFields e.2).map fun f => ((join name p.hour, f.1), f.2)
  else []

theorem amounts_songFields (k : StatKey) (v : Tally ℕ) {col : Text} (hcol : col ∈ timeColumns) :
    Counters.amounts col (songFields k v.wrap.statValue) =
      (Counters.amounts col (exactFields v)).map Nat.cast := by
  simp only [timeColumns, List.mem_cons, List.not_mem_nil, or_false] at hcol
  rcases hcol with rfl | rfl | rfl
  · rfl
  · rfl
  · rfl

/-- **A merge adds the exact amounts, wrapped around.** -/
theorem amounts_mergeOf (p : PubInfo) (e : Sigma fun _ : StatKey => Tally ℕ) (row : Text)
    {col : Text} (hcol : col ∈ timeColumns) :
    Counters.amounts (row, col) ((mergeOf p (entryOf (wrapEntry e))).increments .songStat) =
      (Counters.amounts (row, col) (exactIncrements p e)).map Nat.cast := by
  obtain ⟨k, v⟩ := e
  have hmerge : (mergeOf p (entryOf (wrapEntry ⟨k, v⟩))).increments .songStat =
      if table k.module = .songStat then
        (names k p).1.flatMap (nameIncrements (songFields k v.wrap.statValue) p) else [] := rfl
  rw [hmerge]
  cases hmod : k.module with
  | songDownload => simp [table, exactIncrements, hmod]
  | songListen =>
    simp only [table, exactIncrements, hmod, if_true, Counters.amounts_flatMap, List.map_flatMap]
    refine List.flatMap_congr fun name _ => ?_
    rw [amounts_nameIncrements, Counters.amounts_append, Call.amounts_row, Call.amounts_row,
      List.map_append, amounts_songFields k v hcol]
    congr 1
    · split <;> rfl
    · split <;> rfl

/-! ## Logs -/

/-- **A log and the message the bolt sends for it.** The order of the
entries is the map's own. -/
structure Delivery where
  log : Log
  fits : ∀ op ∈ log.operations, op.Fits
  stats : Stats Count
  executed : myExecute log = .ok stats
  entries : List (StatKey × StatValue)
  perm : entries.Perm (stats.entries.map entryOf)

namespace Delivery

/-- The message, if the map has entries. -/
def messages (d : Delivery) : List Message :=
  if d.stats.entries.isEmpty then [] else [.stats d.entries d.log.pubinfo]

/-- The exact tallies of the log. -/
def exact (d : Delivery) : List (Sigma fun _ : StatKey => Tally ℕ) :=
  match statsLoop Operation.exactNumber d.log.operations ∅ with
  | .ok exact => exact.entries
  | .error _ => []

/-- **What the log amounts to in a cell**, exactly. -/
def exactTotal (d : Delivery) (cell : Text × Text) : ℕ :=
  (d.exact.map fun e => (Counters.amounts cell (exactIncrements d.log.pubinfo e)).sum).sum

variable (d : Delivery)

theorem stats_entries : d.stats.entries = d.exact.map wrapEntry := by
  obtain ⟨exact, hexact, hwraps⟩ :=
    statsLoop_wraps d.fits Wraps.empty d.executed
  rw [Delivery.exact, hexact]
  exact hwraps

theorem messages_ne_tick : ∀ m ∈ d.messages, m ≠ .tick := by
  intro m hm
  unfold messages at hm
  split at hm
  · simp at hm
  · rw [List.mem_singleton.1 hm]
    simp

/-- **A log contributes its exact amounts, wrapped around.** -/
theorem sum_contributions (row : Text) {col : Text} (hcol : col ∈ timeColumns) :
    (Counters.amounts (row, col) (contributions .songStat d.messages)).sum =
      (d.exactTotal (row, col) : Count) := by
  have hentries : (d.entries.map fun e => (Counters.amounts (row, col)
      ((mergeOf d.log.pubinfo e).increments .songStat)).sum).sum =
        (d.exactTotal (row, col) : Count) := by
    rw [(d.perm.map _).sum_eq, d.stats_entries, List.map_map, List.map_map, exactTotal,
      Nat.cast_list_sum, List.map_map]
    refine congrArg List.sum (List.map_congr_left fun e _ => ?_)
    simp only [Function.comp_apply]
    rw [amounts_mergeOf _ _ _ hcol, Nat.cast_list_sum]
  unfold messages
  split
  · next hempty =>
    have hnil : d.exact = [] := by
      have hlen := congrArg List.length d.stats_entries
      rw [List.isEmpty_iff.1 hempty, List.length_map] at hlen
      exact List.length_eq_zero_iff.1 hlen.symm
    rw [exactTotal, hnil]
    rfl
  · rw [← hentries]
    simp only [contributions, Message.merges, List.flatMap_cons, List.flatMap_nil,
      List.append_nil, List.flatMap_map]
    exact Counters.sum_amounts_flatMap _ _ _

end Delivery

/-! ## What `Write` makes of a batch -/

/-- The increment of a column, if it is one. -/
theorem sum_amounts_field (row row' f field : Text) (n : Count) :
    (Counters.amounts (row', field) ((if 0 < n.toInt then
      some ((row, f), n.toInt) else none).toList)).sum =
        if row = row' ∧ f = field then Write.amount n else 0 := by
  unfold Write.amount
  by_cases hn : 0 < n.toInt
  · rw [if_pos hn, if_pos hn]
    by_cases hcell : row = row' ∧ f = field
    · simp [Counters.amounts, hcell]
    · simp only [Option.toList_some, Counters.amounts_cons, Prod.mk.injEq, hcell, if_false]
      rfl
  · rw [if_neg hn, if_neg hn, ite_self]
    rfl

/-- The increments of a row. -/
theorem sum_amounts_fields (row row' field : Text) {l : List (Sigma fun _ : Text => Count)}
    (hl : l.NodupKeys) :
    (Counters.amounts (row', field) (l.filterMap fun f =>
        if 0 < f.2.toInt then some ((row, f.1), f.2.toInt) else none)).sum =
      if row = row' then Write.amount ((l.dlookup field).getD 0) else 0 := by
  induction l with
  | nil => simp
  | cons f l ih =>
    obtain ⟨f, n⟩ := f
    obtain ⟨hf, hl⟩ := List.nodupKeys_cons.1 hl
    have hcons : (⟨f, n⟩ :: l : List (Sigma fun _ : Text => Count)).filterMap (fun f =>
        if 0 < f.2.toInt then some ((row, f.1), f.2.toInt) else none) =
          (if 0 < n.toInt then some ((row, f), n.toInt) else none).toList ++
            l.filterMap fun f => if 0 < f.2.toInt then some ((row, f.1), f.2.toInt) else none := by
      rw [List.filterMap_cons]
      by_cases hn : 0 < n.toInt <;> simp [hn]
    rw [hcons, Counters.amounts_append, List.sum_append, sum_amounts_field, ih hl]
    by_cases hrow : row = row'
    · by_cases hfield : f = field
      · subst hfield
        have hnone : l.dlookup f = none := List.dlookup_eq_none.2 hf
        rw [hnone, List.dlookup_cons_eq]
        simp [hrow]
      · have htail : List.dlookup field (⟨f, n⟩ :: l) = l.dlookup field :=
          List.dlookup_cons_ne l ⟨f, n⟩ (Ne.symm hfield)
        rw [htail]
        simp [hrow, hfield]
    · simp [hrow]

/-- **`Write` makes one increment of a cell**, of what the batch holds. -/
theorem sum_amounts_written (c : Container) (cell : Text × Text) :
    (Counters.amounts cell (Write.increments c)).sum = Write.amount (value c cell) := by
  obtain ⟨row, field⟩ := cell
  obtain ⟨l, hl⟩ := c
  change (Counters.amounts (row, field) (l.flatMap fun r => r.2.entries.filterMap fun f =>
      if 0 < f.2.toInt then some ((r.1, f.1), f.2.toInt) else none)).sum =
    Write.amount (((l.dlookup row).bind fun r => r.lookup field).getD 0)
  induction l with
  | nil => simp
  | cons r l ih =>
    obtain ⟨r, fields⟩ := r
    obtain ⟨hr, hl⟩ := List.nodupKeys_cons.1 hl
    rw [List.flatMap_cons, Counters.amounts_append, List.sum_append,
      sum_amounts_fields r row field fields.nodupKeys, ih hl]
    by_cases hrow : r = row
    · subst hrow
      have hnone : l.dlookup r = none := List.dlookup_eq_none.2 hr
      rw [hnone, List.dlookup_cons_eq, if_pos rfl]
      simp only [Option.bind_none, Option.getD_none, Option.bind_some, BitVec.ofNat_eq_ofNat,
        Write.amount_zero, add_zero]
      rfl
    · have htail : List.dlookup row (⟨r, fields⟩ :: l) = l.dlookup row :=
        List.dlookup_cons_ne l ⟨r, fields⟩ (Ne.symm hrow)
      rw [htail, if_neg hrow, zero_add]

/-- A cell summed over what `Write` makes of batches of songs. -/
def writtenSum (cell : Text × Text) (sent : List (Container × Table)) : ℤ :=
  (sent.map fun b => if b.2 = .songStat then Write.amount (value b.1 cell) else 0).sum

theorem writtenSum_append (cell : Text × Text) (sent more : List (Container × Table)) :
    writtenSum cell (sent ++ more) = writtenSum cell sent + writtenSum cell more := by
  simp [writtenSum]

theorem writtenSum_send (t : Table) (cell : Text × Text) (c : Container) :
    writtenSum cell (send c t) =
      if t = .songStat then Write.amount (value c cell) else 0 := by
  unfold send
  split
  · simp [writtenSum]
  · next hc => simp [writtenSum, value_of_no_entries (Nat.eq_zero_of_not_pos hc)]

/-! ## Intervals -/

section Interval

variable {a : Actor}

/-- A merge sends nothing. -/
theorem mergeStat_sent (pubinfo : PubInfo) (entry : StatKey × StatValue) :
    (mergeStat pubinfo a entry).sent = a.sent := by
  cases ha : a.running with
  | false => rw [mergeStat_of_not_running ha]
  | true => exact (mergeStat_containers _ ha entry).2

theorem act_sent {m : Message} (hm : m ≠ .tick) : (act a m).sent = a.sent := by
  cases m with
  | tick => exact absurd rfl hm
  | stats entries pubinfo =>
    cases ha : a.running with
    | false => rw [act_of_not_running ha]
    | true =>
      have hact : act a (.stats entries pubinfo) = entries.foldl (mergeStat pubinfo) a := by
        simp [act, ha]
      rw [hact]
      clear ha hact hm
      induction entries generalizing a with
      | nil => rfl
      | cons entry entries ih => rw [List.foldl_cons, ih, mergeStat_sent]

/-- Between two ticks nothing is sent. -/
theorem run_sent {ms : List Message} (hms : ∀ m ∈ ms, m ≠ .tick) : (run a ms).sent = a.sent := by
  induction ms generalizing a with
  | nil => rfl
  | cons m ms ih =>
    obtain ⟨hm, hms⟩ := List.forall_mem_cons.1 hms
    exact (ih hms).trans (act_sent hm)

theorem run_running (ha : a.running = true) {ms : List Message} (hms : ∀ m ∈ ms, ¬ m.Crashes) :
    (run a ms).running = true := by
  induction ms generalizing a with
  | nil => exact ha
  | cons m ms ih =>
    obtain ⟨hm, hms⟩ := List.forall_mem_cons.1 hms
    exact ih ((act_running ha m).2 hm) hms

theorem run_append (ms ms' : List Message) : run a (ms ++ ms') = run (run a ms) ms' :=
  List.foldl_append

/-- **What a quiet interval makes `Write` add to a cell of songs.** The
containers are empty before and after. -/
theorem run_interval (ha : a.running = true) (hempty : a.containers = {}) {ms : List Message}
    (htick : ∀ m ∈ ms, m ≠ .tick) (hms : ∀ m ∈ ms, ¬ m.Crashes) (cell : Text × Text) :
    (run a (ms ++ [.tick])).running = true ∧ (run a (ms ++ [.tick])).containers = {} ∧
      writtenSum cell (run a (ms ++ [.tick])).sent = writtenSum cell a.sent +
        Write.amount (Counters.amounts cell (contributions .songStat ms)).sum := by
  have hrun := run_running ha hms
  have hsent : (run a ms).sent = a.sent := run_sent htick
  -- before the tick the container holds what the interval contributed
  have hvalue : value (run a ms).songKeyCount cell =
      (Counters.amounts cell (contributions .songStat ms)).sum := by
    have hconserves := run_conserves ha hms .songStat cell
    rw [hsent, hempty] at hconserves
    have hstart : value (({} : Containers).of .songStat) cell = 0 := rfl
    rw [hstart, add_zero] at hconserves
    exact add_left_cancel hconserves
  have hact : run a (ms ++ [.tick]) = { run a ms with
      sent := (run a ms).sent ++ send (run a ms).songKeyCount .songStat ++
        send (run a ms).downKeyCount .downloadStat
      songKeyCount := ∅
      downKeyCount := ∅ } := by
    rw [run_append]
    simp [run, act, show (List.foldl act a ms).running = true from hrun]
  rw [hact]
  refine ⟨hrun, rfl, ?_⟩
  simp only [writtenSum_append, writtenSum_send, hsent, hvalue]
  simp

end Interval

/-! ## Runs of intervals -/

instance (pubinfo : PubInfo) : Decidable (Unmergeable pubinfo) :=
  decidable_of_iff (¬ (names ⟨.songListen, 0, none, []⟩ pubinfo).2.isNone = true)
    ((not_congr (names_snd _ pubinfo)).trans not_not)

instance : DecidablePred Message.Crashes
  | .stats entries pubinfo => inferInstanceAs (Decidable (entries ≠ [] ∧ Unmergeable pubinfo))
  | .tick => inferInstanceAs (Decidable False)

/-- The messages of an interval, with the tick that ends it. -/
def intervalMessages (ds : List Delivery) : List Message :=
  ds.flatMap Delivery.messages ++ [.tick]

/-- No log of the interval stops the actor. -/
def quiet (ds : List Delivery) : Bool :=
  decide (∀ m ∈ ds.flatMap Delivery.messages, ¬ m.Crashes)

/-- The intervals whose tick finds the actor running. -/
def flushed (intervals : List (List Delivery)) : List (List Delivery) :=
  intervals.takeWhile quiet

/-- **What an interval amounts to in a cell**, exactly. -/
def intervalTotal (ds : List Delivery) (cell : Text × Text) : ℕ :=
  (ds.map fun d => d.exactTotal cell).sum

theorem ne_tick_of_mem {ds : List Delivery} : ∀ m ∈ ds.flatMap Delivery.messages, m ≠ .tick := by
  intro m hm
  obtain ⟨d, -, hm⟩ := List.mem_flatMap.1 hm
  exact d.messages_ne_tick m hm

/-- An interval contributes its exact amounts, wrapped around. -/
theorem sum_interval (ds : List Delivery) (row : Text) {col : Text} (hcol : col ∈ timeColumns) :
    (Counters.amounts (row, col)
        (contributions .songStat (ds.flatMap Delivery.messages))).sum =
      (intervalTotal ds (row, col) : Count) := by
  have hflat : contributions .songStat (ds.flatMap Delivery.messages) =
      ds.flatMap fun d => contributions .songStat d.messages := List.flatMap_assoc
  rw [hflat, Counters.sum_amounts_flatMap, intervalTotal, Nat.cast_list_sum, List.map_map]
  exact congrArg List.sum (List.map_congr_left fun d _ => d.sum_contributions row hcol)

/-- **What a run makes `Write` add to a cell of songs**, interval by
interval. -/
theorem writtenSum_run {a : Actor} (ha : a.running = true) (hempty : a.containers = {})
    (intervals : List (List Delivery)) (rest : List Delivery) (row : Text) {col : Text}
    (hcol : col ∈ timeColumns) :
    writtenSum (row, col)
        (run a (intervals.flatMap intervalMessages ++ rest.flatMap Delivery.messages)).sent =
      writtenSum (row, col) a.sent +
        ((flushed intervals).map fun ds =>
          Write.amount (intervalTotal ds (row, col) : Count)).sum := by
  induction intervals generalizing a with
  | nil =>
    rw [List.flatMap_nil, List.nil_append, run_sent ne_tick_of_mem]
    simp [flushed]
  | cons ds intervals ih =>
    rw [List.flatMap_cons, List.append_assoc, run_append, intervalMessages]
    by_cases hquiet : ∀ m ∈ ds.flatMap Delivery.messages, ¬ m.Crashes
    · obtain ⟨hrun, hcontainers, hwritten⟩ :=
        run_interval ha hempty ne_tick_of_mem hquiet (row, col)
      have hflushed : flushed (ds :: intervals) = ds :: flushed intervals :=
        List.takeWhile_cons_of_pos (decide_eq_true hquiet)
      rw [ih hrun hcontainers, hflushed, List.map_cons, List.sum_cons, ← add_assoc]
      rw [sum_interval ds row hcol] at hwritten
      exact congrArg (· + _) hwritten
    · -- the actor stops within the interval, and its tick sends nothing
      have hflushed : flushed (ds :: intervals) = [] :=
        List.takeWhile_cons_of_neg fun h => hquiet (of_decide_eq_true h)
      obtain ⟨m, hm, hcrash⟩ : ∃ m ∈ ds.flatMap Delivery.messages, m.Crashes := by
        simpa only [not_forall, not_not, exists_prop] using hquiet
      have hstop : (run a (ds.flatMap Delivery.messages)).running = false :=
        not_running_of_crashes hm hcrash
      rw [run_append _ [.tick], run_of_not_running hstop, run_of_not_running hstop,
        run_sent ne_tick_of_mem, hflushed]
      simp

/-- The increments `Write` applied to a table. -/
def System.appliedTo (s : System) (t : Table) : List ((Text × Text) × ℤ) :=
  (s.applied.filter fun b => b.1 = t).flatMap Prod.snd

/-- Once `Write` has received every batch it has applied them all. -/
theorem System.sum_appliedTo {s : System} (hw : Wf s) (hall : s.received = s.sent.length)
    (cell : Text × Text) :
    (Counters.amounts cell (s.appliedTo .songStat)).sum = writtenSum cell s.view.sent := by
  have happlied : s.applied = s.view.sent.map fun b => (b.2, Write.increments b.1) := by
    rw [hw.applied_eq, hall, List.take_length, view, List.map_map]
    rfl
  rw [appliedTo, happlied, writtenSum]
  induction s.view.sent with
  | nil => rfl
  | cons b sent ih =>
    by_cases hb : b.2 = .songStat
    · simpa [hb, sum_amounts_written] using ih
    · simpa [hb] using ih

/-- **The totals of counts and times are exact exactly when no interval
reaches 2^31.** For every sequence of logs whose counts and times are
non-negative `Int`s, every placement of ticks, and every interleaving with
`Write` in which it receives all batches: the increments `Write` applies
to the columns `totalkaduncount`, `totalrespondtime` and `totalloadtime`
of every row sum to the exact sum of the amounts of the logs merged into
that row and flushed, if and only if in each flushed interval, for each
row, the exact sum of the logs merged into it stays below 2^31. -/
theorem totals_exact_iff (intervals : List (List Delivery)) (rest : List Delivery)
    (events : List System.Event)
    (hevents : System.messages events =
      intervals.flatMap intervalMessages ++ rest.flatMap Delivery.messages)
    (hall : (System.run {} events).received = (System.run {} events).sent.length) :
    (∀ row, ∀ col ∈ timeColumns,
      (Counters.amounts (row, col) ((System.run {} events).appliedTo .songStat)).sum =
        (((flushed intervals).map fun ds => intervalTotal ds (row, col)).sum : ℕ)) ↔
      ∀ ds ∈ flushed intervals, ∀ row, ∀ col ∈ timeColumns,
        intervalTotal ds (row, col) < 2 ^ 31 := by
  obtain ⟨hwf, -, hview⟩ := System.run_sim System.wf_init events
  have hwritten : ∀ row, ∀ col ∈ timeColumns,
      (Counters.amounts (row, col) ((System.run {} events).appliedTo .songStat)).sum =
        ((flushed intervals).map fun ds =>
          Write.amount (intervalTotal ds (row, col) : Count)).sum := by
    intro row col hcol
    rw [System.sum_appliedTo hwf hall, hview, hevents, writtenSum_run rfl rfl _ _ _ hcol]
    exact zero_add _
  have hexact : ∀ row col,
      (((flushed intervals).map fun ds => intervalTotal ds (row, col)).sum : ℤ) =
      ((flushed intervals).map fun ds => (intervalTotal ds (row, col) : ℤ)).sum := by
    intro row col
    rw [Nat.cast_list_sum, List.map_map]
    rfl
  constructor
  · intro h ds hds row col hcol
    have hsum := h row col hcol
    rw [hwritten row col hcol, hexact] at hsum
    have hterm := Lists.eq_of_sum_map_eq
      (fun ds _ => (Write.amount_natCast (intervalTotal ds (row, col))).1) hsum.symm ds hds
    exact (Write.amount_natCast _).2.1 hterm.symm
  · intro h row col hcol
    rw [hwritten row col hcol, hexact]
    exact congrArg List.sum (List.map_congr_left fun ds hds =>
      (Write.amount_natCast _).2.2 (h ds hds row col hcol))

/-- A listen that took 2147483647 to load. -/
def sampleOperation : Operation where
  getObject key :=
    if key = "module".toList then some (.string "song".toList)
    else if key = "type".toList then some (.string "listen_info".toList)
    else if key = "loading_time".toList then some (.integer 2147483647)
    else none

/-- The log of that listen, in China. -/
def sampleDelivery : Delivery where
  log := ⟨[sampleOperation], samplePubInfo⟩
  fits := by
    intro op hop
    obtain rfl := List.mem_singleton.1 hop
    exact ⟨⟨by decide, by decide⟩, ⟨by decide, by decide⟩, ⟨by decide, by decide⟩⟩
  stats := (∅ : Stats Count).insert ⟨.songListen, 0, none, ['-', '1']⟩ ⟨1, 0, 0, 2147483647⟩
  executed := by rfl
  entries := [(⟨.songListen, 0, none, ['-', '1']⟩, ⟨1, 0, 0, 2147483647⟩)]
  perm := by rfl

/-- A log in each of two intervals. -/
def sampleSpread : List System.Event :=
  [.receive (.stats sampleDelivery.entries samplePubInfo), .receive .tick, .write,
    .receive (.stats sampleDelivery.entries samplePubInfo), .receive .tick, .write]

/-- What the listen adds, by cell. -/
def sampleIncrements : List ((Text × Text) × ℕ) :=
  exactIncrements samplePubInfo ⟨⟨.songListen, 0, none, ['-', '1']⟩, ⟨1, 0, 0, 2147483647⟩⟩

theorem intervalTotal_sampleDelivery (cell : Text × Text) :
    intervalTotal [sampleDelivery] cell < 2 ^ 31 := by
  have htotal : intervalTotal [sampleDelivery] cell =
      (Counters.amounts cell sampleIncrements).sum + 0 + 0 := rfl
  rw [htotal, add_zero, add_zero]
  -- only the cells that occur have to be looked at
  have hoccur : ∀ cell ∈ sampleIncrements.map Prod.fst,
      (Counters.amounts cell sampleIncrements).sum < 2 ^ 31 := by decide +kernel
  by_cases hcell : cell ∈ sampleIncrements.map Prod.fst
  · exact hoccur cell hcell
  · have hnil : Counters.amounts cell sampleIncrements = [] :=
      Counters.amounts_eq_nil fun i hi h => hcell (List.mem_map.2 ⟨i, hi, h⟩)
    rw [hnil]
    decide

/-- In two intervals the listens are counted in full. -/
theorem totals_exact_sampleSpread :
    System.messages sampleSpread =
        [[sampleDelivery], [sampleDelivery]].flatMap intervalMessages ∧
      (System.run {} sampleSpread).received = (System.run {} sampleSpread).sent.length ∧
      (Counters.amounts (join china (dayText 2014 6 15), "totalloadtime".toList)
        ((System.run {} sampleSpread).appliedTo .songStat)).sum = 4294967294 := by
  have hmessages : System.messages sampleSpread =
      [[sampleDelivery], [sampleDelivery]].flatMap intervalMessages ++
        [].flatMap Delivery.messages := rfl
  have hall : (System.run {} sampleSpread).received =
      (System.run {} sampleSpread).sent.length := by decide +kernel
  have hbound : ∀ ds ∈ flushed [[sampleDelivery], [sampleDelivery]], ∀ row,
      ∀ col ∈ timeColumns, intervalTotal ds (row, col) < 2 ^ 31 := by
    intro ds hds row col _
    have hds := List.takeWhile_subset _ hds
    simp only [List.mem_cons, List.not_mem_nil, or_false, or_self] at hds
    rw [hds]
    exact intervalTotal_sampleDelivery (row, col)
  have htotal := (totals_exact_iff _ _ sampleSpread hmessages hall).2 hbound
    (join china (dayText 2014 6 15)) "totalloadtime".toList (by decide)
  refine ⟨hmessages.trans (List.append_nil _), hall, htotal.trans ?_⟩
  decide +kernel

/-- Both logs in one interval. -/
def sampleTogether : List System.Event :=
  [.receive (.stats sampleDelivery.entries samplePubInfo),
    .receive (.stats sampleDelivery.entries samplePubInfo), .receive .tick, .write]

/-- **Two such listens in one interval are lost**: their sum wraps around
to -2 and is left out. -/
theorem totals_lost_sampleTogether :
    System.messages sampleTogether = intervalMessages [sampleDelivery, sampleDelivery] ∧
      (System.run {} sampleTogether).received = (System.run {} sampleTogether).sent.length ∧
      (Counters.amounts (join china (dayText 2014 6 15), "totalloadtime".toList)
        ((System.run {} sampleTogether).appliedTo .songStat)).sum = 0 ∧
      ((flushed [[sampleDelivery, sampleDelivery]]).map fun ds =>
        intervalTotal ds (join china (dayText 2014 6 15), "totalloadtime".toList)).sum =
          4294967294 := by
  exact ⟨rfl, by decide +kernel, by decide +kernel, by decide +kernel⟩

end WriteToHbase

end Storm

end Xpod
