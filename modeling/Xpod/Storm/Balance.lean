import Mathlib.Algebra.BigOperators.Finprod
import Mathlib.Data.BitVec
import Mathlib.Tactic
import Xpod.Common.Counters
import Xpod.Common.Fields
import Xpod.Common.Java
import Xpod.Storm.RowKeys
/-!
# Rows that add up

Every name of a message is counted in its row of the day and in its row
of the hour, with the same columns, and every row that counts an
operation in its total counts it under its result too. Each of these is a
balance between cells that every call of `mergeSong` or `mergeDownload`
keeps, name by name, so it holds whichever names share a row.
-/

namespace Xpod

namespace Storm

namespace WriteToHbase

/-! ## Sequences of merges -/

/-- A call of `mergeSong` or `mergeDownload`. -/
structure Merge where
  table : Table
  stat : StatKey
  count : StatValue
  pubinfo : PubInfo

/-- The containers of the two tables. -/
structure Containers where
  song : Container := ∅
  download : Container := ∅

namespace Containers

/-- The container of a table. -/
def of (cs : Containers) : Table → Container
  | .songStat => cs.song
  | .downloadStat => cs.download

def merge (cs : Containers) (m : Merge) : Containers :=
  match m.table with
  | .songStat => { cs with song := (mergeSong cs.song m.stat m.count m.pubinfo).1 }
  | .downloadStat =>
    { cs with download := (mergeDownload cs.download m.stat m.count m.pubinfo).1 }

/-- The containers after the merges, from empty ones. -/
def mergeAll (ms : List Merge) : Containers := ms.foldl merge {}

end Containers

/-- The calls of `add` for a name, by cell. -/
def nameIncrements (fields : List (Text × Count)) (pubinfo : PubInfo) (name : Text) :
    List ((Text × Text) × Count) :=
  (addsOf fields pubinfo name).map fun a => ((a.row, a.field), a.count)

/-- What a name adds to a row. -/
theorem amounts_nameIncrements (fields : List (Text × Count)) (p : PubInfo)
    (name row field : Text) :
    Counters.amounts (row, field) (nameIncrements fields p name) =
      (if join name p.date = row then Counters.amounts field fields else []) ++
        if join name p.hour = row then Counters.amounts field fields else [] := by
  rw [nameIncrements, addsOf, List.map_append, List.map_map, List.map_map,
    Counters.amounts_append]
  change Counters.amounts _ (fields.map fun f => ((join name p.date, f.1), f.2)) ++
    Counters.amounts _ (fields.map fun f => ((join name p.hour, f.1), f.2)) = _
  rw [Call.amounts_row, Call.amounts_row]

/-- The calls of `add` a merge makes on the container of a table, by cell. -/
def Merge.increments (t : Table) (m : Merge) : List ((Text × Text) × Count) :=
  if m.table = t then
    (names m.stat m.pubinfo).1.flatMap (nameIncrements (t.fields m.stat m.count) m.pubinfo)
  else []

theorem of_merge (cs : Containers) (m : Merge) (t : Table) :
    (cs.merge m).of t = (m.increments t).foldl (fun c i => add c i.1.1 i.1.2 i.2) (cs.of t) := by
  obtain ⟨table, stat, count, pubinfo⟩ := m
  have hadds : ∀ fields c, addAll c (adds fields stat pubinfo) =
      ((names stat pubinfo).1.flatMap (nameIncrements fields pubinfo)).foldl
        (fun c i => add c i.1.1 i.1.2 i.2) c := by
    intro fields c
    rw [addAll, adds, List.foldl_flatMap, List.foldl_flatMap]
    simp only [nameIncrements, List.foldl_map]
  cases table <;> cases t
  · exact hadds _ _
  · rfl
  · rfl
  · exact hadds _ _

/-- **A cell holds the sum of its increments.** -/
theorem value_of_foldl (cs : Containers) (ms : List Merge) (t : Table) (cell : Text × Text) :
    value ((ms.foldl Containers.merge cs).of t) cell =
      value (cs.of t) cell +
        (Counters.amounts cell (ms.flatMap (Merge.increments t))).sum := by
  have hfold : (ms.foldl Containers.merge cs).of t =
      (ms.flatMap (Merge.increments t)).foldl (fun c i => add c i.1.1 i.1.2 i.2) (cs.of t) := by
    induction ms generalizing cs with
    | nil => rfl
    | cons m ms ih => rw [List.foldl_cons, ih, of_merge, List.flatMap_cons, List.foldl_append]
  rw [hfold, counts_add.value_foldl]

theorem value_of_mergeAll (ms : List Merge) (t : Table) (cell : Text × Text) :
    value ((Containers.mergeAll ms).of t) cell =
      (Counters.amounts cell (ms.flatMap (Merge.increments t))).sum := by
  have hempty : value (({} : Containers).of t) cell = 0 := by cases t <;> rfl
  rw [Containers.mergeAll, value_of_foldl, hempty, zero_add]

/-- **A balance every name keeps holds in every container.** -/
theorem value_balance {κ : Type*} {ms : List Merge} {t : Table} {cell : Text × Text}
    {s : Finset κ} {f : κ → Text × Text}
    (h : ∀ m ∈ ms, ∀ name,
      (Counters.amounts cell (nameIncrements (t.fields m.stat m.count) m.pubinfo name)).sum =
        ∑ j ∈ s, (Counters.amounts (f j)
          (nameIncrements (t.fields m.stat m.count) m.pubinfo name)).sum) :
    value ((Containers.mergeAll ms).of t) cell =
      ∑ j ∈ s, value ((Containers.mergeAll ms).of t) (f j) := by
  simp only [value_of_mergeAll]
  refine Counters.sum_amounts_balance fun m hm => ?_
  rw [Merge.increments]
  split
  · exact Counters.sum_amounts_balance fun name _ => h m hm name
  · simp

/-! ## Hours and days -/

/-- The text of a day, `y-m-d`. -/
def dayText (year month day : ℕ) : Text :=
  Nat.toDigits 10 year ++ '-' :: Nat.toDigits 10 month ++ '-' :: Nat.toDigits 10 day

/-- The text of an hour of a day, `y-m-d-h`. -/
def hourText (day : Text) (h : ℕ) : Text := day ++ '-' :: Nat.toDigits 10 h

theorem date_eq (p : PubInfo) :
    p.date = dayText p.dateHour.year p.dateHour.monthOfYear p.dateHour.dayOfMonth := rfl

theorem hour_eq (p : PubInfo) : p.hour = hourText p.date p.dateHour.hourOfDay := rfl

theorem underscore_notMem_dayText (y m d : ℕ) : '_' ∉ dayText y m d := by
  have hdigits : ∀ n, '_' ∉ Nat.toDigits 10 n := Java.not_mem_toDigits (by decide)
  simp [dayText, hdigits]

theorem underscore_notMem_hourText {day : Text} (h : '_' ∉ day) (n : ℕ) :
    '_' ∉ hourText day n := by
  have hdigits : '_' ∉ Nat.toDigits 10 n := Java.not_mem_toDigits (by decide) n
  simp [hourText, h, hdigits]

theorem count_dash_dayText (y m d : ℕ) : (dayText y m d).count '-' = 2 := by
  have hdigits : ∀ n, (Nat.toDigits 10 n).count '-' = 0 := fun n =>
    List.count_eq_zero_of_not_mem (Java.not_mem_toDigits (by decide) n)
  simp [dayText, hdigits]

theorem count_dash_hourText (day : Text) (n : ℕ) :
    (hourText day n).count '-' = day.count '-' + 1 := by
  have hdigits : (Nat.toDigits 10 n).count '-' = 0 :=
    List.count_eq_zero_of_not_mem (Java.not_mem_toDigits (by decide) n)
  simp [hourText, hdigits]

/-- The day and the hour can be read off an hour. -/
theorem hourText_inj {day day' : Text} {n n' : ℕ} :
    hourText day n = hourText day' n' ↔ day = day' ∧ n = n' := by
  rw [hourText, hourText, Fields.append_cons_inj (Java.not_mem_toDigits (by decide) n)
    (Java.not_mem_toDigits (by decide) n'), Java.toDigits_injective.eq_iff]

/-- What a name adds to a row of a day. -/
theorem amounts_day (fields : List (Text × Count)) (p : PubInfo) (n name field : Text)
    (y m d : ℕ) :
    Counters.amounts (join name (dayText y m d), field) (nameIncrements fields p n) =
      if n = name ∧ p.date = dayText y m d then Counters.amounts field fields else [] := by
  have hhour : dayText y m d ≠ p.hour := by
    intro h
    have hcount := congrArg (List.count '-') h
    rw [hour_eq, count_dash_hourText, date_eq, count_dash_dayText, count_dash_dayText] at hcount
    omega
  rw [nameIncrements, Call.amounts_addsOf _ _ _ _ _ (underscore_notMem_dayText y m d)]
  simp only [hhour, or_false, eq_comm]

/-- What a name adds to a row of an hour. -/
theorem amounts_hour (fields : List (Text × Count)) (p : PubInfo) (n name field : Text)
    (y m d h : ℕ) :
    Counters.amounts (join name (hourText (dayText y m d) h), field) (nameIncrements fields p n) =
      if n = name ∧ p.date = dayText y m d ∧ p.dateHour.hourOfDay = h
      then Counters.amounts field fields else [] := by
  have hday : hourText (dayText y m d) h ≠ p.date := by
    intro h
    have hcount := congrArg (List.count '-') h
    rw [count_dash_hourText, date_eq, count_dash_dayText, count_dash_dayText] at hcount
    omega
  have hhour : hourText (dayText y m d) h = p.hour ↔
      p.date = dayText y m d ∧ p.dateHour.hourOfDay = h := by
    rw [hour_eq, eq_comm, hourText_inj]
  rw [nameIncrements, Call.amounts_addsOf _ _ _ _ _
    (underscore_notMem_hourText (underscore_notMem_dayText y m d) h)]
  simp only [hday, false_or, hhour]

/-- A name adds to the row of a day what it adds to the rows of its hours. -/
theorem sum_amounts_hours (fields : List (Text × Count)) (p : PubInfo) (n name field : Text)
    (y m d : ℕ) :
    (Counters.amounts (join name (dayText y m d), field) (nameIncrements fields p n)).sum =
      ∑ h ∈ Finset.range 24, (Counters.amounts (join name (hourText (dayText y m d) h), field)
        (nameIncrements fields p n)).sum := by
  rw [amounts_day]
  simp only [amounts_hour]
  by_cases hrow : n = name ∧ p.date = dayText y m d
  · -- only the hour of the client counts, and it is one of the day's
    have hmem : p.dateHour.hourOfDay ∈ Finset.range 24 :=
      Finset.mem_range.2 p.dateHour.hourOfDay_lt
    rw [if_pos hrow, Finset.sum_eq_single_of_mem _ hmem]
    · rw [if_pos ⟨hrow.1, hrow.2, rfl⟩]
    · intro h _ hne
      rw [if_neg fun hh => hne hh.2.2.symm, List.sum_nil]
  · rw [if_neg hrow, List.sum_nil, Finset.sum_eq_zero]
    intro h _
    rw [if_neg fun hh => hrow ⟨hh.1, hh.2.1⟩, List.sum_nil]

/-- **The hours of a day add up to the day.** After every sequence of calls
of `mergeSong` and `mergeDownload` from empty containers, in either
container, every cell of a row of a day holds the sum, as Scala's `Int`s
sum, of the same cell in the rows of the day's hours, whichever names the
calls gave the row. -/
theorem merge_hours_add_up (ms : List Merge) (t : Table) (name field : Text) (y m d : ℕ) :
    value ((Containers.mergeAll ms).of t) (join name (dayText y m d), field) =
      ∑ h ∈ Finset.range 24, value ((Containers.mergeAll ms).of t)
        (join name (hourText (dayText y m d) h), field) :=
  value_balance fun call _ n => sum_amounts_hours (t.fields call.stat call.count) call.pubinfo n
    name field y m d

/-! ## Breakdowns and totals -/

/-- The column of all operations. -/
def totalcount : Text := "totalcount".toList

/-- The column of the operations with result `k`. -/
def stattype (k : ℤ) : Text := "stattype_".toList ++ intText k ++ "_count".toList

/-- The column of the downloads of quality `q`. -/
def quality (q : Text) : Text := "quality_".toList ++ q ++ "_count".toList

theorem intText_injective : Function.Injective intText := by
  intro m n h
  have hminus : ∀ k : ℕ, '-' ∉ Nat.toDigits 10 k := Java.not_mem_toDigits (by decide)
  cases m with
  | ofNat m =>
    cases n with
    | ofNat n => rw [Java.toDigits_injective h]
    | negSucc n =>
      have hmem : '-' ∈ intText (Int.ofNat m) := h ▸ List.mem_cons_self
      exact absurd hmem (hminus m)
  | negSucc m =>
    cases n with
    | ofNat n =>
      have hmem : '-' ∈ intText (Int.ofNat n) := h ▸ List.mem_cons_self
      exact absurd hmem (hminus n)
    | negSucc n =>
      have hdigits := Java.toDigits_injective (List.cons.inj h).2
      rw [Nat.succ.inj hdigits]

theorem append_append_inj {a b c d : Text} : a ++ b ++ c = a ++ d ++ c ↔ b = d := by
  rw [List.append_cancel_right_eq, List.append_cancel_left_eq]

theorem stattype_inj {k k' : ℤ} : stattype k = stattype k' ↔ k = k' :=
  append_append_inj.trans intText_injective.eq_iff

theorem quality_inj {q q' : Text} : quality q = quality q' ↔ q = q' := append_append_inj

/-- Columns of different kinds begin differently. -/
theorem ne_of_head {a b : Text} (h : a.head? ≠ b.head?) : a ≠ b := fun hab => h (by rw [hab])

theorem amounts_totalcount (t : Table) (stat : StatKey) (count : StatValue) :
    Counters.amounts totalcount (t.fields stat count) = [count.count] := by
  cases t with
  | songStat => rfl
  | downloadStat => rfl

/-- No column but its own counts a result. -/
theorem amounts_stattype (t : Table) (stat : StatKey) (count : StatValue) (k : ℤ) :
    Counters.amounts (stattype k) (t.fields stat count) =
      if stat.statType = k then [count.count] else [] := by
  have htotal : ∀ s, 't' :: s ≠ stattype k := fun s =>
    ne_of_head (show some 't' ≠ some 's' by decide)
  have hquality : quality stat.quality ≠ stattype k :=
    ne_of_head (show some 'q' ≠ some 's' by decide)
  have hown : stattype stat.statType = stattype k ↔ stat.statType = k := stattype_inj
  cases t with
  | songStat =>
    change Counters.amounts (stattype k) [('t' :: _, _), ('t' :: _, _),
      (stattype stat.statType, count.count), ('t' :: _, _), ('t' :: _, _)] = _
    simp only [Counters.amounts_cons, htotal, if_false, hown, Counters.amounts_nil]
  | downloadStat =>
    change Counters.amounts (stattype k) [('t' :: _, _), (stattype stat.statType, count.count),
      (quality stat.quality, _)] = _
    simp only [Counters.amounts_cons, htotal, hquality, if_false, hown, Counters.amounts_nil]

/-- No column but its own counts a quality, whatever text it is. -/
theorem amounts_quality (stat : StatKey) (count : StatValue) (q : Text) :
    Counters.amounts (quality q) (downloadFields stat count) =
      if stat.quality = q then [count.count] else [] := by
  have htotal : ∀ s, 't' :: s ≠ quality q := fun s =>
    ne_of_head (show some 't' ≠ some 'q' by decide)
  have hstattype : stattype stat.statType ≠ quality q :=
    ne_of_head (show some 's' ≠ some 'q' by decide)
  have hown : quality stat.quality = quality q ↔ stat.quality = q := quality_inj
  change Counters.amounts (quality q) [('t' :: _, _), (stattype stat.statType, _),
    (quality stat.quality, count.count)] = _
  simp only [Counters.amounts_cons, htotal, hstattype, if_false, hown, Counters.amounts_nil]

/-- A balance between columns is one in every row of a name. -/
theorem sum_amounts_columns {κ : Type*} {fields : List (Text × Count)} {field : Text}
    {s : Finset κ} {f : κ → Text} (p : PubInfo) (name row : Text)
    (h : (Counters.amounts field fields).sum =
      ∑ j ∈ s, (Counters.amounts (f j) fields).sum) :
    (Counters.amounts (row, field) (nameIncrements fields p name)).sum =
      ∑ j ∈ s, (Counters.amounts (row, f j) (nameIncrements fields p name)).sum := by
  have hrows : ∀ f, (Counters.amounts (row, f) (nameIncrements fields p name)).sum =
      (if join name p.date = row then (Counters.amounts f fields).sum else 0) +
        if join name p.hour = row then (Counters.amounts f fields).sum else 0 := by
    intro f
    rw [amounts_nameIncrements, List.sum_append, apply_ite List.sum, apply_ite List.sum,
      List.sum_nil]
  simp only [hrows, Finset.sum_add_distrib, h]
  congr 1
  · split <;> simp
  · split <;> simp

section Breakdown

variable {κ : Type*} [DecidableEq κ] {ms : List Merge} {t : Table} {f : κ → Text}
  {kind : StatKey → κ}

/-- **A breakdown adds up to the total**: where every call counts its
operations in the one column of its kind, the columns of all kinds
together hold what the total holds, and all but finitely many hold 0. -/
theorem value_breakdown
    (h : ∀ stat count k, Counters.amounts (f k) (t.fields stat count) =
      if kind stat = k then [count.count] else []) (row : Text) :
    (Function.support fun k => value ((Containers.mergeAll ms).of t) (row, f k)).Finite ∧
      value ((Containers.mergeAll ms).of t) (row, totalcount) =
        ∑ᶠ k, value ((Containers.mergeAll ms).of t) (row, f k) := by
  let kinds : Finset κ := (ms.map fun m => kind m.stat).toFinset
  have hmem : ∀ m ∈ ms, kind m.stat ∈ kinds := fun m hm =>
    List.mem_toFinset.2 (List.mem_map_of_mem hm)
  -- a kind no call is of has no column
  have habsent : (Function.support fun k =>
      value ((Containers.mergeAll ms).of t) (row, f k)) ⊆ kinds := by
    intro k hk
    by_contra hnot
    refine hk (value_balance (s := (∅ : Finset Unit)) (f := fun _ => (row, totalcount)) ?_)
    intro m hm name
    have hne : kind m.stat ≠ k := fun heq => hnot (heq ▸ hmem m hm)
    refine sum_amounts_columns (f := fun _ => totalcount) m.pubinfo name row ?_
    rw [h, if_neg hne]
    rfl
  refine ⟨kinds.finite_toSet.subset habsent, ?_⟩
  rw [finsum_eq_sum_of_support_subset _ habsent]
  refine value_balance fun m hm name => sum_amounts_columns m.pubinfo name row ?_
  simp only [h, amounts_totalcount]
  rw [Finset.sum_eq_single_of_mem _ (hmem m hm)]
  · rw [if_pos rfl]
  · intro k _ hne
    rw [if_neg (Ne.symm hne), List.sum_nil]

end Breakdown

/-- **Results and qualities add up to totals in every row.** After every
sequence of calls of `mergeSong` and `mergeDownload` from empty
containers, in each row of either container the total is the sum of the
columns of the results, and in each row of the download container it is
also the sum of the columns of the qualities, as Scala's `Int`s sum. Only
finitely many of these columns hold anything. -/
theorem merge_breakdowns_add_up (ms : List Merge) (row : Text) :
    (∀ t : Table,
      (Function.support fun k : ℤ =>
        value ((Containers.mergeAll ms).of t) (row, stattype k)).Finite ∧
      value ((Containers.mergeAll ms).of t) (row, totalcount) =
        ∑ᶠ k : ℤ, value ((Containers.mergeAll ms).of t) (row, stattype k)) ∧
    (Function.support fun q : Text =>
      value (Containers.mergeAll ms).download (row, quality q)).Finite ∧
    value (Containers.mergeAll ms).download (row, totalcount) =
      ∑ᶠ q : Text, value (Containers.mergeAll ms).download (row, quality q) :=
  ⟨fun t => value_breakdown (amounts_stattype t) row,
    value_breakdown (t := .downloadStat) amounts_quality row⟩

end WriteToHbase

end Storm

end Xpod
