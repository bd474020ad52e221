import Mathlib.Data.BitVec
import Mathlib.Data.List.Nodup
import Mathlib.Tactic
import Xpod.Common.Counters
import Xpod.Common.Fields
import Xpod.Common.Lists
import Xpod.Storm.RowNames
/-!
# Rows that stand for two things

A row of the statistics is named by a client's dimensions, joined with
underscores, and the date. The date holds no underscore, so the name can
be read off the row; what the name stands for cannot be read off the
name. A client chooses its version, and a version that reads like another
dimension's name is counted in that dimension's row.
-/

namespace Xpod

namespace Storm

namespace WriteToHbase

/-! ## Rows -/

/-- What stands behind the last underscore, and in front of it, can be
read off a row. -/
theorem join_inj {a b d d' : Text} (hd : '_' ∉ d) (hd' : '_' ∉ d') :
    join a d = join b d' ↔ a = b ∧ d = d' := Fields.append_cons_inj hd hd'

theorem underscore_notMem_date (p : PubInfo) : '_' ∉ p.date := by
  have hdigits : ∀ n, '_' ∉ Nat.toDigits 10 n := Java.not_mem_toDigits (by decide)
  simp [PubInfo.date, hdigits]

theorem underscore_notMem_hour (p : PubInfo) : '_' ∉ p.hour := by
  have hdigits : ∀ n, '_' ∉ Nat.toDigits 10 n := Java.not_mem_toDigits (by decide)
  simp [PubInfo.hour, underscore_notMem_date, hdigits]

/-- An hour has one dash more than a date. -/
theorem date_ne_hour (p q : PubInfo) : p.date ≠ q.hour := by
  have hdigits : ∀ n, (Nat.toDigits 10 n).count '-' = 0 := fun n =>
    List.count_eq_zero_of_not_mem (Java.not_mem_toDigits (by decide) n)
  intro h
  have hcount := congrArg (List.count '-') h
  simp [PubInfo.hour, PubInfo.date, hdigits] at hcount

/-! ## Containers count -/

/-- What a cell of a container holds; a cell that is not there is 0. -/
def value (container : Container) (cell : Text × Text) : Count :=
  ((container.lookup cell.1).bind fun row => row.lookup cell.2).getD 0

theorem lookup_singleton (f f' : Text) (n : Count) :
    (AList.singleton f n : AList fun _ : Text => Count).lookup f' =
      if f' = f then some n else none := by
  by_cases hf : f' = f
  · subst hf
    rw [if_pos rfl]
    exact @List.dlookup_cons_eq Text (fun _ => Count) _ [] f' n
  · rw [if_neg hf]
    exact List.dlookup_cons_ne [] (⟨f, n⟩ : Sigma fun _ : Text => Count) hf

/-- **`add` counts**: it changes its own cell and no other. -/
theorem counts_add :
    Counters.Counts (fun c (cell : Text × Text) n => add c cell.1 cell.2 n) value := by
  refine ⟨fun c cell n cell' => ?_⟩
  obtain ⟨r, f⟩ := cell
  obtain ⟨r', f'⟩ := cell'
  by_cases hr : r' = r
  · subst hr
    by_cases hf : f' = f
    · subst hf
      rcases hrow : c.lookup r' with - | row
      · simp [value, add, hrow, lookup_singleton]
      · rcases hcell : row.lookup f' with - | old <;> simp [value, add, hrow, hcell]
    · have hne : ¬ (r', f) = (r', f') := by simp [Ne.symm hf]
      rw [if_neg hne]
      rcases hrow : c.lookup r' with - | row
      · simp [value, add, hrow, lookup_singleton, hf]
      · rcases hcell : row.lookup f with - | old <;>
          simp [value, add, hrow, hcell, AList.lookup_insert_ne hf]
  · have hne : ¬ (r, f) = (r', f') := by simp [Ne.symm hr]
    rw [if_neg hne]
    rcases hrow : c.lookup r with - | row
    · simp [value, add, hrow, AList.lookup_insert_ne hr]
    · rcases hcell : row.lookup f with - | old <;>
        simp [value, add, hrow, hcell, AList.lookup_insert_ne hr]

/-! ## The cells a call adds to -/

/-- The columns a merge into the table adds to. -/
def Table.fields : Table → StatKey → StatValue → List (Text × Count)
  | .songStat => songFields
  | .downloadStat => downloadFields

/-- The merge into the table. -/
def Table.merge : Table → Container → StatKey → StatValue → PubInfo →
    Container × Option Java.Exception
  | .songStat => mergeSong
  | .downloadStat => mergeDownload

namespace Call

/-- The amounts the call adds to column `field` of each of its rows. -/
def fieldAmounts (t : Table) (field : Text) (c : Call) : List Count :=
  Counters.amounts field (t.fields c.stat c.count)

/-- The calls of `add`, by cell. -/
def increments (t : Table) (c : Call) : List ((Text × Text) × Count) :=
  (adds (t.fields c.stat c.count) c.stat c.pubinfo).map fun a => ((a.row, a.field), a.count)

theorem nodup_fields (t : Table) (stat : StatKey) (count : StatValue) :
    ((t.fields stat count).map Prod.fst).Nodup := by
  cases t with
  | songStat => simp [Table.fields, songFields]
  | downloadStat => simp [Table.fields, downloadFields]

/-- Every row has one total. -/
theorem fieldAmounts_totalcount (t : Table) (c : Call) :
    c.fieldAmounts t "totalcount".toList = [c.count.count] := by
  cases t with
  | songStat => rfl
  | downloadStat => rfl

theorem length_fieldAmounts_le (t : Table) (c : Call) (field : Text) :
    (c.fieldAmounts t field).length ≤ 1 :=
  Counters.length_amounts_le_one (nodup_fields t c.stat c.count) field

/-- A row of a call gets the call's amounts. -/
theorem amounts_row {ν : Type*} (fields : List (Text × ν)) (row row' field : Text) :
    Counters.amounts (row', field) (fields.map fun f => ((row, f.1), f.2)) =
      if row = row' then Counters.amounts field fields else [] := by
  induction fields with
  | nil => simp
  | cons f fields ih =>
    rw [List.map_cons, Counters.amounts_cons, Counters.amounts_cons, ih]
    by_cases hrow : row = row' <;> by_cases hf : f.1 = field <;> simp [hrow, hf]

/-- The increments of a name: the row of the day and the row of the hour. -/
theorem amounts_addsOf (fields : List (Text × Count)) (p : PubInfo) (n name field : Text)
    {d : Text} (hd : '_' ∉ d) :
    Counters.amounts (join name d, field)
        ((addsOf fields p n).map fun a => ((a.row, a.field), a.count)) =
      if n = name ∧ (d = p.date ∨ d = p.hour) then Counters.amounts field fields else [] := by
  have hdate : join n p.date = join name d ↔ n = name ∧ p.date = d :=
    join_inj (underscore_notMem_date p) hd
  have hhour : join n p.hour = join name d ↔ n = name ∧ p.hour = d :=
    join_inj (underscore_notMem_hour p) hd
  rw [addsOf, List.map_append, List.map_map, List.map_map, Counters.amounts_append]
  change Counters.amounts _ (fields.map fun f => ((join n p.date, f.1), f.2)) ++
    Counters.amounts _ (fields.map fun f => ((join n p.hour, f.1), f.2)) = _
  rw [amounts_row, amounts_row]
  simp only [hdate, hhour]
  by_cases hn : n = name
  · by_cases h : d = p.date
    · have hne : p.hour ≠ d := h ▸ (date_ne_hour p p).symm
      simp [hn, h.symm, hne]
    · simp [hn, h, Ne.symm h, eq_comm]
  · simp [hn]

/-- **What a call adds to a cell**: its amounts once for every time the
row's name is among the call's names, if the row is of the call's day or
hour. -/
theorem amounts_increments (t : Table) (c : Call) (name field : Text) {d : Text} (hd : '_' ∉ d) :
    Counters.amounts (join name d, field) (c.increments t) =
      if d = c.pubinfo.date ∨ d = c.pubinfo.hour
      then (List.replicate (c.names.count name) (c.fieldAmounts t field)).flatten else [] := by
  rw [increments, adds, List.map_flatMap, Counters.amounts_flatMap]
  simp only [amounts_addsOf _ _ _ _ _ hd]
  change c.names.flatMap _ = _
  induction c.names with
  | nil => simp
  | cons n ns ih =>
    rw [List.flatMap_cons, ih]
    by_cases h : d = c.pubinfo.date ∨ d = c.pubinfo.hour
    · by_cases hn : n = name
      · simp [h, hn, List.replicate_succ, fieldAmounts]
      · simp [h, hn]
    · simp [h]

/-- A cell a call adds to is of one of its names and of its day or hour. -/
theorem exists_of_mem_increments {t : Table} {c : Call} {i : (Text × Text) × Count}
    (hi : i ∈ c.increments t) :
    ∃ name d, i.1.1 = join name d ∧ '_' ∉ d := by
  obtain ⟨a, ha, rfl⟩ := List.mem_map.1 hi
  obtain ⟨name, -, ha⟩ := List.mem_flatMap.1 ha
  rcases List.mem_append.1 ha with ha | ha
  · obtain ⟨f, -, rfl⟩ := List.mem_map.1 ha
    exact ⟨name, _, rfl, underscore_notMem_date c.pubinfo⟩
  · obtain ⟨f, -, rfl⟩ := List.mem_map.1 ha
    exact ⟨name, _, rfl, underscore_notMem_hour c.pubinfo⟩

/-- **Each cell is added to once at most exactly when the names differ.** -/
theorem once_iff (t : Table) (c : Call) :
    (∀ cell, (Counters.amounts cell (c.increments t)).length ≤ 1) ↔ c.names.Nodup := by
  rw [List.nodup_iff_count_le_one]
  constructor
  · intro h name
    have hcell := h (join name c.pubinfo.date, "totalcount".toList)
    rw [amounts_increments t c _ _ (underscore_notMem_date c.pubinfo), if_pos (Or.inl rfl),
      fieldAmounts_totalcount] at hcell
    simpa using hcell
  · rintro h ⟨row, field⟩
    by_cases hcell : ∀ i ∈ c.increments t, i.1 ≠ (row, field)
    · rw [Counters.amounts_eq_nil hcell]
      exact Nat.zero_le 1
    · obtain ⟨i, hi, hrow⟩ : ∃ i ∈ c.increments t, i.1 = (row, field) := by
        simpa using hcell
      obtain ⟨name, d, hname, hd⟩ := exists_of_mem_increments hi
      obtain rfl : row = join name d := by rw [← hname, hrow]
      rw [amounts_increments t c name field hd]
      split
      · have hcount := h name
        have hlen := length_fieldAmounts_le t c field
        rw [List.length_flatten, List.map_replicate, List.sum_replicate, smul_eq_mul]
        exact Nat.mul_le_mul hcount hlen
      · exact Nat.zero_le 1

end Call

/-! ## Runs of calls -/

/-- The calls of `add` of a run of calls, by cell. -/
def increments (t : Table) (calls : List Call) : List ((Text × Text) × Count) :=
  calls.flatMap (Call.increments t)

/-- The container after the calls. -/
def mergeAll (t : Table) (calls : List Call) : Container :=
  calls.foldl (fun container c => (t.merge container c.stat c.count c.pubinfo).1) ∅

theorem merge_eq (t : Table) (container : Container) (c : Call) :
    (t.merge container c.stat c.count c.pubinfo).1 =
      (c.increments t).foldl (fun t i => add t i.1.1 i.1.2 i.2) container := by
  rw [Call.increments, List.foldl_map]
  cases t <;> rfl

/-- **A cell holds the sum of its increments**, as Scala's `Int`s sum. -/
theorem value_mergeAll (t : Table) (calls : List Call) (cell : Text × Text) :
    value (mergeAll t calls) cell = (Counters.amounts cell (increments t calls)).sum := by
  have hfold : mergeAll t calls =
      (increments t calls).foldl (fun t i => add t i.1.1 i.1.2 i.2) ∅ := by
    rw [mergeAll, increments, List.foldl_flatMap]
    simp only [merge_eq]
  have hempty : value ∅ cell = 0 := rfl
  rw [hfold, counts_add.value_foldl, hempty, zero_add]

/-! ## Rows identify their dimensions -/

/-- The call is of the same version on the same day. -/
def Call.SameDay (c₀ c : Call) : Prop :=
  c.version = c₀.version ∧ c.pubinfo.date = c₀.pubinfo.date

instance (c₀ c : Call) : Decidable (c₀.SameDay c) := inferInstanceAs (Decidable (_ ∧ _))

/-- The row `models.Stat` reads for the version and the day of a call. -/
def Call.statRow (c : Call) : Text := join c.version c.pubinfo.date

/-- **Rows identify their dimensions**: a call adds to a cell once at most,
and what is added to a version's row of a day, column by column, is what
the calls of that version on that day count. -/
structure RowsIdentify (t : Table) (calls : List Call) : Prop where
  once : ∀ c ∈ calls, ∀ cell, (Counters.amounts cell (c.increments t)).length ≤ 1
  statRow : ∀ c₀ ∈ calls, ∀ field,
    Counters.amounts (c₀.statRow, field) (increments t calls) =
      (calls.filter fun c => c₀.SameDay c).flatMap (Call.fieldAmounts t field)

section Identify

variable {t : Table} {calls : List Call} {c₀ c : Call}

/-- What a call adds to the row of another's version. -/
theorem amounts_statRow (field : Text) :
    Counters.amounts (c₀.statRow, field) (c.increments t) =
      if c.pubinfo.date = c₀.pubinfo.date
      then (List.replicate (c.names.count c₀.version) (c.fieldAmounts t field)).flatten
      else [] := by
  have hhour := date_ne_hour c₀.pubinfo c.pubinfo
  rw [Call.statRow, Call.amounts_increments t c _ _ (underscore_notMem_date c₀.pubinfo)]
  simp only [hhour, or_false, eq_comm]

/-- A name that stands for the version alone is where a call of the
version, and no other call of the day, adds. -/
theorem amounts_statRow_of_clean (hne : c.version ≠ []) (hnodup : c.names.Nodup)
    (hclean : c₀.pubinfo.date = c.pubinfo.date → c₀.version ≠ c.version → c₀.version ∉ c.names)
    (field : Text) :
    Counters.amounts (c₀.statRow, field) (c.increments t) =
      if c₀.SameDay c then c.fieldAmounts t field else [] := by
  rw [amounts_statRow]
  by_cases hdate : c.pubinfo.date = c₀.pubinfo.date
  · by_cases hver : c.version = c₀.version
    · have hcount : c.names.count c₀.version = 1 :=
        List.count_eq_one_of_mem hnodup (hver ▸ Call.version_mem_names hne)
      simp [hdate, Call.SameDay, hver, hcount]
    · have hcount : c.names.count c₀.version = 0 :=
        List.count_eq_zero_of_not_mem (hclean hdate.symm (Ne.symm hver))
      simp [hdate, Call.SameDay, hver, hcount]
  · simp [hdate, Call.SameDay]

/-- The lengths of both sides at the total: how often each call adds to
the row, and which calls should. -/
theorem sum_count_of_statRow
    (h : Counters.amounts (c₀.statRow, "totalcount".toList) (increments t calls) =
      (calls.filter fun c => c₀.SameDay c).flatMap (Call.fieldAmounts t "totalcount".toList)) :
    (calls.map fun c =>
        if c.pubinfo.date = c₀.pubinfo.date then c.names.count c₀.version else 0).sum =
      (calls.map fun c => if c₀.SameDay c then 1 else 0).sum := by
  have hlen := congrArg List.length h
  rw [increments, Counters.amounts_flatMap, Lists.flatMap_filter, List.length_flatMap,
    List.length_flatMap] at hlen
  refine Eq.trans (congrArg List.sum (List.map_congr_left fun c _ => ?_))
    (hlen.trans (congrArg List.sum (List.map_congr_left fun c _ => ?_)))
  · rw [amounts_statRow, Call.fieldAmounts_totalcount]
    by_cases hdate : c.pubinfo.date = c₀.pubinfo.date <;> simp [hdate]
  · rw [Call.fieldAmounts_totalcount]
    by_cases hsame : c₀.SameDay c <;> simp [hsame]

/-- A version that has a row of its own is not empty. -/
theorem version_ne_nil_of_sum (hmem : c₀ ∈ calls)
    (hsum : (calls.map fun c =>
        if c.pubinfo.date = c₀.pubinfo.date then c.names.count c₀.version else 0).sum =
      (calls.map fun c => if c₀.SameDay c then 1 else 0).sum) : c₀.version ≠ [] := by
  intro hnil
  have hzero : (calls.map fun c =>
      if c.pubinfo.date = c₀.pubinfo.date then c.names.count c₀.version else 0).sum = 0 := by
    refine List.sum_eq_zero_iff.2 fun n hn => ?_
    obtain ⟨c, -, rfl⟩ := List.mem_map.1 hn
    rw [hnil, List.count_eq_zero_of_not_mem c.nil_notMem_names, ite_self]
  rw [hzero] at hsum
  have hone := List.sum_eq_zero_iff.1 hsum.symm _ (List.mem_map_of_mem hmem)
  simp [Call.SameDay] at hone

/-- **The row of a version is its own** when its sums come out right. -/
theorem clean_of_sum (hne : c₀.version ≠ [])
    (hsum : (calls.map fun c =>
        if c.pubinfo.date = c₀.pubinfo.date then c.names.count c₀.version else 0).sum =
      (calls.map fun c => if c₀.SameDay c then 1 else 0).sum) (hc : c ∈ calls)
    (hdate : c₀.pubinfo.date = c.pubinfo.date) (hver : c₀.version ≠ c.version) :
    c₀.version ∉ c.names := by
  have hle : ∀ c ∈ calls, (if c₀.SameDay c then 1 else 0) ≤
      if c.pubinfo.date = c₀.pubinfo.date then c.names.count c₀.version else 0 := by
    intro c _
    by_cases hsame : c₀.SameDay c
    · rw [if_pos hsame, if_pos hsame.2, ← hsame.1]
      exact List.count_pos_iff.2 (Call.version_mem_names (hsame.1 ▸ hne))
    · rw [if_neg hsame]
      exact Nat.zero_le _
  have hterm := Lists.eq_of_sum_map_eq hle hsum c hc
  rw [if_pos hdate.symm, if_neg fun h => hver h.1.symm] at hterm
  exact List.count_eq_zero.1 hterm

/-- Names that differ make rows that identify their dimensions. -/
theorem rowsIdentify_of_names
    (h : ∀ c ∈ calls, c.version ≠ [] ∧ c.names.Nodup ∧
      ∀ c₀ ∈ calls, c₀.pubinfo.date = c.pubinfo.date → c₀.version ≠ c.version →
        c₀.version ∉ c.names) : RowsIdentify t calls := by
  refine ⟨fun c hc => (Call.once_iff t c).2 (h c hc).2.1, fun c₀ hc₀ field => ?_⟩
  rw [increments, Counters.amounts_flatMap, Lists.flatMap_filter]
  refine List.flatMap_congr fun c hc => ?_
  obtain ⟨hne, hnodup, hclean⟩ := h c hc
  rw [amounts_statRow_of_clean hne hnodup (hclean c₀ hc₀)]
  simp

/-- Rows that identify their dimensions come of names that differ. -/
theorem names_of_rowsIdentify (h : RowsIdentify t calls) (hc : c ∈ calls) :
    c.version ≠ [] ∧ c.names.Nodup ∧
      ∀ c₀ ∈ calls, c₀.pubinfo.date = c.pubinfo.date → c₀.version ≠ c.version →
        c₀.version ∉ c.names := by
  have hsum := fun c₀ hc₀ => sum_count_of_statRow (h.statRow c₀ hc₀ _)
  have hne := fun c₀ hc₀ => version_ne_nil_of_sum hc₀ (hsum c₀ hc₀)
  exact ⟨hne c hc, (Call.once_iff t c).1 (h.once c hc), fun c₀ hc₀ hdate hver =>
    clean_of_sum (hne c₀ hc₀) (hsum c₀ hc₀) hc hdate hver⟩

end Identify

/-- A client on the mainland with version 2 on network type 2. -/
def sampleCall : Call where
  stat := ⟨.songListen, 0, none, ['-', '1']⟩
  count := { count := 1 }
  pubinfo := { samplePubInfo with version := some ['2'] }
  loc := { country := some china }
  version := ['2']
  location_eq := rfl
  mainland := by decide
  version_eq := rfl

end WriteToHbase

end Storm

end Xpod
