import Mathlib.Data.BitVec
import Mathlib.Tactic
import Xpod.Common.Decimal
import Xpod.DataSys.ActionKeys
/-!
# Reading user actions by time

For ids without a separator, and times whose countdown has as many digits
as `timeReducer`, the scan of a query gives the actions of its user in its
window of time, latest first. The bound of a countdown is shorter than
every key that begins with it, so the earlier end of the window is
excluded and the later one included.
-/

namespace Xpod

namespace DataSys

open Storm Storm.RecomendPro Application

/-! ## Countdowns -/

/-- A time that counts down to thirteen digits. -/
def Timely (time : BitVec 64) : Prop := 0 ≤ time.toInt ∧ time.toInt < 9000000000000

def countdown (time : BitVec 64) : ℕ := (9999999999999 - time.toInt).toNat

theorem countdown_lt_iff {s t : BitVec 64} (hs : Timely s) (ht : Timely t) :
    countdown s < countdown t ↔ t.toInt < s.toInt := by
  unfold Timely at hs ht
  unfold countdown
  omega

/-- The countdown is printed in thirteen digits. -/
theorem getBytes_countdown {time : BitVec 64} (h : Timely time) :
    getBytes (intText (timeReducer - time).toInt) = Decimal.bytes (countdown time) ∧
      (Decimal.bytes (countdown time)).length = 13 := by
  unfold Timely at h
  have hreducer : timeReducer.toInt = 9999999999999 := rfl
  have htoInt : (timeReducer - time).toInt = ((countdown time : ℕ) : ℤ) := by
    rw [BitVec.toInt_sub, hreducer, Int.bmod_eq_of_le (by omega) (by omega), countdown]
    omega
  refine ⟨?_, ?_⟩
  · rw [htoInt]
    rfl
  · have hlo : 10 ^ 12 ≤ countdown time := by
      unfold countdown
      omega
    have hhi : countdown time < 10 ^ (12 + 1) := by
      unfold countdown
      omega
    exact Decimal.length_bytes hlo hhi

/-- **A key against a bound**: it comes first exactly when its action is
later. -/
theorem Action.rest_lt_iff {a : Action} {time : BitVec 64} (ha : Timely a.time)
    (ht : Timely time) :
    a.rest < getBytes (intText (timeReducer - time).toInt) ↔ time.toInt < a.time.toInt := by
  obtain ⟨hbytes, hlen⟩ := getBytes_countdown ha
  obtain ⟨hbytes', hlen'⟩ := getBytes_countdown ht
  have heq : (Decimal.bytes (countdown a.time)).length =
      (Decimal.bytes (countdown time)).length := hlen.trans hlen'.symm
  rw [Action.rest, hbytes, hbytes', ← List.append_nil (Decimal.bytes (countdown time)),
    Lex.append_lt_append_of_length_eq heq, Decimal.bytes_lt_iff heq, countdown_lt_iff ha ht]
  simp

/-- Of two actions the key of the later one comes first. -/
theorem Action.time_le_of_rest_lt {a a' : Action} (ha : Timely a.time) (ha' : Timely a'.time)
    (h : a.rest < a'.rest) : a'.time.toInt ≤ a.time.toInt := by
  obtain ⟨hbytes, hlen⟩ := getBytes_countdown ha
  obtain ⟨hbytes', hlen'⟩ := getBytes_countdown ha'
  have heq := hlen.trans hlen'.symm
  rw [Action.rest, Action.rest, hbytes, hbytes', Lex.append_lt_append_of_length_eq heq,
    Decimal.bytes_lt_iff heq, countdown_lt_iff ha ha'] at h
  rcases h with h | ⟨h, -⟩
  · exact h.le
  · have hcount := Decimal.bytes_injective h
    unfold countdown Timely at *
    omega

/-! ## The window of a query -/

/-- An action under an id without separators, at a time of the present
age. -/
structure Action.Plain (a : Action) : Prop where
  id : '_' ∉ a.id
  time : Timely a.time

/-- A bound of the window in milliseconds. -/
def TimelyBound (seconds : Option (BitVec 64)) : Prop :=
  ∀ s ∈ seconds, 0 ≤ s.toInt * 1000 ∧ s.toInt * 1000 < 9000000000000

/-- **The window**: after `left`, and not after `right`. A missing bound
imposes nothing. -/
def InWindow (left right : Option (BitVec 64)) (time : BitVec 64) : Prop :=
  (∀ l ∈ left, l.toInt * 1000 < time.toInt) ∧ ∀ r ∈ right, time.toInt ≤ r.toInt * 1000

theorem timely_mul {s : BitVec 64} (h0 : 0 ≤ s.toInt * 1000)
    (h1 : s.toInt * 1000 < 9000000000000) :
    Timely (s * 1000) ∧ (s * 1000).toInt = s.toInt * 1000 := by
  have hthousand : (1000 : BitVec 64).toInt = 1000 := rfl
  have htoInt : (s * 1000).toInt = s.toInt * 1000 := by
    rw [BitVec.toInt_mul, hthousand, Int.bmod_eq_of_le (by omega) (by omega)]
  exact ⟨by unfold Timely; omega, htoInt⟩

section Window

variable {w : Written} {a : Action} {left right : Option (BitVec 64)}

theorem lt_stop_iff (ha : a ∈ w.actions) (hp : a.Plain) (hleft : TimelyBound left) :
    a.rest < getBytes (boundText ['z'] left) ↔ ∀ l ∈ left, l.toInt * 1000 < a.time.toInt := by
  cases left with
  | none =>
    have hlow : a.rest < getBytes ['z'] := lt_z_of_forall_lt fun _ => Written.lt_of_mem_rest ha
    exact iff_of_true hlow (by simp)
  | some s =>
    obtain ⟨h0, h1⟩ := hleft s rfl
    obtain ⟨htimely, htoInt⟩ := timely_mul h0 h1
    have hrest := Action.rest_lt_iff hp.time htimely
    rw [boundText_some, hrest, htoInt]
    simp

theorem start_le_iff (hp : a.Plain) (hright : TimelyBound right) :
    getBytes (boundText [] right) ≤ a.rest ↔ ∀ r ∈ right, a.time.toInt ≤ r.toInt * 1000 := by
  cases right with
  | none => exact iff_of_true (not_lt.1 (List.not_lt_nil _)) (by simp)
  | some s =>
    obtain ⟨h0, h1⟩ := hright s rfl
    obtain ⟨htimely, htoInt⟩ := timely_mul h0 h1
    have hrest := (Action.rest_lt_iff hp.time htimely).not
    rw [not_lt, not_lt, htoInt] at hrest
    rw [boundText_some, hrest]
    simp

/-- **The key of an action lies in the scan of a query** exactly when the
action is one of the query's user, kind and window. -/
theorem Action.mem_scan_iff (ha : a ∈ w.actions) (hp : a.Plain) {uid : Text}
    {uidtype : Option Text} {type : IdType} (htype : uidtype.getD ['u'] = type.text)
    (hleft : TimelyBound left) (hright : TimelyBound right) :
    (startRow uid uidtype right ≤ a.key ∧ a.key < stopRow uid uidtype left) ↔
      a.id = uid ∧ a.type = type ∧ InWindow left right a.time := by
  have hhead : ∀ x, getBytes (head uid uidtype) ++ sep :: x =
      getBytes uid ++ sep :: idByte type :: sep :: x := by
    intro x
    rw [head, htype, getBytes_append, getBytes_sep, getBytes_type]
    simp
  rw [DataSys.mem_scan_iff]
  constructor
  · rintro ⟨x, hkey, hlo, hhi⟩
    rw [a.key_eq, hhead] at hkey
    rcases Fields.append_mark_eq (idByte_ne_sep type) (idByte_ne_sep a.type)
      (Written.not_mem_rest ha type) hkey.symm with ⟨hid, htype', hx⟩ | ⟨y, hid, -⟩
    · rw [hx] at hlo hhi
      exact ⟨(Utf8.encode_injective hid).symm, (idByte_injective htype').symm,
        (lt_stop_iff ha hp hleft).1 hhi, (start_le_iff hp hright).1 hlo⟩
    · -- the id would hold a separator
      have hsep : UInt8.ofNat '_'.toNat ∉ Utf8.encode a.id :=
        Utf8.not_mem_encode (by decide) hp.id
      refine absurd ?_ hsep
      change sep ∈ getBytes a.id
      rw [hid]
      simp
  · rintro ⟨hid, htype', hl, hr⟩
    refine ⟨a.rest, ?_, (start_le_iff hp hright).2 hr, (lt_stop_iff ha hp hleft).2 hl⟩
    rw [a.key_eq, hhead, hid, htype']

end Window

/-! ## Rows that can be read -/

/-- The cells decode. -/
def Readable (cells : Cells) : Prop := ∀ e ∈ cells.entries, ∃ v, cellValue e.1 e.2 = .ok v

theorem cellValue_text {key : Text} (hkey : key ∉ intKeys) (value : List UInt8) :
    ∃ v, cellValue key value = .ok v :=
  ⟨_, if_neg hkey⟩

theorem cellValue_number {key : Text} {value : List UInt8}
    (hlen : value.length = 4 ∨ value.length = 8) : ∃ v, cellValue key value = .ok v := by
  unfold cellValue
  split_ifs with hkey h4 h8
  · exact ⟨_, rfl⟩
  · omega
  · exact ⟨_, rfl⟩
  · exact ⟨_, rfl⟩

theorem cellValue_int (key : Text) (n : BitVec 32) : ∃ v, cellValue key (intBytes n) = .ok v :=
  cellValue_number (Or.inl (BigEndian.length_write 4 _))

theorem cellValue_long (key : Text) (n : BitVec 64) : ∃ v, cellValue key (longBytes n) = .ok v :=
  cellValue_number (Or.inr (BigEndian.length_write 8 _))

theorem cellValue_addText {qualifier : String} (hkey : qualifier.toList ∉ intKeys)
    {s : Option Text} {c : Text × List UInt8} (hc : c ∈ addText qualifier s) :
    ∃ v, cellValue c.1 c.2 = .ok v := by
  obtain ⟨text, -, rfl⟩ := List.mem_map.1 hc
  exact cellValue_text hkey _

theorem cellValue_addInfo {p : PutTrait} {columns : Columns} (h : p.addInfo = .ok columns) :
    ∀ c ∈ columns, ∃ v, cellValue c.1 c.2 = .ok v := by
  intro c hc
  unfold PutTrait.addInfo at h
  split at h
  · obtain rfl := Except.ok.inj h
    simp only [List.mem_append, List.mem_cons, List.not_mem_nil, or_false] at hc
    rcases hc with hc | rfl | rfl | rfl
    · exact cellValue_addText (by decide) hc
    · exact cellValue_int _ _
    · exact cellValue_long _ _
    · exact cellValue_text (by decide) _
  · simp at h
  · obtain rfl := Except.ok.inj h
    simp only [List.mem_cons, List.not_mem_nil, or_false] at hc
    rcases hc with rfl | rfl | rfl | rfl
    · exact cellValue_text (show "song_id".toList ∉ intKeys by decide) _
    · exact cellValue_long _ _
    · exact cellValue_long _ _
    · exact cellValue_text (by decide) _
  · simp at h
  · obtain rfl := Except.ok.inj h
    simp only [List.mem_cons, List.not_mem_nil, or_false] at hc
    rcases hc with rfl | rfl | rfl
    · exact cellValue_text (show "rank_id".toList ∉ intKeys by decide) _
    · exact cellValue_long _ _
    · exact cellValue_text (by decide) _

theorem cellValue_addInfoToPut {p : RecomendPro.PubInfo} {columns : Columns}
    (h : p.addInfoToPut = .ok columns) : ∀ c ∈ columns, ∃ v, cellValue c.1 c.2 = .ok v := by
  intro c hc
  unfold PubInfo.addInfoToPut at h
  split at h
  · simp at h
  · obtain rfl := Except.ok.inj h
    simp only [List.mem_append, List.mem_singleton] at hc
    rcases hc with (((((((((hc | hc) | rfl) | hc) | hc) | hc) | hc) | hc) | hc) | hc) | rfl
    all_goals first
      | exact cellValue_addText (by decide) hc
      | exact cellValue_int _ _

theorem readable_putColumns {columns : Columns}
    (hcolumns : ∀ c ∈ columns, ∃ v, cellValue c.1 c.2 = .ok v) {cells : Cells}
    (hcells : Readable cells) :
    Readable (columns.foldl (fun cells c => cells.insert c.1 c.2) cells) := by
  induction columns generalizing cells with
  | nil => exact hcells
  | cons c columns ih =>
    obtain ⟨hc, hcolumns⟩ := List.forall_mem_cons.1 hcolumns
    refine ih hcolumns fun e he => ?_
    rw [AList.entries_insert] at he
    rcases List.mem_cons.1 he with rfl | he
    · exact hc
    · exact hcells e ((List.kerase_sublist _ _).subset he)

/-- The columns of every put decode. -/
theorem Written.columns_puts (w : Written) :
    ∀ put ∈ w.puts, ∀ c ∈ put.columns, ∃ v, cellValue c.1 c.2 = .ok v := by
  have hunder : ∀ {type id puts}, w.data.putUnder w.pubInfo type id = .ok puts →
      ∀ put ∈ puts, ∀ c ∈ put.columns, ∃ v, cellValue c.1 c.2 = .ok v := by
    intro type id puts h put hput c hc
    obtain ⟨-, rfl⟩ | ⟨id', info, shared, -, hinfo, hshared, rfl⟩ := putUnder_cases h
    · simp at hput
    · obtain rfl := List.mem_singleton.1 hput
      rcases List.mem_append.1 hc with hc | hc
      · exact cellValue_addInfo hinfo c hc
      · exact cellValue_addInfoToPut hshared c hc
  obtain ⟨device, user, hdevice, huser, hputs⟩ := w.puts_eq
  intro put hput
  rw [hputs] at hput
  rcases List.mem_append.1 hput with hput | hput
  · exact hunder hdevice put hput
  · exact hunder huser put hput

/-- Cells that decode make a row of the answer. -/
theorem rowMap_eq_ok {cells : Cells} (h : Readable cells) : ∃ r, rowMap cells = .ok r := by
  have hfold : ∀ (entries : List (Sigma fun _ : Text => List UInt8)) (r : RowMap),
      (∀ e ∈ entries, ∃ v, cellValue e.1 e.2 = .ok v) →
      ∃ r', entries.foldlM (fun (r : RowMap) c => do
        let value ← cellValue c.1 c.2
        return r.insert c.1 value) r = .ok r' := by
    intro entries
    induction entries with
    | nil => exact fun r _ => ⟨r, rfl⟩
    | cons e entries ih =>
      intro r h
      obtain ⟨⟨v, hv⟩, h⟩ := List.forall_mem_cons.1 h
      obtain ⟨r', hr'⟩ := ih (r.insert e.1 v) h
      refine ⟨r', ?_⟩
      rw [List.foldlM_cons, hv]
      exact hr'
  exact hfold cells.entries ∅ h

/-! ## The answer -/

/-- The loop takes the first rows, until `num` are in the answer. -/
theorem collect_eq {num : ℤ} {count : ℕ} (h : (count : ℤ) < num)
    (rows : List (List UInt8 × Cells)) :
    collect num count rows =
      (rows.take (num - count).toNat).mapM fun row => rowMap row.2 := by
  induction rows generalizing count with
  | nil =>
    rw [collect, List.take_nil]
    rfl
  | cons row rows ih =>
    have hpos : (num - count).toNat = (num - (count + 1)).toNat + 1 := by omega
    rw [collect, hpos, List.take_succ_cons, List.mapM_cons]
    rcases rowMap row.2 with e | r
    · rfl
    · simp only [Java.ok_bind]
      split_ifs with hlast
      · have hzero : (num - (count + 1)).toNat = 0 := by omega
        rw [hzero]
        rfl
      · have hnext : ((count + 1 : ℕ) : ℤ) < num := by omega
        rw [ih hnext]
        push_cast
        rfl

/-- `user_action` after calls of `createPut` whose puts were written. -/
def tableOf (ws : List Written) : ActionTable := putAll {} (ws.flatMap Written.puts)

theorem mem_keys_tableOf {ws : List Written} {key : List UInt8} :
    key ∈ (tableOf ws).rows.map Prod.fst ↔ ∃ w ∈ ws, ∃ a ∈ w.actions, key = a.key := by
  rw [tableOf, putAll, OrderedTable.mem_keys_putAll, List.map_map]
  have hfst : (Prod.fst ∘ fun p : Put => (p.row, p.columns)) = Put.row := rfl
  rw [hfst, List.map_flatMap]
  simp only [Written.rows_puts, List.mem_flatMap, List.mem_map, List.map_nil, List.not_mem_nil,
    or_false, eq_comm]

theorem readable_tableOf (ws : List Written) : ∀ r ∈ (tableOf ws).rows, Readable r.2 := by
  refine OrderedTable.forall_putAll (by simp) fun p hp => ?_
  obtain ⟨put, hput, rfl⟩ := List.mem_map.1 hp
  obtain ⟨w, -, hput⟩ := List.mem_flatMap.1 hput
  have hcolumns := w.columns_puts put hput
  exact ⟨readable_putColumns hcolumns (by simp [Readable]),
    fun old hold => readable_putColumns hcolumns hold⟩

theorem mapM_rowMap_eq_ok {rows : List (List UInt8 × Cells)} (h : ∀ r ∈ rows, Readable r.2) :
    ∃ maps, (rows.mapM fun row => rowMap row.2) = .ok maps := by
  induction rows with
  | nil => exact ⟨[], rfl⟩
  | cons row rows ih =>
    obtain ⟨hrow, h⟩ := List.forall_mem_cons.1 h
    obtain ⟨r, hr⟩ := rowMap_eq_ok hrow
    obtain ⟨maps, hmaps⟩ := ih h
    refine ⟨r :: maps, ?_⟩
    rw [List.mapM_cons, hr, Java.ok_bind, hmaps]
    rfl

/-- **A query reads its window, latest first.** For every set of actions
under ids without a separator at times of the present age, and every
query: the rows of the scan are exactly the rows of the query's user and
kind after `left` and not after `right`, they come in the order of their
times from the latest on, and the answer is made of the first `num` of
them. -/
theorem getUserActions_window (ws : List Written)
    (hplain : ∀ w ∈ ws, ∀ a ∈ w.actions, a.Plain) (uid : Text) (uidtype : Option Text)
    (type : IdType) (htype : uidtype.getD ['u'] = type.text) (left right : Option (BitVec 64))
    (hleft : TimelyBound left) (hright : TimelyBound right) (num : ℤ) (hnum : 1 ≤ num) :
    let window := (tableOf ws).scan (startRow uid uidtype right) (stopRow uid uidtype left)
    (∀ r ∈ window, ∃ w ∈ ws, ∃ a ∈ w.actions, r.1 = a.key) ∧
    (∀ w ∈ ws, ∀ a ∈ w.actions, a.key ∈ window.map Prod.fst ↔
      a.id = uid ∧ a.type = type ∧ InWindow left right a.time) ∧
    (window.Pairwise fun r r' => ∀ w ∈ ws, ∀ a ∈ w.actions, ∀ w' ∈ ws, ∀ a' ∈ w'.actions,
      r.1 = a.key → r'.1 = a'.key → a'.time.toInt ≤ a.time.toInt) ∧
    ∃ maps, ((window.take num.toNat).mapM fun r => rowMap r.2) = .ok maps ∧
      getUserActions (tableOf ws) uid uidtype num none left right = .ok maps := by
  intro window
  have hkeys : ∀ w ∈ ws, ∀ a ∈ w.actions, a.key ∈ window.map Prod.fst ↔
      a.id = uid ∧ a.type = type ∧ InWindow left right a.time := by
    intro w hw a ha
    have hkey : a.key ∈ (tableOf ws).rows.map Prod.fst :=
      mem_keys_tableOf.2 ⟨w, hw, a, ha, rfl⟩
    rw [OrderedTable.mem_keys_scan, ← Action.mem_scan_iff ha (hplain w hw a ha) htype hleft hright]
    exact and_iff_right hkey
  refine ⟨fun r hr => ?_, hkeys, ?_, ?_⟩
  · exact mem_keys_tableOf.1 (List.mem_map_of_mem (OrderedTable.mem_scan.1 hr).1)
  · refine List.Pairwise.imp_of_mem ?_ (OrderedTable.sorted_scan (tableOf ws) _ _)
    intro r r' hr hr' hlt w hw a ha w' hw' a' ha' hkey hkey'
    -- both rows belong to the query's user, so their remainders are compared
    obtain ⟨hid, htype, -⟩ := (hkeys w hw a ha).1 (hkey ▸ List.mem_map_of_mem hr)
    obtain ⟨hid', htype', -⟩ := (hkeys w' hw' a' ha').1 (hkey' ▸ List.mem_map_of_mem hr')
    rw [hkey, hkey', a.key_eq, a'.key_eq, hid, hid', htype, htype'] at hlt
    have hlt := Lex.append_lt_append_iff.1 hlt
    simp only [List.cons_lt_cons_iff, lt_irrefl, true_and, false_or] at hlt
    exact Action.time_le_of_rest_lt (hplain w hw a ha).time (hplain w' hw' a' ha').time hlt
  · have hreadable : ∀ r ∈ window.take num.toNat, Readable r.2 := fun r hr =>
      readable_tableOf ws r (OrderedTable.mem_scan.1 (List.mem_of_mem_take hr)).1
    obtain ⟨maps, hmaps⟩ := mapM_rowMap_eq_ok hreadable
    refine ⟨maps, hmaps, ?_⟩
    have hfilter : window.filter (fun row => passes none row.2) = window :=
      List.filter_eq_self.2 fun _ _ => rfl
    have hcollect := collect_eq (show ((0 : ℕ) : ℤ) < num by omega) window
    rw [Nat.cast_zero, sub_zero, hmaps] at hcollect
    change collect num 0 (window.filter fun row => passes none row.2) = _
    rw [hfilter, hcollect]

/-- Three listens, two of them of one device. -/
def sampleListens : List Written := [listen ['a'] 1000000, listen ['a'] 2000000,
  listen ['a', 'b'] 2000000]

/-- Of the two listens of a device only the one after the lower bound is
read. -/
theorem getUserActions_window_sampleListens :
    let window := (tableOf sampleListens).scan (startRow ['a'] none none)
      (stopRow ['a'] none (some 1000))
    rowKey ['a'] .u 2000000 (getSeq 1 {}).2 ∈ window.map Prod.fst ∧
      rowKey ['a'] .u 1000000 (getSeq 1 {}).2 ∉ window.map Prod.fst ∧
      ∃ maps, ((window.take 10).mapM fun r => rowMap r.2) = .ok maps ∧
        getUserActions (tableOf sampleListens) ['a'] none 10 none (some 1000) none = .ok maps := by
  have hplain : ∀ w ∈ sampleListens, ∀ a ∈ w.actions, a.Plain := by
    intro w hw a ha
    simp only [sampleListens, List.mem_cons, List.not_mem_nil, or_false] at hw
    rcases hw with rfl | rfl | rfl
    all_goals
      obtain rfl := List.mem_singleton.1 ha
      exact ⟨by decide, by decide, by decide⟩
  have hleft : TimelyBound (some 1000) := by
    rintro s hs
    obtain rfl := Option.some.inj hs
    exact ⟨by decide, by decide⟩
  obtain ⟨-, hkeys, -, hanswer⟩ := getUserActions_window sampleListens hplain ['a'] none .u rfl
    (some 1000) none hleft (by simp [TimelyBound]) 10 (by decide)
  refine ⟨?_, ?_, hanswer⟩
  · refine (hkeys (listen ['a'] 2000000) (by simp [sampleListens]) _
      (mem_actions_listen (by decide) _)).2 ⟨rfl, rfl, ?_, by simp⟩
    rintro l hl
    obtain rfl := Option.some.inj hl
    decide
  · intro hmem
    obtain ⟨-, -, hafter, -⟩ := (hkeys (listen ['a'] 1000000) (by simp [sampleListens]) _
      (mem_actions_listen (by decide) _)).1 hmem
    exact absurd (hafter 1000 rfl) (by decide)

end DataSys

end Xpod
