import Xpod.LoadIp.Model.Location
import Mathlib.Data.List.ReduceOption
/-!
# The merging loader

`MergeInsertImp.java` lays incoming rows over `ip_table`. It reads the
table once, in the order of first addresses, through one forward cursor,
and collects SQL statements; `execAll` runs them on the table. `Main`
feeds it every row the reader delivers.
-/

namespace Xpod

namespace LoadIp

/-- The two statements `MergeInsertImp` writes. -/
inductive Statement
  | insert (row : Location)
  | delete (nbeginIp : ℤ)
deriving DecidableEq, Repr

namespace Statement

/-- What the statement does to the rows of `ip_table`. -/
def exec (table : List Location) : Statement → List Location
  | insert row => table ++ [row]
  | delete b => table.filter fun r => r.nBeginIp ≠ b

/-- The statements run in order. -/
def execAll (table : List Location) (sql : List Statement) : List Location := sql.foldl exec table

/-- The statement's text. -/
def text : Statement → String
  | insert r =>
    "insert into ip_table(begin_ip,end_ip,country,area,province,city,county,isp,other," ++
      "nbegin_ip,nend_ip) values(" ++ column r.beginIp ++ "," ++ column r.endIp ++ "," ++
      column r.country ++ "," ++ column r.area ++ "," ++ column r.province ++ "," ++
      column r.city ++ "," ++ column r.county ++ "," ++ column r.isp ++ "," ++
      column r.other ++ ",'" ++ toString r.nBeginIp ++ "','" ++ toString r.nEndIp ++ "')"
  | delete b => "delete from ip_table  where nbegin_ip = " ++ toString b
where
  /-- A text column in quotes; null is written as the empty text. -/
  column (c : Option String) : String := "'" ++ c.getD "" ++ "'"

end Statement

/-- `InsertImp.Insert`: the statement it prepares. It is built as the one of
`MergeInsertImp.insert` is, of the row as it comes. -/
def InsertImp.insert (ip : Location) : String := (Statement.insert ip).text

/-- The fields of `MergeInsertImp`, the lines of `out_1.txt`, the lines
printed and the errors logged. `rs` holds the rows not read yet. -/
structure MergeInsertImp where
  rs : List Location
  current : Option Location := none
  sqlStringList : List Statement := []
  outTxt : List String := []
  out : List String := []
  errors : List String := []
deriving DecidableEq, Repr

namespace MergeInsertImp

/-- `insert` first writes the texts of the bounds into its argument. -/
def named (ip : Location) : Location :=
  { ip with
    beginIp := some (Util.longToIP ip.nBeginIp)
    endIp := some (Util.longToIP ip.nEndIp) }

/-- The row an `insert` statement stores: every null column becomes the
empty text. -/
def stored (ip : Location) : Location :=
  { beginIp := some (Util.longToIP ip.nBeginIp)
    endIp := some (Util.longToIP ip.nEndIp)
    country := some (ip.country.getD "")
    area := some (ip.area.getD "")
    province := some (ip.province.getD "")
    city := some (ip.city.getD "")
    county := some (ip.county.getD "")
    isp := some (ip.isp.getD "")
    other := some (ip.other.getD "")
    nBeginIp := ip.nBeginIp
    nEndIp := ip.nEndIp }

/-- `insert`. -/
def insert (s : MergeInsertImp) (ip : Location) : MergeInsertImp :=
  { s with sqlStringList := s.sqlStringList ++ [.insert (stored ip)] }

/-- `delete`. -/
def delete (s : MergeInsertImp) (ip : Location) : MergeInsertImp :=
  { s with sqlStringList := s.sqlStringList ++ [.delete ip.nBeginIp] }

/-- The line of `out_1.txt` about a Chinese row that is overlaid. -/
def overlayLine (current toMerge : Location) : String :=
  "country:" ++ Java.text current.country ++ "," ++ "province:" ++ Java.text current.province ++
    "," ++ "begin_ip:" ++ Util.longToIP (if toMerge.nBeginIp ≤ current.nBeginIp then
      current.nBeginIp else toMerge.nBeginIp) ++ "," ++
    "end_ip:" ++ Util.longToIP (if current.nEndIp ≤ toMerge.nEndIp then
      current.nEndIp else toMerge.nEndIp) ++ "," ++
    "======> " ++ "newCountry:" ++ Java.text toMerge.country ++ " , newProvince:" ++
    Java.text toMerge.province

/-- `one` of the first shape: the front of the incoming row, down to the end
of the table row. -/
def endAt (l : Location) (e : ℤ) : Location :=
  { l.copy with nEndIp := e, endIp := some (Util.longToIP e) }

/-- A copy of the row that begins later. -/
def beginAt (l : Location) (b : ℤ) : Location :=
  { l.copy with nBeginIp := b, beginIp := some (Util.longToIP b) }

/-- The table row after its front is given away. It is changed in place,
so unlike a copy it keeps `county`. -/
def shrink (current : Location) (b : ℤ) : Location :=
  { current with nBeginIp := b, beginIp := some (Util.longToIP b) }

/-- The four overlap shapes of `merge`, and the branch that reports a wrong
address. The second component is what is left of the incoming row. -/
def overlap (s : MergeInsertImp) (current toMerge : Location) :
    MergeInsertImp × Option Location :=
  if toMerge.nEndIp ≥ current.nEndIp ∧ toMerge.nBeginIp ≤ current.nBeginIp then
    let s := s.insert (endAt toMerge current.nEndIp)
    let two := if toMerge.nEndIp ≠ current.nEndIp then
      some (beginAt toMerge (current.nEndIp + 1)) else none
    ({ s with current := none }, two)
  else if toMerge.nEndIp ≤ current.nEndIp ∧ toMerge.nBeginIp ≥ current.nBeginIp then
    let s := if current.nBeginIp ≠ toMerge.nBeginIp then
      s.insert (endAt current (toMerge.nBeginIp - 1)) else s
    let s := s.insert toMerge
    if current.nEndIp ≠ toMerge.nEndIp then
      let current := shrink current (toMerge.nEndIp + 1)
      ({ s.insert current with current := some (named current) }, none)
    else ({ s with current := none }, none)
  else if toMerge.nBeginIp < current.nBeginIp ∧ toMerge.nEndIp < current.nEndIp ∧
      toMerge.nEndIp ≥ current.nBeginIp then
    let s := s.insert toMerge
    let current := shrink current (toMerge.nEndIp + 1)
    ({ s.insert current with current := some (named current) }, none)
  else if toMerge.nEndIp > current.nEndIp ∧ toMerge.nBeginIp > current.nBeginIp ∧
      toMerge.nBeginIp ≤ current.nEndIp then
    let s := s.insert { current with
      nEndIp := toMerge.nBeginIp - 1, endIp := some (Util.longToIP (toMerge.nBeginIp - 1)) }
    ({ s with current := none }, some toMerge)
  else ({ s with errors := s.errors ++ [" wrong ip"] }, none)

/-- `merge`. The country of the table row is dereferenced for the line of
`out_1.txt`. -/
def merge (s : MergeInsertImp) (current toMerge : Location) :
    Except Java.Exception (MergeInsertImp × Option Location) := do
  let s := s.delete current
  let china ← Java.equals current.country (some "中国")
  let s := if china then { s with outTxt := s.outTxt ++ [overlayLine current toMerge] } else s
  return s.overlap current toMerge

/-- One round of the loop of `Insert` with a table row in hand: the new
object, and what is left of the incoming row if the loop goes on. -/
def round (s : MergeInsertImp) (current toMerge : Location) :
    Except Java.Exception (MergeInsertImp × Option Location) := do
  let marked ← Java.equals current.beginIp (some "222.161.60.115")
  let s := if marked then { s with out := s.out ++ ["error"] } else s
  if toMerge.nEndIp < current.nBeginIp then
    return (s.insert toMerge, none)
  else if toMerge.nBeginIp > current.nEndIp then
    return ({ s with current := none }, some toMerge)
  else s.merge current toMerge

/-- The row in hand, or the next one of the table. -/
def fetch (s : MergeInsertImp) : MergeInsertImp :=
  match s.current, s.rs with
  | none, row :: rs => { s with current := some row, rs := rs }
  | _, _ => s

/-- `Insert`; `none` when the fuel does not last. -/
def Insert : ℕ → MergeInsertImp → Location → Option (Except Java.Exception MergeInsertImp)
  | 0, _, _ => none
  | n + 1, s, toMerge =>
    match s.fetch.current with
    | none => some (.ok (s.fetch.insert toMerge))
    | some current =>
      match s.fetch.round current toMerge with
      | .error e => some (.error e)
      | .ok (s, none) => some (.ok s)
      | .ok (s, some toMerge) => Insert n s toMerge

/-- A sequence of rows passed to `Insert`. -/
def insertAll (fuel : ℕ) :
    MergeInsertImp → List Location → Option (Except Java.Exception MergeInsertImp)
  | s, [] => some (.ok s)
  | s, m :: ms =>
    match Insert fuel s m with
    | none => none
    | some (.error e) => some (.error e)
    | some (.ok s) => insertAll fuel s ms

end MergeInsertImp

/-- The loop of `Main.main`: every row the reader delivers goes to `Insert`,
and what it could not read is passed over. -/
def Main.feed (fuel : ℕ) :
    MergeInsertImp → List (Option Location) → Option (Except Java.Exception MergeInsertImp)
  | s, [] => some (.ok s)
  | s, none :: reads => Main.feed fuel s reads
  | s, some loc :: reads =>
    match s.Insert fuel loc with
    | none => none
    | some (.error e) => some (.error e)
    | some (.ok s) => Main.feed fuel s reads

/-- **The run ends with `s`**: with enough fuel, passing the rows `M` to a
fresh object over the table returns `s`. -/
def MergeInsertImp.Returns (T M : List Location) (s : MergeInsertImp) : Prop :=
  ∃ n, ∀ k, n ≤ k → insertAll k { rs := T } M = some (.ok s)

/-- The same for what `Main` reads. -/
def Main.Returns (T : List Location) (reads : List (Option Location)) (s : MergeInsertImp) : Prop :=
  ∃ n, ∀ k, n ≤ k → Main.feed k { rs := T } reads = some (.ok s)

/-! ## Fuel -/

namespace MergeInsertImp

theorem Insert_mono {r : Except Java.Exception MergeInsertImp} :
    ∀ {n k : ℕ} {s : MergeInsertImp} {m : Location},
      Insert n s m = some r → n ≤ k → Insert k s m = some r
  | 0, _, _, _, h, _ => by simp [Insert] at h
  | n + 1, 0, _, _, _, hk => absurd hk (Nat.not_succ_le_zero n)
  | n + 1, k + 1, s, m, h, hk => by
    rw [Insert] at h ⊢
    rcases hc : s.fetch.current with - | c
    · rw [hc] at h
      exact h
    · rw [hc] at h
      dsimp only at h ⊢
      rcases hr : s.fetch.round c m with e | ⟨s', - | m'⟩
      · rw [hr] at h
        exact h
      · rw [hr] at h
        exact h
      · rw [hr] at h
        exact Insert_mono h (Nat.le_of_succ_le_succ hk)

theorem insertAll_mono {n k : ℕ} {r : Except Java.Exception MergeInsertImp} {ms : List Location}
    {s : MergeInsertImp} (h : insertAll n s ms = some r) (hk : n ≤ k) :
    insertAll k s ms = some r := by
  induction ms generalizing s with
  | nil => exact h
  | cons m ms ih =>
    rw [insertAll] at h ⊢
    rcases hi : Insert n s m with - | (e | s')
    · rw [hi] at h
      simp at h
    · rw [hi] at h
      rw [Insert_mono hi hk]
      exact h
    · rw [hi] at h
      rw [Insert_mono hi hk]
      exact ih h

theorem returns_of_insertAll {n : ℕ} {T M : List Location} {s : MergeInsertImp}
    (h : insertAll n { rs := T } M = some (.ok s)) : Returns T M s :=
  ⟨n, fun _ hk => insertAll_mono h hk⟩

/-- What a run on some fuel shows of the final object, the outcome has. -/
theorem exists_returns {α : Type} {T M : List Location} {n : ℕ} {f : MergeInsertImp → α} {a : α}
    (h : (insertAll n { rs := T } M).map (Except.map f) = some (.ok a)) :
    ∃ s, Returns T M s ∧ f s = a := by
  obtain ⟨r, hr, ha⟩ := Option.map_eq_some_iff.1 h
  rcases r with e | s
  · simp [Except.map] at ha
  · exact ⟨s, returns_of_insertAll hr, Except.ok.inj ha⟩

/-- There is one outcome. -/
theorem Returns.unique {T M : List Location} {s s' : MergeInsertImp} (h : Returns T M s)
    (h' : Returns T M s') : s = s' := by
  obtain ⟨n, hn⟩ := h
  obtain ⟨k, hk⟩ := h'
  have := (hn _ (le_max_left n k)).symm.trans (hk _ (le_max_right n k))
  exact Except.ok.inj (Option.some.inj this)

end MergeInsertImp

/-- `Main` passes on what could be read. -/
theorem Main.feed_eq (n : ℕ) (s : MergeInsertImp) (reads : List (Option Location)) :
    Main.feed n s reads = s.insertAll n reads.reduceOption := by
  induction reads generalizing s with
  | nil => rfl
  | cons r reads ih =>
    rcases r with - | loc
    · exact ih s
    · rw [Main.feed, List.reduceOption_cons_of_some, MergeInsertImp.insertAll]
      rcases MergeInsertImp.Insert n s loc with - | (e | s')
      · rfl
      · rfl
      · exact ih s'

theorem Main.returns_iff {T : List Location} {reads : List (Option Location)}
    {s : MergeInsertImp} :
    Main.Returns T reads s ↔ MergeInsertImp.Returns T reads.reduceOption s := by
  simp only [Main.Returns, MergeInsertImp.Returns, Main.feed_eq]

end LoadIp

end Xpod
