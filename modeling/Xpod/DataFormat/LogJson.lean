import Mathlib.Data.List.Forall2
import Mathlib.Tactic
import Xpod.Common.Fields
import Xpod.Common.Java
import Xpod.DataFormat.Json
import Xpod.DataFormat.Model.LogJson
/-!
# The two converters agree

What both mappers are for is `convert`: it makes lists of columns. The
array that all rows share has the columns of the line in front and, behind
them, those of the element before, which the next element overwrites one
for one; the text has the columns of the line with a backtick behind each.
So each mapper writes the rows of `convert` in its own form, and what
fails for one fails for the other.
-/

namespace Xpod

namespace DataFormat

open Java (Units unit ok_bind bind_eq_ok)

/-! ## Columns -/

/-- The columns of some names. -/
def columns (members : List (Units × Obj)) : List Units → Except Failure (List Units)
  | [] => .ok []
  | name :: names => do
    let s ← column members name
    let cs ← columns members names
    .ok (s :: cs)

section Columns

variable {members : List (Units × Obj)} {names : List Units} {cs : List Units}

theorem length_of_columns (h : columns members names = .ok cs) : cs.length = names.length := by
  induction names generalizing cs with
  | nil =>
    cases h
    rfl
  | cons name names ih =>
    rw [columns] at h
    obtain ⟨s, -, h⟩ := bind_eq_ok.1 h
    obtain ⟨cs', hcs, h⟩ := bind_eq_ok.1 h
    cases h
    rw [List.length_cons, List.length_cons, ih hcs]

/-- The array takes the columns one for one. -/
theorem RCFile.fill_eq (members : List (Units × Obj)) (front : List (Option Units))
    {old : List (Option Units)} (h : names.length ≤ old.length) :
    RCFile.fill members front.length names (front ++ old) =
      (columns members names).map fun cs => front ++ cs.map some ++ old.drop names.length := by
  induction names generalizing front old with
  | nil => simp [RCFile.fill, columns, Except.map]
  | cons name names ih =>
    obtain ⟨o, old, rfl⟩ := List.exists_cons_of_length_pos (Nat.lt_of_lt_of_le (by simp) h)
    rw [RCFile.fill, columns]
    rcases column members name with f | s
    · rfl
    · have hset : RCFile.set (front ++ o :: old) front.length s =
          .ok ((front ++ [some s]) ++ old) := by
        rw [RCFile.set, if_pos (by simp)]
        simp
      have hold : names.length ≤ old.length := by simpa using h
      have hih := ih (front ++ [some s]) hold
      rw [List.length_append, List.length_singleton] at hih
      rw [ok_bind, hset, ok_bind, hih, ok_bind]
      rcases columns members names with f | cs
      · rfl
      · simp [Except.map]

/-- The text takes each column and a backtick. -/
theorem TextFile.fill_eq (sb : Units) :
    TextFile.fill members names sb =
      (columns members names).map fun cs => sb ++ cs.flatMap (· ++ [unit '`']) := by
  induction names generalizing sb with
  | nil => simp [TextFile.fill, columns, Except.map]
  | cons name names ih =>
    rw [TextFile.fill, columns]
    rcases column members name with f | s
    · rfl
    · rw [ok_bind, ih, ok_bind]
      rcases columns members names with f | cs
      · rfl
      · simp [Except.map]

/-- The backtick behind the last column goes. -/
theorem TextFile.deleteLast_flatMap (h : cs ≠ []) :
    TextFile.deleteLast (cs.flatMap (· ++ [unit '`'])) = .ok ([unit '`'].intercalate cs) := by
  have hjoin : cs.flatMap (· ++ [unit '`']) = [unit '`'].intercalate cs ++ [unit '`'] := by
    induction cs with
    | nil => exact absurd rfl h
    | cons c cs ih =>
      rcases cs with - | ⟨d, cs⟩
      · simp
      · rw [Fields.intercalate_cons_cons, List.flatMap_cons, ih (by simp)]
        simp
  rw [hjoin, TextFile.deleteLast]
  simp [Java.cutAt]

/-- The record of an array without a null. -/
theorem RCFile.mapM_bytesOf (getBytes : Units → List UInt8) (cs : List Units) :
    (List.range cs.length).mapM (RCFile.bytesOf getBytes (cs.map some)) =
      .ok (cs.map getBytes) := by
  have hall : ∀ is : List ℕ, (∀ i ∈ is, i < cs.length) →
      is.mapM (RCFile.bytesOf getBytes (cs.map some)) =
        .ok (is.map fun i => getBytes (cs.getD i [])) := by
    intro is his
    induction is with
    | nil => rfl
    | cons i is ih =>
      have hi : i < cs.length := his i List.mem_cons_self
      have hcol : RCFile.bytesOf getBytes (cs.map some) i = .ok (getBytes (cs.getD i [])) := by
        simp [RCFile.bytesOf, hi]
      rw [List.mapM_cons, hcol, ok_bind, ih fun j hj => his j (List.mem_cons_of_mem _ hj)]
      rfl
  rw [hall _ fun i hi => List.mem_range.1 hi]
  congr 1
  refine List.ext_getElem (by simp) fun i hi hi' => ?_
  simp at hi hi'
  simp [hi']

end Columns

/-! ## Rows of columns -/

namespace Output

variable {ρ ρ' : Type}

/-- The rows in another form. -/
def map (f : ρ → ρ') (o : Output ρ) : Output ρ' := ⟨o.rows.map f, o.status⟩

@[simp] theorem map_write (f : ρ → ρ') (row : ρ) (o : Output ρ) :
    (o.write row).map f = (o.map f).write (f row) := rfl

@[simp] theorem map_nil (f : ρ → ρ') (st : Status) : (⟨[], st⟩ : Output ρ).map f = ⟨[], st⟩ := rfl

end Output

/-- The columns that come from `param`. -/
def paramColumns (cfg : Config) (log : Log) : Except Failure (List Units) := do
  let cparam ← getStrings cfg.param
  columns log.param cparam

/-- The columns that come from an element of `data`. -/
def elementColumns (cfg : Config) (e : Obj) : Except Failure (List Units) := do
  let data ← asJSONObject e
  columns data cfg.data

/-- The rows of the elements, up to one that fails. -/
def convertLoop (cfg : Config) (front : List Units) : List Obj → Output (List Units)
  | [] => ⟨[], .finished⟩
  | e :: es =>
    match elementColumns cfg e with
    | .error f => ⟨[], .invalid f⟩
    | .ok cs => (convertLoop cfg front es).write (front ++ cs)

/-- What is read of a line before the rows: the columns of the line, and
the elements. -/
def front (P : Platform) (cfg : Config) (items : List Units) :
    Except Failure (List Units × List Obj) := do
  let log ← readLog P (items.getD 5 [])
  let cs ← paramColumns cfg log
  .ok ([items.getD 0 [], log.uuid] ++ cs, log.data)

/-- **A line as rows of columns.** -/
def convert (P : Platform) (cfg : Config) (value : Units) : Output (List Units) :=
  let items := Java.split (unit '`') value
  if items.length = 6 then
    match front P cfg items with
    | .error f => ⟨[], .invalid f⟩
    | .ok (front, data) => convertLoop cfg front data
  else ⟨[], .skipped⟩

section Convert

variable {P : Platform} {cfg : Config}

theorem getStrings_data : getStrings cfg.data = .ok cfg.data := if_neg cfg.data_ne_nil

theorem eq_of_getStrings {names l : List Units} (h : getStrings names = .ok l) : l = names := by
  rw [getStrings] at h
  split_ifs at h
  exact (Except.ok.inj h).symm

theorem length_of_paramColumns {log : Log} {cs : List Units} (h : paramColumns cfg log = .ok cs) :
    cs.length = cfg.param.length := by
  obtain ⟨cparam, hparam, h⟩ := bind_eq_ok.1 h
  rw [length_of_columns h, eq_of_getStrings hparam]

theorem length_of_front {items front' : List Units} {data : List Obj}
    (h : front P cfg items = .ok (front', data)) : front'.length = cfg.param.length + 2 := by
  obtain ⟨log, -, h⟩ := bind_eq_ok.1 h
  obtain ⟨cs, hcs, h⟩ := bind_eq_ok.1 h
  cases h
  rw [List.length_append, length_of_paramColumns hcs, Nat.add_comm]
  rfl

theorem length_of_elementColumns {e : Obj} {cs : List Units} (h : elementColumns cfg e = .ok cs) :
    cs.length = cfg.data.length := by
  obtain ⟨data, -, h⟩ := bind_eq_ok.1 h
  exact length_of_columns h

/-- Every row has all columns. -/
theorem length_of_mem_convertLoop {front row : List Units}
    (hfront : front.length = cfg.param.length + 2) {es : List Obj}
    (h : row ∈ (convertLoop cfg front es).rows) : row.length = cfg.colsum := by
  induction es with
  | nil => simp [convertLoop] at h
  | cons e es ih =>
    rw [convertLoop] at h
    rcases hcs : elementColumns cfg e with f | cs
    · simp [hcs] at h
    · simp only [hcs, Output.write, List.mem_cons] at h
      rcases h with rfl | h
      · rw [List.length_append, hfront, length_of_elementColumns hcs, cfg.colsum_eq]
        omega
      · exact ih h

theorem length_of_mem_convert {value : Units} {row : List Units}
    (h : row ∈ (convert P cfg value).rows) : row.length = cfg.colsum := by
  rw [convert] at h
  split_ifs at h
  · rcases hfront : front P cfg (Java.split (unit '`') value) with f | ⟨front', data⟩
    · simp [hfront] at h
    · simp only [hfront] at h
      exact length_of_mem_convertLoop (length_of_front hfront) h
  · simp at h

end Convert

/-! ## The mappers -/

section Mappers

variable {P : Platform} {cfg : Config} {getBytes : Units → List UInt8}

/-- The loop over the array. It starts with the line's columns; what is
behind them is left from the element before. -/
theorem RCFile.loop_eq (front : List Units) (hfront : front.length = cfg.param.length + 2)
    (old : List (Option Units)) (hold : old.length = cfg.data.length) (es : List Obj) :
    RCFile.loop getBytes cfg (front.map some ++ old) es =
      (convertLoop cfg front es).map fun cs => cs.map getBytes := by
  induction es generalizing old with
  | nil => rfl
  | cons e es ih =>
    rw [RCFile.loop, convertLoop, RCFile.element, elementColumns, getStrings_data]
    rcases asJSONObject e with f | data
    · rfl
    · have hfill := RCFile.fill_eq data (front.map some) hold.ge
      rw [List.length_map, hfront, ← hold, List.drop_length] at hfill
      simp only [List.append_nil] at hfill
      rw [ok_bind, ok_bind, ok_bind, hfill]
      rcases hcs : columns data cfg.data with f | cs
      · rfl
      · have hlen : cs.length = cfg.data.length := length_of_columns hcs
        have hall : (front ++ cs).length = cfg.colsum := by
          rw [List.length_append, hfront, hlen, cfg.colsum_eq]
          omega
        have hrecord := RCFile.mapM_bytesOf getBytes (front ++ cs)
        rw [hall, List.map_append] at hrecord
        simp only [Except.map, ok_bind]
        rw [if_pos (by rw [← List.map_append, List.length_map, hall]), hrecord, ok_bind,
          Output.map_write, ← ih (cs.map some) (by rw [List.length_map, hlen])]

/-- Columns of the line with a backtick behind each, and columns of the
element with one between each two. -/
theorem flatMap_append_intercalate {front cs : List Units} (h : cs ≠ []) :
    front.flatMap (· ++ [unit '`']) ++ [unit '`'].intercalate cs =
      [unit '`'].intercalate (front ++ cs) := by
  induction front with
  | nil => rfl
  | cons f front ih =>
    rw [List.flatMap_cons, List.append_assoc, ih, List.cons_append]
    obtain ⟨d, ds, hd⟩ := List.exists_cons_of_ne_nil (List.append_ne_nil_of_right_ne_nil front h)
    rw [hd, Fields.intercalate_cons_cons]
    simp

theorem TextFile.loop_eq (front : List Units) (es : List Obj) :
    TextFile.loop cfg (front.flatMap (· ++ [unit '`'])) es =
      (convertLoop cfg front es).map [unit '`'].intercalate := by
  induction es with
  | nil => rfl
  | cons e es ih =>
    rw [TextFile.loop, convertLoop, TextFile.element, elementColumns, getStrings_data]
    rcases asJSONObject e with f | data
    · rfl
    · rw [ok_bind, ok_bind, ok_bind, TextFile.fill_eq]
      rcases hcs : columns data cfg.data with f | cs
      · rfl
      · have hne : cs ≠ [] := by
          rintro rfl
          exact cfg.data_ne_nil (List.eq_nil_of_length_eq_zero (length_of_columns hcs).symm)
        simp only [Except.map, ok_bind, List.nil_append, TextFile.deleteLast_flatMap hne]
        rw [Output.map_write, ← ih, flatMap_append_intercalate hne]

/-- The columns of the line, in the array. -/
theorem RCFile.header_eq (item : Units) (log : Log) :
    RCFile.header cfg (some item :: List.replicate (cfg.param.length + cfg.data.length + 1) none)
        log =
      (paramColumns cfg log).map fun cs =>
        ([item, log.uuid] ++ cs).map some ++ List.replicate cfg.data.length none := by
  have hset : RCFile.set
      (some item :: List.replicate (cfg.param.length + cfg.data.length + 1) none) 1 log.uuid =
        .ok ([some item, some log.uuid] ++
          List.replicate (cfg.param.length + cfg.data.length) none) := by
    rw [RCFile.set, if_pos (by simp), List.replicate_succ]
    rfl
  rw [RCFile.header, paramColumns, hset, ok_bind]
  rcases hparam : getStrings cfg.param with f | cparam
  · rfl
  · obtain rfl := eq_of_getStrings hparam
    have hle : cfg.param.length ≤
        (List.replicate (cfg.param.length + cfg.data.length) (none : Option Units)).length := by
      simp
    rw [ok_bind, ok_bind]
    refine (RCFile.fill_eq log.param [some item, some log.uuid] hle).trans ?_
    rcases columns log.param cfg.param with f | cs
    · rfl
    · simp [Except.map]

/-- The columns of the line, in the text. -/
theorem TextFile.header_eq (item : Units) (log : Log) :
    TextFile.header cfg (item ++ [unit '`']) log =
      (paramColumns cfg log).map fun cs =>
        ([item, log.uuid] ++ cs).flatMap (· ++ [unit '`']) := by
  rw [TextFile.header, paramColumns]
  rcases getStrings cfg.param with f | cparam
  · rfl
  · rw [ok_bind, ok_bind, TextFile.fill_eq]
    rcases columns log.param cparam with f | cs
    · rfl
    · simp [Except.map]

/-- **The one mapper writes the columns' bytes.** -/
theorem RCFile.map_eq (P : Platform) (getBytes : Units → List UInt8) (cfg : Config)
    (value : Units) :
    RCFile.map P getBytes cfg value = (convert P cfg value).map fun cs => cs.map getBytes := by
  rw [RCFile.map, convert]
  split_ifs with hitems
  · have hset : RCFile.set (List.replicate cfg.colsum none)
        0 ((Java.split (unit '`') value).getD 0 []) =
          .ok (some ((Java.split (unit '`') value).getD 0 []) ::
            List.replicate (cfg.param.length + cfg.data.length + 1) none) := by
      rw [RCFile.set, cfg.colsum_eq, if_pos (by simp),
        show 2 + cfg.param.length + cfg.data.length =
          cfg.param.length + cfg.data.length + 1 + 1 by omega, List.replicate_succ]
      rfl
    simp only [hset, front]
    rcases readLog P ((Java.split (unit '`') value).getD 5 []) with f | log
    · rfl
    · simp only [ok_bind, RCFile.header_eq]
      rcases hcs : paramColumns cfg log with f | cs
      · rfl
      · refine RCFile.loop_eq _ ?_ _ List.length_replicate log.data
        rw [List.length_append, length_of_paramColumns hcs, Nat.add_comm]
        rfl
  · rfl

/-- **The other joins the columns with backticks.** -/
theorem TextFile.map_eq (P : Platform) (cfg : Config) (value : Units) :
    TextFile.map P cfg value = (convert P cfg value).map [unit '`'].intercalate := by
  rw [TextFile.map, convert]
  split_ifs with hitems
  · simp only [front]
    rcases readLog P ((Java.split (unit '`') value).getD 5 []) with f | log
    · rfl
    · simp only [ok_bind, TextFile.header_eq]
      rcases paramColumns cfg log with f | cs
      · rfl
      · exact TextFile.loop_eq _ log.data
  · rfl

/-- A record and a row are one list of columns. -/
def SameColumns (getBytes : Units → List UInt8) (cfg : Config) (record : List (List UInt8))
    (row : Units) : Prop :=
  ∃ cs : List Units, cs.length = cfg.colsum ∧ record = cs.map getBytes ∧
    row = [unit '`'].intercalate cs

/-- Two calls write the same rows and end alike. -/
structure Agree (getBytes : Units → List UInt8) (cfg : Config) (rc : Output (List (List UInt8)))
    (text : Output Units) : Prop where
  rows : List.Forall₂ (SameColumns getBytes cfg) rc.rows text.rows
  status : rc.status = text.status

/-- **The two converters agree.** For every line and every configuration,
on every platform: they write as many rows in the same order, each record
has the columns of the text row, and both end alike, so both stop at the
same element. -/
theorem map_agree (P : Platform) (getBytes : Units → List UInt8) (cfg : Config) (value : Units) :
    Agree getBytes cfg (RCFile.map P getBytes cfg value) (TextFile.map P cfg value) := by
  rw [RCFile.map_eq, TextFile.map_eq]
  refine ⟨?_, rfl⟩
  rw [Output.map, Output.map, List.forall₂_map_left_iff, List.forall₂_map_right_iff,
    List.forall₂_same]
  exact fun cs hcs => ⟨cs, length_of_mem_convert hcs, rfl, rfl⟩

end Mappers

end DataFormat

end Xpod
