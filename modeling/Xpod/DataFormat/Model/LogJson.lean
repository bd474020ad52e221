import Mathlib.Data.List.Basic
import Mathlib.Tactic
import Xpod.Common.Java
import Xpod.DataFormat.Model.Json
/-!
# The two log converters of data_format

`LogJsonParasetoRCFileMapper.map` and `LogJsonParasetoTextFileMapper.map`
turn a line of six fields, the last of which is JSON, into one row for each
element of its `data`. A row has the line's first field, the `uuid`, the
configured members of `param` and the configured members of the element.
One mapper keeps the columns in an array that all rows share and writes
their bytes; the other joins them with backticks.

Whatever fails behind the field count ends the line with a counter; the
rows written before stay. Writing a row does not fail.
-/

namespace Xpod

namespace DataFormat

open Java (Units unit units)

/-- What a job configures: the names to take from `param` and from each
element of `data`, and the number of columns. -/
structure Config where
  param : List Units
  data : List Units
  colsum : ℕ
  data_ne_nil : data ≠ []
  colsum_eq : colsum = 2 + param.length + data.length

/-- `getStrings`: null for an empty list. -/
def getStrings (names : List Units) : Except Failure (List Units) :=
  if names = [] then .error .nullPointer else .ok names

/-- How a call of `map` ends. -/
inductive Status
  /-- not six fields -/
  | skipped
  | finished
  /-- under the counter `Invalid Json` -/
  | invalid (f : Failure)
  | uncaught (f : Failure)
deriving DecidableEq

/-- What a call of `map` does: the rows it writes and how it ends. -/
structure Output (ρ : Type) where
  rows : List ρ
  status : Status

/-- A row in front. -/
def Output.write {ρ : Type} (row : ρ) (o : Output ρ) : Output ρ := ⟨row :: o.rows, o.status⟩

/-- `(String) o` -/
def castString : Obj → Except Failure Units
  | .string s => .ok s
  | _ => .error .classCast

/-- The value of one column: a member that is missing is empty. -/
def column (members : List (Units × Obj)) (name : Units) : Except Failure Units :=
  if JSONObject.has members name then JSONObject.getString members name else .ok []

/-- What both mappers read before their columns. -/
structure Log where
  data : List Obj
  param : List (Units × Obj)
  uuid : Units

/-- The object, its parts, and the casts of `time` and `uuid`. -/
def readLog (P : Platform) (jsonStr : Units) : Except Failure Log := do
  let jsonLog ← JSONObject.parse P jsonStr
  let data ← JSONObject.getJSONArray jsonLog (units "data")
  let param ← JSONObject.getJSONObject jsonLog (units "param")
  let _ ← castString (← JSONObject.get jsonLog (units "time"))
  let uuid ← castString (← JSONObject.get jsonLog (units "uuid"))
  .ok ⟨data, param, uuid⟩

/-- `jsonData.getJSONObject(i)` -/
def asJSONObject : Obj → Except Failure (List (Units × Obj))
  | .object members => .ok members
  | _ => .error .elementNotJSONObject

/-! ## Rows of bytes -/

namespace RCFile

/-- `lines[i] = s` -/
def set (lines : List (Option Units)) (i : ℕ) (s : Units) : Except Failure (List (Option Units)) :=
  if i < lines.length then .ok (lines.set i (some s)) else .error .indexOutOfBounds

/-- The loop over names, from column `i` on. -/
def fill (members : List (Units × Obj)) :
    ℕ → List Units → List (Option Units) → Except Failure (List (Option Units))
  | _, [], lines => .ok lines
  | i, name :: names, lines => do
    let s ← column members name
    let lines ← set lines i s
    fill members (i + 1) names lines

/-- `record[j] = lines[j].getBytes()` for the column `j`. -/
def bytesOf (getBytes : Units → List UInt8) (lines : List (Option Units)) (j : ℕ) :
    Except Failure (List UInt8) :=
  match lines[j]? with
  | none => .error .indexOutOfBounds
  | some none => .error .nullPointer
  | some (some s) => .ok (getBytes s)

/-- One element: its columns, then the record if the array is long enough
for all columns. -/
def element (getBytes : Units → List UInt8) (cfg : Config) (lines : List (Option Units))
    (e : Obj) : Except Failure (List (Option Units) × Option (List (List UInt8))) := do
  let data ← asJSONObject e
  let cdata ← getStrings cfg.data
  let lines ← fill data (cfg.param.length + 2) cdata lines
  if cfg.colsum ≤ lines.length then
    let record ← (List.range cfg.colsum).mapM (bytesOf getBytes lines)
    .ok (lines, some record)
  else .ok (lines, none)

/-- The loop over `jsonData`. -/
def loop (getBytes : Units → List UInt8) (cfg : Config) :
    List (Option Units) → List Obj → Output (List (List UInt8))
  | _, [] => ⟨[], .finished⟩
  | lines, e :: es =>
    match element getBytes cfg lines e with
    | .error f => ⟨[], .invalid f⟩
    | .ok (lines, none) => loop getBytes cfg lines es
    | .ok (lines, some record) => (loop getBytes cfg lines es).write record

/-- The columns before the loop. -/
def header (cfg : Config) (lines : List (Option Units)) (log : Log) :
    Except Failure (List (Option Units)) := do
  let lines ← set lines 1 log.uuid
  let cparam ← getStrings cfg.param
  fill log.param 2 cparam lines

/-- `LogJsonParasetoRCFileMapper.map` -/
def map (P : Platform) (getBytes : Units → List UInt8) (cfg : Config) (value : Units) :
    Output (List (List UInt8)) :=
  let items := Java.split (unit '`') value
  if items.length = 6 then
    match set (List.replicate cfg.colsum none) 0 (items.getD 0 []) with
    | .error f => ⟨[], .uncaught f⟩
    | .ok lines =>
      match (do
        let log ← readLog P (items.getD 5 [])
        let lines ← header cfg lines log
        return (lines, log.data)) with
      | .error f => ⟨[], .invalid f⟩
      | .ok (lines, data) => loop getBytes cfg lines data
  else ⟨[], .skipped⟩

end RCFile

/-! ## Rows of text -/

namespace TextFile

/-- The loop over names: each value and a backtick. -/
def fill (members : List (Units × Obj)) : List Units → Units → Except Failure Units
  | [], sb => .ok sb
  | name :: names, sb => do
    let s ← column members name
    fill members names (sb ++ s ++ [unit '`'])

/-- `sbtmp.deleteCharAt(sbtmp.lastIndexOf("`"))` -/
def deleteLast (sb : Units) : Except Failure Units :=
  match Java.cutAt (unit '`') sb.reverse with
  | none => .error .indexOutOfBounds
  | some (behind, before) => .ok (before.reverse ++ behind.reverse)

/-- One element: the row is `sb` with the element's columns. -/
def element (cfg : Config) (sb : Units) (e : Obj) : Except Failure Units := do
  let data ← asJSONObject e
  let cdata ← getStrings cfg.data
  let sbtmp ← fill data cdata []
  let sbtmp ← deleteLast sbtmp
  .ok (sb ++ sbtmp)

/-- The loop over `jsonData`. -/
def loop (cfg : Config) (sb : Units) : List Obj → Output Units
  | [] => ⟨[], .finished⟩
  | e :: es =>
    match element cfg sb e with
    | .error f => ⟨[], .invalid f⟩
    | .ok row => (loop cfg sb es).write row

/-- The columns before the loop. -/
def header (cfg : Config) (sb : Units) (log : Log) : Except Failure Units := do
  let sb := sb ++ log.uuid ++ [unit '`']
  let cparam ← getStrings cfg.param
  fill log.param cparam sb

/-- `LogJsonParasetoTextFileMapper.map` -/
def map (P : Platform) (cfg : Config) (value : Units) : Output Units :=
  let items := Java.split (unit '`') value
  if items.length = 6 then
    let sb := items.getD 0 [] ++ [unit '`']
    match (do
      let log ← readLog P (items.getD 5 [])
      let sb ← header cfg sb log
      return (sb, log.data)) with
    | .error f => ⟨[], .invalid f⟩
    | .ok (sb, data) => loop cfg sb data
  else ⟨[], .skipped⟩

end TextFile

end DataFormat

end Xpod
