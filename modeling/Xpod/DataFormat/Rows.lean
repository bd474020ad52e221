import Mathlib.Data.List.Forall2
import Mathlib.Tactic
import Xpod.Common.Java
import Xpod.Common.Json
import Xpod.Common.Lists
import Xpod.DataFormat.Json
import Xpod.DataFormat.LogJson
/-!
# One row for each operation

The lines the converters are made for: five fields and a JSON object with
a `uuid`, a `param` and a list `data` of objects. A line loses rows where
the JSON holds a backtick, where the reader finds a key twice, where `time`
is missing or of another type, although no column shows it, and where a
configured member is neither a string nor a number. The rows in front of
the first element that fails are written, those behind it are not.
-/

namespace Xpod

namespace DataFormat

open Java (Units unit units ok_bind bind_eq_ok)

/-- A line as the clients send it. -/
structure LogLine where
  fields : List Units
  length_fields : fields.length = 5
  backtick_notMem : ∀ f ∈ fields, unit '`' ∉ f
  /-- whitespace in front of the JSON and behind it -/
  before : List Json.Space
  after : List Json.Space
  members : Json.Members
  uuid : List Json.Piece
  uuid_mem : (units "uuid", .string uuid) ∈ members.toList
  /-- the members of `param` -/
  param : List (Units × Json.Tree)
  param_mem : ∃ t, (units "param", t) ∈ members.toList ∧ t.members? = some param
  /-- the members of each element of `data` -/
  data : List (List (Units × Json.Tree))
  data_mem : ∃ t items, (units "data", t) ∈ members.toList ∧ t.items? = some items ∧
    items.map Json.Tree.members? = data.map some

namespace LogLine

/-- The JSON. -/
def json (line : LogLine) : Units :=
  Json.blank line.before ++ ((Json.Tree.object line.members).text ++ Json.blank line.after)

/-- The line. -/
def text (line : LogLine) : Units := line.fields.flatMap (· ++ [unit '`']) ++ line.json

variable (line : LogLine)

/-- The JSON ends with its brace or with whitespace. -/
theorem getLast_json : ∃ c, line.json.getLast? = some c ∧ c ≠ unit '`' := by
  rcases List.eq_nil_or_concat line.after with hnil | ⟨w, b, hw⟩
  · refine ⟨unit '}', ?_, by decide⟩
    rw [json, hnil, Json.Tree.text, Json.blank, Json.blank, List.map_nil, List.append_nil,
      ← List.cons_append, ← List.append_assoc]
    exact List.getLast?_concat
  · refine ⟨b.text, ?_, by cases b <;> decide⟩
    rw [json, hw, Json.blank, Json.blank, List.concat_eq_append, List.map_append]
    simp

/-- The line has six fields when the JSON holds no backtick. -/
theorem split_text :
    Java.split (unit '`') line.text = line.fields ++ line.json.splitOn (unit '`') := by
  obtain ⟨c, hlast, hc⟩ := line.getLast_json
  refine Java.split_fields line.backtick_notMem ?_ hlast hc
  intro h
  have hlength := line.length_fields
  rw [h] at hlength
  exact absurd hlength (by decide)

theorem length_split_text :
    (Java.split (unit '`') line.text).length = 6 ↔ unit '`' ∉ line.json := by
  rw [split_text, List.length_append, line.length_fields, ← Java.length_splitOn_eq_one]
  omega

theorem split_text_of_notMem (h : unit '`' ∉ line.json) :
    Java.split (unit '`') line.text = line.fields ++ [line.json] := by
  rw [split_text, List.splitOn_eq_singleton h]

end LogLine

/-! ## Columns of JSON objects -/

section Columns

variable {P : Platform} {ms : List (Units × Json.Tree)} {map : List (Units × Obj)}

theorem exists_column {name : Units} :
    (∃ s, column map name = .ok s) ↔ ∀ o, map.lookup name = some o → ∃ s, o = .string s := by
  rw [column, JSONObject.has, JSONObject.getString, JSONObject.get]
  rcases hlookup : map.lookup name with - | o
  · simp
  · cases o <;> simp

theorem exists_columns {names : List Units} :
    (∃ cs, columns map names = .ok cs) ↔ ∀ name ∈ names, ∃ s, column map name = .ok s := by
  induction names with
  | nil => simp [columns]
  | cons name names ih =>
    rw [columns, List.forall_mem_cons, ← ih]
    simp only [bind_eq_ok]
    constructor
    · rintro ⟨-, s, hs, cs, hcs, -⟩
      exact ⟨⟨s, hs⟩, cs, hcs⟩
    · rintro ⟨⟨s, hs⟩, cs, hcs⟩
      exact ⟨s :: cs, s, hs, cs, hcs, rfl⟩

variable (P) in
/-- The members with one of these names are strings or numbers. -/
def TextMembers (names : List Units) (ms : List (Units × Json.Tree)) : Prop :=
  ∀ m ∈ ms, P.toLowerCase m.1 ∈ names → m.2.isText = true

/-- **The columns of an object can be read when its members with these
names are strings or numbers.** -/
theorem ReadsTo.exists_columns (h : ReadsTo P ms map) {names : List Units} :
    (∃ cs, columns map names = .ok cs) ↔ TextMembers P names ms := by
  rw [DataFormat.exists_columns]
  simp only [exists_column, h.lookup_eq_some]
  constructor
  · intro hall m hm hname
    obtain ⟨e, -, -, ho⟩ := Lists.exists_right h.entries hm
    exact (isText_iff ho).2 (hall _ hname e.2 ⟨m, hm, rfl, ho⟩)
  · rintro htext name hname o ⟨m, hm, rfl, ho⟩
    exact (isText_iff ho).1 (htext m hm hname)

/-- A member by its name. -/
theorem ReadsTo.get_eq (h : ReadsTo P ms map) {key : Units} {t : Json.Tree}
    (hkey : P.toLowerCase key = key) (hmem : (key, t) ∈ ms) :
    ∃ o, readTree P t = .ok o ∧ JSONObject.get map key = .ok o := by
  obtain ⟨e, -, -, ho⟩ := Lists.exists_right h.entries hmem
  have hlookup := h.lookup_eq_some.2 ⟨(key, t), hmem, hkey, ho⟩
  exact ⟨e.2, ho, by rw [JSONObject.get, hlookup]⟩

end Columns

/-! ## Lines -/

section Lines

variable {P : Platform} {line : LogLine}

/-- An element of `data` as the reader returns it. -/
def ReadsElement (P : Platform) (ms : List (Units × Json.Tree)) (o : Obj) : Prop :=
  ∃ map, o = .object map ∧ ReadsTo P ms map

theorem exists_elements {ts : List Json.Tree} {mss : List (List (Units × Json.Tree))}
    {os : List Obj} (hmembers : ts.map Json.Tree.members? = mss.map some)
    (h : List.Forall₂ (fun t o => readTree P t = .ok o) ts os) :
    List.Forall₂ (ReadsElement P) mss os := by
  induction h generalizing mss with
  | nil =>
    obtain rfl : mss = [] := by simpa using hmembers.symm
    exact .nil
  | @cons t o ts os ho _ ih =>
    rcases mss with - | ⟨ms, mss⟩
    · simp at hmembers
    · obtain ⟨hms, hmembers⟩ := List.cons.inj hmembers
      exact .cons (exists_object hms ho) (ih hmembers)

variable (P line) in
/-- `time` is there and is a string or a number. -/
def TimeText : Prop :=
  ∃ m ∈ line.members.toList, P.toLowerCase m.1 = units "time" ∧ m.2.isText = true

/-- **What is read of a line.** The cast of `time` is all that can fail
behind the reader. -/
theorem readLog_eq {map : List (Units × Obj)} (h : ReadsTo P line.members.toList map) :
    ∃ log : Log, ReadsTo P line.param log.param ∧
      List.Forall₂ (ReadsElement P) line.data log.data ∧
      readLog P line.json =
        (JSONObject.get map (units "time") >>= castString).map fun _ => log := by
  have hparse : JSONObject.parse P line.json = .ok map := by
    rw [LogLine.json, parse_object, readMembers_nil.2 h]
  have hlower : ∀ key ∈ [units "data", units "param", units "uuid"], P.toLowerCase key = key := by
    intro key hkey
    refine P.toLowerCase_ascii key ?_
    revert key
    decide
  obtain ⟨dataTree, items, hdata, hitems, helements⟩ := line.data_mem
  obtain ⟨paramTree, hparam, hmembers⟩ := line.param_mem
  obtain ⟨d, hd, hgetd⟩ := h.get_eq (hlower _ (by simp)) hdata
  obtain ⟨p, hp, hgetp⟩ := h.get_eq (hlower _ (by simp)) hparam
  obtain ⟨u, hu, hgetu⟩ := h.get_eq (hlower _ (by simp)) line.uuid_mem
  obtain ⟨os, rfl, hos⟩ := exists_array hitems hd
  obtain ⟨pm, rfl, hpm⟩ := exists_object hmembers hp
  obtain rfl := Except.ok.inj hu
  refine ⟨⟨os, pm, Json.stringValue line.uuid⟩, hpm, exists_elements helements hos, ?_⟩
  rw [readLog, hparse, ok_bind, JSONObject.getJSONArray, hgetd, JSONObject.getJSONObject, hgetp]
  simp only [ok_bind, hgetu, castString]
  rcases JSONObject.get map (units "time") with f | o
  · rfl
  · cases o <;> rfl

theorem exists_time {map : List (Units × Obj)} (h : ReadsTo P line.members.toList map) :
    (∃ s, (JSONObject.get map (units "time") >>= castString) = .ok s) ↔ TimeText P line := by
  have hcast : (∃ s, (JSONObject.get map (units "time") >>= castString) = .ok s) ↔
      ∃ s, map.lookup (units "time") = some (.string s) := by
    rw [JSONObject.get]
    rcases map.lookup (units "time") with - | o
    · simp
    · cases o <;> simp [castString]
  rw [hcast]
  simp only [h.lookup_eq_some]
  constructor
  · rintro ⟨s, m, hm, hname, ho⟩
    exact ⟨m, hm, hname, (isText_iff ho).2 ⟨s, rfl⟩⟩
  · rintro ⟨m, hm, hname, htext⟩
    obtain ⟨e, -, -, ho⟩ := Lists.exists_right h.entries hm
    obtain ⟨s, hs⟩ := (isText_iff ho).1 htext
    exact ⟨s, m, hm, hname, hs ▸ ho⟩

/-- **When a line keeps its rows.** -/
structure Convertible (P : Platform) (cfg : Config) (line : LogLine) : Prop where
  /-- the JSON holds no backtick -/
  backtick : unit '`' ∉ line.json
  /-- no object has a name twice, with its letters lowered -/
  names : ∀ ms ∈ (Json.Tree.object line.members).objects, DistinctNames P ms
  time : TimeText P line
  /-- some member of `param` is configured -/
  configured : cfg.param ≠ []
  param : TextMembers P cfg.param line.param
  data : ∀ ms ∈ line.data, TextMembers P cfg.data ms

variable {cfg : Config}

theorem exists_paramColumns {log : Log} (h : ReadsTo P line.param log.param) :
    (∃ cs, paramColumns cfg log = .ok cs) ↔
      cfg.param ≠ [] ∧ TextMembers P cfg.param line.param := by
  rw [paramColumns, getStrings, ← h.exists_columns]
  split_ifs with hnil
  · simp [hnil]
  · simp [hnil]

theorem exists_elementColumns {ms : List (Units × Json.Tree)} {o : Obj} (h : ReadsElement P ms o) :
    (∃ cs, elementColumns cfg o = .ok cs) ↔ TextMembers P cfg.data ms := by
  obtain ⟨map, rfl, hmap⟩ := h
  rw [← hmap.exists_columns]
  rfl

/-- What is read in front of the rows, and the elements it leaves. -/
theorem exists_front (P : Platform) (cfg : Config) (hbacktick : unit '`' ∉ line.json) :
    ((∃ r, front P cfg (Java.split (unit '`') line.text) = .ok r) ↔
        (∀ ms ∈ (Json.Tree.object line.members).objects, DistinctNames P ms) ∧
          TimeText P line ∧ cfg.param ≠ [] ∧ TextMembers P cfg.param line.param) ∧
      ∀ cs os, front P cfg (Java.split (unit '`') line.text) = .ok (cs, os) →
        List.Forall₂ (ReadsElement P) line.data os := by
  have hjson : (Java.split (unit '`') line.text).getD 5 [] = line.json := by
    have hlength := line.length_fields
    rw [line.split_text_of_notMem hbacktick, List.getD_eq_getElem?_getD,
      List.getElem?_append_right hlength.le, hlength]
    rfl
  have hnames : (∃ map, ReadsTo P line.members.toList map) ↔
      ∀ ms ∈ (Json.Tree.object line.members).objects, DistinctNames P ms := by
    rw [exists_readsTo, exists_readValues, Json.Tree.objects, List.forall_mem_cons, and_comm]
  rw [← hnames]
  by_cases hmap : ∃ map, ReadsTo P line.members.toList map
  · obtain ⟨map, hread⟩ := hmap
    obtain ⟨log, hparam, hdata, hlog⟩ := readLog_eq hread
    rw [← exists_time hread, ← exists_paramColumns hparam, front, hjson, hlog]
    rcases JSONObject.get map (units "time") >>= castString with f | time
    · simp [Except.map]
    · rw [Except.map, ok_bind]
      rcases paramColumns cfg log with f | cs
      · simp
      · refine ⟨⟨fun _ => ⟨⟨map, hread⟩, ⟨time, rfl⟩, cs, rfl⟩, fun _ => ⟨_, rfl⟩⟩, ?_⟩
        intro cs' os h
        cases h
        exact hdata
  · -- the reader throws
    have hfails : ∀ r, front P cfg (Java.split (unit '`') line.text) ≠ .ok r := by
      intro r h
      obtain ⟨log, hlog, -⟩ := bind_eq_ok.1 h
      obtain ⟨map, hparse, -⟩ := bind_eq_ok.1 hlog
      rw [hjson, LogLine.json, parse_object] at hparse
      exact hmap ⟨map, readMembers_nil.1 hparse⟩
    refine ⟨⟨?_, fun h => absurd h.1 hmap⟩, fun cs os h => absurd h (hfails _)⟩
    rintro ⟨r, h⟩
    exact absurd h (hfails r)

/-- All elements get their row, or one fails. -/
theorem length_convertLoop {cs : List Units} {es : List Obj} :
    (convertLoop cfg cs es).rows.length = es.length ↔
      ∀ e ∈ es, ∃ cs, elementColumns cfg e = .ok cs := by
  induction es with
  | nil => simp [convertLoop]
  | cons e es ih =>
    rw [convertLoop, List.forall_mem_cons]
    rcases elementColumns cfg e with f | cs
    · simp
    · simp only [Output.write, List.length_cons, Nat.add_right_cancel_iff, ih]
      simp

end Lines

/-- The rows of columns, against the condition. -/
theorem length_convert_iff {P : Platform} {cfg : Config} {line : LogLine} :
    (convert P cfg line.text).rows.length = line.data.length ↔
      line.data = [] ∨ Convertible P cfg line := by
  have hnone : ([] : List (List Units)).length = line.data.length ↔ line.data = [] := by
    rw [List.length_nil, eq_comm, List.length_eq_zero_iff]
  rw [convert]
  by_cases hbacktick : unit '`' ∈ line.json
  · -- more than six fields
    rw [if_neg (by rw [line.length_split_text]; exact not_not.2 hbacktick), hnone]
    exact ⟨Or.inl, fun h => h.resolve_right fun hc => hc.backtick hbacktick⟩
  · rw [if_pos (line.length_split_text.2 hbacktick)]
    obtain ⟨hiff, hdata⟩ := exists_front P cfg hbacktick
    rcases hfront : front P cfg (Java.split (unit '`') line.text) with f | ⟨cs, os⟩
    · rw [hnone]
      refine ⟨Or.inl, fun h => h.resolve_right fun hc => ?_⟩
      obtain ⟨r, hr⟩ := hiff.2 ⟨hc.names, hc.time, hc.configured, hc.param⟩
      rw [hfront] at hr
      exact absurd hr (by simp)
    · obtain ⟨hnames, htime, hconfigured, hparam⟩ := hiff.1 ⟨_, hfront⟩
      have helements := hdata cs os hfront
      simp only [helements.length_eq, length_convertLoop]
      have hall : (∀ o ∈ os, ∃ cs, elementColumns cfg o = .ok cs) ↔
          ∀ ms ∈ line.data, TextMembers P cfg.data ms := by
        constructor
        · intro h ms hms
          obtain ⟨o, ho, hread⟩ := Lists.exists_right helements hms
          exact (exists_elementColumns hread).1 (h o ho)
        · intro h o ho
          obtain ⟨ms, hms, hread⟩ := Lists.exists_right helements.flip ho
          exact (exists_elementColumns hread).2 (h ms hms)
      rw [hall]
      constructor
      · exact fun h => Or.inr ⟨hbacktick, hnames, htime, hconfigured, hparam, h⟩
      · rintro (hnil | hc)
        · simp [hnil]
        · exact hc.data

/-- **When the converters keep every operation.** For every line as the
clients send it, every configuration and every platform: each mapper
writes as many rows as `data` has elements if and only if there are none,
or the line is convertible. -/
theorem map_rows_iff (P : Platform) (getBytes : Units → List UInt8) (cfg : Config)
    (line : LogLine) :
    ((RCFile.map P getBytes cfg line.text).rows.length = line.data.length ∧
        (TextFile.map P cfg line.text).rows.length = line.data.length) ↔
      line.data = [] ∨ Convertible P cfg line := by
  rw [RCFile.map_eq, TextFile.map_eq, Output.map, Output.map, List.length_map, List.length_map,
    and_self_iff, length_convert_iff]

/-! ## A line that loses its row -/

/-- A platform that knows ASCII only. -/
def asciiPlatform : Platform where
  toLowerCase s := s.map small
  toUpperCaseChar := capital
  toLowerCaseChar := small
  digit := Json.hexValue
  toStringObject _ := []
  toLowerCase_ascii s hs := by
    have hsmall : ∀ c ∈ s, small c = id c := by
      intro c hc
      rw [small, if_neg fun h => absurd (UInt16.le_trans (hs c hc).1 h.2) (by decide), id]
    rw [List.map_congr_left hsmall, List.map_id]
  toUpperCaseChar_ascii _ _ := rfl
  toLowerCaseChar_ascii _ _ := rfl
  digit_ascii _ _ := rfl

/-- A string written without escapes. -/
def pieces (s : String) : List Json.Piece :=
  (units s).filterMap fun c =>
    if h : unit ' ' ≤ c ∧ c ≠ unit '"' ∧ c ≠ unit '\\' then some (.raw c h) else none

/-- A line with one element and nothing wrong but a backtick in its
`uuid`. -/
def sampleLine : LogLine where
  fields := [units "a", units "b", units "c", units "d", units "e"]
  length_fields := rfl
  backtick_notMem := by decide
  before := []
  after := []
  members :=
    .cons [] (pieces "uuid") [] [] (.string (pieces "u`")) []
      (.cons [] (pieces "param") [] [] (.emptyObject []) []
        (.cons [] (pieces "time") [] [] (.string (pieces "1")) []
          (.last [] (pieces "data") [] [] (.array (.last [] (.emptyObject []) [])) [])))
  uuid := pieces "u`"
  uuid_mem := .head _
  param := []
  param_mem := ⟨.emptyObject [], .tail _ (.head _), rfl⟩
  data := [[]]
  data_mem := ⟨.array (.last [] (.emptyObject []) []), [.emptyObject []],
    .tail _ (.tail _ (.tail _ (.head _))), rfl, rfl⟩

/-- One name of each kind. -/
def sampleConfig : Config := ⟨[units "tid"], [units "id"], 4, by simp, rfl⟩

/-- **A backtick in the `uuid` costs the line its row**, for both mappers. -/
theorem map_loses_sampleLine :
    sampleLine.data.length = 1 ∧
      (RCFile.map asciiPlatform (fun s => s.map UInt16.toUInt8) sampleConfig
        sampleLine.text).rows = [] ∧
      (TextFile.map asciiPlatform sampleConfig sampleLine.text).rows = [] := by
  decide

end DataFormat

end Xpod
