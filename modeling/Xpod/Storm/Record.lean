import Mathlib.Data.List.Basic
import Mathlib.Tactic
import Xpod.Common.Fields
import Xpod.Nginx.LogFormat
import Xpod.Storm.Model.Record
/-!
# What nginx logs and what the spout reads

The log module writes the values of a format's variables with a backtick
between each two and the spout cuts the text at its backticks. The
module escapes nothing (`ngx_new_log_escape` is commented out, and its
table leaves the backtick alone), so the two agree exactly as long as no
value in front of the last one holds a backtick.
-/

namespace Xpod

namespace Storm

open Nginx (Request VarName)

/-- The name of a variable as the spout's configuration has it. -/
def fieldName (v : VarName) : Text := v.bytes.map Char.ofUInt8

/-- `v:single` -/
def singleField (v : VarName) : FieldInfo := ⟨.single, fieldName v⟩

theorem fieldName_injective : Function.Injective fieldName := by
  intro v u h
  have hchar : Function.Injective Char.ofUInt8 := by
    intro a b hab
    have hval := congrArg Char.toNat hab
    rw [toNat_ofUInt8, toNat_ofUInt8] at hval
    exact UInt8.toNat_inj.1 hval
  have hbytes := List.map_injective_iff.2 hchar h
  cases v
  cases u
  simpa using hbytes

variable {J : Type}

namespace Record

variable {jsonParse : Text → Except Java.Exception J}

/-! ## Single fields -/

/-- The record after the fields of `vs` were put into it. -/
def putAll (ret : Record J) (vs : List VarName) (fields : List Text) : Record J :=
  (vs.zip fields).foldl (fun ret p => ret.put (fieldName p.1) (.single p.2)) ret

/-- **Reading single fields is cutting at the backticks**: one cut for
each field but the last, and null when a cut finds no backtick. -/
theorem createRecordLoop_single (v : VarName) (vs : List VarName) (value : Text)
    (ret : Record J) :
    createRecordLoop jsonParse ((v :: vs).map singleField) value ret =
      .ok ((Fields.cuts '`' vs.length value).map (putAll ret (v :: vs))) := by
  induction vs generalizing v value ret with
  | nil => rfl
  | cons u vs ih =>
    rw [List.map_cons, createRecordLoop]
    rcases hcut : Java.cutAt '`' value with - | ⟨field, rest⟩
    · simp [hcut, Fields.cuts]
    · have hu := ih u rest (ret.put (fieldName v) (.single field))
      simp only [List.map_cons, List.isEmpty_cons, Bool.false_eq_true, if_false,
        singleField] at hu ⊢
      rw [hu, List.length_cons, Fields.cuts, hcut, Option.bind_some, Option.map_map]
      rfl

/-- Values put under their variables' names are found there. -/
theorem data_putAll_map (f : VarName → Text) (u : VarName) (vs : List VarName)
    (ret : Record J) :
    (putAll ret vs (vs.map f)).data (fieldName u) =
      if u ∈ vs then some (.single (f u)) else ret.data (fieldName u) := by
  induction vs generalizing ret with
  | nil => rfl
  | cons v vs ih =>
    have hv := ih (ret.put (fieldName v) (.single (f v)))
    change (putAll (ret.put (fieldName v) (.single (f v))) vs (vs.map f)).data _ = _
    rw [hv]
    by_cases hvs : u ∈ vs
    · rw [if_pos hvs, if_pos (List.mem_cons_of_mem v hvs)]
    · rw [if_neg hvs]
      by_cases huv : u = v
      · subst huv
        simp [put]
      · have hname : fieldName u ≠ fieldName v := fun h => huv (fieldName_injective h)
        rw [if_neg (by simp [huv, hvs])]
        exact Function.update_of_ne hname _ _

/-- The last variable's name holds the last field. -/
theorem data_putAll_getLast (ret : Record J) (v : VarName) (vs : List VarName)
    {fields : List Text} (hlen : fields.length = vs.length + 1) {l : Text}
    (hl : fields.getLast? = some l) :
    (putAll ret (v :: vs) fields).data
      (fieldName ((v :: vs).getLast (List.cons_ne_nil v vs))) = some (.single l) := by
  induction vs generalizing v ret fields with
  | nil =>
    obtain ⟨field, rfl⟩ := List.length_eq_one_iff.1 hlen
    obtain rfl := Option.some.inj hl
    simp [putAll, put]
  | cons u vs ih =>
    rcases fields with - | ⟨field, fields⟩
    · simp at hlen
    · have hlen' : fields.length = vs.length + 1 := by simpa using hlen
      have hne : fields ≠ [] := List.ne_nil_of_length_pos (by omega)
      rw [List.getLast?_cons_of_ne_nil hne] at hl
      rw [List.getLast_cons_cons]
      exact ih _ u hlen' hl

end Record

/-! ## The charset -/

namespace Charset

variable (cs : Charset)

theorem backtick_mem_decode {a : Nginx.Bytes} : '`' ∈ cs.decode a ↔ 96 ∈ a := by
  refine ⟨cs.mem_of_backtick a, fun h => ?_⟩
  obtain ⟨a, b, rfl⟩ := List.append_of_mem h
  rw [cs.decode_backtick]
  simp

/-- Decoding keeps the fields apart. -/
theorem decode_intercalate (w : Nginx.Bytes) (ws : List Nginx.Bytes) :
    cs.decode (Nginx.backtick.intercalate (w :: ws)) =
      ['`'].intercalate ((w :: ws).map cs.decode) := by
  induction ws generalizing w with
  | nil => simp
  | cons u ws ih =>
    have hu := ih u
    simp only [Nginx.backtick, List.map_cons, Fields.intercalate_cons_cons] at hu ⊢
    rw [cs.decode_backtick, hu]

end Charset

/-! ## The contract -/

/-- The value nginx had for a variable, as the spout would spell it. -/
def valueText (cs : Charset) (r : Request) (v : VarName) : Text := cs.decode (v.value r)

/-- The spout's record says of each variable what nginx had for it. -/
def Reads (cs : Charset) (r : Request) (vs : List VarName)
    (record : Except Java.Exception (Option (Record J))) : Prop :=
  ∃ ret, record = .ok (some ret) ∧
    ∀ v ∈ vs, ret.data (fieldName v) = some (.single (valueText cs r v))

section Contract

variable (cs : Charset) (r : Request) (v : VarName) (vs : List VarName)

/-- The decoded line is the decoded values with a backtick between each
two. -/
theorem decode_line :
    cs.decode (Nginx.runOps r (Nginx.tickOps (v :: vs))) =
      ['`'].intercalate ((v :: vs).map (valueText cs r)) := by
  rw [Nginx.runOps_tickOps, List.map_cons, cs.decode_intercalate, ← List.map_cons, List.map_map]
  rfl

theorem backtick_notMem_values_iff :
    (∀ u ∈ (v :: vs).dropLast, 96 ∉ u.value r) ↔
      ∀ t ∈ ((v :: vs).map (valueText cs r)).dropLast, '`' ∉ t := by
  rw [← List.map_dropLast, List.forall_mem_map]
  simp only [valueText, cs.backtick_mem_decode]

variable {cs r v vs}

/-- A record that gives the last variable its value was cut at the
format's own backticks. -/
theorem notMem_of_reads {jsonParse : Text → Except Java.Exception J}
    (h : Reads cs r (v :: vs) (Record.createRecord jsonParse
      (['`'].intercalate ((v :: vs).map (valueText cs r))) ((v :: vs).map singleField))) :
    ∀ t ∈ ((v :: vs).map (valueText cs r)).dropLast, '`' ∉ t := by
  obtain ⟨ret, hret, hdata⟩ := h
  rw [Record.createRecord, Record.createRecordLoop_single] at hret
  obtain ⟨fields, hcuts, rfl⟩ := Option.map_eq_some_iff.1 (Except.ok.inj hret)
  obtain ⟨l, hl, -⟩ := Fields.count_getLast_of_cuts hcuts
  have hput := Record.data_putAll_getLast ({} : Record J) v vs (Fields.length_of_cuts hcuts) hl
  rw [hdata _ (List.getLast_mem _)] at hput
  obtain rfl := Value.single.inj (Option.some.inj hput)
  rw [← List.length_map (valueText cs r)] at hcuts
  refine Fields.not_mem_of_getLast_cuts hcuts ?_
  rw [hl, ← List.map_cons, List.getLast?_map,
    List.getLast?_eq_some_getLast (List.cons_ne_nil v vs)]
  rfl

/-- Values without backticks in front of the last one are cut apart as
they were joined. -/
theorem reads_of_notMem {jsonParse : Text → Except Java.Exception J}
    (h : ∀ t ∈ ((v :: vs).map (valueText cs r)).dropLast, '`' ∉ t) :
    Reads cs r (v :: vs) (Record.createRecord jsonParse
      (['`'].intercalate ((v :: vs).map (valueText cs r))) ((v :: vs).map singleField)) := by
  have hcuts := Fields.cuts_intercalate h
  rw [List.length_map] at hcuts
  refine ⟨Record.putAll {} (v :: vs) ((v :: vs).map (valueText cs r)), ?_, fun u hu => ?_⟩
  · rw [Record.createRecord, Record.createRecordLoop_single, List.map_cons, hcuts]
    rfl
  · rw [Record.data_putAll_map, if_pos hu]

end Contract

/-- **What nginx logs is what the spout reads, exactly when no value in
front of the last holds a backtick.** For every request and every format
of variables with a backtick between each two, the format compiles, and
the spout's record of the line is not null and gives each variable the
value nginx had for it if and only if the backticks of the values all
stand in the last variable's value. -/
theorem createRecord_reads_line_iff (cs : Charset)
    (jsonParse : Text → Except Java.Exception J) (r : Request) (v : VarName)
    (vs : List VarName) :
    ∃ ops, Nginx.compileFormat [Nginx.tickFormat (v :: vs)] = .ok ops ∧
      (Reads cs r (v :: vs) (Record.createRecord jsonParse (cs.decode (Nginx.runOps r ops))
          ((v :: vs).map singleField)) ↔
        ∀ u ∈ (v :: vs).dropLast, 96 ∉ u.value r) := by
  refine ⟨_, Nginx.compileFormat_tickFormat v vs, ?_⟩
  rw [decode_line, backtick_notMem_values_iff cs]
  exact ⟨notMem_of_reads, reads_of_notMem⟩

/-- The names of the example below. -/
def uri : VarName := ⟨Nginx.ascii "uri", by decide, List.all_eq_true.1 rfl⟩

def status : VarName := ⟨Nginx.ascii "status", by decide, List.all_eq_true.1 rfl⟩

/-- A request for a path with a backtick, answered 404. -/
def tickRequest : Request where
  getIndexedVariable name := if name = uri.bytes then some (Nginx.ascii "/a`200") else none
  headersOutStatus := 404

/-- **A backtick in the path shifts the fields**: the client's own 200 is
read in front of the status 404. -/
theorem createRecord_shifts_fields :
    ∃ ops, Nginx.compileFormat [Nginx.tickFormat [uri, status]] = .ok ops ∧
      Nginx.runOps tickRequest ops = Nginx.ascii "/a`200`404" ∧
      ¬ Reads .latin1 tickRequest [uri, status] (Record.createRecord (fun _ => .ok ())
        (Charset.latin1.decode (Nginx.runOps tickRequest ops))
        ([uri, status].map singleField)) := by
  refine ⟨_, rfl, by decide, ?_⟩
  rintro ⟨ret, hret, hdata⟩
  obtain rfl := Option.some.inj (Except.ok.inj hret)
  exact absurd (hdata status (by decide)) (by decide)

end Storm

end Xpod
