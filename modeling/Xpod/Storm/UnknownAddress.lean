import Mathlib.Tactic
import Xpod.Storm.Durations
/-!
# Actions from unknown addresses

The first action of a log whose address is not in the database throws, and
the log is dropped with all its actions. A log is then treated as one from
a known address only if nothing of it would have been stored anyway: none
of its operations is an action, or something in it cannot be read.
-/

namespace Xpod

namespace Storm

namespace RecomendPro

/-! ## What an operation says -/

/-- The string under a key. -/
def stringAt (operation : ILog) (key : String) : Option Text :=
  (getString operation key).toOption.join

/-- What stands under the key is a string or null. -/
def HasString (operation : ILog) (key : String) : Prop := ∃ s, getString operation key = .ok s

theorem stringAt_eq {operation : ILog} {key : String} {s : Option Text}
    (h : getString operation key = .ok s) : stringAt operation key = s := by
  rw [stringAt, h]
  rfl

/-- The keys that the bolt asks for a string under. -/
def asked (operation : ILog) : List String :=
  "module" ::
    if stringAt operation "module" ∈
        [some "song".toList, some "download".toList, some "listen_info".toList] then
      ["type"]
    else if stringAt operation "module" = some "find_music".toList then
      "type" ::
        if stringAt operation "type" = some "listen".toList then ["optmessage"]
        else if stringAt operation "type" ∈
            [some "rank_show".toList, some "library_show".toList] then
          "origin" ::
            if contains ((stringAt operation "origin").getD []) "play" then ["optmessage"] else []
        else []
    else []

/-- **The operation can be read.** -/
def Readable (operation : ILog) : Prop := ∀ key ∈ asked operation, HasString operation key

/-- There is an id under the key, which prints as some text. -/
def HasId (env : Surroundings) (operation : ILog) (key : String) : Prop :=
  ∃ e, operation.getObject key.toList = .ok e ∧ WriteToHbase.present (textOf env e) ≠ none

/-- **The operation is an action**: a listen of the one or the other form, a
download, or a visit of a rank list, with the id of what it is about. -/
def IsAction (env : Surroundings) (operation : ILog) : Prop :=
  (stringAt operation "module" = some "song".toList ∧
      stringAt operation "type" = some "listen_info".toList ∧ HasId env operation "song_id") ∨
    (stringAt operation "module" = some "download".toList ∧
      stringAt operation "type" = some "song".toList ∧ HasId env operation "fileid") ∨
    (stringAt operation "module" = some "listen_info".toList ∧
      stringAt operation "type" = some "listen".toList ∧ HasId env operation "songid") ∨
    stringAt operation "module" = some "find_music".toList ∧
      (stringAt operation "type" = some "listen".toList ∨
        (stringAt operation "type" = some "rank_show".toList ∨
          stringAt operation "type" = some "library_show".toList) ∧
        contains ((stringAt operation "origin").getD []) "play") ∧
      WriteToHbase.present (stringAt operation "optmessage") ≠ none

/-! ## Reading an operation -/

section Operation

variable {env : Surroundings} {operation : ILog}

/-- How a part of the reading comes out: it returns exactly where it can be
done, and it returns an action where there is one. -/
structure Outcome (x : Except Java.Exception (Option Info)) (readable action : Prop) : Prop where
  ok : readable → ∃ info, x = .ok info ∧ (info ≠ none ↔ action)
  error : ¬ readable → ∃ e, x = .error e

theorem Outcome.congr {x : Except Java.Exception (Option Info)} {readable readable' action
    action' : Prop} (h : Outcome x readable action) (hreadable : readable' ↔ readable)
    (haction : action' ↔ action) : Outcome x readable' action' := by
  rw [hreadable, haction]
  exact h

theorem outcome_getString {key : String} {f : Option Text → Except Java.Exception (Option Info)}
    {readable action : Prop}
    (h : ∀ s, getString operation key = .ok s → Outcome (f s) readable action) :
    Outcome (getString operation key >>= f) (HasString operation key ∧ readable) action := by
  rcases hs : getString operation key with e | s
  · have hnot : ¬ HasString operation key := by
      rintro ⟨s, hs'⟩
      rw [hs] at hs'
      cases hs'
    exact ⟨fun hr => absurd hr.1 hnot, fun _ => ⟨e, rfl⟩⟩
  · obtain ⟨hok, herror⟩ := h s hs
    exact ⟨fun hr => hok hr.2, fun hr => herror fun hreadable => hr ⟨⟨s, hs⟩, hreadable⟩⟩

theorem outcome_none {action : Prop} (h : ¬ action) : Outcome (.ok none) True action :=
  ⟨fun _ => ⟨_, rfl, iff_of_false (by simp) h⟩, fun h => absurd trivial h⟩

/-- A record that gave one value gives them all. -/
theorem getObject_eq_ok (name : String) (hname : JsonRecord.segments name.toList ≠ [])
    (h : HasString operation name) (key : Text) : ∃ e, operation.getObject key = .ok e := by
  obtain ⟨data⟩ := operation
  cases data with
  | none =>
    obtain ⟨s, hs⟩ := h
    obtain ⟨segment, segments, hsegments⟩ := List.exists_cons_of_ne_nil hname
    rw [getString, JsonRecord.getObject, hsegments] at hs
    cases hs
  | some data =>
    unfold JsonRecord.getObject
    split
    · exact ⟨_, rfl⟩
    · exact ⟨_, rfl⟩

theorem safeGetNumberLong_eq_ok {key : String} {e : JsonTree Scalar}
    (h : operation.getObject key.toList = .ok e) (defval : BitVec 64) :
    ∃ x, safeGetNumberLong operation key defval = .ok x := by
  rw [safeGetNumberLong, h, Java.ok_bind]
  split
  · exact ⟨_, rfl⟩
  · exact ⟨_, rfl⟩
  · split
    · exact ⟨_, rfl⟩
    · exact ⟨_, rfl⟩
  · exact ⟨_, rfl⟩

theorem hasId_iff {key : String} {e : JsonTree Scalar}
    (he : operation.getObject key.toList = .ok e) :
    HasId env operation key ↔ WriteToHbase.present (textOf env e) ≠ none := by
  unfold HasId
  rw [he]
  simp

theorem outcome_listenOf (h : HasString operation "module") (key : String) :
    Outcome (listenOf env operation key) True (HasId env operation key) := by
  obtain ⟨t, ht⟩ := getObject_eq_ok _ (by decide) h "play_time".toList
  obtain ⟨x, hx⟩ := safeGetNumberLong_eq_ok ht 0
  obtain ⟨e, he⟩ := getObject_eq_ok _ (by decide) h key.toList
  refine ⟨fun _ => ⟨_, by rw [listenOf, hx, he]; rfl, ?_⟩, fun h => absurd trivial h⟩
  rw [hasId_iff he, ne_eq, ne_eq, Option.map_eq_none_iff]

theorem outcome_downloadOf (h : HasString operation "module") :
    Outcome (downloadOf env operation) True (HasId env operation "fileid") := by
  obtain ⟨t, ht⟩ := getObject_eq_ok _ (by decide) h "download_time".toList
  obtain ⟨x, hx⟩ := safeGetNumberLong_eq_ok ht 0
  obtain ⟨e, he⟩ := getObject_eq_ok _ (by decide) h "fileid".toList
  refine ⟨fun _ => ⟨_, by rw [downloadOf, hx, he]; rfl, ?_⟩, fun h => absurd trivial h⟩
  rw [hasId_iff he, ne_eq, ne_eq, Option.map_eq_none_iff]

theorem outcome_rankListOf :
    Outcome (rankListOf operation) (HasString operation "optmessage" ∧ True)
      (WriteToHbase.present (stringAt operation "optmessage") ≠ none) := by
  refine outcome_getString fun s hs => ⟨fun _ => ⟨_, rfl, ?_⟩, fun h => absurd trivial h⟩
  rw [stringAt_eq hs, ne_eq, ne_eq, Option.map_eq_none_iff]

/-- An operation with a type to go by: a listen or a download. -/
theorem outcome_type {type : Text} {x : Except Java.Exception (Option Info)} {action : Prop}
    (h : Outcome x True action) :
    Outcome (getString operation "type" >>= fun s => if s = some type then x else .ok none)
      (HasString operation "type" ∧ True)
      (stringAt operation "type" = some type ∧ action) := by
  refine outcome_getString fun s hs => ?_
  rw [stringAt_eq hs]
  split_ifs with htype
  · exact h.congr Iff.rfl (and_iff_right htype)
  · exact outcome_none fun haction => htype haction.1

/-- A visit of a rank list, by what the type asks for. -/
theorem outcome_find_music :
    Outcome
      (do
        let type ← getString operation "type"
        if type = some "listen".toList then rankListOf operation
        else if type = some "rank_show".toList ∨ type = some "library_show".toList then
          let origin ← getString operation "origin"
          if contains (origin.getD []) "play" then rankListOf operation else return none
        else return none)
      (HasString operation "type" ∧ ∀ key ∈
        (if stringAt operation "type" = some "listen".toList then ["optmessage"]
        else if stringAt operation "type" ∈
            [some "rank_show".toList, some "library_show".toList] then
          "origin" ::
            if contains ((stringAt operation "origin").getD []) "play" then ["optmessage"] else []
        else []), HasString operation key)
      ((stringAt operation "type" = some "listen".toList ∨
        (stringAt operation "type" = some "rank_show".toList ∨
          stringAt operation "type" = some "library_show".toList) ∧
        contains ((stringAt operation "origin").getD []) "play") ∧
      WriteToHbase.present (stringAt operation "optmessage") ≠ none) := by
  refine outcome_getString fun type htype => ?_
  rw [stringAt_eq htype]
  by_cases hlisten : type = some "listen".toList
  · rw [if_pos hlisten, if_pos hlisten]
    exact outcome_rankListOf.congr (by simp) (and_iff_right (Or.inl hlisten))
  rw [if_neg hlisten, if_neg hlisten]
  have hmem : type ∈ [some "rank_show".toList, some "library_show".toList] ↔
      type = some "rank_show".toList ∨ type = some "library_show".toList := by simp
  by_cases hshow : type = some "rank_show".toList ∨ type = some "library_show".toList
  · rw [if_pos hshow, if_pos (hmem.2 hshow), List.forall_mem_cons]
    refine outcome_getString fun origin horigin => ?_
    rw [stringAt_eq horigin]
    by_cases hplay : contains (origin.getD []) "play" = true
    · rw [if_pos hplay, if_pos hplay]
      exact outcome_rankListOf.congr (by simp) (and_iff_right (Or.inr ⟨hshow, hplay⟩))
    · rw [if_neg hplay, if_neg hplay]
      refine (outcome_none ?_).congr (by simp) Iff.rfl
      rintro ⟨hlisten' | ⟨-, hplay'⟩, -⟩
      · exact hlisten hlisten'
      · exact hplay hplay'
  · rw [if_neg hshow, if_neg (hmem.not.2 hshow)]
    refine (outcome_none ?_).congr (by simp) Iff.rfl
    rintro ⟨hlisten' | ⟨hshow', -⟩, -⟩
    · exact hlisten hlisten'
    · exact hshow hshow'

/-- **How the reading of an operation comes out.** -/
theorem infoOf_outcome (env : Surroundings) (operation : ILog) :
    Outcome (infoOf env operation) (Readable operation) (IsAction env operation) := by
  unfold Readable asked IsAction
  rw [List.forall_mem_cons]
  refine outcome_getString fun module hmodule => ?_
  have hdata : HasString operation "module" := ⟨module, hmodule⟩
  rw [stringAt_eq hmodule]
  by_cases hsong : module = some "song".toList
  · subst hsong
    rw [if_pos rfl]
    exact (outcome_type (outcome_listenOf hdata "song_id")).congr (by simp) (by simp)
  rw [if_neg hsong]
  by_cases hdownload : module = some "download".toList
  · subst hdownload
    rw [if_pos rfl]
    exact (outcome_type (outcome_downloadOf hdata)).congr (by simp) (by simp)
  rw [if_neg hdownload]
  by_cases hlisten : module = some "listen_info".toList
  · subst hlisten
    rw [if_pos rfl]
    exact (outcome_type (outcome_listenOf hdata "songid")).congr (by simp) (by simp)
  rw [if_neg hlisten]
  have hnot : module ∉ [some "song".toList, some "download".toList, some "listen_info".toList] := by
    simp only [List.mem_cons, List.not_mem_nil, or_false, not_or]
    exact ⟨hsong, hdownload, hlisten⟩
  rw [if_neg hnot]
  by_cases hfind : module = some "find_music".toList
  · rw [if_pos hfind, if_pos hfind, List.forall_mem_cons]
    refine outcome_find_music.congr Iff.rfl ?_
    simp only [hsong, hdownload, hlisten, false_and, false_or, and_iff_right hfind]
  · rw [if_neg hfind, if_neg hfind]
    refine (outcome_none ?_).congr (by simp) Iff.rfl
    simp only [hsong, hdownload, hlisten, hfind, false_and, or_self, not_false_eq_true]

end Operation

/-! ## The puts of an action -/

section Puts

variable {env : Surroundings} {p : PutTrait} {pubInfo : PubInfo}

/-- One of the ids is neither null nor empty. -/
def Identified (ids : Option Text × Option Text) : Prop :=
  WriteToHbase.present ids.1 ≠ none ∨ WriteToHbase.present ids.2 ≠ none

theorem putUnder_of_absent {type : IdType} {id : Option Text} (h : WriteToHbase.present id = none) :
    p.putUnder pubInfo type id = .ok [] := by
  rw [PutTrait.putUnder, h]

/-- Without a location there is no put. -/
theorem putUnder_of_unknown (hloc : pubInfo.location = none) (type : IdType) {id : Option Text}
    (h : WriteToHbase.present id ≠ none) : ∃ e, p.putUnder pubInfo type id = .error e := by
  obtain ⟨id', hid⟩ := Option.ne_none_iff_exists'.1 h
  have hshared : pubInfo.addInfoToPut = .error .nullPointer := by rw [PubInfo.addInfoToPut, hloc]
  rw [PutTrait.putUnder, hid]
  rcases p.addInfo with e | info
  · exact ⟨e, rfl⟩
  · exact ⟨.nullPointer, by simp only [hshared, Java.ok_bind, Java.error_bind]⟩

theorem createPut_of_unknown (hloc : pubInfo.location = none) (hids : Identified pubInfo.ids) :
    ∃ e, p.createPut pubInfo = .error e := by
  unfold PutTrait.createPut
  by_cases hdevice : WriteToHbase.present pubInfo.ids.1 = none
  · obtain ⟨e, he⟩ :=
      putUnder_of_unknown (p := p) hloc .t (hids.resolve_left (not_not_intro hdevice))
    exact ⟨e, by rw [putUnder_of_absent hdevice, Java.ok_bind, he, Java.error_bind]⟩
  · obtain ⟨e, he⟩ := putUnder_of_unknown (p := p) hloc .u hdevice
    exact ⟨e, by rw [he, Java.error_bind]⟩

/-- With a location there is one put for each id. -/
theorem putUnder_of_known {location : Location} (hloc : pubInfo.location = some location)
    {info : Columns} (hinfo : p.addInfo = .ok info) (type : IdType) (id : Option Text) :
    ∃ puts, p.putUnder pubInfo type id = .ok puts ∧
      (WriteToHbase.present id ≠ none → puts ≠ []) := by
  obtain ⟨shared, hshared⟩ : ∃ shared, pubInfo.addInfoToPut = .ok shared := by
    rw [PubInfo.addInfoToPut, hloc]
    exact ⟨_, rfl⟩
  rcases hid : WriteToHbase.present id with - | id'
  · exact ⟨[], putUnder_of_absent hid, fun h => absurd rfl h⟩
  · refine ⟨_, by rw [PutTrait.putUnder, hid, hinfo, hshared]; rfl, fun _ => List.cons_ne_nil _ _⟩

theorem createPut_of_known {location : Location} (hloc : pubInfo.location = some location)
    {info : Columns} (hinfo : p.addInfo = .ok info) (hids : Identified pubInfo.ids) :
    ∃ puts, p.createPut pubInfo = .ok puts ∧ puts ≠ [] := by
  obtain ⟨device, hdevice, hdevice'⟩ := putUnder_of_known hloc hinfo .u pubInfo.ids.1
  obtain ⟨user, huser, huser'⟩ := putUnder_of_known hloc hinfo .t pubInfo.ids.2
  refine ⟨device ++ user, by rw [PutTrait.createPut, hdevice, huser]; rfl, ?_⟩
  rw [ne_eq, List.append_eq_nil_iff, not_and_or]
  exact hids.imp hdevice' huser'

/-- The columns of an action that was read can be made. -/
theorem addInfo_of_infoOf {operation : ILog} {info : Info}
    (h : infoOf env operation = .ok (some info)) (time : BitVec 64) (seq : Text) :
    ∃ columns, PutTrait.addInfo ⟨info, time, seq⟩ = .ok columns := by
  rcases infoOf_cases h with ⟨key, h⟩ | h | h
  · obtain ⟨x, id, -, rfl⟩ := listenOf_eq_ok h
    exact ⟨_, rfl⟩
  · obtain ⟨x, id, -, rfl⟩ := downloadOf_eq_ok h
    exact ⟨_, rfl⟩
  · obtain ⟨id, rfl⟩ := rankListOf_eq_ok h
    exact ⟨_, rfl⟩

end Puts

/-! ## The operations of a log -/

section Loop

variable {env : Surroundings} {pubInfo : PubInfo}

/-- From an unknown address the loop collects nothing. -/
theorem loop_of_unknown (hloc : pubInfo.location = none) (hids : Identified pubInfo.ids)
    {logList : List ILog} {time : BitVec 64} {bolt : Bolt} {ops ops' : List Put}
    (h : (loop env pubInfo logList time bolt ops).2 = .ok ops') : ops' = ops := by
  induction logList generalizing time bolt with
  | nil => exact (Except.ok.inj h).symm
  | cons operation logList ih =>
    rw [loop] at h
    rcases hinfo : infoOf env operation with e | - | info
    · simp only [hinfo] at h
      cases h
    · simp only [hinfo] at h
      exact ih h
    · obtain ⟨e, he⟩ := createPut_of_unknown (p := ⟨info, time + 1, (getSeq env.processId bolt).2⟩)
        hloc hids
      simp only [hinfo, he] at h
      cases h

/-- **From a known address the loop collects the actions**, if it can read
all the operations. -/
theorem loop_of_known (env : Surroundings) {location : Location}
    (hloc : pubInfo.location = some location) (hids : Identified pubInfo.ids)
    (logList : List ILog) (time : BitVec 64) (bolt : Bolt) (ops : List Put) :
    ((∀ operation ∈ logList, Readable operation) →
      ∃ new, (loop env pubInfo logList time bolt ops).2 = .ok (ops ++ new) ∧
        (new ≠ [] ↔ ∃ operation ∈ logList, IsAction env operation)) ∧
    ((¬ ∀ operation ∈ logList, Readable operation) →
      ∃ e, (loop env pubInfo logList time bolt ops).2 = .error e) := by
  induction logList generalizing time bolt ops with
  | nil => exact ⟨fun _ => ⟨[], by rw [List.append_nil]; rfl, by simp⟩, fun h => by simp at h⟩
  | cons operation logList ih =>
    obtain ⟨hok, herror⟩ := infoOf_outcome env operation
    rw [loop, List.forall_mem_cons]
    by_cases hreadable : Readable operation
    · obtain ⟨info, hinfo, haction⟩ := hok hreadable
      rcases info with - | info
      · have hnot : ¬ IsAction env operation := fun h => haction.2 h rfl
        simp only [hinfo, hreadable, true_and, List.exists_mem_cons_iff, hnot, false_or]
        exact ih (time + 1) bolt ops
      · obtain ⟨columns, hcolumns⟩ :=
          addInfo_of_infoOf hinfo (time + 1) (getSeq env.processId bolt).2
        obtain ⟨puts, hputs, hne⟩ := createPut_of_known hloc hcolumns hids
        have his : IsAction env operation := haction.1 (by simp)
        obtain ⟨ihok, iherror⟩ := ih (time + 1) (getSeq env.processId bolt).1 (ops ++ puts)
        simp only [hinfo, hputs, hreadable, true_and]
        refine ⟨fun h => ?_, iherror⟩
        obtain ⟨new, hnew, -⟩ := ihok h
        refine ⟨puts ++ new, by rw [hnew, List.append_assoc], ?_⟩
        exact iff_of_true (by simp [hne]) ⟨operation, List.mem_cons_self, his⟩
    · obtain ⟨e, he⟩ := herror hreadable
      simp only [he, hreadable, false_and, false_imp_iff, not_false_eq_true, forall_const, true_and]
      exact ⟨e, rfl⟩

end Loop

/-! ## A log -/

/-- **The log can be read**: all that the bolt asks it for is there and of
its type, and these are its operations. -/
structure Complete (env : Surroundings) (log : ILog) (logList : List ILog) : Prop where
  operations : log.getLogList "request_body.data".toList = .ok (some logList)
  uri : ∃ s, getString log "request_uri" = .ok (some s)
  channel : HasString log "request_body.param.s"
  version : HasString log "request_body.param.v"
  app : HasString log "request_body.param.app"
  time : ∃ text time, getString log "time_local" = .ok text ∧ env.parseMillis text = .ok time

/-- **The log has something to record**: it can be read, and so can all its
operations, one of which is an action. -/
def Recorded (env : Surroundings) (log : ILog) : Prop :=
  ∃ logList, Complete env log logList ∧ (∀ operation ∈ logList, Readable operation) ∧
    ∃ operation ∈ logList, IsAction env operation

/-- What there is to record does not depend on the address. -/
theorem recorded_with (env : Surroundings)
    (get : Text → Except Java.Exception (Option Location)) (log : ILog) :
    Recorded { env with get } log ↔ Recorded env log := by
  have hcomplete : ∀ logList, Complete { env with get } log logList ↔ Complete env log logList :=
    fun logList => ⟨fun h => ⟨h.operations, h.uri, h.channel, h.version, h.app, h.time⟩,
      fun h => ⟨h.operations, h.uri, h.channel, h.version, h.app, h.time⟩⟩
  unfold Recorded
  simp only [hcomplete]
  rfl

section Log

variable {env : Surroundings} {log : ILog} {ip : Text} {location : Option Location}
  {uid tuid : Option Text}

theorem safeGetNumberInt_eq_ok {key : String} {e : JsonTree Scalar}
    (h : log.getObject key.toList = .ok e) (defval : BitVec 32) :
    ∃ x, safeGetNumberInt log key defval = .ok x := by
  rw [safeGetNumberInt, h, Java.ok_bind]
  split
  · exact ⟨_, rfl⟩
  · exact ⟨_, rfl⟩
  · split
    · exact ⟨_, rfl⟩
    · exact ⟨_, rfl⟩
  · exact ⟨_, rfl⟩

theorem Identified.not_none (h : Identified (uid, tuid)) : ¬ (uid = none ∧ tuid = none) := by
  rintro ⟨rfl, rfl⟩
  rcases h with h | h
  · exact h rfl
  · exact h rfl

/-- A log that can be read gives what its operations share. -/
theorem readLog_of_complete (hip : getString log "remote_addr" = .ok (some ip))
    (hget : env.get ip = .ok location) (huid : uidOf log = .ok uid) (htuid : tuidOf log = .ok tuid)
    (hids : Identified (uid, tuid)) {logList : List ILog} (h : Complete env log logList) :
    ∃ pubInfo time, readLog env log = .ok (some (pubInfo, time, logList)) ∧
      pubInfo.location = location ∧ pubInfo.ids = (uid, tuid) := by
  obtain ⟨uri, huri⟩ := h.uri
  obtain ⟨channel, hchannel⟩ := h.channel
  obtain ⟨version, hversion⟩ := h.version
  obtain ⟨app, happ⟩ := h.app
  obtain ⟨text, time, htext, htime⟩ := h.time
  obtain ⟨e, he⟩ := getObject_eq_ok "remote_addr" (by decide) ⟨_, hip⟩
    "request_body.param.net".toList
  obtain ⟨net, hnet⟩ := safeGetNumberInt_eq_ok he (-1)
  obtain ⟨devType, hdevType⟩ : ∃ devType, devTypeOf (some uri) = .ok devType := ⟨_, rfl⟩
  refine ⟨⟨(uid, tuid), channel, version, net, app, location, devType⟩, time, ?_, rfl, rfl⟩
  rw [readLog, h.operations, Java.ok_bind, getPubInfo, hip]
  simp only [Java.ok_bind, hget, huid, htuid, if_neg hids.not_none, huri, hdevType, hchannel,
    hversion, hnet, happ, htext, htime]
  rfl

/-- A log that gives what its operations share can be read. -/
theorem complete_of_readLog (hip : getString log "remote_addr" = .ok (some ip))
    (hget : env.get ip = .ok location) (huid : uidOf log = .ok uid) (htuid : tuidOf log = .ok tuid)
    {pubInfo : PubInfo} {time : BitVec 64} {logList : List ILog}
    (h : readLog env log = .ok (some (pubInfo, time, logList))) :
    Complete env log logList ∧ pubInfo.location = location ∧ pubInfo.ids = (uid, tuid) := by
  unfold readLog at h
  obtain ⟨operations, hoperations, h⟩ := Java.bind_eq_ok.1 h
  obtain ⟨shared, hshared, h⟩ := Java.bind_eq_ok.1 h
  rcases shared with - | shared
  · cases h
  obtain ⟨text, htext, h⟩ := Java.bind_eq_ok.1 h
  obtain ⟨time', htime, h⟩ := Java.bind_eq_ok.1 h
  rcases operations with - | operations
  · cases h
  obtain ⟨rfl, rfl, rfl⟩ := by simpa using Except.ok.inj h
  rw [getPubInfo, hip] at hshared
  simp only [Java.ok_bind, hget, huid, htuid] at hshared
  split_ifs at hshared
  · cases hshared
  obtain ⟨uri, huri, hshared⟩ := Java.bind_eq_ok.1 hshared
  obtain ⟨devType, hdevType, hshared⟩ := Java.bind_eq_ok.1 hshared
  obtain ⟨channel, hchannel, hshared⟩ := Java.bind_eq_ok.1 hshared
  obtain ⟨version, hversion, hshared⟩ := Java.bind_eq_ok.1 hshared
  obtain ⟨net, -, hshared⟩ := Java.bind_eq_ok.1 hshared
  obtain ⟨app, happ, hshared⟩ := Java.bind_eq_ok.1 hshared
  obtain rfl := Option.some.inj (Except.ok.inj hshared)
  rcases uri with - | uri
  · cases hdevType
  exact ⟨⟨hoperations, ⟨uri, huri⟩, ⟨channel, hchannel⟩, ⟨version, hversion⟩, ⟨app, happ⟩,
    ⟨text, time', htext, htime⟩⟩, rfl, rfl⟩

theorem execute_eq_some {bolt : Bolt} {ops : List Put} :
    (execute env bolt log).2 = some ops ↔ (myExecute env bolt log).2 = .ok ops ∧ ops ≠ [] := by
  unfold execute
  rcases myExecute env bolt log with ⟨bolt', e | ops'⟩
  · simp
  · cases ops' with
    | nil =>
      refine iff_of_false (by simp) ?_
      rintro ⟨h, hne⟩
      exact hne (Except.ok.inj h).symm
    | cons put ops' =>
      refine ⟨fun h => ?_, fun h => ?_⟩
      · obtain rfl := Option.some.inj h
        exact ⟨rfl, List.cons_ne_nil _ _⟩
      · exact congrArg some (Except.ok.inj h.1)

/-- From an unknown address nothing is sent. -/
theorem execute_of_unknown (hip : getString log "remote_addr" = .ok (some ip))
    (hget : env.get ip = .ok none) (huid : uidOf log = .ok uid) (htuid : tuidOf log = .ok tuid)
    (hids : Identified (uid, tuid)) (bolt : Bolt) : (execute env bolt log).2 = none := by
  refine Option.eq_none_iff_forall_ne_some.2 fun ops hops => ?_
  obtain ⟨h, hne⟩ := execute_eq_some.1 hops
  unfold myExecute at h
  rcases hread : readLog env log with e | - | ⟨pubInfo, time, logList⟩
  · simp only [hread] at h
    cases h
  · simp only [hread] at h
    exact hne (Except.ok.inj h).symm
  · simp only [hread] at h
    obtain ⟨-, hloc, hids'⟩ := complete_of_readLog hip hget huid htuid hread
    exact hne (loop_of_unknown hloc (hids' ▸ hids) h)

/-- **From a known address what there is to record is sent.** -/
theorem execute_of_known {loc : Location} (hip : getString log "remote_addr" = .ok (some ip))
    (hget : env.get ip = .ok (some loc)) (huid : uidOf log = .ok uid)
    (htuid : tuidOf log = .ok tuid) (hids : Identified (uid, tuid)) (bolt : Bolt) :
    (execute env bolt log).2 ≠ none ↔ Recorded env log := by
  rw [Option.ne_none_iff_exists']
  constructor
  · rintro ⟨ops, hops⟩
    obtain ⟨h, hne⟩ := execute_eq_some.1 hops
    unfold myExecute at h
    rcases hread : readLog env log with e | - | ⟨pubInfo, time, logList⟩
    · simp only [hread] at h
      cases h
    · simp only [hread] at h
      exact absurd (Except.ok.inj h).symm hne
    · simp only [hread] at h
      obtain ⟨hcomplete, hloc, hids'⟩ := complete_of_readLog hip hget huid htuid hread
      obtain ⟨hok, herror⟩ := loop_of_known env hloc (hids' ▸ hids) logList time bolt []
      by_cases hreadable : ∀ operation ∈ logList, Readable operation
      · obtain ⟨new, hnew, haction⟩ := hok hreadable
        obtain rfl := Except.ok.inj (h.symm.trans hnew)
        exact ⟨logList, hcomplete, hreadable, haction.1 hne⟩
      · obtain ⟨e, he⟩ := herror hreadable
        cases h.symm.trans he
  · rintro ⟨logList, hcomplete, hreadable, haction⟩
    obtain ⟨pubInfo, time, hread, hloc, hids'⟩ :=
      readLog_of_complete hip hget huid htuid hids hcomplete
    obtain ⟨hok, -⟩ := loop_of_known env hloc (hids' ▸ hids) logList time bolt []
    obtain ⟨new, hnew, hne⟩ := hok hreadable
    refine ⟨new, execute_eq_some.2 ⟨?_, hne.2 haction⟩⟩
    rw [myExecute, hread]
    exact hnew

end Log

/-- The columns a location is written to. -/
def locationColumns : List Text :=
  ["isp".toList, "country".toList, "province".toList, "city".toList]

/-- The row key of a put, and its columns without those of the location. -/
def Put.withoutLocation (put : Put) : Put :=
  { put with columns := put.columns.filter fun c => !locationColumns.contains c.1 }

/-- **When an unknown address makes no difference.** For every log with an
id, in every state of the bolt: the row keys and the columns that are sent,
without those of the location, are the same whether the address is found or
not exactly when the log has nothing to record. -/
theorem unknown_address_iff (env : Surroundings)
    (found missing : Text → Except Java.Exception (Option Location)) (bolt : Bolt) (log : ILog)
    (ip : Text) (uid tuid : Option Text) (hip : getString log "remote_addr" = .ok (some ip))
    (huid : uidOf log = .ok uid) (htuid : tuidOf log = .ok tuid) (hids : Identified (uid, tuid))
    (location : Location) (hfound : found ip = .ok (some location))
    (hmissing : missing ip = .ok none) :
    ((execute { env with get := found } bolt log).2.map (List.map Put.withoutLocation) =
        (execute { env with get := missing } bolt log).2.map (List.map Put.withoutLocation)) ↔
      ¬ Recorded env log := by
  have hknown : (execute { env with get := found } bolt log).2 ≠ none ↔
      Recorded { env with get := found } log := execute_of_known hip hfound huid htuid hids bolt
  have hunknown : (execute { env with get := missing } bolt log).2 = none :=
    execute_of_unknown hip hmissing huid htuid hids bolt
  rw [hunknown, Option.map_none, Option.map_eq_none_iff]
  rw [recorded_with] at hknown
  exact not_ne_iff.symm.trans hknown.not

/-- A log of a device with one operation. -/
def sampleLog (operation : List (Text × JsonTree Scalar)) : ILog :=
  ⟨some (JsonTree.get [("remote_addr".toList, .scalar (.string "10.0.0.1".toList)),
    ("time_local".toList, .scalar (.string "[01/Jan/2015:00:00:00 +0800]".toList)),
    ("request_uri".toList, .scalar (.string "/ttpod_client/".toList)),
    ("request_body".toList, .map [("data".toList, .list [.map operation]),
      ("param".toList, .map [("uid".toList, .scalar (.string "d1".toList))])])])⟩

/-- A visit of a rank list. -/
def sampleVisit : ILog :=
  sampleLog [("module".toList, .scalar (.string "find_music".toList)),
    ("type".toList, .scalar (.string "listen".toList)),
    ("optmessage".toList, .scalar (.string "7".toList))]

theorem unknown_address_iff_sampleVisit :
    ((execute { sampleSurroundings with get := fun _ => .ok (some {}) } {} sampleVisit).2.map
          (List.map Put.withoutLocation) =
        (execute { sampleSurroundings with get := fun _ => .ok none } {} sampleVisit).2.map
          (List.map Put.withoutLocation)) ↔
      ¬ Recorded sampleSurroundings sampleVisit :=
  unknown_address_iff sampleSurroundings (fun _ => .ok (some {})) (fun _ => .ok none) {} sampleVisit
    "10.0.0.1".toList (some "d1".toList) none rfl rfl rfl (Or.inl (by decide)) {} rfl rfl

/-- **A visit that is lost.** It is sent from a known address, and from an
unknown one nothing is. -/
theorem execute_sampleVisit :
    (execute { sampleSurroundings with get := fun _ => .ok (some {}) } {} sampleVisit).2.map
          (List.map Put.row) = some ["d1_u_9999999999998_0100001_1".toList.map Char.toUInt8] ∧
      (execute { sampleSurroundings with get := fun _ => .ok none } {} sampleVisit).2 = none :=
  ⟨by decide, by decide⟩

end RecomendPro

end Storm

end Xpod
