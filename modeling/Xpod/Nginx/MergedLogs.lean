import Mathlib.Tactic
import Xpod.Nginx.Arguments
/-!
# Logs of a location

A level of the configuration has its own `new_access_log` lines, or else
the logs of the level around it. The lines make logs with all fields
written. Where no level has a line, the outermost merge makes a log of its
own and leaves the fields of Kafka as `ngx_array_push` returned them.
-/

namespace Xpod

namespace Nginx

namespace Config

open NewLog

/-! ## The levels of a configuration -/

/-- A `new_access_log` line, with what nginx answers to its handler and the
formats that are known when it is read. -/
structure Line where
  core : Core
  lmcf : MainConf
  args : List Bytes

/-- A block of the configuration, with what nginx answers when its settings
are merged. -/
structure Level where
  lines : List Line
  core : Core
  lmcf : MainConf

/-- The settings after the lines, if all of them are accepted. -/
def readLines (llcf : LocConf Entry) : List Line → Option (LocConf Entry)
  | [] => some llcf
  | line :: lines =>
    match setLog line.core line.args line.lmcf llcf with
    | .ok (llcf, _, none) => readLines llcf lines
    | _ => none

/-- The settings of a level by itself (`ngx_new_log_create_loc_conf`). -/
def Level.own (level : Level) : Option (LocConf Entry) := readLines {} level.lines

/-- The merging with the levels inside, from the outer to the inner. -/
def mergeInto (prev : LocConf Entry) : List Level → Option (LocConf Entry)
  | [] => some prev
  | level :: levels =>
    match level.own with
    | none => none
    | some own =>
      match mergeLocConf level.core level.lmcf prev own with
      | (conf, _, none) => mergeInto conf levels
      | _ => none

/-- The effective settings of the innermost of the levels, if the
configuration is accepted. -/
def effective (http : Level) (levels : List Level) : Option (LocConf Entry) :=
  match http.own with
  | none => none
  | some own => mergeInto own levels

/-! ## What is configured -/

/-- What is sent to Kafka is defined. -/
structure NewLog.Entry.Defined (log : Entry) : Prop where
  topicName : log.topicName ≠ .undefined
  topic : log.topic ≠ .undefined
  opType : log.opType ≠ .undefined

/-- The nearest enclosing level that has lines. -/
def nearest (levels : List Level) : Option Level := levels.reverse.find? (!·.lines.isEmpty)

/-- **A location is configured**: its settings are those of the nearest
enclosing level with lines, which are `off` or a list of logs, and every log
that the handler can use is defined. -/
structure Configured (levels : List Level) (conf : LocConf Entry) : Prop where
  nearest : ∃ level own, nearest levels = some level ∧ level.own = some own ∧
    conf.off = own.off ∧ conf.logs = own.logs ∧ (own.off = true ∨ own.logs ≠ none)
  defined : ∀ log ∈ conf.logs.getD [], log.Defined

/-! ## Lines -/

section Lines

variable {llcf llcf' : LocConf Entry}

/-- A log with a file has the same fields of Kafka. -/
theorem openLog_cases {core : Core} {path : Bytes} {log log' : Entry}
    (h : openLog core path log = some log') :
    log'.topicName = log.topicName ∧ log'.topic = log.topic ∧ log'.opType = log.opType := by
  unfold openLog at h
  split_ifs at h
  · obtain rfl := Option.some.inj h
    exact ⟨rfl, rfl, rfl⟩
  · obtain rfl := Option.some.inj h
    exact ⟨rfl, rfl, rfl⟩

theorem chooseFormat_cases {lmcf lmcf' : MainConf} {log : Entry} {name : Bytes}
    (h : chooseFormat lmcf llcf log name = (llcf', lmcf', none)) :
    ∃ i, llcf' = llcf.push { log with format := .set (some i) } := by
  unfold chooseFormat at h
  split at h
  · simp at h
  · next i _ => exact ⟨i, (congrArg Prod.fst h).symm⟩

/-- **What an accepted line does**: it turns the logs off, or it adds a log
that is defined. -/
theorem setLog_cases {core : Core} {args : List Bytes} {lmcf lmcf' : MainConf}
    (h : setLog core args lmcf llcf = .ok (llcf', lmcf', none)) :
    llcf' = { llcf with off := true } ∨ ∃ log, log.Defined ∧ llcf' = llcf.push log := by
  unfold setLog at h
  obtain ⟨topicName, -, h⟩ := Java.bind_eq_ok.1 h
  split at h
  · split at h
    · exact Or.inl (congrArg Prod.fst (Except.ok.inj h)).symm
    · obtain ⟨v, -, h⟩ := Java.bind_eq_ok.1 h
      cases h
  split at h
  · cases h
  split at h
  · cases h
  split at h
  · obtain ⟨name, -, h⟩ := Java.bind_eq_ok.1 h
    obtain ⟨i, rfl⟩ := chooseFormat_cases (Except.ok.inj h)
    exact Or.inr ⟨_, ⟨by simp, by simp [Entry.zero], by simp⟩, rfl⟩
  split at h
  · obtain ⟨path, -, h⟩ := Java.bind_eq_ok.1 h
    split at h
    · cases h
    · next log hlog =>
      obtain ⟨htopicName, htopic, hopType⟩ := openLog_cases hlog
      obtain ⟨name, -, h⟩ := Java.bind_eq_ok.1 h
      obtain ⟨i, rfl⟩ := chooseFormat_cases (Except.ok.inj h)
      refine Or.inr ⟨_, ⟨?_, ?_, ?_⟩, rfl⟩
      · simp [htopicName]
      · simp [htopic, Entry.zero]
      · simp [hopType]
  · obtain ⟨v, -, h⟩ := Java.bind_eq_ok.1 h
    cases h

/-- The level says something about its logs. -/
def LocConf.IsSet {τ : Type} (conf : LocConf τ) : Prop := conf.off = true ∨ conf.logs ≠ none

theorem isSet_iff {τ : Type} (conf : LocConf τ) :
    (conf.logs.isSome || conf.off) = true ↔ conf.IsSet := by
  rw [Bool.or_eq_true, Option.isSome_iff_ne_none, or_comm, LocConf.IsSet]

/-- Accepted lines leave only logs that are defined, and say something if
there are any. -/
theorem readLines_cases {lines : List Line} (h : readLines llcf lines = some llcf')
    (hdefined : ∀ log ∈ llcf.logs.getD [], log.Defined) :
    (∀ log ∈ llcf'.logs.getD [], log.Defined) ∧ (llcf.IsSet ∨ lines ≠ [] → llcf'.IsSet) := by
  induction lines generalizing llcf with
  | nil =>
    obtain rfl := Option.some.inj h
    exact ⟨hdefined, fun hset => hset.resolve_right (not_not_intro rfl)⟩
  | cons line lines ih =>
    unfold readLines at h
    split at h
    · next llcf₁ lmcf₁ hline =>
      rcases setLog_cases hline with rfl | ⟨log, hlog, rfl⟩
      · obtain ⟨hdefined', hset⟩ := ih h hdefined
        exact ⟨hdefined', fun _ => hset (Or.inl (Or.inl rfl))⟩
      · have hpush : ∀ l ∈ (llcf.push log).logs.getD [], l.Defined := by
          intro l hl
          rcases List.mem_append.1 hl with hl | hl
          · exact hdefined l hl
          · rw [List.mem_singleton.1 hl]
            exact hlog
        obtain ⟨hdefined', hset⟩ := ih h hpush
        exact ⟨hdefined', fun _ => hset (Or.inl (Or.inr (by simp [LocConf.push])))⟩
    · cases h

theorem own_cases {level : Level} {own : LocConf Entry} (h : level.own = some own) :
    (∀ log ∈ own.logs.getD [], log.Defined) ∧ (own.IsSet ↔ level.lines ≠ []) := by
  obtain ⟨hdefined, hset⟩ := readLines_cases h (by simp)
  refine ⟨hdefined, fun hown hlines => ?_, fun hlines => hset (Or.inr hlines)⟩
  rw [Level.own, hlines] at h
  obtain rfl := Option.some.inj h
  rcases hown with hoff | hlogs
  · cases hoff
  · exact hlogs rfl

end Lines

/-! ## Merging -/

section Merging

variable {core : Core} {lmcf lmcf' : MainConf} {prev conf conf' : LocConf Entry}

theorem mergeCache_logs : (mergeCache prev conf).logs = conf.logs := by
  unfold mergeCache
  split
  · rfl
  · rfl

theorem mergeCache_off : (mergeCache prev conf).off = conf.off := by
  unfold mergeCache
  split
  · rfl
  · rfl

/-- A level keeps what it says. -/
theorem mergeLocConf_of_isSet (hconf : conf.IsSet)
    (h : mergeLocConf core lmcf prev conf = (conf', lmcf', none)) :
    conf'.logs = conf.logs ∧ conf'.off = conf.off := by
  rw [mergeLocConf, if_pos ((isSet_iff conf).2 hconf)] at h
  obtain rfl := congrArg Prod.fst h
  exact ⟨mergeCache_logs, mergeCache_off⟩

/-- A level that says nothing takes over what is said around it. -/
theorem mergeLocConf_of_not_isSet (hconf : ¬ conf.IsSet) (hprev : prev.IsSet)
    (h : mergeLocConf core lmcf prev conf = (conf', lmcf', none)) :
    conf'.logs = prev.logs ∧ conf'.off = prev.off := by
  rw [mergeLocConf, if_neg ((isSet_iff conf).not.2 hconf)] at h
  dsimp only at h
  rw [if_pos ((isSet_iff prev).2 hprev)] at h
  obtain rfl := congrArg Prod.fst h
  exact ⟨rfl, rfl⟩

theorem Configured.isSet {levels : List Level} (h : Configured levels conf) : conf.IsSet := by
  obtain ⟨_, own, -, -, hoff, hlogs, hset⟩ := h.nearest
  rw [LocConf.IsSet, hoff, hlogs]
  exact hset

theorem nearest_concat (levels : List Level) (level : Level) :
    nearest (levels ++ [level]) = if level.lines = [] then nearest levels else some level := by
  unfold nearest
  rw [List.reverse_append, List.reverse_singleton, List.singleton_append, List.find?_cons]
  cases level.lines <;> rfl

theorem nearest_eq_some {levels : List Level} {level : Level} (h : nearest levels = some level) :
    level ∈ levels ∧ level.lines ≠ [] := by
  refine ⟨List.mem_reverse.1 (List.mem_of_find?_eq_some h), fun hlines => ?_⟩
  have hsome := List.find?_some h
  rw [hlines] at hsome
  cases hsome

/-- A level with lines is configured by them. -/
theorem configured_of_lines (levels : List Level) {level : Level} {own : LocConf Entry}
    (hown : level.own = some own) (hlines : level.lines ≠ []) (hlogs : conf.logs = own.logs)
    (hoff : conf.off = own.off) : Configured (levels ++ [level]) conf := by
  obtain ⟨hdefined, hset⟩ := own_cases hown
  refine ⟨⟨level, own, ?_, hown, hoff, hlogs, hset.2 hlines⟩, ?_⟩
  · rw [nearest_concat, if_neg hlines]
  · rw [hlogs]
    exact hdefined

/-- **Merging keeps what is configured.** -/
theorem configured_merge {levels : List Level} {level : Level} {own : LocConf Entry}
    (hprev : (∃ l ∈ levels, l.lines ≠ []) → Configured levels prev) (hown : level.own = some own)
    (h : mergeLocConf core lmcf prev own = (conf', lmcf', none))
    (hlevels : ∃ l ∈ levels ++ [level], l.lines ≠ []) : Configured (levels ++ [level]) conf' := by
  obtain ⟨-, hset⟩ := own_cases hown
  by_cases hlines : level.lines = []
  · -- the level around it has lines, or one further out
    have houter : ∃ l ∈ levels, l.lines ≠ [] := by
      obtain ⟨l, hl, hne⟩ := hlevels
      rcases List.mem_append.1 hl with hl | hl
      · exact ⟨l, hl, hne⟩
      · rw [List.mem_singleton.1 hl] at hne
        exact absurd hlines hne
    have hconf := hprev houter
    obtain ⟨hlogs, hoff⟩ := mergeLocConf_of_not_isSet (hset.not.2 (not_not_intro hlines))
      hconf.isSet h
    obtain ⟨outer, outerOwn, hnearest, houterOwn, hoff', hlogs', hset'⟩ := hconf.nearest
    refine ⟨⟨outer, outerOwn, ?_, houterOwn, hoff.trans hoff', hlogs.trans hlogs', hset'⟩, ?_⟩
    · rw [nearest_concat, if_pos hlines]
      exact hnearest
    · rw [hlogs]
      exact hconf.defined
  · obtain ⟨hlogs, hoff⟩ := mergeLocConf_of_isSet (hset.2 hlines) h
    exact configured_of_lines _ hown hlines hlogs hoff

theorem configured_mergeInto (outer : List Level) {levels : List Level}
    (hprev : (∃ l ∈ outer, l.lines ≠ []) → Configured outer prev)
    (h : mergeInto prev levels = some conf)
    (hlevels : ∃ l ∈ outer ++ levels, l.lines ≠ []) : Configured (outer ++ levels) conf := by
  induction levels generalizing outer prev with
  | nil =>
    obtain rfl := Option.some.inj h
    rw [List.append_nil] at hlevels ⊢
    exact hprev hlevels
  | cons level levels ih =>
    rw [List.append_cons] at hlevels ⊢
    unfold mergeInto at h
    split at h
    · cases h
    · next own hown =>
      split at h
      · next conf₁ lmcf₁ hmerge => exact ih _ (configured_merge hprev hown hmerge) h hlevels
      · cases h

end Merging

/-- **When a location is configured.** For every accepted configuration, the
innermost of the levels is configured exactly when one of them has a
`new_access_log` line. -/
theorem configured_iff (http : Level) (levels : List Level) (conf : LocConf Entry)
    (h : effective http levels = some conf) :
    Configured (http :: levels) conf ↔ ∃ level ∈ http :: levels, level.lines ≠ [] := by
  constructor
  · intro hconf
    obtain ⟨level, own, hnearest, -⟩ := hconf.nearest
    exact ⟨level, nearest_eq_some hnearest⟩
  · intro hlevels
    unfold effective at h
    split at h
    · cases h
    · next own hown =>
      refine configured_mergeInto [http] (fun hhttp => ?_) h hlevels
      obtain ⟨l, hl, hlines⟩ := hhttp
      rw [List.mem_singleton.1 hl] at hlines
      exact configured_of_lines [] hown hlines rfl rfl

/-- A level with these lines, in a configuration that has the format
`combined` only. -/
def sampleLevel (lines : List (List Bytes)) : Level where
  lines := lines.map fun args => ⟨willing, ⟨[⟨ascii "combined", [], [], []⟩], false⟩, args⟩
  core := willing
  lmcf := ⟨[⟨ascii "combined", [], [], []⟩], false⟩

theorem configured_iff_sampleLevel :
    ∃ conf, effective (sampleLevel [[ascii "new_access_log", ascii "t", ascii "combined"]])
        [sampleLevel [], sampleLevel []] = some conf ∧
      (Configured [sampleLevel [[ascii "new_access_log", ascii "t", ascii "combined"]],
          sampleLevel [], sampleLevel []] conf ↔
        ∃ level ∈ [sampleLevel [[ascii "new_access_log", ascii "t", ascii "combined"]],
          sampleLevel [], sampleLevel []], level.lines ≠ []) :=
  ⟨_, rfl, configured_iff _ _ _ rfl⟩

/-- **A configuration without `new_access_log`.** The log of its location
has no topic name, no topic and no type that was ever written. -/
theorem effective_without_lines :
    (effective (sampleLevel []) [sampleLevel [], sampleLevel []]).map
        (fun conf => (conf.off, conf.logs.map
          (List.map fun log => (log.topicName, log.topic, log.opType)))) =
      some (false, some [(.undefined, .undefined, .undefined)]) :=
  rfl

end Config

end Nginx

end Xpod
