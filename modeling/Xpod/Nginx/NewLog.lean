import Mathlib.Data.List.Forall2
import Mathlib.Tactic
import Xpod.Common.Run
import Xpod.Nginx.Model.NewLog
/-!
# When an error silences the Kafka log

Two things of an earlier line can keep `ngx_new_log_module` from
producing a later one. The flag `run` of the produce function is static:
one error other than `ENOBUFS` clears it for the life of the process, for
every log and every topic. And `disk_full_time`, which the handler checks
to spare a full disk, skips the whole loop body, the produce call
included. A line is attempted exactly when neither stands in its way.
-/

namespace Xpod

namespace Nginx

/-- The broker took the message in the end. -/
def Answers.Accepts : Answers → Bool
  | accepted => true
  | failed => false
  | full next => next.Accepts
  | fullForever => false

namespace NewLog

/-! ## Producing -/

/-- No further message is produced: an error cleared `run`, or the loop
never ended. -/
def Static.Silent (s : Static) : Prop := s.run = false ∨ s.stuck = true

theorem produce_of_run_false {s : Static} (h : s.run = false) (topic payload : Bytes)
    (answers : Answers) : produce topic payload answers s = (s, []) := by
  cases answers <;> simp [produce, h]

variable {s : Static} (topic payload : Bytes)

/-- While `run` is set a message is produced at least once. -/
theorem mem_produce (h : s.run = true) (answers : Answers) :
    .produce topic payload ∈ (produce topic payload answers s).2 := by
  cases answers <;> simp [produce, h]

/-- An accepted message changes nothing. -/
theorem produce_of_accepts (h : s.run = true) {answers : Answers} (ha : answers.Accepts) :
    (produce topic payload answers s).1 = s := by
  induction answers with
  | accepted => simp [produce, h]
  | failed => simp [Answers.Accepts] at ha
  | full next ih => simpa [produce, h] using ih ha
  | fullForever => simp [Answers.Accepts] at ha

/-- A message that is not accepted is the last one. -/
theorem silent_of_not_accepts (h : s.run = true) {answers : Answers}
    (ha : answers.Accepts = false) : (produce topic payload answers s).1.Silent := by
  induction answers with
  | accepted => simp [Answers.Accepts] at ha
  | failed => simp [produce, h, Static.Silent]
  | full next ih => simpa [produce, h] using ih ha
  | fullForever => simp [produce, h, Static.Silent]

end NewLog

/-! ## The logs of a worker -/

/-- The times of a log apart, nothing in it changes. -/
structure Log.SameEntry (log log' : Log) : Prop where
  topicName : log'.topicName = log.topicName
  ops : log'.ops = log.ops
  opType : log'.opType = log.opType
  buffer : log'.buffer = log.buffer

theorem Log.sameEntry_noteResult (now : ℤ) (result : WriteResult) (log : Log) :
    log.SameEntry (log.noteResult now result) := by
  cases result <;> constructor <;> simp only [noteResult, logError] <;> split <;> rfl

theorem Log.diskFullTime_noteResult (now : ℤ) (result : WriteResult) (log : Log) :
    (log.noteResult now result).diskFullTime =
      if result = .noSpace then now else log.diskFullTime := by
  cases result <;> simp only [noteResult, logError] <;> split <;> simp_all

namespace NewLog

/-- One turn of the handler's loop: a request and the number of a log. -/
abbrev Visit : Type := LogEvent × ℕ

/-- The turns the handler makes for the requests, in order. -/
def visits (nelts : ℕ) (events : List LogEvent) : List Visit :=
  events.flatMap fun e => (List.range nelts).map (e, ·)

variable (entries : ℕ → Entry)

/-- The line of the request for the log. -/
def Visit.line (v : Visit) : Bytes := logLine v.1.request (entries v.2).ops

/-- How the broker answers to the line. -/
def Visit.answers (v : Visit) : Answers := (v.1.outcome v.2 0).produce

/-- The log has a file and writing the line to it fails with `ENOSPC`. -/
def Visit.FillsDisk (v : Visit) : Prop :=
  (entries v.2).opType = .sendTopicAndFile ∧ (v.1.outcome v.2 0).write = .noSpace

instance (v : Visit) : Decidable (Visit.FillsDisk entries v) :=
  inferInstanceAs (Decidable (_ ∧ _))

/-- The time of the last `ENOSPC` of log `l`, from `t` on. -/
def fullTime (l : ℕ) (t : ℤ) (before : List Visit) : ℤ :=
  before.foldl (fun t u => if u.2 = l ∧ u.FillsDisk entries then u.1.now else t) t

/-- **The line is produced**: among the effects of the turn is a call of
`rd_kafka_produce` with the log's topic and exactly the line. -/
def Attempted (v : Visit) (effects : List Effect) : Prop :=
  .produce (entries v.2).topicName (v.line entries) ∈ effects

instance (v : Visit) (effects : List Effect) : Decidable (Attempted entries v effects) :=
  inferInstanceAs (Decidable (_ ∈ _))

/-- A worker that no error has silenced yet. -/
structure Ready (w : Worker Static) : Prop where
  run : w.static.run = true
  stuck : w.static.stuck = false
  entry : ∀ l, (setLog (entries l)).SameEntry (w.logs l)

/-- One turn, as a step of the worker. -/
def step (w : Worker Static) (v : Visit) : Worker Static × List Effect := newLog.visit v.1 w v.2

variable {entries} {w : Worker Static} {v : Visit}

/-! ## What one turn does -/

theorem step_of_full (h : v.1.now = (w.logs v.2).diskFullTime) : step w v = (w, []) := by
  simp [step, LogModule.visit, h]

/-- The call of `write` for the line. -/
def written (entries : ℕ → Entry) (w : Worker Static) (v : Visit) : Static × Log × List Effect :=
  newLog.write v.1.now (v.1.outcome v.2 0) (v.line entries) w.static (w.logs v.2)

theorem step_of_ready (hw : Ready entries w) (h : v.1.now ≠ (w.logs v.2).diskFullTime) :
    step w v =
      ({ w with
          static := (written entries w v).1
          logs := Function.update w.logs v.2 (written entries w v).2.1 },
        (written entries w v).2.2) := by
  have hstuck : newLog.stuck w.static = false := hw.stuck
  have hbuf : (w.logs v.2).buffer = none := (hw.entry v.2).buffer
  have hops : (w.logs v.2).ops = (entries v.2).ops := (hw.entry v.2).ops
  simp only [step, LogModule.visit, LogModule.logLineTo, hstuck, h, hbuf, hops, written,
    Visit.line, Bool.false_eq_true, if_false]

theorem write_static (now : ℤ) (o : Outcome) (buf : Bytes) (s : Static) (log : Log) :
    (newLog.write now o buf s log).1 = (produce log.topicName buf o.produce s).1 := by
  simp only [LogModule.write]
  split <;> rfl

theorem subset_write (now : ℤ) (o : Outcome) (buf : Bytes) (s : Static) (log : Log) :
    (produce log.topicName buf o.produce s).2 ⊆ (newLog.write now o buf s log).2.2 := by
  simp only [LogModule.write]
  split
  · exact List.Subset.refl _
  · exact List.subset_append_left _ _

/-- Behind an accepted message the file's answer is noted, if there is a
file. -/
theorem write_log_of_accepts {now : ℤ} {o : Outcome} {buf : Bytes} {s : Static} {log : Log}
    (hrun : s.run = true) (hstuck : s.stuck = false) (ho : o.produce.Accepts) :
    (newLog.write now o buf s log).2.1 =
      if log.opType = .sendTopicAndFile then log.noteResult now o.write else log := by
  have hs : (newLog.produce log.topicName buf o.produce s).1 = s :=
    produce_of_accepts _ _ hrun ho
  have hnot : newLog.stuck (newLog.produce log.topicName buf o.produce s).1 = false := by
    rw [hs]
    exact hstuck
  simp only [LogModule.write, hnot, Bool.false_or]
  by_cases hfile : log.opType = .sendTopicAndFile
  · simp [newLog, hfile]
  · simp [newLog, hfile]

/-- **A ready worker attempts a line unless its log's disk is full.** -/
theorem attempted_step_iff (hw : Ready entries w) :
    Attempted entries v (step w v).2 ↔ v.1.now ≠ (w.logs v.2).diskFullTime := by
  constructor
  · intro h hfull
    rw [step_of_full hfull] at h
    exact List.not_mem_nil h
  · intro h
    have htopic : (w.logs v.2).topicName = (entries v.2).topicName := (hw.entry v.2).topicName
    rw [step_of_ready hw h]
    refine subset_write _ _ _ _ _ ?_
    rw [htopic]
    exact mem_produce _ _ hw.run _

section Accepted

variable (hw : Ready entries w) (h : v.1.now ≠ (w.logs v.2).diskFullTime)
  (ha : v.answers.Accepts)

include hw h ha

/-- An accepted line leaves the static variables alone and notes the
file's answer in its own log. -/
theorem step_of_accepts :
    (step w v).1.static = w.static ∧
      (step w v).1.logs = Function.update w.logs v.2
        (if (entries v.2).opType = .sendTopicAndFile
          then (w.logs v.2).noteResult v.1.now (v.1.outcome v.2 0).write else w.logs v.2) := by
  have htype : (w.logs v.2).opType = (entries v.2).opType := (hw.entry v.2).opType
  rw [step_of_ready hw h]
  refine ⟨?_, ?_⟩
  · exact (write_static _ _ _ _ _).trans (produce_of_accepts _ _ hw.run ha)
  · rw [← htype]
    exact congrArg (Function.update w.logs v.2) (write_log_of_accepts hw.run hw.stuck ha)

theorem ready_step : Ready entries (step w v).1 := by
  obtain ⟨hstatic, hlogs⟩ := step_of_accepts hw h ha
  refine ⟨hstatic ▸ hw.run, hstatic ▸ hw.stuck, fun l => ?_⟩
  rw [hlogs]
  by_cases hl : l = v.2
  · subst hl
    rw [Function.update_self]
    split
    · have hnote := Log.sameEntry_noteResult v.1.now (v.1.outcome v.2 0).write (w.logs v.2)
      have hentry := hw.entry v.2
      exact ⟨hnote.topicName.trans hentry.topicName, hnote.ops.trans hentry.ops,
        hnote.opType.trans hentry.opType, hnote.buffer.trans hentry.buffer⟩
    · exact hw.entry v.2
  · rw [Function.update_of_ne hl]
    exact hw.entry l

theorem diskFullTime_step (l : ℕ) :
    ((step w v).1.logs l).diskFullTime =
      if v.2 = l ∧ v.FillsDisk entries then v.1.now else (w.logs l).diskFullTime := by
  rw [(step_of_accepts hw h ha).2]
  by_cases hl : l = v.2
  · subst hl
    rw [Function.update_self]
    by_cases hfile : (entries v.2).opType = .sendTopicAndFile
    · simp [hfile, Visit.FillsDisk, Log.diskFullTime_noteResult]
    · simp [hfile, Visit.FillsDisk]
  · rw [Function.update_of_ne hl, if_neg fun hc => hl hc.1.symm]

end Accepted

/-- A line that is not accepted silences the worker. -/
theorem silent_step (hw : Ready entries w) (h : v.1.now ≠ (w.logs v.2).diskFullTime)
    (ha : v.answers.Accepts = false) : (step w v).1.static.Silent := by
  rw [step_of_ready hw h]
  change (written entries w v).1.Silent
  rw [written, write_static]
  exact silent_of_not_accepts _ _ hw.run ha

/-- A silenced worker attempts nothing: at most the file is written. -/
theorem not_attempted_of_silent (hs : w.static.Silent) (hbuf : (w.logs v.2).buffer = none) :
    ¬ Attempted entries v (step w v).2 := by
  intro hmem
  by_cases hstuck : newLog.stuck w.static = true
  · simp [step, LogModule.visit, hstuck, Attempted] at hmem
  by_cases hfull : v.1.now = (w.logs v.2).diskFullTime
  · rw [step_of_full hfull] at hmem
    exact List.not_mem_nil hmem
  have hrun : w.static.run = false := hs.resolve_right hstuck
  have hcall : ∀ t p a, newLog.produce t p a w.static = (w.static, []) :=
    fun t p a => produce_of_run_false hrun t p a
  simp only [Attempted, step, LogModule.visit, LogModule.logLineTo, LogModule.write, hstuck, hfull,
    hbuf, hcall, if_false, Bool.false_eq_true] at hmem
  split at hmem <;> simp at hmem

theorem write_buffer (now : ℤ) (o : Outcome) (buf : Bytes) (s : Static) (log : Log) :
    (newLog.write now o buf s log).2.1.buffer = log.buffer := by
  simp only [LogModule.write]
  split
  · rfl
  · exact (Log.sameEntry_noteResult now o.write log).buffer

/-- Directives give no buffer and no turn adds one. -/
theorem buffer_step (hw : Ready entries w) (h : v.1.now ≠ (w.logs v.2).diskFullTime) (l : ℕ) :
    ((step w v).1.logs l).buffer = none := by
  rw [step_of_ready hw h]
  change (Function.update w.logs v.2 (written entries w v).2.1 l).buffer = none
  by_cases hl : l = v.2
  · subst hl
    rw [Function.update_self, written, write_buffer]
    exact (hw.entry v.2).buffer
  · rw [Function.update_of_ne hl]
    exact (hw.entry l).buffer

/-! ## Runs -/

/-- **What may not have gone before a line**: every earlier line was
accepted by the broker in the end, and the clock does not show the second
in which the line's own log last ran out of space. `start` gives the times
the logs begin with. -/
def Unhindered (entries : ℕ → Entry) (start : ℕ → ℤ) (before : List Visit) (v : Visit) : Prop :=
  (∀ u ∈ before, u.answers.Accepts) ∧ v.1.now ≠ fullTime entries v.2 (start v.2) before

theorem unhindered_cons {start : ℕ → ℤ} {u : Visit} {before : List Visit} :
    Unhindered entries start (u :: before) v ↔ u.answers.Accepts ∧
      Unhindered entries
        (fun l => if u.2 = l ∧ u.FillsDisk entries then u.1.now else start l) before v := by
  simp only [Unhindered, fullTime, List.foldl_cons, List.forall_mem_cons, and_assoc]

/-- Every line of the list has nothing in its way. -/
def AllUnhindered (entries : ℕ → Entry) (start : ℕ → ℤ) (vs : List Visit) : Prop :=
  ∀ before v after, vs = before ++ v :: after → Unhindered entries start before v

theorem allUnhindered_cons {start : ℕ → ℤ} {vs : List Visit} :
    AllUnhindered entries start (v :: vs) ↔ v.1.now ≠ start v.2 ∧
      (vs ≠ [] → v.answers.Accepts) ∧ AllUnhindered entries
        (fun l => if v.2 = l ∧ v.FillsDisk entries then v.1.now else start l) vs := by
  constructor
  · intro h
    refine ⟨(h [] v vs rfl).2, fun hne => ?_, fun before u after hvs => ?_⟩
    · obtain ⟨u, us, rfl⟩ := List.exists_cons_of_ne_nil hne
      exact (unhindered_cons.1 (h [v] u us rfl)).1
    · exact (unhindered_cons.1 (h (v :: before) u after (by rw [hvs]; rfl))).2
  · rintro ⟨hnow, haccept, hrest⟩ before u after hvs
    rcases before with - | ⟨b, before⟩
    · obtain ⟨rfl, -⟩ := List.cons.inj hvs
      exact ⟨fun _ hu => absurd hu List.not_mem_nil, hnow⟩
    · obtain ⟨rfl, rfl⟩ := List.cons.inj hvs
      exact unhindered_cons.2 ⟨haccept (by simp), hrest before u after rfl⟩

/-- **A ready worker attempts every line of a run exactly when nothing is
in the way of any.** -/
theorem attempted_run_iff (hw : Ready entries w) (vs : List Visit) :
    List.Forall₂ (Attempted entries) vs (Run.run step w vs).2 ↔
      AllUnhindered entries (fun l => (w.logs l).diskFullTime) vs := by
  induction vs generalizing w with
  | nil =>
    refine ⟨fun _ before v after h => ?_, fun _ => List.Forall₂.nil⟩
    simp at h
  | cons v vs ih =>
    rw [Run.run_cons, List.forall₂_cons, allUnhindered_cons, attempted_step_iff hw]
    refine and_congr_right fun hnow => ?_
    cases ha : v.answers.Accepts with
    | true =>
      rw [ih (ready_step hw hnow ha)]
      simp only [diskFullTime_step hw hnow ha]
      simp
    | false =>
      -- the worker is silent from here on, so no further line may follow
      rcases vs with - | ⟨u, vs⟩
      · simp [AllUnhindered]
      · have hsilent := silent_step hw hnow ha
        rw [Run.run_cons, List.forall₂_cons]
        refine ⟨fun h => absurd h.1 ?_, fun h => absurd (h.1 (by simp)) (by simp)⟩
        exact not_attempted_of_silent hsilent (buffer_step hw hnow u.2)

/-! ## Serving requests -/

/-- `ngx_new_log_handler` for one request after the other. -/
def serve (w : Worker Static) (events : List LogEvent) :
    Worker Static × List (List (List Effect)) :=
  Run.run handler w events

theorem visit_nelts (e : LogEvent) (w : Worker Static) (l : ℕ) :
    (newLog.visit e w l).1.nelts = w.nelts ∧ (newLog.visit e w l).1.off = w.off := by
  simp only [LogModule.visit]
  split
  · exact ⟨rfl, rfl⟩
  · split <;> exact ⟨rfl, rfl⟩

/-- The location has `n` logs and logging is not off. -/
structure HasLogs (n : ℕ) (w : Worker Static) : Prop where
  nelts : w.nelts = n
  off : w.off = false

theorem hasLogs_step {n : ℕ} (hn : HasLogs n w) (v : Visit) : HasLogs n (step w v).1 :=
  ⟨(visit_nelts v.1 w v.2).1.trans hn.nelts, (visit_nelts v.1 w v.2).2.trans hn.off⟩

/-- The handler's loop goes over the logs of its request. -/
theorem handler_eq {n : ℕ} (hn : HasLogs n w) (e : LogEvent) :
    handler w e = Run.run step w ((List.range n).map (e, ·)) := by
  rw [handler, LogModule.handler, hn.nelts, hn.off, if_neg (by simp), Run.run_map]
  rfl

/-- Serving requests is making their turns one after the other. -/
theorem serve_flatten {n : ℕ} (hn : HasLogs n w) (events : List LogEvent) :
    (serve w events).2.flatten = (Run.run step w (visits n events)).2 := by
  have hkeep : ∀ w e, HasLogs n w → HasLogs n (handler w e).1 := by
    intro w e hw
    rw [handler_eq hw]
    exact Run.run_keeps step (HasLogs n) (fun w v hw => hasLogs_step hw v) hw _
  rw [serve, visits, Run.run_flatMap, Run.run_congr hkeep (fun w e hw => handler_eq hw e) hn]

/-- **Each request is attempted for each log**: the turns' effects hold, in
order, a produce call with exactly the turn's line. -/
def AttemptsAll (entries : ℕ → Entry) (nelts : ℕ) (events : List LogEvent) : Prop :=
  List.Forall₂ (Attempted entries) (visits nelts events)
    (serve (init entries nelts) events).2.flatten

/-- A directive with a topic and a file, and a format without variables. -/
def sampleEntry : Entry :=
  ⟨ascii "access", .sendTopicAndFile, [.literal (ascii "hit")]⟩

/-- A request in second `now`, answered alike for every log. -/
def sampleEvent (now : ℤ) (outcome : Outcome) : LogEvent :=
  ⟨now, { getIndexedVariable := fun _ => none }, fun _ _ => outcome⟩

end NewLog

end Nginx

end Xpod
