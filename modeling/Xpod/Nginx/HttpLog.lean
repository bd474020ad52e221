import Mathlib.Data.List.Range
import Mathlib.Tactic
import Xpod.Common.Run
import Xpod.Nginx.Model.HttpLog
/-!
# Which lines reach the file and which reach Kafka

Every line reaches the file once and in order, by whichever of the four
ways it leaves the process: what was written and what the buffer holds
make up the lines so far. None reaches Kafka: the produce loop asks for
`cnt > 3` where `cnt` begins at 0, so its body is never entered.
-/

namespace Xpod

namespace Nginx

/-- The bytes handed to `rd_kafka_produce`. -/
def payloads (effects : List Effect) : Bytes :=
  effects.flatMap fun
    | .produce _ payload => payload
    | .file _ _ _ => []

/-- The bytes handed to the log file. -/
def fileText (effects : List Effect) : Bytes :=
  effects.flatMap fun
    | .produce _ _ => []
    | .file _ bytes _ => bytes

@[simp] theorem payloads_append (a b : List Effect) :
    payloads (a ++ b) = payloads a ++ payloads b := List.flatMap_append

@[simp] theorem fileText_append (a b : List Effect) :
    fileText (a ++ b) = fileText a ++ fileText b := List.flatMap_append

/-- What a log's buffer holds. -/
def Log.held (log : Log) : Bytes := (log.buffer.map LogBuf.held).getD []

namespace HttpLog

/-- **The produce loop is never entered.** -/
@[simp] theorem produce_eq_nil (topic payload : Bytes) (answers : Answers) :
    produce topic payload answers = [] := by
  cases answers <;> rfl

/-- So `write` is writing to the file. -/
theorem write_eq (now : ℤ) (o : Outcome) (buf : Bytes) (log : Log) :
    httpLog.write now o buf () log =
      ((), log.noteResult now o.write, [.file log.gzip buf o.write]) := by
  simp [LogModule.write, httpLog]

/-! ## One log by itself -/

/-- The handler's turn for one log. -/
def turn (e : LogEvent) (l : ℕ) (log : Log) : Log × List Effect :=
  if e.now = log.diskFullTime then (log, [])
  else (httpLog.logLineTo e.now (e.outcome l) (lineLen e.request log.ops)
    (logLine e.request log.ops) () log).2

/-- What an event does to log `l`. -/
def logStep (l : ℕ) (log : Log) : Event → Log × List Effect
  | .request e => turn e l log
  | .timer k result => if l = k then flush result log else (log, [])

theorem visit_eq (e : LogEvent) (w : Worker Unit) (l : ℕ) :
    httpLog.visit e w l =
      ({ w with logs := Function.update w.logs l (turn e l (w.logs l)).1 },
        (turn e l (w.logs l)).2) := by
  have hstuck : httpLog.stuck w.static = false := rfl
  simp only [LogModule.visit, turn, hstuck, Bool.false_eq_true, if_false]
  split
  · simp
  · rfl

/-- The turns of different logs do not meet. -/
theorem run_visit (e : LogEvent) (w : Worker Unit) {ls : List ℕ} (hls : ls.Nodup) :
    Run.run (httpLog.visit e) w ls =
      ({ w with logs := fun l => if l ∈ ls then (turn e l (w.logs l)).1 else w.logs l },
        ls.map fun l => (turn e l (w.logs l)).2) := by
  induction ls generalizing w with
  | nil => simp
  | cons l ls ih =>
    obtain ⟨hl, hls⟩ := List.nodup_cons.1 hls
    rw [Run.run_cons, visit_eq, ih _ hls]
    have hother : ∀ k ∈ ls, Function.update w.logs l (turn e l (w.logs l)).1 k = w.logs k :=
      fun k hk => Function.update_of_ne (fun h : k = l => hl (h ▸ hk)) _ _
    refine Prod.ext ?_ ?_
    · dsimp only
      congr 1
      funext k
      by_cases hk : k ∈ ls
      · simp [hk, hother k hk]
      · by_cases hkl : k = l
        · subst hkl
          simp [hk]
        · simp [hk, hkl]
    · dsimp only
      rw [List.map_cons, List.map_congr_left fun k hk => by rw [hother k hk]]

/-- The location has `n` logs and logging is not off. -/
structure HasLogs (n : ℕ) (w : Worker Unit) : Prop where
  nelts : w.nelts = n
  off : w.off = false

theorem handler_eq {n : ℕ} {w : Worker Unit} (hn : HasLogs n w) (e : LogEvent) :
    handler w e =
      ({ w with logs := fun l => if l ∈ List.range n then (turn e l (w.logs l)).1 else w.logs l },
        (List.range n).map fun l => (turn e l (w.logs l)).2) := by
  obtain ⟨rfl, hoff⟩ := hn
  rw [handler, LogModule.handler, if_neg (by simp [hoff]), run_visit e w List.nodup_range]

theorem hasLogs_step {n : ℕ} {w : Worker Unit} (hn : HasLogs n w) (ev : Event) :
    HasLogs n (step w ev).1 := by
  cases ev with
  | request e =>
    rw [step, handler_eq hn]
    exact ⟨hn.nelts, hn.off⟩
  | timer l result => exact ⟨hn.nelts, hn.off⟩

/-- **A log is on its own**: an event does to it what it would do to a log
that is alone. -/
theorem step_log {n : ℕ} {w : Worker Unit} (hn : HasLogs n w) {l : ℕ} (hl : l < n) (ev : Event) :
    ((step w ev).1.logs l, (step w ev).2 l) = logStep l (w.logs l) ev := by
  cases ev with
  | request e =>
    have hmem : l ∈ List.range n := List.mem_range.2 hl
    simp only [step, logStep, handler_eq hn, if_pos hmem]
    refine Prod.ext rfl ?_
    simp [List.getD_eq_getElem?_getD, hl]
  | timer k result =>
    by_cases hk : l = k
    · subst hk
      simp [step, logStep]
    · simp [step, logStep, hk]

theorem run_log {n : ℕ} {w : Worker Unit} (hn : HasLogs n w) {l : ℕ} (hl : l < n)
    (events : List Event) :
    (Run.run step w events).1.logs l = (Run.run (logStep l) (w.logs l) events).1 ∧
      ((Run.run step w events).2.flatMap fun out => out l) =
        (Run.run (logStep l) (w.logs l) events).2.flatten := by
  induction events generalizing w with
  | nil => exact ⟨rfl, rfl⟩
  | cons ev events ih =>
    obtain ⟨hlogs, houts⟩ := ih (hasLogs_step hn ev)
    obtain ⟨hlog, hout⟩ := Prod.ext_iff.1 (step_log hn hl ev)
    dsimp only at hlog hout
    rw [hlog] at hlogs houts
    refine ⟨hlogs, ?_⟩
    simp only [Run.run_cons, List.flatMap_cons, List.flatten_cons, houts, hout]

/-! ## What a turn does -/

section Turn

variable {e : LogEvent} {l : ℕ} {log : Log} (hnow : e.now ≠ log.diskFullTime)

include hnow

/-- Without a buffer the line is written. -/
theorem turn_of_none (hb : log.buffer = none) :
    turn e l log = (log.noteResult e.now (e.outcome l 0).write,
      [.file log.gzip (logLine e.request log.ops) (e.outcome l 0).write]) := by
  simp only [turn, if_neg hnow, LogModule.logLineTo, hb, write_eq]

variable {b : LogBuf} (hb : log.buffer = some b)

include hb

/-- While there is room the line joins the buffer. -/
theorem turn_of_room (hroom : lineLen e.request log.ops ≤ b.size - b.held.length) :
    turn e l log =
      ({ log with buffer := some (LogModule.append b (logLine e.request log.ops)) }, []) := by
  have hstuck : httpLog.stuck () = false := rfl
  simp only [turn, if_neg hnow, LogModule.logLineTo, hb, if_neg (not_lt.2 hroom), hstuck,
    Bool.false_eq_true, if_false, if_pos hroom]

/-- Without room the buffer is written first. -/
theorem turn_of_flush (hroom : b.size - b.held.length < lineLen e.request log.ops)
    (hfit : lineLen e.request log.ops ≤ b.size) :
    turn e l log =
      ({ log.noteResult e.now (e.outcome l 0).write with
          buffer := some (LogModule.append { b with held := [] } (logLine e.request log.ops)) },
        [.file log.gzip b.held (e.outcome l 0).write]) := by
  have hstuck : httpLog.stuck () = false := rfl
  simp only [turn, if_neg hnow, LogModule.logLineTo, hb, if_pos hroom, hstuck, write_eq,
    Bool.false_eq_true, if_false, List.length_nil, Nat.sub_zero, if_pos hfit]

/-- A line that does not fit into the empty buffer is written behind what
the buffer held. -/
theorem turn_of_long (hfit : b.size < lineLen e.request log.ops) :
    turn e l log =
      (Log.noteResult e.now (e.outcome l 1).write
          { log.noteResult e.now (e.outcome l 0).write with
            buffer := some { b with held := [], timerSet := false } },
        [.file log.gzip b.held (e.outcome l 0).write,
          .file b.gzip (logLine e.request log.ops) (e.outcome l 1).write]) := by
  have hstuck : httpLog.stuck () = false := rfl
  have hroom : b.size - b.held.length < lineLen e.request log.ops := by omega
  simp only [turn, if_neg hnow, LogModule.logLineTo, hb, if_pos hroom, hstuck, write_eq,
    Bool.false_eq_true, if_false, List.length_nil, Nat.sub_zero, if_neg (not_le.2 hfit)]
  rfl

end Turn

/-! ## The two sinks of one log -/

/-- The broker and the disk take everything. -/
def Event.Succeeds : Event → Prop
  | .request e => ∀ l k, e.outcome l k = ⟨.accepted, .complete⟩
  | .timer _ result => result = .complete

/-- The line an event adds to a log with these operations. -/
def Event.line (ops : List Op) : Event → Bytes
  | .request e => logLine e.request ops
  | .timer _ _ => []

/-- The event is not a request in the second of a full disk. -/
def Event.NotAt (t : ℤ) : Event → Prop
  | .request e => e.now ≠ t
  | .timer _ _ => True

/-- What an event leaves as it was. -/
structure SameLog (log log' : Log) : Prop where
  ops : log'.ops = log.ops
  diskFullTime : log'.diskFullTime = log.diskFullTime

/-- The flush hands the buffer to the file and to nobody else. -/
theorem flush_sinks (result : WriteResult) (log : Log) :
    payloads (flush result log).2 = [] ∧
      fileText (flush result log).2 ++ (flush result log).1.held = log.held ∧
      SameLog log (flush result log).1 := by
  rcases hb : log.buffer with - | b
  · simp only [flush, hb]
    exact ⟨rfl, rfl, rfl, rfl⟩
  by_cases hempty : b.held.isEmpty
  · simp only [flush, hb, hempty, if_true]
    exact ⟨rfl, rfl, rfl, rfl⟩
  · simp only [flush, hb, hempty, if_false, Bool.false_eq_true]
    exact ⟨rfl, by simp [fileText, Log.held, hb], rfl, rfl⟩

/-- **Nothing is produced**, whatever way a line takes. -/
theorem payloads_logStep (l : ℕ) (log : Log) (ev : Event) : payloads (logStep l log ev).2 = [] := by
  cases ev with
  | request e =>
    by_cases hnow : e.now = log.diskFullTime
    · simp [logStep, turn, hnow, payloads]
    rcases hb : log.buffer with - | b
    · rw [logStep, turn_of_none hnow hb]
      rfl
    by_cases hroom : lineLen e.request log.ops ≤ b.size - b.held.length
    · rw [logStep, turn_of_room hnow hb hroom]
      rfl
    by_cases hfit : lineLen e.request log.ops ≤ b.size
    · rw [logStep, turn_of_flush hnow hb (not_le.1 hroom) hfit]
      rfl
    · rw [logStep, turn_of_long hnow hb (not_le.1 hfit)]
      rfl
  | timer k result =>
    by_cases hk : l = k
    · rw [logStep, if_pos hk]
      exact (flush_sinks result log).1
    · rw [logStep, if_neg hk]
      rfl

/-- **A log loses and doubles nothing**: what an event writes to the file
and what is in the buffer behind it are what the buffer held and the new
line. -/
theorem fileText_logStep {l : ℕ} {log : Log} {ev : Event} (hok : ev.Succeeds)
    (hnow : ev.NotAt log.diskFullTime) :
    fileText (logStep l log ev).2 ++ (logStep l log ev).1.held = log.held ++ ev.line log.ops ∧
      SameLog log (logStep l log ev).1 := by
  cases ev with
  | request e =>
    have h0 : (e.outcome l 0).write = .complete := by rw [hok l 0]
    have h1 : (e.outcome l 1).write = .complete := by rw [hok l 1]
    rcases hb : log.buffer with - | b
    · rw [logStep, turn_of_none hnow hb, h0]
      exact ⟨by simp [fileText, Log.held, hb, Log.noteResult, Event.line], rfl, rfl⟩
    have hheld : log.held = b.held := by simp [Log.held, hb]
    rw [hheld]
    by_cases hroom : lineLen e.request log.ops ≤ b.size - b.held.length
    · rw [logStep, turn_of_room hnow hb hroom]
      exact ⟨rfl, rfl, rfl⟩
    by_cases hfit : lineLen e.request log.ops ≤ b.size
    · rw [logStep, turn_of_flush hnow hb (not_le.1 hroom) hfit, h0]
      exact ⟨by simp [fileText, Log.held, LogModule.append, Event.line], rfl, rfl⟩
    · rw [logStep, turn_of_long hnow hb (not_le.1 hfit), h0, h1]
      exact ⟨by simp [fileText, Log.held, Log.noteResult, Event.line], rfl, rfl⟩
  | timer k result =>
    rw [Event.line, List.append_nil]
    by_cases hk : l = k
    · rw [logStep, if_pos hk]
      exact (flush_sinks result log).2
    · rw [logStep, if_neg hk]
      exact ⟨rfl, rfl, rfl⟩

theorem payloads_run (l : ℕ) (log : Log) (events : List Event) :
    payloads (Run.run (logStep l) log events).2.flatten = [] := by
  induction events generalizing log with
  | nil => rfl
  | cons ev events ih =>
    rw [Run.run_cons, List.flatten_cons, payloads_append, payloads_logStep, ih, List.append_nil]

theorem fileText_run {l : ℕ} {log : Log} {events : List Event}
    (hok : ∀ ev ∈ events, ev.Succeeds) (hnow : ∀ ev ∈ events, ev.NotAt log.diskFullTime) :
    fileText (Run.run (logStep l) log events).2.flatten ++
        (Run.run (logStep l) log events).1.held =
      log.held ++ events.flatMap (Event.line log.ops) := by
  induction events generalizing log with
  | nil => simp [fileText]
  | cons ev events ih =>
    obtain ⟨hok₁, hok⟩ := List.forall_mem_cons.1 hok
    obtain ⟨hnow₁, hnow⟩ := List.forall_mem_cons.1 hnow
    obtain ⟨htext, hsame⟩ := fileText_logStep (l := l) hok₁ hnow₁
    rw [← hsame.diskFullTime] at hnow
    have hrest := ih hok hnow
    rw [hsame.ops] at hrest
    rw [Run.run_cons, List.flatten_cons, fileText_append, List.append_assoc, hrest,
      ← List.append_assoc, htext, List.append_assoc, List.flatMap_cons]

/-! ## The two sinks of a worker -/

section Sinks

variable (directives : ℕ → Directive) (nelts : ℕ) (events : List Event)

/-- The worker and the effects of each event, for requests and timers in
any order. -/
def serve : Worker Unit × List (ℕ → List Effect) := Run.run step (init directives nelts) events

/-- The effects for log `l`, in order. -/
def effects (l : ℕ) : List Effect := (serve directives nelts events).2.flatMap fun out => out l

/-- The lines of all requests for log `l`, in order. -/
def lines (l : ℕ) : Bytes := events.flatMap (Event.line (directives l).ops)

/-- No buffer holds anything. -/
def Flushed : Prop := ∀ l < nelts, ((serve directives nelts events).1.logs l).held = []

/-- **Every line reached both sinks**, once and in order. -/
def BothSinks : Prop :=
  ∀ l < nelts,
    payloads (effects directives nelts events l) = fileText (effects directives nelts events l) ∧
      fileText (effects directives nelts events l) = lines directives events l

def Event.IsRequest : Event → Prop
  | .request _ => True
  | .timer _ _ => False

variable {directives nelts events}

theorem payloads_effects {l : ℕ} (hl : l < nelts) :
    payloads (effects directives nelts events l) = [] := by
  have hlogs : HasLogs nelts (init directives nelts) := ⟨rfl, rfl⟩
  rw [effects, serve, (run_log hlogs hl events).2, payloads_run]

theorem fileText_effects (hok : ∀ ev ∈ events, ev.Succeeds) (hnow : ∀ ev ∈ events, ev.NotAt 0)
    (hempty : Flushed directives nelts events) {l : ℕ} (hl : l < nelts) :
    fileText (effects directives nelts events l) = lines directives events l := by
  have hlogs : HasLogs nelts (init directives nelts) := ⟨rfl, rfl⟩
  have hrun : _ = (setLog (directives l)).held ++ lines directives events l :=
    fileText_run (l := l) hok hnow
  have hheld := hempty l hl
  rw [serve, (run_log hlogs hl events).1] at hheld
  have hstart : (setLog (directives l)).held = [] := by
    unfold setLog Log.held
    cases (directives l).size <;> rfl
  change (Run.run (logStep l) (setLog (directives l)) events).1.held = [] at hheld
  rw [hheld, hstart, List.append_nil, List.nil_append] at hrun
  rw [effects, serve, (run_log hlogs hl events).2]
  exact hrun

theorem lines_ne_nil {l : ℕ} {e : LogEvent} (he : .request e ∈ events) :
    lines directives events l ≠ [] := by
  intro hnil
  have hline := List.flatMap_eq_nil_iff.1 hnil _ he
  simp [Event.line, logLine, linefeed] at hline

end Sinks

/-- **The file gets every line and Kafka none.** For every sequence of
requests and flush timers and every buffer, when produce calls and file
writes succeed and once the buffers are empty: the file holds the lines of
all requests in order (outside second 0, which a log's `disk_full_time`
begins with), nothing was handed to `rd_kafka_produce`, and so every line
reached both sinks exactly if there was none. -/
theorem handler_both_sinks_iff (directives : ℕ → Directive) (nelts : ℕ) (events : List Event)
    (hok : ∀ ev ∈ events, ev.Succeeds) (hempty : Flushed directives nelts events) :
    ((∀ ev ∈ events, ev.NotAt 0) → ∀ l < nelts,
        fileText (effects directives nelts events l) = lines directives events l) ∧
      (∀ l < nelts, payloads (effects directives nelts events l) = []) ∧
      (BothSinks directives nelts events ↔
        nelts = 0 ∨ ∀ ev ∈ events, ¬ ev.IsRequest) := by
  refine ⟨fun hnow l hl => fileText_effects hok hnow hempty hl, fun l hl => payloads_effects hl,
    fun h => ?_, fun h l hl => ?_⟩
  · refine or_iff_not_imp_left.2 fun hn ev hev hreq => ?_
    obtain ⟨hpay, hfile⟩ := h 0 (Nat.pos_of_ne_zero hn)
    rw [payloads_effects (Nat.pos_of_ne_zero hn)] at hpay
    cases ev with
    | request e => exact lines_ne_nil hev (hpay.trans hfile).symm
    | timer k result => exact hreq
  · have hnone := h.resolve_left (by omega)
    have hnow : ∀ ev ∈ events, ev.NotAt 0 := by
      intro ev hev
      cases ev with
      | request e => exact absurd trivial (hnone _ hev)
      | timer k result => trivial
    have hfile := fileText_effects hok hnow hempty hl
    have hlines : lines directives events l = [] := by
      refine List.flatMap_eq_nil_iff.2 fun ev hev => ?_
      cases ev with
      | request e => exact absurd trivial (hnone _ hev)
      | timer k result => rfl
    exact ⟨by rw [payloads_effects hl, hfile, hlines], hfile⟩

/-- A log with a constant line of four bytes and a buffer of six. -/
def sampleDirective : Directive where
  topicName := ascii "access"
  ops := [.literal (ascii "hit")]
  size := some 6
  flush := true

/-- A request that everything succeeds for. -/
def sampleRequest : Event :=
  .request ⟨100, { getIndexedVariable := fun _ => none }, fun _ _ => ⟨.accepted, .complete⟩⟩

theorem succeeds_sampleRequest : sampleRequest.Succeeds := fun _ _ => rfl

/-- Two requests, of which the second flushes the first one's line, and the
timer. -/
def sampleRun : List Event := [sampleRequest, sampleRequest, .timer 0 .complete]

/-- The run with both flushes: the file has both lines, the broker none. -/
theorem both_sinks_sampleRun :
    (∀ ev ∈ sampleRun, ev.Succeeds) ∧ Flushed (fun _ => sampleDirective) 1 sampleRun ∧
      fileText (effects (fun _ => sampleDirective) 1 sampleRun 0) = ascii "hit\nhit\n" ∧
      payloads (effects (fun _ => sampleDirective) 1 sampleRun 0) = [] := by
  have hok : ∀ ev ∈ sampleRun, ev.Succeeds := by
    simp only [sampleRun, List.forall_mem_cons]
    exact ⟨succeeds_sampleRequest, succeeds_sampleRequest, rfl, by simp⟩
  have hempty : Flushed (fun _ => sampleDirective) 1 sampleRun := by
    unfold Flushed
    decide
  have hsinks := handler_both_sinks_iff (fun _ => sampleDirective) 1 sampleRun hok hempty
  have hnow : ∀ ev ∈ sampleRun, ev.NotAt 0 := by
    simp [sampleRun, sampleRequest, Event.NotAt]
  exact ⟨hok, hempty, (hsinks.1 hnow 0 one_pos).trans (by decide), hsinks.2.1 0 one_pos⟩

/-- **One request is enough to miss**: its line is in the file and was
never handed to `rd_kafka_produce`. -/
theorem handler_misses_kafka :
    sampleRequest.Succeeds ∧
      Flushed (fun _ => { sampleDirective with size := none }) 1 [sampleRequest] ∧
      fileText (effects (fun _ => { sampleDirective with size := none }) 1 [sampleRequest] 0)
        = ascii "hit\n" ∧
      ¬ BothSinks (fun _ => { sampleDirective with size := none }) 1 [sampleRequest] := by
  refine ⟨succeeds_sampleRequest, by unfold Flushed; decide, by decide, ?_⟩
  unfold BothSinks
  decide

end HttpLog

end Nginx

end Xpod
