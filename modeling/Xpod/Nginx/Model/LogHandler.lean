import Mathlib.Logic.Function.Basic
import Mathlib.Tactic
import Xpod.Common.Run
import Xpod.Nginx.Model.LogFormat
/-!
# The log handlers of the two nginx modules

`ngx_new_log_module` was made from the Kafka-patched
`ngx_http_log_module`. The handler, its buffer and the file part of
`write` are the same text in both files and are modelled once here; what
the modules do differently, the call of `rd_kafka_produce` and whether a
log has a file, is a `LogModule`.

A call's effects are listed: the calls of `rd_kafka_produce` and the
writes to the log file, in order. How the broker and the disk answer is
an input.
-/

namespace Xpod

namespace Nginx

/-! ## The world -/

/-- The answers `rd_kafka_produce` gives to one message, call after call.
Only after `ENOBUFS` is the message produced again. -/
inductive Answers
  | accepted
  /-- -1 with an `errno` other than `ENOBUFS` -/
  | failed
  /-- -1 with `ENOBUFS`, and the answers to the further calls -/
  | full (next : Answers)
  /-- `ENOBUFS` to every further call -/
  | fullForever
deriving DecidableEq, Repr

/-- What writing to the log file returns. -/
inductive WriteResult
  | complete
  | short
  /-- -1 with `ENOSPC` -/
  | noSpace
  /-- -1 with another `errno` -/
  | failed
deriving DecidableEq, Repr

/-- How the broker and the disk answer to one call of `write`. -/
structure Outcome where
  produce : Answers
  write : WriteResult
deriving DecidableEq, Repr

inductive Effect
  /-- A call of `rd_kafka_produce`. -/
  | produce (topic payload : Bytes)
  /-- A write to the log file, compressed at a level unless that is 0. -/
  | file (gzip : ℕ) (bytes : Bytes) (result : WriteResult)
deriving DecidableEq, Repr

/-! ## Configured logs -/

/-- `ngx_http_log_buf_t`: `held` is what stands between `start` and `pos`,
`size` is `last - start`. -/
structure LogBuf where
  size : ℕ
  held : Bytes := []
  /-- `event != NULL`: a flush time was configured. -/
  event : Bool := false
  /-- `event->timer_set` -/
  timerSet : Bool := false
  gzip : ℕ := 0
deriving DecidableEq, Repr

/-- `sendType` of `ngx_new_log_module` -/
inductive SendType
  | sendTopic
  | sendTopicAndFile
deriving DecidableEq, Repr

/-- `ngx_http_log_t` and `ngx_new_log_t`. -/
structure Log where
  topicName : Bytes
  ops : List Op
  /-- `ngx_new_log_module` only. -/
  opType : SendType := .sendTopicAndFile
  /-- `file->data` -/
  buffer : Option LogBuf := none
  diskFullTime : ℤ := 0
  errorLogTime : ℤ := 0
deriving DecidableEq, Repr

namespace Log

/-- An error is reported at most once in a minute. -/
def logError (now : ℤ) (log : Log) : Log :=
  if now - log.errorLogTime > 59 then { log with errorLogTime := now } else log

/-- The end of `write`: what the file's answer leaves in the log. -/
def noteResult (now : ℤ) (result : WriteResult) (log : Log) : Log :=
  match result with
  | .complete => log
  | .short => log.logError now
  | .noSpace => { log with diskFullTime := now }.logError now
  | .failed => log.logError now

/-- `buffer->gzip` of the log's file. -/
def gzip (log : Log) : ℕ := (log.buffer.map LogBuf.gzip).getD 0

end Log

/-! ## The handler -/

/-- What is not the same in the two modules; `σ` is what the module keeps
in static variables. -/
structure LogModule (σ : Type) where
  /-- `rd_kafka_produce_random_copy_no_key` -/
  produce : (topic payload : Bytes) → Answers → σ → σ × List Effect
  /-- The process is still inside that function. -/
  stuck : σ → Bool
  /-- The log has a file to write to. -/
  toFile : Log → Bool

/-- A request at its log phase. `outcome l k` answers the `k`-th write
the handler makes for log `l`. -/
structure LogEvent where
  now : ℤ
  request : Request
  outcome : ℕ → ℕ → Outcome

/-- A worker process: the module's static variables and the logs of the
location. -/
structure Worker (σ : Type) where
  static : σ
  logs : ℕ → Log
  nelts : ℕ
  off : Bool := false

namespace LogModule

variable {σ : Type} (m : LogModule σ)

/-- `ngx_http_log_write`, `ngx_new_log_write` -/
def write (now : ℤ) (o : Outcome) (buf : Bytes) (s : σ) (log : Log) : σ × Log × List Effect :=
  let (s, calls) := m.produce log.topicName buf o.produce s
  if m.stuck s || !m.toFile log then (s, log, calls)
  else (s, log.noteResult now o.write, calls ++ [.file log.gzip buf o.write])

/-- The buffer after a line was put into it. -/
def append (buffer : LogBuf) (line : Bytes) : LogBuf :=
  { buffer with
    held := buffer.held ++ line
    timerSet := buffer.timerSet || (buffer.event && buffer.held.isEmpty) }

/-- The handler's loop body behind the check of `disk_full_time`. `len` is
the room the operations ask for and `line` what they write. -/
def logLineTo (now : ℤ) (o : ℕ → Outcome) (len : ℕ) (line : Bytes) (s : σ) (log : Log) :
    σ × Log × List Effect :=
  match log.buffer with
  | none => m.write now (o 0) line s log
  | some buffer =>
    -- no room left: the buffer is written out first
    let (s, log, flushed, buffer) :=
      if buffer.size - buffer.held.length < len then
        let (s, log, flushed) := m.write now (o 0) buffer.held s log
        (s, log, flushed, { buffer with held := [] })
      else (s, log, [], buffer)
    if m.stuck s then (s, log, flushed)
    else if len ≤ buffer.size - buffer.held.length then
      (s, { log with buffer := some (append buffer line) }, flushed)
    else
      -- a line longer than the buffer goes out by itself
      let log := { log with buffer := some { buffer with timerSet := false } }
      let (s, log, direct) := m.write now (o 1) line s log
      (s, log, flushed ++ direct)

/-- One turn of the handler's loop. -/
def visit (e : LogEvent) (w : Worker σ) (l : ℕ) : Worker σ × List Effect :=
  let log := w.logs l
  if m.stuck w.static then (w, [])
  else if e.now = log.diskFullTime then (w, [])
  else
    let (s, log, effects) := m.logLineTo e.now (e.outcome l) (lineLen e.request log.ops)
      (logLine e.request log.ops) w.static log
    ({ w with static := s, logs := Function.update w.logs l log }, effects)

/-- `ngx_http_log_handler`, `ngx_new_log_handler`: the effects for each
log. -/
def handler (w : Worker σ) (e : LogEvent) : Worker σ × List (List Effect) :=
  if w.off then (w, []) else Run.run (m.visit e) w (List.range w.nelts)

end LogModule

end Nginx

end Xpod
