import Mathlib.Tactic
import Xpod.Nginx.Model.LogHandler
/-!
# The Kafka-patched `ngx_http_log_module`

`access_log` may ask for a buffer. Lines then leave the process when the
buffer is full, when a line does not fit into it, or when the flush timer
fires.
-/

namespace Xpod

namespace Nginx

namespace HttpLog

/-- The loop of `rd_kafka_produce_random_copy_no_key`, from a value of
`cnt` on: `while (cnt > 3 && produce == -1)`. -/
def produceLoop (topic payload : Bytes) : ℕ → Answers → List Effect
  | cnt, answers =>
    if cnt > 3 then
      match answers with
      | .accepted => [.produce topic payload]
      | .failed => [.produce topic payload]
      | .full next => .produce topic payload :: produceLoop topic payload (cnt + 1) next
      -- the call is repeated for ever; it is listed once
      | .fullForever => [.produce topic payload]
    else []

/-- `rd_kafka_produce_random_copy_no_key`: `cnt` is 0 at the start. -/
def produce (topic payload : Bytes) (answers : Answers) : List Effect :=
  produceLoop topic payload 0 answers

end HttpLog

/-- `ngx_http_log_module`, which has no static variables of its own in the
produce function. -/
def httpLog : LogModule Unit where
  produce topic payload answers s := (s, HttpLog.produce topic payload answers)
  stuck _ := false
  toFile _ := true

namespace HttpLog

/-- What an `access_log` directive and its format say. -/
structure Directive where
  topicName : Bytes
  ops : List Op
  /-- The buffer's size, from `buffer=` or the 64k that `gzip` brings
  along; without either there is no buffer. -/
  size : Option ℕ := none
  /-- `flush=` was given. -/
  flush : Bool := false
  /-- `gzip=` -/
  gzip : ℕ := 0
deriving DecidableEq, Repr

/-- `ngx_http_log_set_log` -/
def setLog (d : Directive) : Log where
  topicName := d.topicName
  ops := d.ops
  buffer := d.size.map fun size => { size := size, event := d.flush, gzip := d.gzip }

/-- The worker before the first request. -/
def init (directives : ℕ → Directive) (nelts : ℕ) : Worker Unit where
  static := ()
  logs l := setLog (directives l)
  nelts := nelts

/-- `ngx_http_log_write` -/
def write := httpLog.write

/-- `ngx_http_log_handler` -/
def handler := httpLog.handler

/-- `ngx_http_log_flush`: the file alone gets what the buffer held. -/
def flush (result : WriteResult) (log : Log) : Log × List Effect :=
  match log.buffer with
  | none => (log, [])
  | some buffer =>
    if buffer.held.isEmpty then (log, [])
    else
      ({ log with buffer := some { buffer with held := [], timerSet := false } },
        [.file buffer.gzip buffer.held result])

/-- What happens in a worker. -/
inductive Event
  | request (e : LogEvent)
  /-- The flush timer of log `l` fires (`ngx_http_log_flush_handler`). -/
  | timer (l : ℕ) (result : WriteResult)

/-- One event, and the effects it has for each log. -/
def step (w : Worker Unit) : Event → Worker Unit × (ℕ → List Effect)
  | .request e => ((handler w e).1, fun l => (handler w e).2.getD l [])
  | .timer l result =>
    ({ w with logs := Function.update w.logs l (flush result (w.logs l)).1 },
      fun k => if k = l then (flush result (w.logs l)).2 else [])

end HttpLog

end Nginx

end Xpod
