import Mathlib.Tactic
import Xpod.Nginx.Model.LogHandler
/-!
# `ngx_new_log_module`

The module sends every line to a Kafka topic and, when the directive
names a file, to the file as well. `new_access_log` makes logs without a
buffer (`ngx_new_log_set_log` never sets `file->data`).
-/

namespace Xpod

namespace Nginx

namespace NewLog

/-- The static variables of `rd_kafka_produce_random_copy_no_key`. `stuck`
is not a variable of the source: the loop is still running. -/
structure Static where
  run : Bool := true
  stuck : Bool := false
deriving DecidableEq, Repr

/-- `rd_kafka_produce_random_copy_no_key`: `while (run && produce == -1)`,
where an error other than `ENOBUFS` ends the loop and clears `run`. -/
def produce (topic payload : Bytes) : Answers → Static → Static × List Effect
  | answers, s =>
    if !s.run then (s, [])
    else
      match answers with
      | .accepted => (s, [.produce topic payload])
      | .failed => ({ s with run := false }, [.produce topic payload])
      | .full next =>
        let (s, calls) := produce topic payload next s
        (s, .produce topic payload :: calls)
      -- the call is repeated for ever; it is listed once
      | .fullForever => ({ s with stuck := true }, [.produce topic payload])

end NewLog

/-- `ngx_new_log_module` -/
def newLog : LogModule NewLog.Static where
  produce := NewLog.produce
  stuck := NewLog.Static.stuck
  toFile log := log.opType = .sendTopicAndFile

namespace NewLog

/-- What a `new_access_log` directive says. -/
structure Entry where
  topicName : Bytes
  opType : SendType
  ops : List Op
deriving DecidableEq, Repr

/-- `ngx_new_log_set_log`: the rest of the log is zeroed. -/
def setLog (entry : Entry) : Log where
  topicName := entry.topicName
  opType := entry.opType
  ops := entry.ops

/-- The worker before the first request. -/
def init (entries : ℕ → Entry) (nelts : ℕ) : Worker Static where
  static := {}
  logs l := setLog (entries l)
  nelts := nelts

/-- `ngx_new_log_write` -/
def write := newLog.write

/-- `ngx_new_log_handler` -/
def handler := newLog.handler

end NewLog

end Nginx

end Xpod
