import Mathlib.Data.List.Basic
import Mathlib.Logic.Function.Basic
import Mathlib.Tactic
import Xpod.Common.Threads
/-!
# From a command's output to Kafka

`Main` starts a `DataReader`, which puts the lines a command prints into a
bounded queue, and a number of `LogProducer`s, which poll the queue and
send the lines in batches. At the end of the output the reader waits for
the command and calls `System.exit`.

Each thread moves by steps of its own and an interleaving is any list of
steps; a step that its thread cannot take leaves everything as it is. The
time stamp the messages of a batch share, interrupts and failures to send
are left out.
-/

namespace Xpod

namespace PushToKafka

/-- The configuration: `queue.size`, which `ArrayBlockingQueue` requires to
be positive, and `batch.size`. -/
structure Config where
  queueSize : ℕ
  batchSize : ℕ
  queueSize_pos : 1 ≤ queueSize
  batchSize_pos : 1 ≤ batchSize

variable {α : Type}

/-- Where `DataReader.run` stands. -/
inductive DataReader (α : Type)
  /-- before `br.readLine()` -/
  | reading
  /-- in `queue.put(line)` -/
  | putting (line : α)
  /-- behind the loop -/
  | waiting
  /-- behind `System.exit(0)` -/
  | exited

/-- The process has ended. -/
def DataReader.isExited : DataReader α → Bool
  | .exited => true
  | _ => false

/-- Where `LogProducer.run` stands. -/
inductive Position (α : Type)
  /-- in `queue.poll` -/
  | polling
  /-- before `messages.add` -/
  | adding (message : α)
  /-- behind the inner loop -/
  | sending

/-- A producer: where it stands, its batch, and the batches it passed to
`producer.send`. -/
structure LogProducer (α : Type) where
  position : Position α
  messages : List α
  sent : List (List α)

/-- The system, with `read` for the lines that were put into the queue. -/
structure System (α : Type) (consumers : ℕ) where
  input : List α
  reader : DataReader α
  read : List α
  queue : List α
  producers : Fin consumers → LogProducer α

/-- A step of a thread. A poll that ends without a line is a step of its
own. -/
inductive Event (consumers : ℕ)
  | readLine
  | put
  | exit
  | poll (i : Fin consumers)
  | timeout (i : Fin consumers)
  | add (i : Fin consumers)
  | send (i : Fin consumers)

namespace LogProducer

/-- The test of the inner loop. -/
def test (cfg : Config) (p : LogProducer α) : LogProducer α :=
  { p with position := if p.messages.length < cfg.batchSize then .polling else .sending }

/-- The start of a round: `messages.clear()` and the inner loop. -/
def clear (cfg : Config) (p : LogProducer α) : LogProducer α := { p with messages := [] }.test cfg

/-- A producer before its first round. -/
def new (cfg : Config) : LogProducer α := clear cfg ⟨.polling, [], []⟩

/-- A poll that returns null: the inner loop goes on with an empty batch
and is left with any other. -/
def timeout (p : LogProducer α) : LogProducer α :=
  match p.position with
  | .polling => if p.messages.isEmpty then p else { p with position := .sending }
  | _ => p

/-- `messages.add` -/
def add (cfg : Config) (p : LogProducer α) : LogProducer α :=
  match p.position with
  | .adding message => { p with messages := p.messages ++ [message] }.test cfg
  | _ => p

/-- `producer.send`, unless the batch is empty, and the next round. -/
def send (cfg : Config) (p : LogProducer α) : LogProducer α :=
  match p.position with
  | .sending =>
    if p.messages.isEmpty then p.clear cfg
    else { p with sent := p.sent ++ [p.messages] }.clear cfg
  | _ => p

end LogProducer

namespace System

variable {consumers : ℕ}

/-- The threads as `Main` starts them, for a command that prints these
lines. -/
def init (cfg : Config) (lines : List α) : System α consumers :=
  ⟨lines, .reading, [], [], fun _ => LogProducer.new cfg⟩

/-- `br.readLine()` -/
def readLine (s : System α consumers) : System α consumers :=
  match s.reader, s.input with
  | .reading, line :: input => { s with reader := .putting line, input }
  | .reading, [] => { s with reader := .waiting }
  | _, _ => s

/-- `queue.put(line)`, which waits while the queue is full. -/
def put (cfg : Config) (s : System α consumers) : System α consumers :=
  match s.reader with
  | .putting line =>
    if s.queue.length < cfg.queueSize then
      { s with reader := .reading, queue := s.queue ++ [line], read := s.read ++ [line] }
    else s
  | _ => s

/-- `System.exit(0)` -/
def exit (s : System α consumers) : System α consumers :=
  match s.reader with
  | .waiting => { s with reader := .exited }
  | _ => s

/-- A step of one producer alone. -/
def moves (s : System α consumers) (i : Fin consumers)
    (f : LogProducer α → LogProducer α) : System α consumers :=
  { s with producers := Function.update s.producers i (f (s.producers i)) }

/-- `queue.poll` that returns the first line. -/
def poll (s : System α consumers) (i : Fin consumers) : System α consumers :=
  match (s.producers i).position, s.queue with
  | .polling, line :: queue =>
    { s with queue }.moves i fun p => { p with position := .adding line }
  | _, _ => s

/-- One step. The exit ends all threads. -/
def step (cfg : Config) (s : System α consumers) (e : Event consumers) : System α consumers :=
  if s.reader.isExited then s
  else
    match e with
    | .readLine => s.readLine
    | .put => s.put cfg
    | .exit => s.exit
    | .poll i => s.poll i
    | .timeout i => s.moves i LogProducer.timeout
    | .add i => s.moves i (LogProducer.add cfg)
    | .send i => s.moves i (LogProducer.send cfg)

/-- The system after an interleaving. -/
def run (cfg : Config) (lines : List α) (events : List (Event consumers)) : System α consumers :=
  Threads.run (step cfg) (init cfg lines) events

end System

end PushToKafka

end Xpod
