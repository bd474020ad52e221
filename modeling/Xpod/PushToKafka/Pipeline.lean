import Mathlib.Algebra.BigOperators.Group.Finset.Basic
import Mathlib.Data.Multiset.Basic
import Mathlib.Tactic
import Xpod.Common.Threads
import Xpod.PushToKafka.Model.Pipeline
/-!
# What becomes of the lines

While the threads run, every line that was put into the queue is in a
batch that was sent, in the batch of one producer, or in the queue, once;
the queue is first-in first-out, so each producer has its lines in the
order of the input.

Nothing waits for the lines at the end: the reader exits with lines still
in the queue or in unfinished batches.
-/

namespace Xpod

namespace PushToKafka

variable {α : Type}

/-- The line the reader holds. -/
def DataReader.inHand : DataReader α → List α
  | .putting line => [line]
  | _ => []

/-- The reader has come to the end of its input. -/
def DataReader.AtEnd : DataReader α → Prop
  | .waiting => True
  | .exited => True
  | _ => False

namespace LogProducer

/-- The lines of the current batch, with a line that is about to be
added. -/
def current (p : LogProducer α) : List α :=
  match p.position with
  | .adding message => p.messages ++ [message]
  | _ => p.messages

/-- The lines of the batches that were sent. -/
def sentLines (p : LogProducer α) : List α := p.sent.flatten

/-- All lines the producer has taken from the queue. -/
def taken (p : LogProducer α) : List α := p.sentLines ++ p.current

/-- **What a producer keeps to**: its batches are not empty and not too
long, and in the inner loop there is room in the current one. -/
structure Sound (cfg : Config) (p : LogProducer α) : Prop where
  sent : ∀ batch ∈ p.sent, batch ≠ [] ∧ batch.length ≤ cfg.batchSize
  messages : p.messages.length ≤ cfg.batchSize
  room : p.position ≠ .sending → p.messages.length < cfg.batchSize

section Steps

variable {cfg : Config} {p : LogProducer α}

theorem taken_test (cfg : Config) (p : LogProducer α) :
    (p.test cfg).taken = p.sentLines ++ p.messages := by
  unfold test
  split <;> rfl

theorem Sound.test (hsent : ∀ batch ∈ p.sent, batch ≠ [] ∧ batch.length ≤ cfg.batchSize)
    (hmessages : p.messages.length ≤ cfg.batchSize) : (p.test cfg).Sound cfg := by
  unfold LogProducer.test
  split
  · next h => exact ⟨hsent, hmessages, fun _ => h⟩
  · exact ⟨hsent, hmessages, fun h => absurd rfl h⟩

theorem taken_new (cfg : Config) : (new cfg : LogProducer α).taken = [] := taken_test cfg _

theorem Sound.new (cfg : Config) : (LogProducer.new cfg : LogProducer α).Sound cfg :=
  Sound.test (by simp) (Nat.zero_le _)

/-- A timeout takes no line. -/
theorem taken_timeout (p : LogProducer α) : p.timeout.taken = p.taken := by
  unfold timeout
  split
  · next hpos =>
    split
    · rfl
    · simp [taken, sentLines, current, hpos]
  · rfl

theorem Sound.timeout (h : p.Sound cfg) : p.timeout.Sound cfg := by
  unfold LogProducer.timeout
  split
  · split
    · exact h
    · exact ⟨h.sent, h.messages, fun hne => absurd rfl hne⟩
  · exact h

/-- The line that was polled joins the batch. -/
theorem taken_add (cfg : Config) (p : LogProducer α) : (p.add cfg).taken = p.taken := by
  unfold add
  split
  · next hpos =>
    rw [taken_test]
    simp [taken, sentLines, current, hpos]
  · rfl

theorem Sound.add (h : p.Sound cfg) : (p.add cfg).Sound cfg := by
  unfold LogProducer.add
  split
  · next hpos =>
    refine Sound.test h.sent ?_
    have hroom := h.room (by simp [hpos])
    simpa using hroom
  · exact h

/-- The batch becomes one that was sent. -/
theorem taken_send (cfg : Config) (p : LogProducer α) : (p.send cfg).taken = p.taken := by
  unfold send
  split
  · next hpos =>
    split
    · next hempty =>
      rw [clear, taken_test]
      simp [taken, sentLines, current, hpos, List.isEmpty_iff.1 hempty]
    · rw [clear, taken_test]
      simp [taken, sentLines, current, hpos]
  · rfl

theorem Sound.send (h : p.Sound cfg) : (p.send cfg).Sound cfg := by
  unfold LogProducer.send
  split
  · split
    · exact Sound.test h.sent (Nat.zero_le _)
    · next hne =>
      refine Sound.test (fun batch hbatch => ?_) (Nat.zero_le _)
      rcases List.mem_append.1 hbatch with hbatch | hbatch
      · exact h.sent batch hbatch
      · rw [List.mem_singleton.1 hbatch]
        exact ⟨by simpa using hne, h.messages⟩
  · exact h

end Steps

end LogProducer

namespace System

variable {consumers : ℕ} {cfg : Config} {lines : List α}

/-- **What the threads keep to**, `taken` being the lines polled so far. -/
structure Accounts (cfg : Config) (lines : List α) (s : System α consumers) (taken : List α) :
    Prop where
  input : s.read ++ s.reader.inHand ++ s.input = lines
  fifo : s.read = taken ++ s.queue
  total : (taken : Multiset α) = ∑ i, ((s.producers i).taken : Multiset α)
  ordered : ∀ i, (s.producers i).taken.Sublist taken
  sound : ∀ i, (s.producers i).Sound cfg
  bounded : s.queue.length ≤ cfg.queueSize
  atEnd : s.reader.AtEnd → s.input = []

section Steps

variable {s : System α consumers} {taken : List α}

theorem Accounts.init (cfg : Config) (lines : List α) :
    Accounts cfg lines (System.init cfg lines : System α consumers) [] where
  input := by simp [System.init, DataReader.inHand]
  fifo := rfl
  total := by simp [System.init, LogProducer.taken_new]
  ordered i := by simp [System.init, LogProducer.taken_new]
  sound i := LogProducer.Sound.new cfg
  bounded := Nat.zero_le _
  atEnd h := by simp [System.init, DataReader.AtEnd] at h

theorem Accounts.readLine (h : Accounts cfg lines s taken) :
    Accounts cfg lines s.readLine taken := by
  have hinput := h.input
  unfold System.readLine
  split
  · next line input hreader hin =>
    refine ⟨?_, h.fifo, h.total, h.ordered, h.sound, h.bounded, fun hend => ?_⟩
    · rw [hreader, hin] at hinput
      simpa [DataReader.inHand] using hinput
    · simp [DataReader.AtEnd] at hend
  · next hreader hin =>
    refine ⟨?_, h.fifo, h.total, h.ordered, h.sound, h.bounded, fun _ => hin⟩
    rw [hreader] at hinput
    exact hinput
  · exact h

theorem Accounts.put (h : Accounts cfg lines s taken) :
    Accounts cfg lines (s.put cfg) taken := by
  have hinput := h.input
  unfold System.put
  split
  · next line hreader =>
    split
    · next hroom =>
      refine ⟨?_, ?_, h.total, h.ordered, h.sound, ?_, fun hend => ?_⟩
      · rw [hreader] at hinput
        simpa [DataReader.inHand] using hinput
      · rw [h.fifo, List.append_assoc]
      · simpa using hroom
      · simp [DataReader.AtEnd] at hend
    · exact h
  · exact h

theorem Accounts.exit (h : Accounts cfg lines s taken) : Accounts cfg lines s.exit taken := by
  have hinput := h.input
  unfold System.exit
  split
  · next hreader =>
    refine ⟨?_, h.fifo, h.total, h.ordered, h.sound, h.bounded, fun _ => h.atEnd ?_⟩
    · rw [hreader] at hinput
      exact hinput
    · rw [hreader]
      trivial
  · exact h

/-- A step of one producer that takes no line. -/
theorem Accounts.moves (h : Accounts cfg lines s taken) (i : Fin consumers)
    {f : LogProducer α → LogProducer α} (htaken : (f (s.producers i)).taken = (s.producers i).taken)
    (hsound : (f (s.producers i)).Sound cfg) : Accounts cfg lines (s.moves i f) taken := by
  refine ⟨h.input, h.fifo, ?_, ?_, ?_, h.bounded, h.atEnd⟩
  · have hsum := Threads.sum_update_add s.producers i (f (s.producers i))
      fun p => (p.taken : Multiset α)
    rw [htaken] at hsum
    rw [h.total]
    exact (add_right_cancel hsum).symm
  · refine Function.forall_update_iff s.producers (fun _ p => p.taken.Sublist taken) |>.2
      ⟨?_, fun j _ => h.ordered j⟩
    rw [htaken]
    exact h.ordered i
  · exact Function.forall_update_iff s.producers (fun _ p => p.Sound cfg) |>.2
      ⟨hsound, fun j _ => h.sound j⟩

/-- A poll that returns a line: the producer has taken it, behind all lines
taken before. -/
theorem Accounts.poll (h : Accounts cfg lines s taken) (i : Fin consumers) :
    ∃ taken', Accounts cfg lines (s.poll i) taken' := by
  unfold System.poll
  split
  · next line queue hpos hqueue =>
    have hline : ({ s.producers i with position := .adding line } : LogProducer α).taken =
        (s.producers i).taken ++ [line] := by
      simp [LogProducer.taken, LogProducer.sentLines, LogProducer.current, hpos]
    refine ⟨taken ++ [line], h.input, ?_, ?_, ?_, ?_, ?_, h.atEnd⟩
    · rw [List.append_assoc]
      change s.read = taken ++ line :: queue
      rw [h.fifo, hqueue]
    · have hsum := Threads.sum_update_add s.producers i
        { s.producers i with position := .adding line } fun p => (p.taken : Multiset α)
      rw [hline, ← Multiset.coe_add, ← h.total, add_comm ((s.producers i).taken : Multiset α),
        ← add_assoc, Multiset.coe_add] at hsum
      exact (add_right_cancel hsum).symm
    · refine Function.forall_update_iff s.producers
        (fun _ p => p.taken.Sublist (taken ++ [line])) |>.2 ⟨?_, fun j _ => ?_⟩
      · change ({ s.producers i with position := .adding line } : LogProducer α).taken.Sublist _
        rw [hline]
        exact (h.ordered i).append_right [line]
      · exact (h.ordered j).trans (List.sublist_append_left taken [line])
    · refine Function.forall_update_iff s.producers (fun _ p => p.Sound cfg) |>.2
        ⟨?_, fun j _ => h.sound j⟩
      have hroom := (h.sound i).room (by simp [hpos])
      exact ⟨(h.sound i).sent, (h.sound i).messages, fun _ => hroom⟩
    · have hbounded := h.bounded
      rw [hqueue, List.length_cons] at hbounded
      change queue.length ≤ cfg.queueSize
      omega
  · exact ⟨taken, h⟩

/-- **One step**: the accounts are kept. -/
theorem Accounts.step (h : Accounts cfg lines s taken) (e : Event consumers) :
    ∃ taken', Accounts cfg lines (s.step cfg e) taken' := by
  unfold System.step
  split
  · exact ⟨taken, h⟩
  cases e with
  | readLine => exact ⟨taken, h.readLine⟩
  | put => exact ⟨taken, h.put⟩
  | exit => exact ⟨taken, h.exit⟩
  | poll i => exact h.poll i
  | timeout i => exact ⟨taken, h.moves i (LogProducer.taken_timeout _) (h.sound i).timeout⟩
  | add i => exact ⟨taken, h.moves i (LogProducer.taken_add cfg _) (h.sound i).add⟩
  | send i => exact ⟨taken, h.moves i (LogProducer.taken_send cfg _) (h.sound i).send⟩

end Steps

/-- **Every interleaving keeps the accounts.** -/
theorem run_accounts (cfg : Config) (lines : List α) (events : List (Event consumers)) :
    ∃ taken, Accounts cfg lines (run cfg lines events) taken := by
  refine Threads.run_keeps (fun s e (h : ∃ taken, Accounts cfg lines s taken) => ?_)
    ⟨[], Accounts.init cfg lines⟩ events
  obtain ⟨taken, h⟩ := h
  exact h.step e

/-- The lines of all batches that were sent. -/
def sentLines (s : System α consumers) : Multiset α :=
  ∑ i, ((s.producers i).sentLines : Multiset α)

/-- The lines of all current batches. -/
def currentLines (s : System α consumers) : Multiset α :=
  ∑ i, ((s.producers i).current : Multiset α)

theorem Accounts.read_eq {s : System α consumers} {taken : List α}
    (h : Accounts cfg lines s taken) :
    (s.read : Multiset α) = s.sentLines + s.currentLines + (s.queue : Multiset α) := by
  rw [h.fifo, ← Multiset.coe_add, h.total, sentLines, currentLines, ← Finset.sum_add_distrib]
  rfl

/-- **Nothing is lost, doubled or reordered while the threads run.** For
every configuration, every number of producers, every input and every
interleaving, at every moment: what was read is an initial part of the
input, up to the line the reader is about to put; it is, as a multiset,
what was sent, what is in current batches and what is in the queue; what a
producer sent is a subsequence of the input; and every batch that was sent
is not empty and not longer than the batch size. -/
theorem run_neither_loses_nor_reorders (cfg : Config) (consumers : ℕ) (lines : List α)
    (events : List (Event consumers)) :
    (run cfg lines events).read ++ (run cfg lines events).reader.inHand ++
        (run cfg lines events).input = lines ∧
      ((run cfg lines events).read : Multiset α) =
        (run cfg lines events).sentLines + (run cfg lines events).currentLines +
          ((run cfg lines events).queue : Multiset α) ∧
      (∀ i, ((run cfg lines events).producers i).sentLines.Sublist lines) ∧
      ∀ i, ∀ batch ∈ ((run cfg lines events).producers i).sent,
        batch ≠ [] ∧ batch.length ≤ cfg.batchSize := by
  obtain ⟨taken, h⟩ := run_accounts cfg lines events
  refine ⟨h.input, h.read_eq, fun i => ?_, fun i => (h.sound i).sent⟩
  have htaken : ((run cfg lines events).producers i).sentLines.Sublist taken :=
    (List.sublist_append_left _ _).trans (h.ordered i)
  refine htaken.trans ?_
  rw [← h.input, h.fifo, List.append_assoc, List.append_assoc]
  exact List.sublist_append_left _ _

/-! ## At the end of the input -/

/-- Everything was sent. -/
def AllSent (lines : List α) (s : System α consumers) : Prop :=
  s.sentLines = (lines : Multiset α)

section Exit

variable {s : System α consumers} {taken : List α}

theorem Accounts.read_of_exited (h : Accounts cfg lines s taken)
    (hexit : s.reader.isExited = true) : s.read = lines := by
  have hinput := h.input
  rcases hreader : s.reader with - | line | - | -
  · simp [hreader, DataReader.isExited] at hexit
  · simp [hreader, DataReader.isExited] at hexit
  · simp [hreader, DataReader.isExited] at hexit
  · rw [h.atEnd (by rw [hreader]; trivial), hreader] at hinput
    simpa [DataReader.inHand] using hinput

/-- **At the exit, what is in the queue or in a batch is lost.** -/
theorem Accounts.allSent_iff (h : Accounts cfg lines s taken)
    (hexit : s.reader.isExited = true) :
    s.AllSent lines ↔ s.currentLines = 0 ∧ s.queue = [] := by
  have hread := h.read_eq
  rw [h.read_of_exited hexit, add_assoc] at hread
  rw [AllSent, hread, left_eq_add, add_eq_zero, Multiset.coe_eq_zero]

end Exit

/-! ## Interleavings that lose lines -/

section Losing

/-- Where the reader stands, what it has still to read, and the queue. -/
structure At (s : System α consumers) (reader : DataReader α) (input queue : List α) : Prop where
  reader : s.reader = reader
  input : s.input = input
  queue : s.queue = queue

variable {s : System α consumers} {input queue : List α} {line : α}

/-- The reader reads a line and puts it, if there is room. -/
theorem At.readPut (cfg : Config) (h : s.At .reading (line :: input) queue)
    (hroom : queue.length < cfg.queueSize) :
    (Threads.run (step cfg) s [.readLine, .put]).At .reading input (queue ++ [line]) ∧
      (Threads.run (step cfg) s [.readLine, .put]).producers = s.producers := by
  obtain ⟨hreader, hinput, rfl⟩ := h
  have hread : s.step cfg .readLine = { s with reader := .putting line, input } := by
    simp [step, readLine, hreader, hinput, DataReader.isExited]
  simp only [Threads.run_cons, Threads.run_nil, hread]
  simp [step, System.put, hroom, DataReader.isExited]
  exact ⟨rfl, rfl, rfl⟩

/-- Without a producer the queue fills up. -/
theorem At.fill (cfg : Config) (h : s.At .reading input queue)
    (hroom : queue.length + input.length ≤ cfg.queueSize) :
    ∃ events, (Threads.run (step cfg) s events).At .reading [] (queue ++ input) := by
  induction input generalizing s queue with
  | nil => exact ⟨[], by simpa using h⟩
  | cons line input ih =>
    rw [List.length_cons] at hroom
    obtain ⟨events, hevents⟩ := ih (h.readPut cfg (by omega)).1
      (by rw [List.length_append, List.length_singleton]; omega)
    refine ⟨[.readLine, .put] ++ events, ?_⟩
    rw [Threads.run_append, List.append_cons]
    exact hevents

/-- At the end of the input nothing keeps the reader from exiting. -/
theorem At.exits (cfg : Config) (h : s.At .reading [] queue) :
    (Threads.run (step cfg) s [.readLine, .exit]).reader.isExited = true ∧
      (Threads.run (step cfg) s [.readLine, .exit]).queue = queue := by
  obtain ⟨hreader, hinput, rfl⟩ := h
  have hread : s.step cfg .readLine = { s with reader := .waiting } := by
    simp [step, readLine, hreader, hinput, DataReader.isExited]
  simp only [Threads.run_cons, Threads.run_nil, hread]
  simp [step, System.exit, DataReader.isExited]

/-- A producer that waits for its first line. -/
def Idle (p : LogProducer α) : Prop := p.position = .polling ∧ p.messages = []

theorem idle_new (cfg : Config) : Idle (LogProducer.new cfg : LogProducer α) := by
  have hpos := cfg.batchSize_pos
  refine ⟨?_, rfl⟩
  simp only [LogProducer.new, LogProducer.clear, LogProducer.test, List.length_nil]
  rw [if_pos (by omega)]

/-- With one line, a timeout at the latest makes it send. -/
theorem idle_of_adding {p : LogProducer α} (hmessages : p.messages = [])
    (hpos : p.position = .adding line) : Idle (((p.add cfg).timeout).send cfg) := by
  have hbatch := cfg.batchSize_pos
  have hsending : ((p.add cfg).timeout).position = .sending ∧
      ((p.add cfg).timeout).messages = [line] := by
    by_cases hone : 1 < cfg.batchSize
    · simp [LogProducer.add, LogProducer.test, LogProducer.timeout, hpos, hmessages, hone]
    · simp [LogProducer.add, LogProducer.test, LogProducer.timeout, hpos, hmessages, hone]
  refine ⟨?_, ?_⟩
  · simp only [LogProducer.send, hsending, List.isEmpty_cons, Bool.false_eq_true, if_false,
      LogProducer.clear, LogProducer.test, List.length_nil]
    rw [if_pos (by omega)]
  · simp [LogProducer.send, hsending, LogProducer.clear, LogProducer.test]

/-- One producer takes each line as it comes and sends it. -/
theorem At.drain (cfg : Config) {i : Fin consumers} {rest : List α}
    (h : s.At .reading (input ++ rest) [])
    (hidle : Idle (s.producers i)) :
    ∃ events, (Threads.run (step cfg) s events).At .reading rest [] := by
  induction input generalizing s with
  | nil => exact ⟨[], h⟩
  | cons line input ih =>
    obtain ⟨hat, hproducers⟩ := h.readPut cfg cfg.queueSize_pos
    set s₁ := Threads.run (step cfg) s [.readLine, .put] with hs₁
    have hidle₁ : Idle (s₁.producers i) := by rwa [hproducers]
    have hpoll : s₁.step cfg (.poll i) =
        ({ s₁ with queue := [] } : System α consumers).moves i
          fun p => { p with position := .adding line } := by
      simp [step, System.poll, hat.reader, hat.queue, hidle₁.1, DataReader.isExited]
    set s₂ := Threads.run (step cfg) s₁ [.poll i, .add i, .timeout i, .send i] with hs₂
    have hmoves : s₂ = ((((({ s₁ with queue := [] } : System α consumers).moves i
        fun p => { p with position := .adding line }).moves i (LogProducer.add cfg)).moves i
          LogProducer.timeout).moves i (LogProducer.send cfg)) := by
      rw [hs₂]
      simp only [Threads.run_cons, Threads.run_nil, hpoll]
      simp [step, moves, hat.reader, DataReader.isExited]
    have hidle₂ : Idle (s₂.producers i) := by
      rw [hmoves]
      simp only [moves, Function.update_self]
      exact idle_of_adding hidle₁.2 rfl
    have hat₂ : s₂.At .reading (input ++ rest) [] := by
      rw [hmoves]
      exact ⟨hat.reader, hat.input, rfl⟩
    obtain ⟨events, hevents⟩ := ih hat₂ hidle₂
    refine ⟨[.readLine, .put] ++ ([.poll i, .add i, .timeout i, .send i] ++ events), ?_⟩
    rw [Threads.run_append, Threads.run_append]
    exact hevents

/-- **An exit with a line in the queue**, for every input that is not empty,
if only the reader can come to its end. -/
theorem exists_losing_run (cfg : Config) (hne : lines ≠ [])
    (hroom : 0 < consumers ∨ lines.length ≤ cfg.queueSize) :
    ∃ events : List (Event consumers), (run cfg lines events).reader.isExited = true ∧
      (run cfg lines events).queue ≠ [] := by
  have hstart : (init cfg lines : System α consumers).At .reading lines [] := ⟨rfl, rfl, rfl⟩
  obtain ⟨events, queue, hqueue, hat⟩ : ∃ (events : List (Event consumers)) (queue : List α),
      queue ≠ [] ∧ (run cfg lines events).At .reading [] queue := by
    rcases hroom with hpos | hroom
    · -- all lines but the last are sent
      obtain ⟨front, last, rfl⟩ := (List.eq_nil_or_concat lines).resolve_left hne
      rw [List.concat_eq_append] at hstart ⊢
      obtain ⟨events, hevents⟩ := hstart.drain cfg (i := ⟨0, hpos⟩) (idle_new cfg)
      have hlast := (hevents.readPut cfg cfg.queueSize_pos).1
      refine ⟨events ++ [.readLine, .put], [last], by simp, ?_⟩
      rw [run, Threads.run_append]
      exact hlast
    · obtain ⟨events, hevents⟩ := hstart.fill cfg (by simpa using hroom)
      exact ⟨events, lines, hne, hevents⟩
  obtain ⟨hexit, hq⟩ := hat.exits cfg
  refine ⟨events ++ [.readLine, .exit], ?_⟩
  rw [run, Threads.run_append]
  exact ⟨hexit, hq.trans_ne hqueue⟩

end Losing

/-- **When the exit loses nothing.** For every configuration, every number
of producers and every input: in every interleaving that comes to the exit
all lines were sent, if and only if there is no line at all, or no
producer and more lines than the queue holds, so that the reader never
comes to the exit. -/
theorem exit_allSent_iff (cfg : Config) (consumers : ℕ) (lines : List α) :
    (∀ events : List (Event consumers), (run cfg lines events).reader.isExited = true →
        (run cfg lines events).AllSent lines) ↔
      lines = [] ∨ (consumers = 0 ∧ cfg.queueSize < lines.length) := by
  constructor
  · intro hall
    by_contra hcond
    rw [not_or] at hcond
    have hroom : 0 < consumers ∨ lines.length ≤ cfg.queueSize := by
      have := hcond.2
      omega
    obtain ⟨events, hexit, hqueue⟩ := exists_losing_run cfg hcond.1 hroom
    obtain ⟨taken, h⟩ := run_accounts cfg lines events
    exact hqueue ((h.allSent_iff hexit).1 (hall events hexit)).2
  · rintro (rfl | ⟨rfl, hlong⟩) events hexit
    · obtain ⟨taken, h⟩ := run_accounts cfg ([] : List α) events
      have hread := h.read_eq
      rw [h.read_of_exited hexit, Multiset.coe_nil, eq_comm, add_assoc, add_eq_zero] at hread
      exact hread.1
    · -- without a producer all lines would have to be in the queue
      obtain ⟨taken, h⟩ := run_accounts cfg lines events
      have htaken : taken = [] := by
        have htotal := h.total
        rwa [Finset.univ_eq_empty, Finset.sum_empty, Multiset.coe_eq_zero] at htotal
      have hfifo := h.fifo
      rw [h.read_of_exited hexit, htaken, List.nil_append] at hfifo
      have hbounded := h.bounded
      rw [← hfifo] at hbounded
      omega

/-- The reader puts a line and exits before the producer polls. -/
def sampleEvents : List (Event 1) := [.readLine, .put, .readLine, .exit]

/-- **One line, one producer: the line is lost.** -/
theorem exit_loses_sampleEvents :
    (run ⟨10, 10, by decide, by decide⟩ ["line"] sampleEvents).reader.isExited = true ∧
      (run ⟨10, 10, by decide, by decide⟩ ["line"] sampleEvents).queue = ["line"] ∧
      ¬ (run ⟨10, 10, by decide, by decide⟩ ["line"] sampleEvents).AllSent ["line"] := by
  refine ⟨rfl, rfl, fun hsent => ?_⟩
  obtain ⟨taken, h⟩ := run_accounts ⟨10, 10, by decide, by decide⟩ ["line"] sampleEvents
  exact absurd ((h.allSent_iff rfl).1 hsent).2 (by decide)

end System

end PushToKafka

end Xpod
