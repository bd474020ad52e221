import Mathlib.Tactic
import Xpod.Common.Heap
import Xpod.Storm.Model.DownLoadStat
/-!
# The two statistics actors

`WriteToHbase.act` keeps two `var`s that refer to mutable maps. A tick
sends the maps themselves to the actor `Write`, which reads them some time
later in a thread of its own, and sets the variables to new maps. So the
containers are objects of a heap here, a batch is a reference, and the two
actors take turns in any order. The maps within a map are reached through
it alone and are part of its state.

`Write.act` hands one `Increment` for each row to HBase, with the columns
whose count is positive. The connection to HBase, its failures and the log
messages are not modelled.
-/

namespace Xpod

namespace Storm

/-! ## What is written -/

/-- The body of `Write.act`'s `receive`: the increments of a batch, by row
and column. A column whose count is not positive is left out. -/
def Write.increments (actions : WriteToHbase.Container) : List ((Text × Text) × ℤ) :=
  actions.entries.flatMap fun row =>
    row.2.entries.filterMap fun field =>
      if 0 < field.2.toInt then some ((row.1, field.1), field.2.toInt) else none

namespace WriteToHbase

/-! ## The system -/

/-- The variables of `WriteToHbase.act`, what it sent to `Write`, how many
batches `Write` has received and the increments it made of them, and the
maps. -/
structure System where
  heap : Heap Container := ⟨fun _ => ∅, 2⟩
  songKeyCount : ℕ := 0
  downKeyCount : ℕ := 1
  sent : List (ℕ × Table) := []
  running : Bool := true
  received : ℕ := 0
  applied : List (Table × List ((Text × Text) × ℤ)) := []

namespace System

/-- The body of the loop over `stats`: the maps change in place. -/
def mergeStat (pubinfo : PubInfo) (s : System) (entry : StatKey × StatValue) : System :=
  if !s.running then s
  else
    match entry.1.module with
    | .songListen =>
      let (container, e) := mergeSong (s.heap.read s.songKeyCount) entry.1 entry.2 pubinfo
      { s with heap := s.heap.write s.songKeyCount container, running := e.isNone }
    | .songDownload =>
      let (container, e) := mergeDownload (s.heap.read s.downKeyCount) entry.1 entry.2 pubinfo
      { s with heap := s.heap.write s.downKeyCount container, running := e.isNone }

/-- `writer ! (map, table)`, if the map has rows. -/
def send (s : System) (ref : ℕ) (table : Table) : List (ℕ × Table) :=
  if 0 < (s.heap.read ref).entries.length then [(ref, table)] else []

/-- One turn of `WriteToHbase.act`'s loop. -/
def receive (s : System) (m : Message) : System :=
  if !s.running then s
  else
    match m with
    | .stats entries pubinfo => entries.foldl (mergeStat pubinfo) s
    | .tick =>
      { s with
        sent := s.sent ++ s.send s.songKeyCount .songStat ++ s.send s.downKeyCount .downloadStat
        heap := (s.heap.alloc ∅).alloc ∅
        songKeyCount := s.heap.next
        downKeyCount := s.heap.next + 1 }

/-- One turn of `Write.act`'s loop: the next batch, as its map is now. -/
def write (s : System) : System :=
  match s.sent[s.received]? with
  | none => s
  | some (ref, table) =>
    { s with
      received := s.received + 1
      applied := s.applied ++ [(table, Write.increments (s.heap.read ref))] }

/-- A turn of one of the actors. -/
inductive Event
  | receive (m : Message)
  | write

def step (s : System) : Event → System
  | .receive m => s.receive m
  | .write => s.write

/-- The system after the turns. -/
def run (s : System) (events : List Event) : System := events.foldl step s

end System

end WriteToHbase

end Storm

end Xpod
