import Mathlib.Data.Finset.Basic
import Mathlib.Data.List.AList
import Mathlib.Logic.Function.Basic
import Mathlib.Tactic
import Xpod.Common.Heap
import Xpod.Common.Threads
import Xpod.Storm.Model.DownLoadStat
/-!
# Visitors by day and by hour

`IpStatBolt.execute` counts a visitor under two keys, one for the day and
one for the hour, with two calls of `RedisOp.addStat`. `RedisOp` collects
them in a concurrent map of concurrent sets, which a thread of its own
swaps out and writes to Redis. A read-write lock keeps the swap apart from
the calls.

The operations of the map and of the sets are single steps and so is
`sadd`, which succeeds. A step that its thread cannot take, because the
lock is held, leaves everything as it is. The iteration orders of the map
and the sets are parameters.
-/

namespace Xpod

namespace Storm

namespace IpStat

/-! ## `IpStatBolt` -/

/-- What `execute` reads off a `DateTime`. -/
structure DateTime where
  year : ℤ
  monthOfYear : ℕ
  dayOfMonth : ℕ
  hourOfDay : ℕ
deriving DecidableEq, Repr

/-- What one call of `execute` is given: `reader.get` of the address, `none`
where it is null or throws an `IOException`; the visitor's id; and the
time, `none` where it is missing or of a wrong type. -/
structure Visit where
  location : Option Location
  uid : Option Text
  time : Option DateTime
deriving DecidableEq, Repr

/-- `append` of a string. -/
def text (s : Option Text) : Text := s.getD "null".toList

/-- `dayKey` -/
def dayKey (time : DateTime) (country : Text) (province : Option Text) : Text :=
  intText time.year ++ '_' :: (Nat.toDigits 10 time.monthOfYear ++ '_' ::
    (Nat.toDigits 10 time.dayOfMonth ++ '_' :: (country ++ '_' :: text province)))

/-- `hourKey` -/
def hourKey (time : DateTime) (country : Text) (province : Option Text) : Text :=
  intText time.year ++ '_' :: (Nat.toDigits 10 time.monthOfYear ++ '_' ::
    (Nat.toDigits 10 time.dayOfMonth ++ '_' :: (Nat.toDigits 10 time.hourOfDay ++ '_' ::
      (country ++ '_' :: text province))))

/-- The locals of a call that comes to its end. -/
structure Stat where
  dayKey : Text
  hourKey : Text
  uuid : Text
deriving DecidableEq, Repr

/-- The checks of `execute` and the two keys, `none` where it returns
before them. -/
def Visit.stat (v : Visit) : Option Stat := do
  let loc ← v.location
  let country ← loc.country
  if country.length = 0 then none
  else
    let uuid ← v.uid
    let time ← v.time
    some ⟨dayKey time country loc.province, hourKey time country loc.province, uuid⟩

/-- The calls `addStat(key, val)` of a call of `execute`. -/
def execute (v : Visit) : List (Text × Text) :=
  match v.stat with
  | none => []
  | some s => [(s.dayKey, s.uuid), (s.hourKey, s.uuid)]

/-! ## The concurrent map -/

/-- `ConcurrentHashMap<String, Set<String>>` -/
abbrev DataMap : Type := AList fun _ : Text => List Text

namespace DataMap

/-- `get(key) != null` -/
def has (m : DataMap) (key : Text) : Bool := (m.lookup key).isSome

/-- The set of a key. -/
def get (m : DataMap) (key : Text) : List Text := (m.lookup key).getD []

/-- `putIfAbsent(key, …)` of an empty set. -/
def putIfAbsent (m : DataMap) (key : Text) : DataMap := if m.has key then m else m.insert key []

/-- `add(val)` on the set of a key. -/
def add (m : DataMap) (key val : Text) : DataMap :=
  if m.has key then m.insert key ((m.get key).insert val) else m

end DataMap

/-- The orders in which the map's entries and a set's values are visited. -/
structure Iteration where
  keys : List Text → List Text
  mem_keys : ∀ l key, key ∈ keys l ↔ key ∈ l
  values : List Text → List Text
  mem_values : ∀ l val, val ∈ values l ↔ val ∈ l

/-! ## The threads -/

/-- Where a call of `addStat` stands. A set is named by the map it is in:
the key is the call's. -/
inductive Position
  /-- before `readLock().lock()` -/
  | lock
  /-- before `_data.get(key)` -/
  | get
  /-- before `_data.putIfAbsent(key, tmpSet)` -/
  | putIfAbsent
  /-- before `add(val)` on the set of the key in this map -/
  | add (map : ℕ)
  /-- before `readLock().unlock()` -/
  | unlock
deriving DecidableEq

/-- A thread in `execute`: the calls of `addStat` that returned, and those
to come, the first of which is at `position`. -/
structure Thread where
  position : Position
  completed : List (Text × Text)
  todo : List (Text × Text)

/-- Where `RedisOp.run` stands. Maps are named by reference. -/
inductive Flusher
  /-- before `writeLock().lock()` -/
  | waiting
  /-- before `toWrite = _data` -/
  | locked
  /-- before `_data = new …` -/
  | taken (toWrite : ℕ)
  /-- before `writeLock().unlock()` -/
  | swapped (toWrite : ℕ)
  /-- in the outer loop, with the keys to come -/
  | entries (toWrite : ℕ) (keys : List Text)
  /-- in the inner loop, with the values and the keys to come -/
  | uids (toWrite : ℕ) (key : Text) (uids keys : List Text)

/-- `RedisOp` with the threads of its bolts. -/
structure System (calls : ℕ) where
  maps : Heap DataMap
  data : ℕ
  readers : ℕ
  writer : Bool
  flusher : Flusher
  redis : Finset (Text × Text)
  threads : Fin calls → Thread

/-- The thread that takes the next step: a call of `execute` or the
flusher. -/
inductive Event (calls : ℕ)
  | call (i : Fin calls)
  | flush

namespace System

variable {calls : ℕ}

/-- The start, with all calls to come. -/
def init (visits : Fin calls → Visit) : System calls where
  maps := ⟨fun _ => ∅, 1⟩
  data := 0
  readers := 0
  writer := false
  flusher := .waiting
  redis := ∅
  threads i := ⟨.lock, [], execute (visits i)⟩

/-- A thread goes on. -/
def moves (s : System calls) (i : Fin calls) (position : Position) : System calls :=
  { s with threads := Function.update s.threads i { s.threads i with position } }

/-- The step of `addStat(key, val)` in thread `i`, with the calls behind it
in `todo`. -/
def addStat (s : System calls) (i : Fin calls) (key val : Text) (todo : List (Text × Text)) :
    System calls :=
  match (s.threads i).position with
  | .lock => if s.writer then s else { s with readers := s.readers + 1 }.moves i .get
  | .get =>
    if DataMap.has (s.maps.read s.data) key then s.moves i (.add s.data) else s.moves i .putIfAbsent
  | .putIfAbsent =>
    { s with maps := s.maps.write s.data (DataMap.putIfAbsent (s.maps.read s.data) key) }.moves i
      (.add s.data)
  | .add map =>
    { s with maps := s.maps.write map (DataMap.add (s.maps.read map) key val) }.moves i .unlock
  | .unlock =>
    { s with
      readers := s.readers - 1
      threads := Function.update s.threads i
        ⟨.lock, (s.threads i).completed ++ [(key, val)], todo⟩ }

/-- The step of thread `i`, if it has not returned. -/
def call (s : System calls) (i : Fin calls) : System calls :=
  match (s.threads i).todo with
  | [] => s
  | (key, val) :: todo => s.addStat i key val todo

/-- The step of `RedisOp.run`. The wait between two rounds is part of the
last one. -/
def flush (it : Iteration) (s : System calls) : System calls :=
  match s.flusher with
  | .waiting =>
    if s.writer = true ∨ 0 < s.readers then s else { s with writer := true, flusher := .locked }
  | .locked => { s with flusher := .taken s.data }
  | .taken toWrite =>
    { s with maps := s.maps.alloc ∅, data := s.maps.next, flusher := .swapped toWrite }
  | .swapped toWrite =>
    { s with
      writer := false
      flusher := .entries toWrite (it.keys (s.maps.read toWrite).keys) }
  | .entries _ [] => { s with flusher := .waiting }
  | .entries toWrite (key :: keys) =>
    { s with flusher := .uids toWrite key (it.values (DataMap.get (s.maps.read toWrite) key)) keys }
  | .uids toWrite _ [] keys => { s with flusher := .entries toWrite keys }
  | .uids toWrite key (uid :: uids) keys =>
    { s with redis := insert (key, uid) s.redis, flusher := .uids toWrite key uids keys }

/-- One step. -/
def step (it : Iteration) (s : System calls) : Event calls → System calls
  | .call i => s.call i
  | .flush => s.flush it

/-- The system after an interleaving. -/
def run (it : Iteration) (visits : Fin calls → Visit) (events : List (Event calls)) :
    System calls :=
  Threads.run (step it) (init visits) events

end System

end IpStat

end Storm

end Xpod
