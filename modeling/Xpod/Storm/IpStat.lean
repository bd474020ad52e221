import Mathlib.Algebra.BigOperators.Fin
import Mathlib.Tactic
import Xpod.Common.Java
import Xpod.Common.Threads
import Xpod.Storm.Model.IpStat
/-!
# Where the visitors are

Three places hold visitors: the map `_data`, the map the flusher is
writing, and Redis. Together they hold, at every moment of every
interleaving, exactly what the calls of `addStat` have added. So no
visitor is lost, and a visitor of an hour is one of its day as long as no
key of a day is one of an hour as well: the keys join their parts with an
underscore, which a country may hold.
-/

namespace Xpod

namespace Storm

namespace IpStat

/-! ## The keys -/

section Keys

variable {time time' : DateTime} {country country' : Text} {province province' : Option Text}

/-- What stands in front of the first underscore, and behind it, can be
read off a key. -/
theorem append_underscore_inj {a b d e : Text} (ha : '_' ∉ a) (hb : '_' ∉ b)
    (h : a ++ '_' :: d = b ++ '_' :: e) : a = b ∧ d = e := by
  have hcut := congrArg (Java.cutAt '_') h
  rw [Java.cutAt_append ha, Java.cutAt_append hb] at hcut
  exact Prod.mk.inj (Option.some.inj hcut)

/-- **The hour's key tells the day's key.** The numbers in front hold no
underscore. -/
theorem dayKey_eq_of_hourKey_eq
    (h : hourKey time country province = hourKey time' country' province') :
    dayKey time country province = dayKey time' country' province' := by
  have hdigits : ∀ n, '_' ∉ Nat.toDigits 10 n := Java.not_mem_toDigits (by decide)
  obtain ⟨hyear, h⟩ :=
    append_underscore_inj (underscore_notMem_intText _) (underscore_notMem_intText _) h
  obtain ⟨hmonth, h⟩ := append_underscore_inj (hdigits _) (hdigits _) h
  obtain ⟨hday, h⟩ := append_underscore_inj (hdigits _) (hdigits _) h
  obtain ⟨-, hplace⟩ := append_underscore_inj (hdigits _) (hdigits _) h
  rw [dayKey, dayKey, hyear, hmonth, hday, hplace]

/-- A visit's hour key is longer than its day key. -/
theorem dayKey_ne_hourKey : dayKey time country province ≠ hourKey time country province := by
  intro h
  have hlength := congrArg List.length h
  simp only [dayKey, hourKey, List.length_append, List.length_cons] at hlength
  omega

end Keys

section Stats

variable {v w : Visit} {a b : Stat}

theorem Visit.exists_keys (h : v.stat = some a) : ∃ (time : DateTime) (country : Text)
    (province : Option Text),
    a.dayKey = IpStat.dayKey time country province ∧
      a.hourKey = IpStat.hourKey time country province := by
  simp only [Visit.stat, Option.bind_eq_bind, Option.bind_eq_some_iff] at h
  obtain ⟨loc, -, country, -, h⟩ := h
  split_ifs at h
  obtain ⟨uuid, -, h⟩ := Option.bind_eq_some_iff.1 h
  obtain ⟨time, -, h⟩ := Option.bind_eq_some_iff.1 h
  cases h
  exact ⟨time, country, loc.province, rfl, rfl⟩

theorem Visit.dayKey_eq (ha : v.stat = some a) (hb : w.stat = some b)
    (h : a.hourKey = b.hourKey) : a.dayKey = b.dayKey := by
  obtain ⟨time, country, province, haday, hahour⟩ := v.exists_keys ha
  obtain ⟨time', country', province', hbday, hbhour⟩ := w.exists_keys hb
  rw [haday, hbday]
  exact dayKey_eq_of_hourKey_eq (by rw [← hahour, ← hbhour, h])

theorem Visit.dayKey_ne (ha : v.stat = some a) : a.dayKey ≠ a.hourKey := by
  obtain ⟨time, country, province, hday, hhour⟩ := v.exists_keys ha
  rw [hday, hhour]
  exact dayKey_ne_hourKey

theorem execute_of_stat (h : v.stat = some a) :
    execute v = [(a.dayKey, a.uuid), (a.hourKey, a.uuid)] := by rw [execute, h]

/-- A call of `addStat` is for the day or for the hour of a visit. -/
theorem exists_stat_of_mem_execute {call : Text × Text} (h : call ∈ execute v) :
    ∃ a, v.stat = some a := by
  rcases hstat : v.stat with - | a
  · rw [execute, hstat] at h
    simp at h
  · exact ⟨a, rfl⟩

end Stats

/-! ## The concurrent map -/

namespace DataMap

variable {m : DataMap} {key val k u : Text}

theorem has_iff : m.has key = true ↔ key ∈ m := AList.lookup_isSome

theorem mem_of_mem_get (h : u ∈ get m k) : k ∈ m := by
  by_contra hk
  rw [get, AList.lookup_eq_none.2 hk] at h
  simp at h

@[simp] theorem get_putIfAbsent : get (putIfAbsent m key) k = get m k := by
  rw [putIfAbsent]
  split_ifs with hkey
  · rfl
  · rw [has_iff] at hkey
    by_cases hk : k = key
    · subst hk
      rw [get, get, AList.lookup_insert, AList.lookup_eq_none.2 hkey]
      rfl
    · rw [get, get, AList.lookup_insert_ne hk]

theorem mem_putIfAbsent : k ∈ putIfAbsent m key ↔ k = key ∨ k ∈ m := by
  rw [putIfAbsent]
  split_ifs with hkey
  · rw [has_iff] at hkey
    exact ⟨Or.inr, fun h => h.elim (fun hk => hk ▸ hkey) id⟩
  · exact AList.mem_insert _

/-- A set of the map takes the value. -/
theorem mem_get_add (hkey : key ∈ m) :
    u ∈ get (add m key val) k ↔ u ∈ get m k ∨ (k = key ∧ u = val) := by
  rw [add, if_pos (has_iff.2 hkey)]
  by_cases hk : k = key
  · subst hk
    rw [get, AList.lookup_insert, Option.getD_some, List.mem_insert_iff]
    tauto
  · rw [get, AList.lookup_insert_ne hk, get]
    tauto

theorem mem_add : k ∈ add m key val ↔ k ∈ m := by
  rw [add]
  split_ifs with hkey
  · rw [has_iff] at hkey
    rw [AList.mem_insert]
    exact ⟨fun h => h.elim (fun hk => hk ▸ hkey) id, Or.inr⟩
  · rfl

end DataMap

/-! ## The three places -/

namespace Thread

/-- What the thread has added: the calls that returned, and the one that is
about to. -/
def added (t : Thread) : List (Text × Text) :=
  t.completed ++ if t.position = .unlock then t.todo.take 1 else []

/-- The read locks the thread holds. -/
def readLocks (t : Thread) : ℕ := if t.position = .lock then 0 else 1

/-- **What a thread keeps.** Its calls of `addStat` are those of `execute`,
and it adds to a set of the current map. -/
structure Sound (v : Visit) (data : ℕ) (m : DataMap) (t : Thread) : Prop where
  program : t.completed ++ t.todo = execute v
  target : ∀ map, t.position = .add map → map = data ∧ ∀ call ∈ t.todo.head?, call.1 ∈ m

theorem completed_subset_added {t : Thread} {call : Text × Text} (h : call ∈ t.completed) :
    call ∈ t.added := List.mem_append_left _ h

end Thread

namespace Flusher

/-- The map that is being written. -/
def toWrite : Flusher → Option ℕ
  | waiting | locked => none
  | taken map | swapped map | entries map _ | uids map _ _ _ => some map

/-- The flusher holds the write lock. -/
def locks : Flusher → Bool
  | locked | taken _ | swapped _ => true
  | waiting | entries _ _ | uids _ _ _ _ => false

/-- Still to be written, if the map holds it. -/
def Pending : Flusher → Text → Text → Prop
  | waiting, _, _ | locked, _, _ => False
  | taken _, _, _ | swapped _, _, _ => True
  | entries _ keys, key, _ => key ∈ keys
  | uids _ entry left keys, key, uid => key ∈ keys ∨ (key = entry ∧ uid ∈ left)

end Flusher

namespace System

variable {calls : ℕ}

/-- The visitor is in `_data`, in the map that is being written, or in
Redis. -/
def Held (s : System calls) (key uid : Text) : Prop :=
  uid ∈ DataMap.get (s.maps.read s.data) key ∨
    (∃ map ∈ s.flusher.toWrite, uid ∈ DataMap.get (s.maps.read map) key) ∨
    (key, uid) ∈ s.redis

instance decidableHeld (s : System calls) (key uid : Text) : Decidable (s.Held key uid) :=
  inferInstanceAs (Decidable (_ ∨ _ ∨ _))

/-- **What every step keeps.** -/
structure Sound (visits : Fin calls → Visit) (s : System calls) : Prop where
  threads : ∀ i, (s.threads i).Sound (visits i) s.data (s.maps.read s.data)
  /-- the lock counts its readers -/
  readers : s.readers = ∑ i, (s.threads i).readLocks
  writer : s.writer = s.flusher.locks
  exclusive : s.writer = true → s.readers = 0
  data_lt : s.data < s.maps.next
  /-- the map that is written is not the current one, but for a moment -/
  batch : ∀ map ∈ s.flusher.toWrite,
    map < s.maps.next ∧ (map = s.data ↔ s.flusher = .taken map)
  /-- nothing is skipped -/
  pending : ∀ map ∈ s.flusher.toWrite, ∀ key, ∀ uid ∈ DataMap.get (s.maps.read map) key,
    s.flusher.Pending key uid ∨ (key, uid) ∈ s.redis
  /-- nothing else is written -/
  reading : ∀ map key uids keys, s.flusher = .uids map key uids keys →
    ∀ uid ∈ uids, uid ∈ DataMap.get (s.maps.read map) key
  /-- **the three places hold what was added** -/
  held : ∀ key uid, s.Held key uid ↔ ∃ i, (key, uid) ∈ (s.threads i).added

namespace Sound

variable {visits : Fin calls → Visit} {s : System calls} {i : Fin calls}
variable {it : Iteration} {key val : Text} {todo : List (Text × Text)}

theorem init (visits : Fin calls → Visit) : (init visits).Sound visits where
  threads i := ⟨rfl, fun map h => by simp [System.init] at h⟩
  readers := by simp [System.init, Thread.readLocks]
  writer := rfl
  exclusive h := by simp [System.init] at h
  data_lt := by simp [System.init]
  batch map h := by simp [System.init, Flusher.toWrite] at h
  pending map h := by simp [System.init, Flusher.toWrite] at h
  reading map key uids keys h := by simp [System.init] at h
  held key uid := by
    simp [Held, System.init, Flusher.toWrite, Thread.added, DataMap.get]

/-- A thread inside `addStat` keeps the flusher out. -/
theorem writer_eq_false (h : s.Sound visits) (hpos : (s.threads i).position ≠ .lock) :
    s.writer = false := by
  by_contra hwriter
  have hzero := h.exclusive (by simpa using hwriter)
  rw [h.readers, Finset.sum_eq_zero_iff] at hzero
  have hi := hzero i (Finset.mem_univ i)
  rw [Thread.readLocks, if_neg hpos] at hi
  exact absurd hi one_ne_zero

/-! ### The steps of a call -/

/-- **What a step of a call may do.** The flusher is kept out; the current
map gets the values the thread counts as added and loses none. -/
theorem of_call (h : s.Sound visits) (hwriter : s.writer = false) (i : Fin calls) (t : Thread)
    (m : DataMap) (readers : ℕ) (new : List (Text × Text)) (ht : t.Sound (visits i) s.data m)
    (hkeys : ∀ k ∈ s.maps.read s.data, k ∈ m)
    (hreaders : readers + (s.threads i).readLocks = s.readers + t.readLocks)
    (hm : ∀ key uid, uid ∈ DataMap.get m key ↔
      uid ∈ DataMap.get (s.maps.read s.data) key ∨ (key, uid) ∈ new)
    (hadded : ∀ call, call ∈ t.added ↔ call ∈ (s.threads i).added ∨ call ∈ new) :
    ({ s with
      maps := s.maps.write s.data m
      readers
      threads := Function.update s.threads i t } : System calls).Sound visits := by
  have hbatch : ∀ map ∈ s.flusher.toWrite, map ≠ s.data := by
    intro map hmap heq
    have hlocks := h.writer
    rw [hwriter, (h.batch map hmap).2.1 heq] at hlocks
    exact Bool.false_ne_true hlocks
  have hread : ∀ map ∈ s.flusher.toWrite, (s.maps.write s.data m).read map = s.maps.read map :=
    fun map hmap => Heap.read_write_of_ne m (hbatch map hmap)
  refine ⟨?_, ?_, h.writer, ?_, h.data_lt, h.batch, ?_, ?_, ?_⟩
  · simp only [Heap.read_write_self]
    refine (Function.forall_update_iff s.threads (fun j t => t.Sound (visits j) s.data m)).2
      ⟨ht, fun j _ => ⟨(h.threads j).program, fun map hmap => ?_⟩⟩
    obtain ⟨hdata, hhead⟩ := (h.threads j).target map hmap
    exact ⟨hdata, fun call hcall => hkeys _ (hhead call hcall)⟩
  · have hsum := Threads.sum_update_add s.threads i t Thread.readLocks
    have hcount := h.readers
    simp only at hsum hcount ⊢
    omega
  · intro hw
    rw [hwriter] at hw
    exact absurd hw (by decide)
  · intro map hmap key uid huid
    simp only [hread map hmap] at huid
    exact h.pending map hmap key uid huid
  · intro map key uids keys hflusher uid huid
    have hmap : map ∈ s.flusher.toWrite := by
      rw [show s.flusher = _ from hflusher]
      rfl
    simp only [hread map hmap]
    exact h.reading map key uids keys hflusher uid huid
  · -- what is new in the map is what is new in the thread
    intro key uid
    have hbatches : (∃ map ∈ s.flusher.toWrite,
          uid ∈ DataMap.get ((s.maps.write s.data m).read map) key) ↔
        ∃ map ∈ s.flusher.toWrite, uid ∈ DataMap.get (s.maps.read map) key := by
      refine exists_congr fun map => and_congr_right fun hmap => ?_
      rw [hread map hmap]
    have hold := h.held key uid
    rw [Held] at hold
    rw [Held]
    simp only [Heap.read_write_self, hm]
    rw [hbatches, Function.exists_update_iff s.threads (fun _ t => (key, uid) ∈ t.added), hadded]
    have hsplit := Function.exists_update_iff (a := i) (b := s.threads i) s.threads
      fun _ t => (key, uid) ∈ t.added
    rw [Function.update_eq_self] at hsplit
    rw [or_right_comm, hold, hsplit, or_right_comm]

/-- A step that only moves the thread on. -/
theorem of_moves (h : s.Sound visits) (hwriter : s.writer = false) (i : Fin calls)
    (position : Position) (readers : ℕ) (hold : (s.threads i).position ≠ .unlock)
    (hnew : position ≠ .unlock)
    (htarget : ∀ map, position = .add map → map = s.data ∧
      ∀ call ∈ (s.threads i).todo.head?, call.1 ∈ s.maps.read s.data)
    (hreaders : readers + (s.threads i).readLocks =
      s.readers + ({ s.threads i with position } : Thread).readLocks) :
    ({ s with readers }.moves i position : System calls).Sound visits := by
  have hcall := h.of_call hwriter i { s.threads i with position } (s.maps.read s.data) readers []
    ⟨(h.threads i).program, htarget⟩ (fun _ hk => hk) hreaders (by simp)
    (by simp [Thread.added, hold, hnew])
  rwa [Heap.write_read_self] at hcall

theorem addStat (h : s.Sound visits) (htodo : (s.threads i).todo = (key, val) :: todo) :
    (s.addStat i key val todo).Sound visits := by
  have hprogram := (h.threads i).program
  rw [System.addStat]
  rcases hpos : (s.threads i).position with _ | _ | _ | map | _
  · -- lock
    by_cases hwriter : s.writer = true
    · rwa [if_pos hwriter]
    · rw [if_neg hwriter]
      refine h.of_moves (Bool.eq_false_iff.2 hwriter) i .get (s.readers + 1) (by simp [hpos])
        (by simp) (by simp) ?_
      simp [Thread.readLocks, hpos]
  · -- get
    have hwriter : s.writer = false := h.writer_eq_false (i := i) (by simp [hpos])
    by_cases hhas : DataMap.has (s.maps.read s.data) key = true
    · simp only [hhas, if_true]
      refine h.of_moves hwriter i (.add s.data) s.readers (by simp [hpos]) (by simp) ?_
        (by simp [Thread.readLocks, hpos])
      rintro map ⟨⟩
      exact ⟨rfl, by simpa [htodo] using DataMap.has_iff.1 hhas⟩
    · simp only [hhas, Bool.false_eq_true, if_false]
      exact h.of_moves hwriter i .putIfAbsent s.readers (by simp [hpos]) (by simp) (by simp)
        (by simp [Thread.readLocks, hpos])
  · -- putIfAbsent
    have hwriter : s.writer = false := h.writer_eq_false (i := i) (by simp [hpos])
    refine h.of_call hwriter i { s.threads i with position := .add s.data } _ s.readers []
      ⟨hprogram, ?_⟩ ?_ ?_ ?_ ?_
    · rintro map ⟨⟩
      exact ⟨rfl, by simp [htodo, DataMap.mem_putIfAbsent]⟩
    · exact fun k hk => DataMap.mem_putIfAbsent.2 (Or.inr hk)
    · simp [Thread.readLocks, hpos]
    · simp
    · simp [Thread.added, hpos]
  · -- add
    have hwriter : s.writer = false := h.writer_eq_false (i := i) (by simp [hpos])
    obtain ⟨rfl, hkey⟩ := (h.threads i).target map hpos
    have hmem : key ∈ s.maps.read s.data := hkey (key, val) (by simp [htodo])
    refine h.of_call hwriter i { s.threads i with position := .unlock } _ s.readers [(key, val)]
      ⟨hprogram, by simp⟩ ?_ ?_ ?_ ?_
    · exact fun k hk => DataMap.mem_add.2 hk
    · simp [Thread.readLocks, hpos]
    · intro k u
      rw [DataMap.mem_get_add hmem]
      simp
    · simp [Thread.added, hpos, htodo]
  · -- unlock
    have hwriter : s.writer = false := h.writer_eq_false (i := i) (by simp [hpos])
    have hlocks : (s.threads i).readLocks = 1 := by simp [Thread.readLocks, hpos]
    have hone : (s.threads i).readLocks ≤ s.readers :=
      h.readers ▸ Finset.single_le_sum (f := fun j => (s.threads j).readLocks)
        (fun _ _ => Nat.zero_le _) (Finset.mem_univ i)
    have hcall := h.of_call hwriter i ⟨.lock, (s.threads i).completed ++ [(key, val)], todo⟩
      (s.maps.read s.data) (s.readers - 1) []
      ⟨by simpa [htodo] using hprogram, by simp⟩ (fun _ hk => hk)
      (by rw [hlocks, Nat.sub_add_cancel (hlocks ▸ hone)]; rfl) (by simp)
      (by simp [Thread.added, hpos, htodo])
    rwa [Heap.write_read_self] at hcall

theorem call (h : s.Sound visits) (i : Fin calls) : (s.call i).Sound visits := by
  rcases htodo : (s.threads i).todo with - | ⟨⟨key, val⟩, todo⟩
  · simpa only [System.call, htodo] using h
  · simpa only [System.call, htodo] using h.addStat htodo

/-! ### The steps of the flusher -/

/-- **What a step of the flusher may do outside the swap.** The maps stay,
and what the three places hold together. -/
theorem of_flush (h : s.Sound visits) (flusher : Flusher) (writer : Bool)
    (redis : Finset (Text × Text)) (hwriter : writer = flusher.locks)
    (hexclusive : writer = true → s.readers = 0)
    (hbatch : ∀ map ∈ flusher.toWrite, map < s.maps.next ∧ (map = s.data ↔ flusher = .taken map))
    (hpending : ∀ map ∈ flusher.toWrite, ∀ key, ∀ uid ∈ DataMap.get (s.maps.read map) key,
      flusher.Pending key uid ∨ (key, uid) ∈ redis)
    (hreading : ∀ map key uids keys, flusher = .uids map key uids keys →
      ∀ uid ∈ uids, uid ∈ DataMap.get (s.maps.read map) key)
    (hheld : ∀ key uid,
      ({ s with flusher, redis, writer } : System calls).Held key uid ↔ s.Held key uid) :
    ({ s with flusher, redis, writer } : System calls).Sound visits :=
  ⟨h.threads, h.readers, hwriter, hexclusive, h.data_lt, hbatch, hpending, hreading,
    fun key uid => (hheld key uid).trans (h.held key uid)⟩

/-- The swap: all threads are outside of `addStat`. -/
theorem swap (h : s.Sound visits) {map : ℕ} (hf : s.flusher = .taken map) :
    ({ s with maps := s.maps.alloc ∅, data := s.maps.next, flusher := .swapped map } :
      System calls).Sound visits := by
  obtain ⟨hlt, hdata⟩ := h.batch map (by rw [hf]; rfl)
  have hwriter := h.writer
  rw [hf, Flusher.locks] at hwriter
  have hread : (s.maps.alloc ∅).read map = s.maps.read map := Heap.read_alloc_of_lt ∅ hlt
  have hlock : ∀ i, (s.threads i).position = .lock := by
    intro i
    by_contra hpos
    exact absurd (h.writer_eq_false hpos) (by simp [hwriter])
  refine ⟨fun i => ⟨(h.threads i).program, ?_⟩, h.readers, hwriter, h.exclusive,
    Nat.lt_succ_self _, ?_, fun _ _ _ _ _ => Or.inl trivial, fun _ _ _ _ hf => by simp at hf, ?_⟩
  · intro map hmap
    exact absurd ((hlock i).symm.trans hmap) (by simp)
  · rintro _ ⟨⟩
    exact ⟨Nat.lt_succ_of_lt hlt, by simp [hlt.ne]⟩
  · -- the old map is now the one to write
    intro key uid
    rw [← h.held key uid, Held, Held, hf]
    simp only [Flusher.toWrite, Option.mem_some_iff, exists_eq_left', Heap.read_alloc_next, hread]
    rw [← hdata.2 hf]
    simp [DataMap.get]

section Writing

variable {map : ℕ} {keys uids : List Text}

/-- **What a step may do while a map is written.** What it writes is in the
map. -/
theorem of_writing (h : s.Sound visits) (hold : s.flusher.toWrite = some map)
    (holdTaken : s.flusher ≠ .taken map) (flusher : Flusher) (writer : Bool)
    (redis : Finset (Text × Text)) (hnew : flusher.toWrite = some map)
    (hnewTaken : flusher ≠ .taken map) (hwriter : writer = flusher.locks)
    (hexclusive : writer = true → s.readers = 0)
    (hpending : ∀ key, ∀ uid ∈ DataMap.get (s.maps.read map) key,
      flusher.Pending key uid ∨ (key, uid) ∈ redis)
    (hreading : ∀ map key uids keys, flusher = .uids map key uids keys →
      ∀ uid ∈ uids, uid ∈ DataMap.get (s.maps.read map) key)
    (hkept : s.redis ⊆ redis)
    (hwritten : ∀ key uid, (key, uid) ∈ redis →
      (key, uid) ∈ s.redis ∨ uid ∈ DataMap.get (s.maps.read map) key) :
    ({ s with flusher, redis, writer } : System calls).Sound visits := by
  obtain ⟨hlt, hdata⟩ := h.batch map hold
  have hne : map ≠ s.data := fun heq => holdTaken (hdata.1 heq)
  refine h.of_flush flusher writer redis hwriter hexclusive ?_ ?_ hreading ?_
  · intro map' hmap'
    obtain rfl : map = map' := Option.some.inj (hnew.symm.trans hmap')
    exact ⟨hlt, iff_of_false hne hnewTaken⟩
  · intro map' hmap'
    obtain rfl : map = map' := Option.some.inj (hnew.symm.trans hmap')
    exact hpending
  · intro key uid
    have hout : (key, uid) ∈ s.redis → (key, uid) ∈ redis := fun hredis => hkept hredis
    have hin := hwritten key uid
    simp only [Held, hold, hnew, Option.mem_some_iff, exists_eq_left']
    -- what is new in the store is in the map
    refine or_congr_right ⟨fun hnow => ?_, Or.imp_right hout⟩
    exact hnow.elim Or.inl fun hredis => (hin hredis).symm

/-- A turn of the outer loop. -/
theorem flush_entries (h : s.Sound visits) (it : Iteration) (hf : s.flusher = .entries map keys) :
    (s.flush it).Sound visits := by
  have hto : s.flusher.toWrite = some map := by rw [hf]; rfl
  have hwriter := h.writer
  have hpending := h.pending map hto
  rw [hf] at hwriter hpending
  rcases keys with - | ⟨key, keys⟩
  · -- all keys are written
    simp only [System.flush, hf]
    refine h.of_flush .waiting s.writer s.redis hwriter h.exclusive ?_ ?_ (by simp) ?_
    · simp [Flusher.toWrite]
    · simp [Flusher.toWrite]
    · intro key uid
      have hredis : uid ∈ DataMap.get (s.maps.read map) key → (key, uid) ∈ s.redis := fun huid =>
        (hpending key uid huid).resolve_left (by simp [Flusher.Pending])
      simp only [Held, hf, Flusher.toWrite, Option.mem_some_iff, exists_eq_left']
      simp only [Option.mem_def, reduceCtorEq, false_and, exists_false, false_or]
      rw [or_iff_right_of_imp hredis]
  · simp only [System.flush, hf]
    refine h.of_writing hto (by simp [hf]) (.uids map key _ keys) s.writer s.redis rfl (by simp)
      hwriter h.exclusive ?_ ?_ subset_rfl (fun _ _ => Or.inl)
    · intro k u huid
      refine (hpending k u huid).imp_left fun hk => ?_
      rcases List.mem_cons.1 hk with rfl | hk
      · exact Or.inr ⟨rfl, (it.mem_values _ _).2 huid⟩
      · exact Or.inl hk
    · rintro _ _ _ _ ⟨⟩ uid huid
      exact (it.mem_values _ _).1 huid

/-- A turn of the inner loop. -/
theorem flush_uids (h : s.Sound visits) (it : Iteration)
    (hf : s.flusher = .uids map key uids keys) : (s.flush it).Sound visits := by
  have hto : s.flusher.toWrite = some map := by rw [hf]; rfl
  have hwriter := h.writer
  have hpending := h.pending map hto
  have hreading := h.reading map key uids keys hf
  rw [hf] at hwriter hpending
  rcases uids with - | ⟨uid, uids⟩
  · -- all values of the key are written
    simp only [System.flush, hf]
    refine h.of_writing hto (by simp [hf]) (.entries map keys) s.writer s.redis rfl (by simp)
      hwriter h.exclusive ?_ (by simp) subset_rfl (fun _ _ => Or.inl)
    intro k u huid
    exact (hpending k u huid).imp_left fun hk => hk.resolve_right (by simp)
  · -- one `sadd`
    simp only [System.flush, hf]
    refine h.of_writing hto (by simp [hf]) (.uids map key uids keys) s.writer
      (insert (key, uid) s.redis) rfl (by simp) hwriter h.exclusive ?_ ?_
      (Finset.subset_insert _ _) ?_
    · intro k u huid
      rw [Finset.mem_insert, Prod.mk.injEq]
      rcases hpending k u huid with (hk | ⟨hk, hu⟩) | hredis
      · exact Or.inl (Or.inl hk)
      · rcases List.mem_cons.1 hu with hu | hu
        · exact Or.inr (Or.inl ⟨hk, hu⟩)
        · exact Or.inl (Or.inr ⟨hk, hu⟩)
      · exact Or.inr (Or.inr hredis)
    · rintro _ _ _ _ ⟨⟩ u hu
      exact hreading u (List.mem_cons_of_mem _ hu)
    · intro k u hku
      rcases Finset.mem_insert.1 hku with heq | hku
      · obtain ⟨rfl, rfl⟩ := Prod.mk.inj heq
        exact Or.inr (hreading u List.mem_cons_self)
      · exact Or.inl hku

end Writing

theorem flush (h : s.Sound visits) (it : Iteration) : (s.flush it).Sound visits := by
  rcases hf : s.flusher with _ | _ | map | map | ⟨map, keys⟩ | ⟨map, key, uids, keys⟩
  · -- waiting
    simp only [System.flush, hf]
    by_cases hbusy : s.writer = true ∨ 0 < s.readers
    · rwa [if_pos hbusy]
    · rw [if_neg hbusy]
      refine h.of_flush .locked true s.redis rfl (fun _ => by omega) ?_ ?_ (by simp) ?_
      · simp [Flusher.toWrite]
      · simp [Flusher.toWrite]
      · simp [Held, Flusher.toWrite, hf]
  · -- locked
    have hwriter := h.writer
    rw [hf] at hwriter
    simp only [System.flush, hf]
    refine h.of_flush (.taken s.data) s.writer s.redis hwriter h.exclusive ?_ ?_ (by simp) ?_
    · rintro _ ⟨⟩
      exact ⟨h.data_lt, by simp⟩
    · exact fun _ _ _ _ _ => Or.inl trivial
    · simp [Held, Flusher.toWrite, hf]
  · simpa only [System.flush, hf] using h.swap hf
  · -- swapped
    simp only [System.flush, hf]
    refine h.of_writing (by rw [hf]; rfl) (by simp [hf])
      (.entries map (it.keys (s.maps.read map).keys)) false s.redis rfl (by simp) rfl (by simp)
      ?_ (by simp) subset_rfl (fun _ _ => Or.inl)
    intro key uid huid
    exact Or.inl ((it.mem_keys _ _).2 (AList.mem_keys.1 (DataMap.mem_of_mem_get huid)))
  · exact h.flush_entries it hf
  · exact h.flush_uids it hf

end Sound

variable {it : Iteration} {visits : Fin calls → Visit}

theorem step_sound {s : System calls} (h : s.Sound visits) (e : Event calls) :
    (s.step it e).Sound visits := by
  cases e with
  | call i => exact h.call i
  | flush => exact h.flush it

/-- **Every interleaving keeps the three places in step with the calls.** -/
theorem run_sound (it : Iteration) (visits : Fin calls → Visit) (events : List (Event calls)) :
    (run it visits events).Sound visits :=
  Threads.run_keeps (fun s e (h : s.Sound visits) => step_sound h e) (Sound.init visits) events

/-! ## Visitors of an hour and of its day -/

/-- Every visitor of a call of `addStat` that returned is in one of the
three places. -/
def KeepsCompleted (s : System calls) : Prop :=
  ∀ i, ∀ call ∈ (s.threads i).completed, s.Held call.1 call.2

/-- A visitor in the set of an hour is in the set of its day, each in one
of the three places. -/
def HoursWithinDays (visits : Fin calls → Visit) (s : System calls) : Prop :=
  ∀ i a, (visits i).stat = some a → ∀ uid, s.Held a.hourKey uid → s.Held a.dayKey uid

theorem run_keepsCompleted (it : Iteration) (visits : Fin calls → Visit)
    (events : List (Event calls)) : (run it visits events).KeepsCompleted := by
  intro i call hcall
  exact ((run_sound it visits events).held call.1 call.2).2
    ⟨i, Thread.completed_subset_added hcall⟩

/-- What a thread has added is a first part of its calls. -/
theorem Sound.added_prefix {s : System calls} (h : s.Sound visits) (i : Fin calls) :
    (s.threads i).added <+: execute (visits i) := by
  rw [← (h.threads i).program, Thread.added]
  refine (List.prefix_append_right_inj _).2 ?_
  split_ifs
  · exact List.take_prefix 1 _
  · exact List.nil_prefix

theorem Sound.exists_stat {s : System calls} (h : s.Sound visits) {i : Fin calls}
    {call : Text × Text} (hcall : call ∈ (s.threads i).added) : ∃ a, (visits i).stat = some a :=
  exists_stat_of_mem_execute ((h.added_prefix i).subset hcall)

theorem Sound.added_cases {s : System calls} (h : s.Sound visits) {i : Fin calls} {a : Stat}
    (ha : (visits i).stat = some a) :
    (s.threads i).added = [] ∨ (s.threads i).added = [(a.dayKey, a.uuid)] ∨
      (s.threads i).added = [(a.dayKey, a.uuid), (a.hourKey, a.uuid)] := by
  have hprefix := h.added_prefix i
  rw [execute_of_stat ha, ← List.mem_inits] at hprefix
  simpa [List.inits] using hprefix

/-- Four steps of one call: it has added its visitor to the day. -/
theorem run_four {i : Fin calls} {a : Stat} (ha : (visits i).stat = some a) :
    (run it visits [.call i, .call i, .call i, .call i]).threads =
      Function.update (init visits).threads i ⟨.unlock, [], execute (visits i)⟩ := by
  simp [run, step, System.call, addStat, moves, init, execute_of_stat ha, DataMap.has]

/-- Maps and sets visited in the order of their lists. -/
def listOrder : Iteration := ⟨id, fun _ _ => Iff.rfl, id, fun _ _ => Iff.rfl⟩

/-- Two visits of one day; the country of the first starts with the hour of
the second. -/
def sampleVisits : Fin 2 → Visit :=
  ![⟨some { country := some "9_x".toList, province := some "y".toList }, some "u".toList,
      some ⟨2014, 6, 15, 8⟩⟩,
    ⟨some { country := some "x".toList, province := some "y".toList }, some "w".toList,
      some ⟨2014, 6, 15, 9⟩⟩]

end System

end IpStat

end Storm

end Xpod
