import Mathlib.Data.BitVec
import Mathlib.Data.List.AList
import Mathlib.Tactic
import Xpod.Storm.DownLoadStat
import Xpod.Storm.Model.StatBolt
/-!
# The sums of one log

`statValue` documents what it holds for a kind of operation: how many
there were, and the sums of `buffer_count`, `response_time` and
`loading_time` over the songs listened to. The first operation of a kind
makes the value and the later ones update it, and the two do not agree on
the response time. This file says what the map holds after the loop, when
that is what is documented, and when it depends on the order.
-/

namespace Xpod

namespace Storm

namespace DownLoadStatBolt

/-! ## The operations of a kind -/

/-- The operation is sorted to the kind. -/
def isOf (k : StatKey) (op : Operation) : Bool :=
  match statOf op with
  | .ok (some stat) => stat = k
  | _ => false

/-- The operation's module is `song`. -/
def isSong (op : Operation) : Bool :=
  match op.getString "module" with
  | .ok module => module = some "song".toList
  | .error _ => false

/-- The operations sorted to the kind, in order. -/
def opsOf (k : StatKey) (ops : List Operation) : List Operation := ops.filter (isOf k)

/-- Those of them whose module is `song`. -/
def songsOf (k : StatKey) (ops : List Operation) : List Operation := (opsOf k ops).filter isSong

/-- The sum of a number over operations, wrapping around. -/
def sumOf (name : String) (ops : List Operation) : Count :=
  (ops.map fun op => op.getIntDefZero name).sum

/-- **What `statValue` documents** for the kind; nothing when no operation
is of the kind. -/
def documented (k : StatKey) (ops : List Operation) : Option (Tally Count) :=
  if (opsOf k ops).isEmpty then none
  else some ⟨(opsOf k ops).length, sumOf "buffer_count" (songsOf k ops),
    sumOf "response_time" (songsOf k ops), sumOf "loading_time" (songsOf k ops)⟩

section Kinds

variable {k : StatKey} {op : Operation} {ops ops' : List Operation}

theorem isOf_iff : isOf k op = true ↔ statOf op = .ok (some k) := by
  unfold isOf
  rcases statOf op with e | (- | stat) <;> simp

theorem isSong_of_module {module : Option Text} (h : op.getString "module" = .ok module) :
    isSong op = decide (module = some "song".toList) := by
  simp only [isSong, h]

@[simp] theorem sumOf_nil (name : String) : sumOf name [] = 0 := rfl

@[simp] theorem sumOf_cons (name : String) (op : Operation) (ops : List Operation) :
    sumOf name (op :: ops) = op.getIntDefZero name + sumOf name ops := by
  simp [sumOf]

theorem sumOf_perm (name : String) (h : ops.Perm ops') : sumOf name ops = sumOf name ops' :=
  (h.map _).sum_eq

theorem sumOf_take_add_drop (name : String) (n : ℕ) (ops : List Operation) :
    sumOf name (ops.take n) + sumOf name (ops.drop n) = sumOf name ops := by
  rw [sumOf, sumOf, ← List.sum_append, ← List.map_append, List.take_append_drop]
  rfl

/-- The kinds of the songs that were played. -/
def OfSongs (k : StatKey) : Prop :=
  k.module = .songListen ∧ (k.statType = 0 ∨ k.statType = 1 ∨ k.statType = 10)

theorem listenKey_eq_ok {t : ℤ} {url : Option Text} (h : listenKey t url = .ok (some k)) :
    k.module = .songListen ∧ k.statType = t := by
  obtain ⟨cdnInfo, -, hk⟩ := Java.bind_eq_ok.1 h
  obtain rfl := Option.some.inj (Except.ok.inj hk)
  exact ⟨rfl, rfl⟩

theorem ofSongs_of_listenKey {t : ℤ} (ht : t = 0 ∨ t = 1 ∨ t = 10)
    (h : (op.getString "url" >>= listenKey t) = .ok (some k)) : OfSongs k := by
  obtain ⟨url, -, h⟩ := Java.bind_eq_ok.1 h
  obtain ⟨hm, rfl⟩ := listenKey_eq_ok h
  exact ⟨hm, ht⟩

theorem downloadKey_eq_ok {t : ℤ} (h : downloadKey op t = .ok (some k)) :
    k.module = .songDownload := by
  obtain ⟨url, -, h⟩ := Java.bind_eq_ok.1 h
  obtain ⟨cdnInfo, -, h⟩ := Java.bind_eq_ok.1 h
  obtain ⟨quality, -, hk⟩ := Java.bind_eq_ok.1 h
  obtain rfl := Option.some.inj (Except.ok.inj hk)
  rfl

theorem ofSongs_of_song (hmodule : op.getString "module" = .ok (some "song".toList))
    (h : statOf op = .ok (some k)) : OfSongs k := by
  rw [statOf, hmodule, Java.ok_bind, if_pos rfl] at h
  obtain ⟨type, -, h⟩ := Java.bind_eq_ok.1 h
  split at h
  · obtain ⟨origin, -, h⟩ := Java.bind_eq_ok.1 h
    split at h
    · exact ofSongs_of_listenKey (.inr (.inr rfl)) h
    · simp only at h
      split at h
      · exact ofSongs_of_listenKey (.inl rfl) h
      split at h
      · exact ofSongs_of_listenKey (.inl rfl) h
      split at h
      · exact ofSongs_of_listenKey (.inr (.inl rfl)) h
      · simp [pure, Except.pure] at h
  · simp [pure, Except.pure] at h

/-- The kinds of the operations that are no songs. -/
theorem kind_of_not_song {module : Option Text}
    (hmodule : op.getString "module" = .ok module) (hsong : module ≠ some "song".toList)
    (h : statOf op = .ok (some k)) :
    k.module = .songDownload ∨ k.statType = 2 ∨ k.statType = 3 ∨ k.statType = 11 := by
  rw [statOf, hmodule, Java.ok_bind, if_neg hsong] at h
  split at h
  · -- downloads
    obtain ⟨type, -, h⟩ := Java.bind_eq_ok.1 h
    split at h
    · obtain ⟨downstatus, -, h⟩ := Java.bind_eq_ok.1 h
      split at h
      · exact .inl (downloadKey_eq_ok h)
      split at h
      · exact .inl (downloadKey_eq_ok h)
      split at h
      · exact .inl (downloadKey_eq_ok h)
      · simp [pure, Except.pure] at h
    · simp [pure, Except.pure] at h
  split at h
  · -- errors
    obtain ⟨type, -, h⟩ := Java.bind_eq_ok.1 h
    split at h
    · obtain ⟨origin, -, h⟩ := Java.bind_eq_ok.1 h
      split at h
      · obtain rfl := Option.some.inj (Except.ok.inj h)
        exact .inr (.inr (.inr rfl))
      · exact .inr (.inl (listenKey_eq_ok h).2)
    split at h
    · obtain ⟨origin, -, h⟩ := Java.bind_eq_ok.1 h
      split at h
      · obtain ⟨url, -, h⟩ := Java.bind_eq_ok.1 h
        exact .inr (.inr (.inl (listenKey_eq_ok h).2))
      split at h
      · obtain ⟨url, -, h⟩ := Java.bind_eq_ok.1 h
        obtain ⟨cdnInfo, -, h⟩ := Java.bind_eq_ok.1 h
        obtain rfl := Option.some.inj (Except.ok.inj h)
        exact .inl rfl
      · simp [pure, Except.pure] at h
    · simp [pure, Except.pure] at h
  · simp [pure, Except.pure] at h

theorem not_ofSongs_of_not_song {module : Option Text}
    (hmodule : op.getString "module" = .ok module) (hsong : module ≠ some "song".toList)
    (h : statOf op = .ok (some k)) : ¬ OfSongs k := by
  have hkind := kind_of_not_song hmodule hsong h
  rintro ⟨hlisten, htype⟩
  rw [hlisten] at hkind
  simp only [reduceCtorEq, false_or] at hkind
  omega

/-- **A kind is of songs or of no song.** Every branch of the `match` has a
`statType` of its own. -/
theorem isSong_iff_ofSongs (h : statOf op = .ok (some k)) : isSong op = true ↔ OfSongs k := by
  obtain ⟨module, hmodule, -⟩ := Java.bind_eq_ok.1 h
  rw [isSong_of_module hmodule, decide_eq_true_iff]
  constructor
  · rintro rfl
    exact ofSongs_of_song hmodule h
  · intro hk
    by_contra hsong
    exact not_ofSongs_of_not_song hmodule hsong h hk

/-- So the songs of a kind are all of its operations, or none. -/
theorem songsOf_eq (k : StatKey) (ops : List Operation) :
    songsOf k ops = opsOf k ops ∨ songsOf k ops = [] := by
  have hsong : ∀ op ∈ opsOf k ops, isSong op = true ↔ OfSongs k := fun op hop =>
    isSong_iff_ofSongs (isOf_iff.1 (List.mem_filter.1 hop).2)
  by_cases hk : OfSongs k
  · exact .inl (List.filter_eq_self.2 fun op hop => (hsong op hop).2 hk)
  · refine .inr (List.filter_eq_nil_iff.2 fun op hop => ?_)
    rw [hsong op hop]
    exact hk

end Kinds

/-! ## What the loop stores -/

/-- **What the map holds for the kind after the loop.** Only the first
song's response time is in `responseTime`; those of the later ones are in
`loadTime`. -/
def stored (k : StatKey) (ops : List Operation) : Option (Tally Count) :=
  if (opsOf k ops).isEmpty then none
  else some ⟨(opsOf k ops).length, sumOf "buffer_count" (songsOf k ops),
    sumOf "response_time" ((songsOf k ops).take 1),
    sumOf "response_time" ((songsOf k ops).drop 1) + sumOf "loading_time" (songsOf k ops)⟩

section Loop

variable {k : StatKey} {ops : List Operation}

/-- **One operation**: only the value of its kind changes. -/
theorem statsLoop_cons {ν : Type} [Add ν] [Zero ν] [One ν] {number : Operation → String → ν}
    {op : Operation} {stats stats' : Stats ν}
    (h : statsLoop number (op :: ops) stats = .ok stats') :
    ∃ stats₁, statsLoop number ops stats₁ = .ok stats' ∧ ∀ k, stats₁.lookup k =
      if isOf k op then some (accumulate (number op) (isSong op) (stats.lookup k))
      else stats.lookup k := by
  rw [statsLoop] at h
  obtain ⟨stat, hstat, h⟩ := Java.bind_eq_ok.1 h
  rcases stat with - | stat
  · refine ⟨stats, h, fun k => ?_⟩
    simp [isOf, hstat]
  · obtain ⟨module, hmodule, h⟩ := Java.bind_eq_ok.1 h
    refine ⟨_, h, fun k => ?_⟩
    rw [isSong_of_module hmodule]
    by_cases hk : stat = k
    · subst hk
      simp [isOf, hstat]
    · rw [AList.lookup_insert_ne (Ne.symm hk)]
      simp [isOf, hstat, hk]

/-- **The loop**: the value of a kind is accumulated over its operations. -/
theorem statsLoop_lookup {ν : Type} [Add ν] [Zero ν] [One ν] {number : Operation → String → ν}
    {stats stats' : Stats ν} (h : statsLoop number ops stats = .ok stats') (k : StatKey) :
    stats'.lookup k = (opsOf k ops).foldl
      (fun cc op => some (accumulate (number op) (isSong op) cc)) (stats.lookup k) := by
  induction ops generalizing stats with
  | nil =>
    obtain rfl := Except.ok.inj h
    rfl
  | cons op ops ih =>
    obtain ⟨stats₁, hrest, hlookup⟩ := statsLoop_cons h
    rw [ih hrest, hlookup k, opsOf, opsOf, List.filter_cons]
    split <;> rfl

/-- What later operations add to a value. -/
theorem foldl_accumulate_some (ops : List Operation) (cc : Tally Count) :
    ops.foldl (fun cc op => some (accumulate op.getIntDefZero (isSong op) cc)) (some cc) =
      some ⟨cc.count + ops.length, cc.kadunCount + sumOf "buffer_count" (ops.filter isSong),
        cc.responseTime, cc.loadTime + (sumOf "response_time" (ops.filter isSong) +
          sumOf "loading_time" (ops.filter isSong))⟩ := by
  induction ops generalizing cc with
  | nil => simp
  | cons op ops ih =>
    rw [List.foldl_cons, ih]
    by_cases hsong : isSong op = true
    · simp only [accumulate, hsong, if_true, List.filter_cons, sumOf_cons, List.length_cons,
        Nat.cast_add, Nat.cast_one, Option.some.injEq, Tally.mk.injEq, true_and]
      refine ⟨?_, ?_, ?_⟩ <;> ring
    · simp only [accumulate, hsong, List.filter_cons, List.length_cons, Nat.cast_add,
        Nat.cast_one, Option.some.injEq, Tally.mk.injEq, and_true, if_false,
        Bool.false_eq_true]
      ring

/-- **The map after the loop.** -/
theorem myExecute_lookup {log : Log} {stats : Stats Count} (h : myExecute log = .ok stats)
    (k : StatKey) : stats.lookup k = stored k log.operations := by
  have hkind := songsOf_eq k log.operations
  rw [statsLoop_lookup h k, AList.lookup_empty, stored]
  unfold songsOf at hkind ⊢
  generalize opsOf k log.operations = kind at hkind ⊢
  rcases kind with - | ⟨op, ops⟩
  · rfl
  rw [List.foldl_cons, foldl_accumulate_some]
  rcases hkind with hsongs | hnone
  · -- all of them are songs
    have hsong : isSong op = true := List.filter_eq_self.1 hsongs op List.mem_cons_self
    simp only [accumulate, hsong, if_true, List.filter_cons, sumOf_cons, List.length_cons,
      List.take_succ_cons, List.take_zero, List.drop_succ_cons, List.drop_zero, sumOf_nil,
      List.isEmpty_cons, Bool.false_eq_true, if_false, Nat.cast_add, Nat.cast_one, add_zero,
      Option.some.injEq, Tally.mk.injEq, true_and]
    refine ⟨?_, ?_⟩ <;> ring
  · -- none of them is
    have hsong : isSong op = false := by
      simpa using List.filter_eq_nil_iff.1 hnone op List.mem_cons_self
    have hrest : ops.filter isSong = [] := by
      simpa [List.filter_cons, hsong] using hnone
    simp only [accumulate, hsong, hrest, List.filter_cons, sumOf_nil, List.take_nil,
      List.drop_nil, List.length_cons, List.isEmpty_cons, Bool.false_eq_true, if_false,
      Nat.cast_add, Nat.cast_one, add_zero, Option.some.injEq, Tally.mk.injEq, and_true]
    ring

/-- The loop ends without exception when every operation can be sorted, so
in any order. -/
theorem statsLoop_isOk_iff {number : Operation → String → Count} {stats : Stats Count} :
    (∃ stats', statsLoop number ops stats = .ok stats') ↔
      ∀ op ∈ ops, ∃ stat, statOf op = .ok stat := by
  induction ops generalizing stats with
  | nil => exact ⟨fun _ op hop => absurd hop List.not_mem_nil, fun _ => ⟨stats, rfl⟩⟩
  | cons op ops ih =>
    rw [List.forall_mem_cons]
    constructor
    · rintro ⟨stats', h⟩
      obtain ⟨stats₁, hrest, -⟩ := statsLoop_cons h
      rw [statsLoop] at h
      obtain ⟨stat, hstat, -⟩ := Java.bind_eq_ok.1 h
      exact ⟨⟨stat, hstat⟩, ih.1 ⟨stats', hrest⟩⟩
    · rintro ⟨⟨stat, hstat⟩, hops⟩
      rw [statsLoop, hstat, Java.ok_bind]
      rcases stat with - | stat
      · exact ih.2 hops
      · -- the `match` has read the module already
        obtain ⟨module, hmodule, -⟩ := Java.bind_eq_ok.1 hstat
        simp only [hmodule, Java.ok_bind]
        exact ih.2 hops

end Loop

/-! ## When the sums are the documented ones -/

section Order

variable {k : StatKey} {ops ops' : List Operation}

theorem stored_eq_documented_iff :
    stored k ops = documented k ops ↔ sumOf "response_time" ((songsOf k ops).drop 1) = 0 := by
  unfold stored documented songsOf
  rcases opsOf k ops with - | ⟨op, rest⟩
  · simp
  rcases (op :: rest).filter isSong with - | ⟨song, songs⟩
  · simp
  · simp only [List.isEmpty_cons, Bool.false_eq_true, if_false, Option.some.injEq, Tally.mk.injEq,
      List.take_succ_cons, List.take_zero, List.drop_succ_cons, List.drop_zero, sumOf_cons,
      sumOf_nil, add_zero, true_and]
    constructor
    · rintro ⟨h, -⟩
      exact left_eq_add.1 h
    · intro h
      simp [h]

/-- The value for an order that begins with a song of the kind. -/
theorem responseTime_stored_cons {op : Operation} (hop : op ∈ songsOf k ops) {v : Tally Count}
    (h : stored k (op :: ops') = some v) : v.responseTime = op.getIntDefZero "response_time" := by
  obtain ⟨hmem, hsong⟩ := List.mem_filter.1 hop
  have hof := (List.mem_filter.1 hmem).2
  simp only [stored, songsOf, opsOf, List.filter_cons, hof, hsong, if_true, List.isEmpty_cons,
    Bool.false_eq_true, if_false, Option.some.injEq] at h
  rw [← h]
  simp

theorem stored_perm (hperm : ops'.Perm ops)
    (heq : ∀ op ∈ songsOf k ops, ∀ op' ∈ songsOf k ops,
      op.getIntDefZero "response_time" = op'.getIntDefZero "response_time") :
    stored k ops' = stored k ops := by
  have hops : (opsOf k ops').Perm (opsOf k ops) := hperm.filter _
  have hsongs : (songsOf k ops').Perm (songsOf k ops) := hops.filter _
  have hempty : (opsOf k ops').isEmpty = (opsOf k ops).isEmpty := by
    rw [Bool.eq_iff_iff, List.isEmpty_iff_length_eq_zero, List.isEmpty_iff_length_eq_zero,
      hops.length_eq]
  have hfirst : sumOf "response_time" ((songsOf k ops').take 1) =
      sumOf "response_time" ((songsOf k ops).take 1) := by
    rcases hl' : songsOf k ops' with - | ⟨op', songs'⟩
    · rw [hl', List.nil_perm] at hsongs
      rw [hsongs]
    rcases hl : songsOf k ops with - | ⟨op, songs⟩
    · rw [hl', hl] at hsongs
      exact absurd hsongs.length_eq (by simp)
    · have hmem : op' ∈ songsOf k ops := hsongs.subset (by rw [hl']; exact List.mem_cons_self)
      have hmem' : op ∈ songsOf k ops := by rw [hl]; exact List.mem_cons_self
      simpa using heq op' hmem op hmem'
  have hlater : sumOf "response_time" ((songsOf k ops').drop 1) =
      sumOf "response_time" ((songsOf k ops).drop 1) := by
    have htotal := sumOf_perm "response_time" hsongs
    rw [← sumOf_take_add_drop _ 1 (songsOf k ops'), ← sumOf_take_add_drop _ 1 (songsOf k ops),
      hfirst] at htotal
    exact add_left_cancel htotal
  rw [stored, stored, hempty, hops.length_eq, sumOf_perm _ hsongs, hfirst, hlater,
    sumOf_perm _ hsongs]

/-- Any operation of a log can come first. -/
theorem exists_perm_cons {op : Operation} {log : Log} {stats : Stats Count}
    (h : myExecute log = .ok stats) (hop : op ∈ songsOf k log.operations) :
    ∃ rest stats', (op :: rest).Perm log.operations ∧
      myExecute ⟨op :: rest, log.pubinfo⟩ = .ok stats' := by
  have hmem : op ∈ log.operations :=
    (List.mem_filter.1 (List.mem_filter.1 hop).1).1
  obtain ⟨s, t, hst⟩ := List.append_of_mem hmem
  have hperm : (op :: (s ++ t)).Perm log.operations := by
    rw [hst]
    exact List.perm_middle.symm
  obtain ⟨stats', hstats'⟩ := statsLoop_isOk_iff.2 fun op' hop' =>
    statsLoop_isOk_iff.1 ⟨stats, h⟩ op' (hperm.subset hop')
  exact ⟨s ++ t, stats', hperm, hstats'⟩

/-- **When the map holds the documented sums, and when it depends on the
order.** For every log that is processed without exception and every kind:
the value stored is the documented one if and only if the response times
of the songs of the kind after the first sum to zero; and every order of
the operations stores the same value if and only if the songs of the kind
have the same response time. -/
theorem myExecute_documented_iff (log : Log) (stats : Stats Count) (h : myExecute log = .ok stats)
    (k : StatKey) :
    (stats.lookup k = documented k log.operations ↔
      sumOf "response_time" ((songsOf k log.operations).drop 1) = 0) ∧
    ((∀ log' stats', log'.operations.Perm log.operations → myExecute log' = .ok stats' →
        stats'.lookup k = stats.lookup k) ↔
      ∀ op ∈ songsOf k log.operations, ∀ op' ∈ songsOf k log.operations,
        op.getIntDefZero "response_time" = op'.getIntDefZero "response_time") := by
  rw [myExecute_lookup h k]
  refine ⟨stored_eq_documented_iff, fun hall op hop op' hop' => ?_,
    fun heq log' stats' hperm h' => ?_⟩
  · -- put either song first: the value stored is the same
    have hresponse : ∀ op ∈ songsOf k log.operations, ∀ v, stored k log.operations = some v →
        op.getIntDefZero "response_time" = v.responseTime := by
      intro op hop v hv
      obtain ⟨rest, stats', hperm, hrun⟩ := exists_perm_cons h hop
      have hsame := hall ⟨op :: rest, log.pubinfo⟩ stats' hperm hrun
      rw [myExecute_lookup hrun k, hv] at hsame
      exact (responseTime_stored_cons hop hsame).symm
    have hne : (opsOf k log.operations).isEmpty = false :=
      List.isEmpty_eq_false_iff.2 (List.ne_nil_of_mem (List.mem_filter.1 hop).1)
    have hstored : ∃ v, stored k log.operations = some v := by
      rw [stored, hne]
      exact ⟨_, rfl⟩
    obtain ⟨v, hv⟩ := hstored
    rw [hresponse op hop v hv, hresponse op' hop' v hv]
  · rw [myExecute_lookup h' k]
    exact stored_perm hperm heq

end Order

/-- A song that was listened to, with a response time. -/
def sampleListen (responseTime : Count) : Operation where
  getObject key :=
    if key = "module".toList then some (.string "song".toList)
    else if key = "type".toList then some (.string "listen_info".toList)
    else if key = "response_time".toList then some (.integer responseTime)
    else none

/-- A log of listens. -/
def sampleLog (responseTimes : List Count) : Log :=
  ⟨responseTimes.map sampleListen, WriteToHbase.samplePubInfo⟩

/-- The kind of the listens. -/
def sampleKey : StatKey := ⟨.songListen, 0, none, ['-', '1']⟩

/-- One song is stored as documented, in its only order. -/
theorem myExecute_documented_sampleLog : ∃ stats, myExecute (sampleLog [5]) = .ok stats ∧
    stats.lookup sampleKey = documented sampleKey (sampleLog [5]).operations ∧
    ∀ log' stats', log'.operations.Perm (sampleLog [5]).operations →
      myExecute log' = .ok stats' → stats'.lookup sampleKey = stats.lookup sampleKey := by
  have hrun : myExecute (sampleLog [5]) =
      .ok ((∅ : Stats Count).insert sampleKey ⟨1, 0, 5, 0⟩) := by rfl
  have hiff := myExecute_documented_iff _ _ hrun sampleKey
  refine ⟨_, hrun, hiff.1.2 (by decide), hiff.2.2 ?_⟩
  have hsongs : songsOf sampleKey (sampleLog [5]).operations = [sampleListen 5] := by rfl
  rw [hsongs]
  simp

/-- **The second song's response time goes to the loading time**, and
another order stores another value. -/
theorem myExecute_misplaces_response :
    (∃ stats, myExecute (sampleLog [5, 7]) = .ok stats ∧
      stats.lookup sampleKey = some ⟨2, 0, 5, 7⟩) ∧
    (∃ stats, myExecute (sampleLog [7, 5]) = .ok stats ∧
      stats.lookup sampleKey = some ⟨2, 0, 7, 5⟩) ∧
    documented sampleKey (sampleLog [5, 7]).operations = some ⟨2, 0, 12, 0⟩ := by
  exact ⟨⟨(∅ : Stats Count).insert sampleKey ⟨2, 0, 5, 7⟩, by rfl, by rfl⟩,
    ⟨(∅ : Stats Count).insert sampleKey ⟨2, 0, 7, 5⟩, by rfl, by rfl⟩, by rfl⟩

end DownLoadStatBolt

end Storm

end Xpod
