import Mathlib.Data.BitVec
import Mathlib.Tactic
import Xpod.Common.BigEndian
import Xpod.Storm.Model.RecomendExecute
/-!
# Durations

A duration comes as an `Integer`, a `Long` or a string of digits, and is
read as a `Long`. Both kinds of action then take its low 32 bits, and a
listen multiplies them by a thousand in 32 bits: what is stored is the
duration exactly when it fits the signed 32 bits it has passed through.
-/

namespace Xpod

namespace Storm

namespace RecomendPro

/-! ## Narrow numbers -/

/-- The number that the bytes of a cell stand for. -/
def stored (value : List UInt8) : ℤ :=
  (BitVec.ofNat (8 * value.length) (BigEndian.read value)).toInt

theorem stored_intBytes (n : BitVec 32) : stored (intBytes n) = n.toInt := by
  have hlen : (intBytes n).length = 4 := BigEndian.length_write 4 _
  rw [stored, hlen, intBytes, BigEndian.read_write n.isLt]
  exact congrArg BitVec.toInt (BitVec.ofNat_toNat 32 n)

theorem stored_longBytes (n : BitVec 64) : stored (longBytes n) = n.toInt := by
  have hlen : (longBytes n).length = 8 := BigEndian.length_write 8 _
  rw [stored, hlen, longBytes, BigEndian.read_write n.isLt]
  exact congrArg BitVec.toInt (BitVec.ofNat_toNat 64 n)

/-- A number that is cut to 32 bits stays itself only if it fits them. -/
theorem bmod_eq_self_iff (n : ℕ) : (n : ℤ).bmod (2 ^ 32) = n ↔ n < 2 ^ 31 := by
  constructor
  · intro h
    have hlt := Int.bmod_lt (x := (n : ℤ)) (m := 2 ^ 32) (by decide)
    omega
  · intro h
    exact Int.bmod_eq_of_le (by omega) (by omega)

/-- The low 32 bits of a `Long` that is not negative. -/
theorem toInt_setWidth {x : BitVec 64} {n : ℕ} (h : x.toInt = n) :
    (x.setWidth 32).toInt = (n : ℤ).bmod (2 ^ 32) := by
  have htoNat : x.toNat = n := by
    have hlt := x.isLt
    rw [BitVec.toInt_eq_toNat_cond] at h
    split_ifs at h <;> omega
  rw [BitVec.toInt_setWidth, htoNat]

theorem listen_eq_iff {x : BitVec 64} {n : ℕ} (h : x.toInt = n) :
    (x.setWidth 32 * 1000).toInt = 1000 * n ↔ 1000 * n < 2 ^ 31 := by
  have hthousand : (1000 : BitVec 32).toInt = 1000 := rfl
  have hmul : (x.setWidth 32 * 1000).toInt = ((1000 * n : ℕ) : ℤ).bmod (2 ^ 32) := by
    rw [BitVec.toInt_mul, toInt_setWidth h, hthousand, Int.bmod_mul_bmod, mul_comm]
    push_cast
    rfl
  rw [hmul, ← bmod_eq_self_iff]
  push_cast
  rfl

theorem download_eq_iff {x : BitVec 64} {n : ℕ} (h : x.toInt = n) :
    ((x.setWidth 32).signExtend 64).toInt = n ↔ n < 2 ^ 31 := by
  rw [BitVec.toInt_signExtend_of_le (by decide), toInt_setWidth h, bmod_eq_self_iff]

/-! ## From the object to the column -/

/-- **The object is a duration**: an `Integer`, a `Long`, or a string that
`Long.parseLong` reads. -/
def IsDuration : JsonTree Scalar → ℕ → Prop
  | .scalar (.integer m), n => m.toInt = n
  | .scalar (.long m), n => m.toInt = n
  | .scalar (.string s), n => LoadIp.Util.parseLong s = .ok (n : ℤ)
  | _, _ => False

theorem bounds_of_parseLong {s : Text} {n : ℤ} (h : LoadIp.Util.parseLong s = .ok n) :
    -2 ^ 63 ≤ n ∧ n < 2 ^ 63 := by
  have hfits : ∀ m, LoadIp.Util.fits m = .ok n → -2 ^ 63 ≤ n ∧ n < 2 ^ 63 := by
    intro m hm
    unfold LoadIp.Util.fits at hm
    split_ifs at hm with hbounds
    obtain rfl := Except.ok.inj hm
    exact hbounds
  unfold LoadIp.Util.parseLong at h
  split at h
  all_goals
    obtain ⟨m, -, hm⟩ := Java.bind_eq_ok.1 h
    exact hfits m hm

theorem safeGetNumberLong_of_isDuration {operation : ILog} {key : String}
    {e : JsonTree Scalar} {n : ℕ} (he : operation.getObject key.toList = .ok e)
    (hn : IsDuration e n) (defval : BitVec 64) :
    ∃ x, safeGetNumberLong operation key defval = .ok x ∧ x.toInt = n := by
  rw [safeGetNumberLong, he, Java.ok_bind]
  match e, hn with
  | .scalar (.integer m), hn =>
    refine ⟨_, rfl, ?_⟩
    rw [BitVec.toInt_signExtend_of_le (by decide)]
    exact hn
  | .scalar (.long m), hn => exact ⟨m, rfl, hn⟩
  | .scalar (.string s), hn =>
    have hparse : LoadIp.Util.parseLong s = .ok (n : ℤ) := hn
    obtain ⟨hlo, hhi⟩ := bounds_of_parseLong hparse
    refine ⟨BitVec.ofInt 64 n, ?_, BitVec.toInt_ofInt_eq_self (by decide) hlo hhi⟩
    simp only [hparse]
    rfl

/-- **What an operation that is an action was.** -/
theorem infoOf_cases {env : Surroundings} {operation : ILog} {info : Info}
    (h : infoOf env operation = .ok (some info)) :
    (∃ key, listenOf env operation key = .ok (some info)) ∨
      downloadOf env operation = .ok (some info) ∨ rankListOf operation = .ok (some info) := by
  unfold infoOf at h
  obtain ⟨module, -, h⟩ := Java.bind_eq_ok.1 h
  split_ifs at h
  · obtain ⟨type, -, h⟩ := Java.bind_eq_ok.1 h
    split_ifs at h
    · exact Or.inl ⟨_, h⟩
    · cases h
  · obtain ⟨type, -, h⟩ := Java.bind_eq_ok.1 h
    split_ifs at h
    · exact Or.inr (Or.inl h)
    · cases h
  · obtain ⟨type, -, h⟩ := Java.bind_eq_ok.1 h
    split_ifs at h
    · exact Or.inl ⟨_, h⟩
    · cases h
  · obtain ⟨type, -, h⟩ := Java.bind_eq_ok.1 h
    split_ifs at h
    · exact Or.inr (Or.inr h)
    · obtain ⟨origin, -, h⟩ := Java.bind_eq_ok.1 h
      split_ifs at h
      · exact Or.inr (Or.inr h)
      · cases h
    · cases h
  · cases h

theorem listenOf_eq_ok {env : Surroundings} {operation : ILog} {key : String} {info : Info}
    (h : listenOf env operation key = .ok (some info)) :
    ∃ x id, safeGetNumberLong operation "play_time" 0 = .ok x ∧
      info = .listenInfo (some id) (x.setWidth 32 * 1000) := by
  unfold listenOf at h
  obtain ⟨x, hx, h⟩ := Java.bind_eq_ok.1 h
  obtain ⟨songId, -, h⟩ := Java.bind_eq_ok.1 h
  obtain ⟨id, -, rfl⟩ := Option.map_eq_some_iff.1 (Except.ok.inj h)
  exact ⟨x, id, hx, rfl⟩

theorem downloadOf_eq_ok {env : Surroundings} {operation : ILog} {info : Info}
    (h : downloadOf env operation = .ok (some info)) :
    ∃ x id, safeGetNumberLong operation "download_time" 0 = .ok x ∧
      info = .downLoadInfo (some id) ((x.setWidth 32).signExtend 64) := by
  unfold downloadOf at h
  obtain ⟨songId, -, h⟩ := Java.bind_eq_ok.1 h
  obtain ⟨x, hx, h⟩ := Java.bind_eq_ok.1 h
  obtain ⟨id, -, rfl⟩ := Option.map_eq_some_iff.1 (Except.ok.inj h)
  exact ⟨x, id, hx, rfl⟩

theorem rankListOf_eq_ok {operation : ILog} {info : Info}
    (h : rankListOf operation = .ok (some info)) : ∃ id, info = .rankListInfo (some id) := by
  unfold rankListOf at h
  obtain ⟨rankId, -, h⟩ := Java.bind_eq_ok.1 h
  obtain ⟨id, -, rfl⟩ := Option.map_eq_some_iff.1 (Except.ok.inj h)
  exact ⟨id, rfl⟩

/-- The number in the column `tlen`. -/
def tlenOf (columns : Columns) : Option ℤ := (columns.lookup "tlen".toList).map stored

theorem tlenOf_listen (id : Text) (playTime : BitVec 32) (time : BitVec 64) (seq : Text) :
    ∃ columns, PutTrait.addInfo ⟨.listenInfo (some id) playTime, time, seq⟩ = .ok columns ∧
      tlenOf columns = some playTime.toInt := by
  refine ⟨_, rfl, ?_⟩
  rw [← stored_intBytes]
  rfl

theorem tlenOf_download (id : Text) (downLoadTime time : BitVec 64) (seq : Text) :
    ∃ columns, PutTrait.addInfo ⟨.downLoadInfo (some id) downLoadTime, time, seq⟩ = .ok columns ∧
      tlenOf columns = some downLoadTime.toInt := by
  refine ⟨_, rfl, ?_⟩
  rw [← stored_longBytes]
  rfl

/-- **When a duration is stored as it came.** For every operation that is a
listen and whose `play_time` is the duration `n`, the `tlen` that is written
is `1000 * n` exactly when that fits a signed 32-bit number; for every
operation that is a download and whose `download_time` is `n`, it is `n`
exactly when `n` does. -/
theorem tlen_iff (env : Surroundings) (operation : ILog) (info : Info)
    (hinfo : infoOf env operation = .ok (some info)) (time : BitVec 64) (seq : Text) (n : ℕ) :
    (∀ songId playTime e, info = .listenInfo songId playTime →
        operation.getObject "play_time".toList = .ok e → IsDuration e n →
        ∃ columns, PutTrait.addInfo ⟨info, time, seq⟩ = .ok columns ∧
          (tlenOf columns = some (1000 * (n : ℤ)) ↔ 1000 * n < 2 ^ 31)) ∧
      ∀ songId downLoadTime e, info = .downLoadInfo songId downLoadTime →
        operation.getObject "download_time".toList = .ok e → IsDuration e n →
        ∃ columns, PutTrait.addInfo ⟨info, time, seq⟩ = .ok columns ∧
          (tlenOf columns = some (n : ℤ) ↔ n < 2 ^ 31) := by
  constructor
  · rintro songId playTime e rfl he hn
    obtain ⟨x, hx, hxn⟩ := safeGetNumberLong_of_isDuration he hn 0
    rcases infoOf_cases hinfo with ⟨key, h⟩ | h | h
    · obtain ⟨x', id, hx', hlisten⟩ := listenOf_eq_ok h
      obtain rfl := Except.ok.inj (hx.symm.trans hx')
      obtain ⟨rfl, rfl⟩ := Info.listenInfo.inj hlisten
      obtain ⟨columns, hcolumns, htlen⟩ := tlenOf_listen id (x.setWidth 32 * 1000) time seq
      refine ⟨columns, hcolumns, ?_⟩
      rw [htlen, Option.some_inj, listen_eq_iff hxn]
    · obtain ⟨_, _, -, hdownload⟩ := downloadOf_eq_ok h
      cases hdownload
    · obtain ⟨_, hrank⟩ := rankListOf_eq_ok h
      cases hrank
  · rintro songId downLoadTime e rfl he hn
    obtain ⟨x, hx, hxn⟩ := safeGetNumberLong_of_isDuration he hn 0
    rcases infoOf_cases hinfo with ⟨key, h⟩ | h | h
    · obtain ⟨_, _, -, hlisten⟩ := listenOf_eq_ok h
      cases hlisten
    · obtain ⟨x', id, hx', hdownload⟩ := downloadOf_eq_ok h
      obtain rfl := Except.ok.inj (hx.symm.trans hx')
      obtain ⟨rfl, rfl⟩ := Info.downLoadInfo.inj hdownload
      obtain ⟨columns, hcolumns, htlen⟩ :=
        tlenOf_download id ((x.setWidth 32).signExtend 64) time seq
      refine ⟨columns, hcolumns, ?_⟩
      rw [htlen, Option.some_inj, download_eq_iff hxn]
    · obtain ⟨_, hrank⟩ := rankListOf_eq_ok h
      cases hrank

/-- A listen of a song for so many seconds, as a client sends it. -/
def sampleListen (seconds : BitVec 32) : ILog :=
  ⟨some (JsonTree.get [("module".toList, .scalar (.string "song".toList)),
    ("type".toList, .scalar (.string "listen_info".toList)),
    ("song_id".toList, .scalar (.integer 42)),
    ("play_time".toList, .scalar (.integer seconds))])⟩

/-- A download that has taken so many milliseconds. -/
def sampleDownload (millis : BitVec 64) : ILog :=
  ⟨some (JsonTree.get [("module".toList, .scalar (.string "download".toList)),
    ("type".toList, .scalar (.string "song".toList)),
    ("fileid".toList, .scalar (.string "7".toList)),
    ("download_time".toList, .scalar (.long millis))])⟩

/-- A place where no address is known and all times are 0. -/
def sampleSurroundings : Surroundings :=
  ⟨1, fun _ => .ok none, fun _ => .ok 0, fun _ => []⟩

theorem tlen_iff_sampleListen :
    ∃ columns,
      PutTrait.addInfo ⟨.listenInfo (some "42".toList) 30000, 5, []⟩ = .ok columns ∧
        (tlenOf columns = some (1000 * ((30 : ℕ) : ℤ)) ↔ 1000 * 30 < 2 ^ 31) :=
  (tlen_iff sampleSurroundings (sampleListen 30) _ rfl 5 [] 30).1 (some "42".toList) 30000
    (.scalar (.integer 30)) rfl rfl rfl

/-- **A listen of 25 days, and a download of as many milliseconds as 32 bits
count.** The first is stored as a negative number, the second as 0. -/
theorem tlen_wraps :
    (∃ info columns, infoOf sampleSurroundings (sampleListen 2147484) = .ok (some info) ∧
        PutTrait.addInfo ⟨info, 5, []⟩ = .ok columns ∧ tlenOf columns = some (-2147483296)) ∧
      ∃ info columns, infoOf sampleSurroundings (sampleDownload 4294967296) = .ok (some info) ∧
        PutTrait.addInfo ⟨info, 5, []⟩ = .ok columns ∧ tlenOf columns = some 0 :=
  ⟨⟨_, _, rfl, rfl, rfl⟩, ⟨_, _, rfl, rfl, rfl⟩⟩

end RecomendPro

end Storm

end Xpod
