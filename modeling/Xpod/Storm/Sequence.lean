import Mathlib.Data.BitVec
import Mathlib.Tactic
import Xpod.Common.Decimal
import Xpod.Common.Java
import Xpod.Common.Threads
import Xpod.Storm.Model.RecomendPro
/-!
# Sequence strings

A bolt counts its calls of `getSeq` from 100000 to 999999 and over again,
and prints the count behind its seed without a separator. The count has six
digits at all times, so the string tells the seed, and the count comes
round only after as many calls as it has values.
-/

namespace Xpod

namespace Storm

namespace RecomendPro

/-! ## Numbers of a bolt -/

/-- How many values the count has. -/
def period : ℕ := 900000

/-- The count of a bolt after so many calls. -/
def countAfter (calls : ℕ) : ℕ := 100000 + calls % period

theorem countAfter_bounds (calls : ℕ) : 100000 ≤ countAfter calls ∧ countAfter calls < 1000000 := by
  unfold countAfter period
  omega

/-- Bolt `i` after so many calls. -/
def boltAfter (i calls : ℕ) : Bolt :=
  ⟨BitVec.ofNat 32 (countAfter calls), BitVec.ofNat 32 (1001 + i)⟩

/-- What its last call returned. -/
def seqText (processId : BitVec 32) (i calls : ℕ) : Text :=
  intText (BitVec.ofNat 32 (1001 + i)).toInt ++ Nat.toDigits 10 (countAfter calls) ++
    '_' :: intText processId.toInt

theorem toInt_ofNat {n : ℕ} (h : n < 2 ^ 31) : (BitVec.ofNat 32 n).toInt = n := by
  have htoNat : (BitVec.ofNat 32 n).toNat = n := by
    rw [BitVec.toNat_ofNat]
    omega
  rw [BitVec.toInt_eq_toNat_of_lt (by omega), htoNat]

theorem toInt_countAfter (calls : ℕ) :
    (BitVec.ofNat 32 (countAfter calls)).toInt = countAfter calls := by
  have hbounds := countAfter_bounds calls
  exact toInt_ofNat (by omega)

theorem ofNat_add_one (n : ℕ) : BitVec.ofNat 32 n + 1 = BitVec.ofNat 32 (n + 1) :=
  (BitVec.ofNat_add n 1).symm

/-- **A call counts one on, or begins again.** -/
theorem getSeq_boltAfter (processId : BitVec 32) (i calls : ℕ) :
    getSeq processId (boltAfter i calls) =
      (boltAfter i (calls + 1), seqText processId i (calls + 1)) := by
  have hcount : (if 999999 ≤ (BitVec.ofNat 32 (countAfter calls)).toInt then 100000
      else BitVec.ofNat 32 (countAfter calls) + 1) = BitVec.ofNat 32 (countAfter (calls + 1)) := by
    rw [toInt_countAfter]
    by_cases hlast : calls % period = 899999
    · have hnext : countAfter (calls + 1) = 100000 := by
        unfold countAfter period at *
        omega
      rw [if_pos (by unfold countAfter; omega), hnext]
      rfl
    · have hnext : countAfter (calls + 1) = countAfter calls + 1 := by
        unfold countAfter period at *
        omega
      rw [if_neg (by unfold countAfter period at *; omega), hnext, ofNat_add_one]
  unfold getSeq boltAfter seqText
  simp only [hcount]
  rw [toInt_countAfter]
  rfl

/-- The count is printed in six digits. -/
theorem length_toDigits_countAfter (calls : ℕ) :
    (Nat.toDigits 10 (countAfter calls)).length = 6 := by
  obtain ⟨hlo, hhi⟩ := countAfter_bounds calls
  exact Decimal.length_toDigits (w := 5) hlo hhi

/-- **The string tells the bolt and the count**, as long as the counter of
the seeds has not wrapped. -/
theorem seqText_inj {processId : BitVec 32} {i j calls calls' : ℕ} (hi : 1001 + i < 2 ^ 31)
    (hj : 1001 + j < 2 ^ 31) (h : seqText processId i calls = seqText processId j calls') :
    i = j ∧ calls % period = calls' % period := by
  unfold seqText at h
  rw [List.append_cancel_right_eq, toInt_ofNat hi, toInt_ofNat hj] at h
  have hlen := (length_toDigits_countAfter calls).trans (length_toDigits_countAfter calls').symm
  obtain ⟨hseed, hcount⟩ := List.append_inj' h hlen
  have hseeds : 1001 + i = 1001 + j := Java.toDigits_injective hseed
  have hcounts : countAfter calls = countAfter calls' := Java.toDigits_injective hcount
  unfold countAfter at hcounts
  omega

/-! ## The calls of a process -/

/-- How many of the calls are of bolt `i`. -/
def callsOf (i : ℕ) (returned : List (ℕ × Text)) : ℕ := returned.countP fun r => r.1 = i

@[simp] theorem callsOf_append (i : ℕ) (returned returned' : List (ℕ × Text)) :
    callsOf i (returned ++ returned') = callsOf i returned + callsOf i returned' :=
  List.countP_append

theorem callsOf_singleton_self (i : ℕ) (s : Text) : callsOf i [(i, s)] = 1 := by
  simp [callsOf]

theorem callsOf_singleton_of_ne {i j : ℕ} (h : j ≠ i) (s : Text) : callsOf i [(j, s)] = 0 := by
  simp [callsOf, h]

namespace Process

/-- **What every step keeps**: the seeds are numbered, each bolt has counted
its calls, and each call has returned what its bolt had counted. -/
structure Sound (processId : BitVec 32) (p : Process) : Prop where
  sequence : p.sequence = BitVec.ofNat 32 (1000 + p.bolts.length)
  bolts : ∀ i bolt, p.bolts[i]? = some bolt → bolt = boltAfter i (callsOf i p.returned)
  /-- there is no call of a bolt still to come -/
  prepared : ∀ r ∈ p.returned, r.1 < p.bolts.length
  returned : ∀ n i s, p.returned[n]? = some (i, s) →
    s = seqText processId i (callsOf i (p.returned.take (n + 1)))

namespace Sound

variable {processId : BitVec 32} {p : Process}

theorem prepare (h : p.Sound processId) : p.prepare.Sound processId where
  sequence := by
    simp only [Process.prepare, List.length_append, List.length_singleton]
    rw [h.sequence, ofNat_add_one, Nat.add_assoc]
  bolts i bolt hbolt := by
    simp only [Process.prepare] at hbolt ⊢
    rcases Nat.lt_trichotomy i p.bolts.length with hlt | rfl | hgt
    · rw [List.getElem?_append_left hlt] at hbolt
      exact h.bolts i bolt hbolt
    · -- nobody has called the new bolt
      have hnone : callsOf p.bolts.length p.returned = 0 := by
        refine List.countP_eq_zero.2 fun r hr => ?_
        have hlt := h.prepared r hr
        simp only [decide_eq_true_eq]
        omega
      rw [List.getElem?_concat_length] at hbolt
      rw [← Option.some.inj hbolt, hnone, h.sequence, ofNat_add_one, Nat.add_right_comm]
      rfl
    · rw [List.getElem?_eq_none (by rw [List.length_append, List.length_singleton]; omega)] at hbolt
      cases hbolt
  prepared r hr := by
    have hlt := h.prepared r hr
    simp only [Process.prepare, List.length_append, List.length_singleton]
    omega
  returned := h.returned

theorem call (h : p.Sound processId) (i : ℕ) : (p.call processId i).Sound processId := by
  unfold Process.call
  rcases hbolt : p.bolts[i]? with - | bolt
  · exact h
  obtain rfl := h.bolts i bolt hbolt
  obtain ⟨hi, -⟩ := List.getElem?_eq_some_iff.1 hbolt
  simp only [getSeq_boltAfter]
  refine ⟨by rw [List.length_set]; exact h.sequence, fun j bolt hj => ?_, fun r hr => ?_,
    fun n j s hn => ?_⟩
  · by_cases hij : i = j
    · subst hij
      rw [List.getElem?_set_self hi] at hj
      rw [← Option.some.inj hj, callsOf_append, callsOf_singleton_self]
    · rw [List.getElem?_set_ne hij] at hj
      rw [callsOf_append, callsOf_singleton_of_ne hij]
      exact h.bolts j bolt hj
  · rw [List.length_set]
    rcases List.mem_append.1 hr with hr | hr
    · exact h.prepared r hr
    · rw [List.mem_singleton.1 hr]
      exact hi
  · rcases Nat.lt_trichotomy n p.returned.length with hlt | rfl | hgt
    · rw [List.getElem?_append_left hlt] at hn
      rw [List.take_append_of_le_length hlt]
      exact h.returned n j s hn
    · -- the call just made
      rw [List.getElem?_concat_length] at hn
      obtain ⟨rfl, rfl⟩ := Prod.mk.inj (Option.some.inj hn)
      rw [List.take_of_length_le (by rw [List.length_append, List.length_singleton]),
        callsOf_append, callsOf_singleton_self]
    · rw [List.getElem?_eq_none (by rw [List.length_append, List.length_singleton]; omega)] at hn
      cases hn

/-- The calls of a bolt up to one of its own. -/
theorem callsOf_take_succ {n i : ℕ} {s : Text} (h : p.returned[n]? = some (i, s)) :
    callsOf i (p.returned.take (n + 1)) = callsOf i (p.returned.take n) + 1 := by
  rw [List.take_add_one, h, callsOf_append, Option.toList_some, callsOf_singleton_self]

end Sound

variable {processId : BitVec 32}

theorem step_sound (p : Process) (e : Event) (h : p.Sound processId) :
    (p.step processId e).Sound processId := by
  cases e with
  | prepare => exact h.prepare
  | getSeq i => exact h.call i

/-- **Every interleaving keeps the counts.** -/
theorem run_sound (events : List Event) : (run processId events).Sound processId := by
  have hinit : Sound processId {} := ⟨rfl, by simp, by simp, by simp⟩
  exact Threads.run_keeps step_sound hinit events

/-- **A sequence string comes again late.** For every interleaving of bolts
being prepared and of their calls, as long as the counter of the seeds has
not wrapped: the count of a bolt lies between 100000 and 999999, and two
calls have returned one string only if they are of one bolt, which has
called 900000 times from the one to the other. -/
theorem getSeq_repeats_late (processId : BitVec 32) (events : List Event)
    (hwrap : 1000 + (run processId events).bolts.length < 2 ^ 31) :
    (∀ bolt ∈ (run processId events).bolts,
        100000 ≤ bolt.seq.toInt ∧ bolt.seq.toInt ≤ 999999) ∧
      ∀ m n i j s, m < n → (run processId events).returned[m]? = some (i, s) →
        (run processId events).returned[n]? = some (j, s) →
          i = j ∧ 900000 ≤ callsOf i (((run processId events).returned.take n).drop m) := by
  have h : (run processId events).Sound processId := run_sound events
  refine ⟨fun bolt hbolt => ?_, fun m n i j s hmn hm hn => ?_⟩
  · obtain ⟨i, hi⟩ := List.mem_iff_getElem?.1 hbolt
    have hbounds := countAfter_bounds (callsOf i (run processId events).returned)
    rw [h.bolts i bolt hi, boltAfter, toInt_countAfter]
    omega
  · have hi := h.prepared _ (List.mem_of_getElem? hm)
    have hj := h.prepared _ (List.mem_of_getElem? hn)
    have hsame := (h.returned m i s hm).symm.trans (h.returned n j s hn)
    obtain ⟨rfl, hcount⟩ := seqText_inj (by omega) (by omega) hsame
    refine ⟨rfl, ?_⟩
    -- the calls up to `n` are those up to `m` and those from there on
    have hsplit : callsOf i ((run processId events).returned.take n) =
        callsOf i ((run processId events).returned.take m) +
          callsOf i (((run processId events).returned.take n).drop m) := by
      rw [← callsOf_append]
      congr 1
      rw [← List.take_append_drop m ((run processId events).returned.take n), List.take_take,
        Nat.min_eq_left hmn.le, List.drop_left' (by
          rw [List.length_take]
          obtain ⟨hlt, -⟩ := List.getElem?_eq_some_iff.1 hm
          omega)]
    have hpos : 0 < callsOf i (((run processId events).returned.take n).drop m) := by
      refine List.countP_pos_iff.2 ⟨(i, s), ?_, by simp⟩
      refine List.mem_of_getElem? (i := 0) ?_
      rw [List.getElem?_drop, Nat.add_zero, List.getElem?_take_of_lt hmn, hm]
    rw [Sound.callsOf_take_succ hm, Sound.callsOf_take_succ hn, hsplit] at hcount
    unfold period at hcount
    omega

theorem getSeq_repeats_late_two_bolts :
    (1000 + (run 7 [.prepare, .getSeq 0, .prepare, .getSeq 1, .getSeq 0]).bolts.length < 2 ^ 31) ∧
      (run 7 [.prepare, .getSeq 0, .prepare, .getSeq 1, .getSeq 0]).returned =
        [(0, "1001100001_7".toList), (1, "1002100001_7".toList), (0, "1001100002_7".toList)] ∧
      ∀ bolt ∈ (run 7 [.prepare, .getSeq 0, .prepare, .getSeq 1, .getSeq 0]).bolts,
        100000 ≤ bolt.seq.toInt ∧ bolt.seq.toInt ≤ 999999 :=
  ⟨by decide, by decide, (getSeq_repeats_late 7 _ (by decide)).1⟩

end Process

end RecomendPro

end Storm

end Xpod
