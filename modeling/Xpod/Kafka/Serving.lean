import Mathlib.Tactic
import Xpod.Kafka.Conservation
/-!
# What a pass over a partition sends

When a partition is due, its whole queue goes into requests of its leader,
in the order in which it was queued and within the limits; with the timeout
scan, the messages in front that timed out are put aside.
-/

namespace Xpod

namespace Kafka

open Weights

/-- The states that a producer can come to. -/
def State.Reachable (conf : Conf) (s : State) : Prop :=
  ∃ actions : List Action, (∀ a ∈ actions, a.WellFormed) ∧ (State.new conf).run actions = some s

namespace State

variable {s s' : State} {conf : Conf} {r t b : ℕ}

theorem Reachable.accounted (h : Reachable conf s) : s.Accounted [] [] := by
  obtain ⟨actions, hwf, hrun⟩ := h
  exact (run_accounted conf hwf).eq_some hrun

/-- The messages that a pass at `now` puts aside. -/
def timedOut (doTimeoutScan : Bool) (now : ℤ) (rkm : Msg) : Bool :=
  doTimeoutScan && decide (rkm.tsTimeout ≤ now)

theorem takeWhile_timedOut_false (now : ℤ) (l : List Msg) :
    l.takeWhile (timedOut false now) = [] := by
  cases l <;> rfl

theorem dropWhile_timedOut_false (now : ℤ) (l : List Msg) :
    l.dropWhile (timedOut false now) = l := by
  cases l <;> rfl

/-- The queue of a partition with enough replicas goes to its transmit
queue. -/
theorem takeMsgq_eq {rktp : Toppar} {rkt : Topic} (hrktp : s.toppar r = some rktp)
    (hrkt : s.topics[rktp.rkt]? = some rkt) (hisr : rkt.conf.enforceIsrCnt ≤ rktp.isrCnt) :
    s.takeMsgq b r = some (s.modifyToppar r fun rktp =>
      { rktp with xmitMsgq := rktp.xmitMsgq.concat rktp.msgq, msgq := .init }) := by
  rw [takeMsgq, hrktp]
  simp only [Option.bind_eq_bind, Option.bind_some]
  rw [hrkt]
  exact if_neg (not_lt.2 hisr)

/-- The timeout scan of a transmit queue puts the messages in front that
timed out aside. -/
theorem scanXmit_spec {rktp : Toppar} {rkb : Broker} (hrktp : s.toppar r = some rktp)
    (hb : s.brokers[b]? = some rkb) (now : ℤ) :
    Succeeds (s.scanXmit b r now) fun s' => ∃ xmit timedout : Msgq,
      s' = (s.modifyBroker b fun rkb => { rkb with timedout := timedout }).modifyToppar r
        (fun rktp => { rktp with xmitMsgq := xmit }) ∧
      xmit.msgs = rktp.xmitMsgq.msgs.dropWhile (timedOut true now) ∧
      timedout.msgs = rkb.timedout.msgs ++ rktp.xmitMsgq.msgs.takeWhile (timedOut true now) := by
  rw [scanXmit, hrktp]
  simp only [Option.bind_eq_bind, Option.bind_some]
  rw [hb]
  simp only [Option.bind_some]
  refine Succeeds.bind (Msgq.ageScan_spec _ _ _) ?_
  rintro ⟨xmit, timedout⟩ ⟨hxmit, htimedout⟩
  exact Succeeds.some ⟨xmit, timedout, rfl, hxmit, htimedout⟩

/-- What a pass over a transmit queue that is due leaves behind. -/
structure Served (s s' : State) (b r : ℕ) (rkb : Broker) (rktp : Toppar) (new : List Buf) :
    Prop where
  broker : ∃ rkb', s'.brokers[b]? = some rkb' ∧ rkb'.outbufs = rkb.outbufs ++ new ∧
    rkb'.timedout = rkb.timedout
  toppar : ∃ rktp', s'.toppars[r]? = some rktp' ∧ rktp'.msgq = rktp.msgq ∧ rktp'.xmitMsgq = .init
  msgs : new.flatMap (fun rkbuf => rkbuf.msgq.msgs) = rktp.xmitMsgq.msgs
  requests : ∀ rkbuf ∈ new, s.IsRequest r rktp rkbuf

theorem Accounted.serveXmit_of_due (h : s.Accounted [] []) {rktp : Toppar} {rkb : Broker}
    (hr : 0 < s.refs r) (hget : s.toppars[r]? = some rktp) (hb : s.brokers[b]? = some rkb)
    {now : ℤ} (hdue : rktp.tsLastXmit + s.conf.bufferingMaxMs * 1000 ≤ now) :
    Succeeds (s.serveXmit b r now) fun s' => ∃ new, Served s s' b r rkb rktp new := by
  refine (h.serveXmit (by simpa using hr) hget hb now).mono fun s' hs' => ?_
  rcases hs' with ⟨rfl, hwait⟩ | ⟨new, rfl, hnew, hmsgs⟩
  · have hnil : rktp.xmitMsgq.msgs = [] := by
      by_contra hne
      exact absurd (hwait hne).1 (not_lt.2 hdue)
    exact ⟨[], ⟨rkb, hb, by simp, rfl⟩, ⟨rktp, hget, rfl, Msgq.eq_init_iff.2 hnil⟩, hnil.symm,
      by simp⟩
  · refine ⟨new, ⟨{ rkb with corrid := rkb.corrid + UInt32.ofNat new.length,
                             outbufs := rkb.outbufs ++ new }, ?_, rfl, rfl⟩,
      ⟨{ rktp with tsLastXmit := now, xmitMsgq := .init, refcnt := rktp.refcnt + new.length },
        ?_, rfl, rfl⟩, hmsgs.symm, hnew⟩
    · exact brokers_modifyBroker hb _
    · exact toppars_modifyToppar (toppars_modifyToppar hget _) _

theorem Served.setSize_lt {rktp : Toppar} {rkb : Broker} {new : List Buf}
    (h : Served s s' b r rkb rktp new) (hacc : s.Accounted [] [])
    (hget : s.toppars[r]? = some rktp) :
    ∀ rkbuf ∈ new, setSize rkbuf.msgq.msgs < 2 ^ 31 := by
  intro rkbuf hmem
  have hmax := s.conf.maxMsgSize_le
  have hle := (h.requests rkbuf hmem).fits.setSize_le (by omega) fun rkm hrkm =>
    hacc.sized rkm (hacc.mem_created_of_xmit hget (h.msgs ▸ List.mem_flatMap.2 ⟨rkbuf, hmem, hrkm⟩))
  omega

/-- The queue of the partition `r` goes into the requests `new` of its
leader `b`, but for the messages in front that are put `aside`. -/
structure QueueSent (s : State) (b r : ℕ) (rkb : Broker) (rktp : Toppar) (aside : Msg → Bool)
    (s' : State) (new : List Buf) : Prop where
  broker : ∃ rkb', s'.brokers[b]? = some rkb' ∧ rkb'.outbufs = rkb.outbufs ++ new ∧
    rkb'.timedout.msgs = rkb.timedout.msgs ++
      (rktp.xmitMsgq.msgs ++ rktp.msgq.msgs).takeWhile aside
  toppar : ∃ rktp', s'.toppars[r]? = some rktp' ∧ rktp'.msgq = .init ∧ rktp'.xmitMsgq = .init
  msgs : new.flatMap (fun rkbuf => rkbuf.msgq.msgs) =
    (rktp.xmitMsgq.msgs ++ rktp.msgq.msgs).dropWhile aside
  requests : ∀ rkbuf ∈ new, rkbuf.rktp = r ∧ rkbuf.msgq.msgs ≠ [] ∧
    rkbuf.msgq.msgs.length ≤ s.conf.batchNumMessages ∧ setSize rkbuf.msgq.msgs < 2 ^ 31

/-- The second half of the pass, on a state `s₂` that has put aside what
timed out. -/
theorem Accounted.queueSent {s₂ : State} {rkb rkb₂ : Broker} {rktp rktp₂ : Toppar}
    {aside : Msg → Bool} {now : ℤ} (h₂ : s₂.Accounted [] []) (hr₂ : 0 < s₂.refs r)
    (hget₂ : s₂.toppars[r]? = some rktp₂) (hb₂ : s₂.brokers[b]? = some rkb₂)
    (hconf : s₂.conf = s.conf) (hmsgq : rktp₂.msgq = .init)
    (hdue : rktp₂.tsLastXmit + s.conf.bufferingMaxMs * 1000 ≤ now)
    (hout : rkb₂.outbufs = rkb.outbufs)
    (htimedout : rkb₂.timedout.msgs = rkb.timedout.msgs ++
      (rktp.xmitMsgq.msgs ++ rktp.msgq.msgs).takeWhile aside)
    (hxmit : rktp₂.xmitMsgq.msgs = (rktp.xmitMsgq.msgs ++ rktp.msgq.msgs).dropWhile aside) :
    Succeeds (s₂.serveXmit b r now) fun s' => ∃ new, QueueSent s b r rkb rktp aside s' new := by
  refine (h₂.serveXmit_of_due hr₂ hget₂ hb₂ (hconf ▸ hdue)).mono ?_
  rintro s' ⟨new, hserved⟩
  have hsize := hserved.setSize_lt h₂ hget₂
  obtain ⟨⟨rkb', hrkb', hout', htimedout'⟩, ⟨rktp', hrktp', hmsgq', hxmit'⟩, hmsgs, hreq⟩ := hserved
  refine ⟨new, ⟨rkb', hrkb', by rw [hout', hout], by rw [htimedout', htimedout]⟩,
    ⟨rktp', hrktp', by rw [hmsgq', hmsgq], hxmit'⟩, by rw [hmsgs, hxmit], fun rkbuf hmem => ?_⟩
  have := hreq rkbuf hmem
  exact ⟨this.rktp_eq, this.ne_nil, hconf ▸ this.length_le, hsize rkbuf hmem⟩

/-- The state with both messages in the queue of the partition. -/
def queuedTwo : State := ((new smallConf).run (setUp ++ produceTwo)).getD (new smallConf)

theorem reachable_queuedTwo : Reachable smallConf queuedTwo :=
  ⟨setUp ++ produceTwo, fun a ha => wellFormed_example a (List.mem_append_left _ ha), rfl⟩

end State

end Kafka

end Xpod
