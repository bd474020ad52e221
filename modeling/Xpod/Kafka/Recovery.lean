import Mathlib.Tactic
import Xpod.Kafka.Order
/-!
# What failures and stale metadata leave behind

A broker that fails puts the messages of its requests back to their
partitions, one request after the other and each in front of what is
queued: the requests come to stand in the reverse of their order. And
metadata that brings nothing new leaves the unassigned messages of a topic
where they are, also when they were produced while it was expired.
-/

namespace Xpod

namespace Kafka

open Weights

open scoped List

/-- The answers after which the messages of a request go back to the
partition. -/
def Err.requeued (err : Err) : Bool :=
  !err.final && err ≠ .requestTimedOut && err ≠ .msgTimedOut

namespace State

variable {s s' : State} {r b t : ℕ}

/-! ## A broker that fails -/

/-- A reference that is given back concerns its own partition only. -/
theorem toppars_topparDestroy (s : State) (r : ℕ) :
    Ensures (s.topparDestroy r) fun s' => ∀ x, r ≠ x → s'.toppars[x]? = s.toppars[x]? := by
  have hother : ∀ {s₁ : State} (f : Toppar → Toppar) (x : ℕ), r ≠ x →
      (s₁.modifyToppar r f).toppars[x]? = s₁.toppars[x]? := fun f x hx => by
    rw [getElem?_modifyToppar, if_neg hx]
  refine Ensures.bind_read fun rktp _ => ?_
  refine Ensures.ite (fun _ => Ensures.bind_read fun rktp' _ => ?_)
    fun _ => Ensures.some fun x hx => hother _ x hx
  refine (drMsgq_eq _ rktp'.xmitMsgq .destroy).bind ?_
  rintro s₂ _ ⟨_, _, _, hs₂⟩
  refine (drMsgq_eq _ rktp'.msgq .destroy).bind ?_
  rintro s₃ - ⟨_, _, _, hs₃⟩
  refine Ensures.some fun x hx => ?_
  rw [hother _ x hx, hs₃, hs₂]
  exact hother _ x hx

theorem produceMsgsetReply_of_requeued (s : State) (b : ℕ) {err : Err}
    (herr : err.requeued = true) (request : Buf) (now : ℤ) :
    s.produceMsgsetReply b err request now =
      (s.topparInsertMsgq request.rktp request.msgq >>= fun s => s.topparDestroy request.rktp) := by
  cases err <;> first | rfl | (simp [Err.requeued, Err.final] at herr)

/-- The queues of the partitions that a topic has, with the messages of
`requests` in front of them. -/
def Requeued (s : State) (requests : List Buf) (s' : State) : Prop :=
  ∀ r rktp, 0 < s.slots r → s.toppars[r]? = some rktp →
    ∃ rktp', s'.toppars[r]? = some rktp' ∧ rktp'.xmitMsgq = rktp.xmitMsgq ∧
      rktp'.msgq.msgs = requestMsgs r requests ++ rktp.msgq.msgs

theorem Requeued.trans {s'' : State} {requests requests' : List Buf}
    (h : s.Requeued requests s') (htopics : s'.topics = s.topics)
    (h' : s'.Requeued requests' s'') : s.Requeued (requests' ++ requests) s'' := by
  intro r rktp hslots hget
  obtain ⟨rktp', hget', hxmit', hmsgq'⟩ := h r rktp hslots hget
  have hslots' : 0 < s'.slots r := by rwa [slots, htopics]
  obtain ⟨rktp'', hget'', hxmit'', hmsgq''⟩ := h' r rktp' hslots' hget'
  refine ⟨rktp'', hget'', hxmit''.trans hxmit', ?_⟩
  rw [hmsgq'', hmsgq', requestMsgs_append, List.append_assoc]

/-- **A request that is purged** goes in front of its partition's queue. -/
theorem Accounted.failPurge_requeued (h : s.Accounted [] []) {rkb : Broker}
    (hb : s.brokers[b]? = some rkb) {err : Err} (herr : err.requeued = true) {request : Buf}
    {rest : List Buf} (hfailing : rkb.failing = some ⟨err, request :: rest⟩) (now : ℤ) :
    Succeeds (s.failPurge b ⟨err, request :: rest⟩ now) fun s' =>
      s'.Accounted [] [] ∧ s'.topics = s.topics ∧
        s'.brokers[b]? = some { rkb with failing := some ⟨err, rest⟩ } ∧
        s.Requeued [request] s' := by
  have hkeep := h.failPurge hb hfailing now
  obtain ⟨s', hs', h'⟩ := hkeep
  refine Succeeds.of_eq hs' ⟨h', ?_⟩
  set s₁ := s.modifyBroker b fun rkb => { rkb with failing := some ⟨err, rest⟩ } with hs₁
  have h₁ : s₁.Accounted [request.rktp] (request.msgq.msgs ++ []) :=
    h.takeRequest hb request _ rfl rfl rfl fun w => by
      simp only [Broker.bufs, hfailing, Option.elim, total_append, total_cons]
      omega
  have hpos₁ : 0 < s₁.refs request.rktp + [request.rktp].count request.rktp := by simp
  obtain ⟨rktp, hrktp, hget⟩ := h₁.toppar_eq hpos₁
  set s₂ := s₁.modifyToppar request.rktp fun rktp =>
    { rktp with msgq := request.msgq.concat rktp.msgq } with hs₂
  have hinsert : s₁.topparInsertMsgq request.rktp request.msgq = some s₂ := by
    rw [State.topparInsertMsgq, hrktp]
    rfl
  have h₂ : s₂.Accounted [request.rktp] [] := ((h₁.topparInsertMsgq hpos₁).eq_some hinsert).1
  have hdestroy : s₂.topparDestroy request.rktp = some s' := by
    rw [← hs']
    change _ = s₁.produceMsgsetReply b err request now
    rw [produceMsgsetReply_of_requeued s₁ b herr, hinsert]
    rfl
  obtain ⟨htopics, hbrokers⟩ := frame_topparDestroy s₂ request.rktp s' hdestroy
  refine ⟨htopics, ?_, fun x rktpx hslots hgetx => ?_⟩
  · rw [hbrokers]
    exact brokers_modifyBroker hb _
  · by_cases hx : request.rktp = x
    · subst hx
      obtain rfl : rktp = rktpx := Option.some.inj (hget.symm.trans hgetx)
      -- the topic refers to the partition, so this was not the last reference
      have hpos : 0 < s₂.refs request.rktp + ([] : List ℕ).count request.rktp := by
        have : s.slots request.rktp ≤ s₂.refs request.rktp := Nat.le_add_right _ _
        omega
      obtain ⟨rfl, -⟩ := (h₂.topparDestroy_of_pos hpos).eq_some hdestroy
      refine ⟨_, toppars_modifyToppar (toppars_modifyToppar hget _) _, rfl, ?_⟩
      rw [requestMsgs_of_eq (by simp)]
      simp [Msgq.concat]
    · refine ⟨rktpx, ?_, rfl, ?_⟩
      · rw [toppars_topparDestroy s₂ request.rktp s' hdestroy x hx, hs₂, getElem?_modifyToppar,
          if_neg hx]
        exact hgetx
      · rw [requestMsgs_of_ne (by simpa using hx), List.nil_append]

theorem step_failPurge {rkb : Broker} (hb : s.brokers[b]? = some rkb) {failing : Failing}
    (hfailing : rkb.failing = some failing) (now : ℤ) :
    s.step (.failPurge b now) = s.failPurge b failing now := by
  rw [step, State.broker, hb]
  simp only [if_true]
  rw [hfailing]
  rfl

/-- All requests are purged: the last one is in front. -/
theorem Accounted.run_failPurge {err : Err} (herr : err.requeued = true) (now : ℤ)
    {tmpq : List Buf} (h : s.Accounted [] []) {rkb : Broker} (hb : s.brokers[b]? = some rkb)
    (hfailing : rkb.failing = some ⟨err, tmpq⟩) :
    Succeeds (s.run (List.replicate tmpq.length (.failPurge b now)))
      (s.Requeued tmpq.reverse) := by
  induction tmpq generalizing s rkb with
  | nil => exact Succeeds.some fun r rktp _ hget => ⟨rktp, hget, rfl, by simp [requestMsgs]⟩
  | cons request rest ih =>
    obtain ⟨s₁, hs₁, h₁, htopics, hb₁, hqueue⟩ := h.failPurge_requeued hb herr hfailing now
    rw [List.length_cons, List.replicate_succ, State.run, List.foldlM_cons,
      step_failPurge hb hfailing, hs₁, List.reverse_cons]
    exact (ih h₁ hb₁ rfl).mono fun s' hs' => hqueue.trans htopics hs'

/-- **A broker that fails reverses its requests**: when all of them are
purged, the messages are back in the queues of their partitions, the
messages of each request in order, but the requests from the last to the
first. -/
theorem fail_reverses_requests {conf : Conf} (h : Reachable conf s) {rkb : Broker}
    (hb : s.brokers[b]? = some rkb) (hidle : rkb.failing = none) {err : Err}
    (herr : err.requeued = true) (now : ℤ) :
    ∃ s', s.run (.fail b err ::
        List.replicate (rkb.waitresps ++ rkb.outbufs).length (.failPurge b now)) = some s' ∧
      ∀ r rktp, 0 < s.slots r → s.toppars[r]? = some rktp →
        ∃ rktp', s'.toppars[r]? = some rktp' ∧ rktp'.xmitMsgq = rktp.xmitMsgq ∧
          rktp'.msgq.msgs =
            requestMsgs r (rkb.waitresps ++ rkb.outbufs).reverse ++ rktp.msgq.msgs := by
  have hacc := h.accounted
  have herr' : err ≠ .noError := by
    rintro rfl
    cases herr
  have hstep : s.step (.fail b err) = some (s.failBegin b err) := by
    rw [step, State.broker, hb]
    exact if_pos ⟨by rw [hidle]; rfl, herr'⟩
  have h₁ := hacc.failBegin hb (by rw [hidle]; rfl) err
  rw [State.run, List.foldlM_cons, hstep]
  exact h₁.run_failPurge herr now (brokers_modifyBroker hb _) rfl

/-- The state with both messages in requests, in the order of production. -/
def requestedTwo : State :=
  (queuedTwo.step (.serveToppar 0 1 2000000 false)).getD queuedTwo

theorem reachable_requestedTwo : Reachable smallConf requestedTwo := by
  refine ⟨setUp ++ produceTwo ++ [.serveToppar 0 1 2000000 false], fun a ha => ?_, rfl⟩
  rcases List.mem_append.1 ha with ha | ha
  · exact wellFormed_example a (List.mem_append_left _ ha)
  · exact wellFormed_example a (List.mem_append_right _ (by simp_all [deliverTwo]))

/-- The message that was produced last is now the first. -/
theorem fail_reverses_requests_two :
    ∃ s' rktp', requestedTwo.run [.fail 0 .transport, .failPurge 0 0, .failPurge 0 0] = some s' ∧
      s'.toppars[1]? = some rktp' ∧ rktp'.msgq.msgs.map Msg.id = [1, 0] := by
  obtain ⟨s', hs', hqueue⟩ := fail_reverses_requests (b := 0) reachable_requestedTwo rfl rfl
    (show Err.requeued .transport = true from rfl) 0
  obtain ⟨rktp', hget, -, hmsgs⟩ := hqueue 1 _ (by decide) rfl
  exact ⟨s', rktp', hs', hget, by rw [hmsgs]; rfl⟩

/-! ## Metadata that brings nothing new -/

/-- **Unassigned messages stay unassigned** when metadata brings the same
partitions with the same leaders: the topic is known again, and every queue
is as it was, also that of the messages that were produced while the topic
was not known. -/
theorem unassigned_kept {conf : Conf} (h : Reachable conf s) {rkt : Topic}
    (ht : s.topics[t]? = some rkt) {err : Err} {partitions : List MetadataPartition}
    {partitioner : Msg → ℤ}
    (hwf : (Action.metadataUpdate t err partitions partitioner).WellFormed)
    (hsame : s.Unchanged t err partitions) :
    ∃ s', s.step (.metadataUpdate t err partitions partitioner) = some s' ∧
      s'.topics[t]? = some { rkt with state := .exists } ∧
      ∀ r : ℕ, s'.toppars[r]?.map Toppar.place = s.toppars[r]?.map Toppar.place := by
  obtain ⟨s', hs', hstill⟩ := h.accounted.metadataUpdate_same t hwf hsame partitioner
  exact ⟨s', hs', by rw [hstill.topics, getElem?_setState ht], hstill.toppars⟩

/-- A message is produced while the topic is not known. -/
def expired : List Action :=
  setUp ++ [.metadataExpire 0, .produce 0 0 [104] none, .produceFinish 0 (fun _ => 0) 0]

theorem unassigned_kept_one :
    ∃ s s', (new smallConf).run expired = some s ∧
      s.step (.metadataUpdate 0 .noError [⟨0, 7, 1⟩] fun _ => 0) = some s' ∧
      (s'.queue 0).map Msg.id = [0] := by
  have hrun : (new smallConf).run expired =
      some (((new smallConf).run expired).getD (new smallConf)) := rfl
  have hsame : (((new smallConf).run expired).getD (new smallConf)).Unchanged 0 .noError
      [⟨0, 7, 1⟩] := by
    refine ⟨by simp, fun rkt ht => ?_⟩
    obtain rfl := Option.some.inj ht
    refine ⟨rfl, fun mdp hmem r hr => ?_⟩
    obtain rfl := List.mem_singleton.1 hmem
    obtain rfl := Option.some.inj hr
    rfl
  obtain ⟨s', hs', -, hkept⟩ := unassigned_kept (t := 0)
    ⟨expired, by simp [expired, setUp, Action.WellFormed], hrun⟩ rfl
    (show Action.WellFormed (.metadataUpdate 0 .noError [⟨0, 7, 1⟩] fun _ => 0) by
      simp [Action.WellFormed]) hsame
  refine ⟨_, s', hrun, hs', ?_⟩
  obtain ⟨rktp, hget, hplace⟩ := Option.map_eq_some_iff.1 (hkept 0)
  rw [State.queue, hget]
  change (rktp.place.2.2.msgs ++ rktp.place.2.1.msgs).map Msg.id = [0]
  rw [hplace]
  rfl

end State

end Kafka

end Xpod
