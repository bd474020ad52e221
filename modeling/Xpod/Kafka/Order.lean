import Mathlib.Tactic
import Xpod.Kafka.Serving
/-!
# The order in which messages are sent

While no request fails and no leader changes, the messages of a partition
are sent in the order in which they were queued. What a partition has sent,
what its leader has in requests, its transmit queue and its queue are one
sequence, in this order; a step moves its parts, takes messages from it and
adds new ones at its end. A broker that fails breaks the order: it puts its
requests back one by one, each in front of those before it.
-/

namespace Xpod

namespace Kafka

open scoped List

/-- The messages for the partition `r` in a list of requests. -/
def requestMsgs (r : ℕ) (bufs : List Buf) : List Msg :=
  (bufs.filter fun rkbuf => rkbuf.rktp = r).flatMap fun rkbuf => rkbuf.msgq.msgs

@[simp]
theorem requestMsgs_append (r : ℕ) (bufs bufs' : List Buf) :
    requestMsgs r (bufs ++ bufs') = requestMsgs r bufs ++ requestMsgs r bufs' := by
  simp [requestMsgs]

theorem requestMsgs_cons (r : ℕ) (rkbuf : Buf) (bufs : List Buf) :
    requestMsgs r (rkbuf :: bufs) = requestMsgs r [rkbuf] ++ requestMsgs r bufs :=
  requestMsgs_append r [rkbuf] bufs

theorem requestMsgs_of_ne {r : ℕ} {bufs : List Buf} (h : ∀ rkbuf ∈ bufs, rkbuf.rktp ≠ r) :
    requestMsgs r bufs = [] := by
  rw [requestMsgs, List.filter_eq_nil_iff.2 fun rkbuf hmem => by simpa using h rkbuf hmem,
    List.flatMap_nil]

theorem requestMsgs_of_eq {r : ℕ} {bufs : List Buf} (h : ∀ rkbuf ∈ bufs, rkbuf.rktp = r) :
    requestMsgs r bufs = bufs.flatMap fun rkbuf => rkbuf.msgq.msgs := by
  rw [requestMsgs, List.filter_eq_self.2 fun rkbuf hmem => by simpa using h rkbuf hmem]

/-- The queues of a partition, the older one first. -/
def Toppar.queue (rktp : Toppar) : List Msg := rktp.xmitMsgq.msgs ++ rktp.msgq.msgs

/-- What decides where the messages of a partition are and go. -/
def Toppar.place (rktp : Toppar) : Option ℕ × Msgq × Msgq :=
  (rktp.leader, rktp.msgq, rktp.xmitMsgq)

namespace State

/-! ## The path of a message -/

/-- The requests of the broker `b` that are not sent yet. -/
def out (s : State) (b : ℕ) : List Buf := s.brokers[b]?.elim [] Broker.outbufs

/-- The requests of the broker `b` that will be tried again. -/
def retries (s : State) (b : ℕ) : List Buf := s.brokers[b]?.elim [] Broker.retrybufs

def leader (s : State) (r : ℕ) : Option ℕ := s.toppars[r]?.bind Toppar.leader

def queue (s : State) (r : ℕ) : List Msg := s.toppars[r]?.elim [] Toppar.queue

/-- The messages that were sent for the partition `r`, in order. -/
def sent (s : State) (r : ℕ) : List Msg := requestMsgs r (s.wire.map Prod.snd)

/-- The messages of the partition `r` that are on their way. -/
def unsent (s : State) (r : ℕ) : List Msg :=
  (s.leader r).elim [] (fun b => requestMsgs r (s.out b)) ++ s.queue r

/-- The requests are at the leaders of their partitions, and none will be
tried again. -/
def Led (s : State) : Prop :=
  ∀ b, s.retries b = [] ∧ ∀ rkbuf ∈ s.out b, s.leader rkbuf.rktp = some b

/-- **Nothing is overtaken** between the two states. -/
structure InOrder (s s' : State) : Prop where
  created : s.created <+: s'.created
  path : ∀ r, ∃ new, s'.sent r = s.sent r ++ new ∧
    (new ++ s'.unsent r) <+ s.unsent r ++ s'.created.drop s.created.length

variable {s s' : State} {r b t : ℕ} {extra : List Msg}

theorem InOrder.refl (s : State) : InOrder s s :=
  ⟨List.prefix_rfl, fun r => ⟨[], by simp, by simp⟩⟩

theorem InOrder.trans {s'' : State} (h : InOrder s s') (h' : InOrder s' s'') : InOrder s s'' := by
  refine ⟨h.created.trans h'.created, fun r => ?_⟩
  obtain ⟨new, hnew, hpath⟩ := h.path r
  obtain ⟨new', hnew', hpath'⟩ := h'.path r
  obtain ⟨c, hc⟩ := h.created
  obtain ⟨c', hc'⟩ := h'.created
  rw [← hc, List.drop_left] at hpath
  rw [← hc', List.drop_left] at hpath'
  refine ⟨new ++ new', by rw [hnew', hnew, List.append_assoc], ?_⟩
  rw [← hc', ← hc, List.append_assoc s.created, List.drop_left]
  calc (new ++ new') ++ s''.unsent r
      = new ++ (new' ++ s''.unsent r) := List.append_assoc _ _ _
    _ <+ new ++ (s'.unsent r ++ c') := hpath'.append_left new
    _ = (new ++ s'.unsent r) ++ c' := (List.append_assoc _ _ _).symm
    _ <+ (s.unsent r ++ c) ++ c' := hpath.append_right c'
    _ = s.unsent r ++ (c ++ c') := List.append_assoc _ _ _

/-! ## Operations that move no request -/

/-- The queues lose messages or get some of `extra` at their end. -/
structure Quiet (extra : List Msg) (s s' : State) : Prop where
  created : s'.created = s.created
  wire : s'.wire = s.wire
  out : ∀ b, s'.out b = s.out b
  retries : ∀ b, s'.retries b = s.retries b
  leader : ∀ r, s'.leader r = s.leader r
  queue : ∀ r, s'.queue r <+ s.queue r ++ extra

theorem Quiet.refl (s : State) : Quiet [] s s :=
  ⟨rfl, rfl, fun _ => rfl, fun _ => rfl, fun _ => rfl, fun r => by simp⟩

theorem Quiet.trans {s'' : State} {extra' : List Msg} (h : Quiet extra s s')
    (h' : Quiet extra' s' s'') : Quiet (extra ++ extra') s s'' where
  created := h'.created.trans h.created
  wire := h'.wire.trans h.wire
  out b := (h'.out b).trans (h.out b)
  retries b := (h'.retries b).trans (h.retries b)
  leader r := (h'.leader r).trans (h.leader r)
  queue r := by
    rw [← List.append_assoc]
    exact (h'.queue r).trans ((h.queue r).append_right extra')

theorem Quiet.led (h : Quiet extra s s') (hled : s.Led) : s'.Led := by
  intro b
  rw [h.retries, h.out]
  refine ⟨(hled b).1, fun rkbuf hmem => ?_⟩
  rw [h.leader]
  exact (hled b).2 rkbuf hmem

theorem Quiet.inOrder (h : Quiet [] s s') : InOrder s s' := by
  refine ⟨h.created ▸ List.prefix_rfl, fun r => ⟨[], ?_, ?_⟩⟩
  · rw [sent, sent, h.wire, List.append_nil]
  · rw [h.created, List.drop_length, List.append_nil, List.nil_append, unsent, unsent, h.leader]
    simp only [h.out]
    exact (by simpa using h.queue r : s'.queue r <+ s.queue r).append_left _

theorem quiet_modifyToppar (r : ℕ) (f : Toppar → Toppar)
    (h : ∀ rktp, s.toppars[r]? = some rktp →
      (f rktp).leader = rktp.leader ∧ (f rktp).queue <+ rktp.queue ++ extra) :
    Quiet extra s (s.modifyToppar r f) := by
  refine ⟨rfl, rfl, fun _ => rfl, fun _ => rfl, fun x => ?_, fun x => ?_⟩
  · rw [State.leader, State.leader, getElem?_modifyToppar]
    split
    case isTrue hx =>
      subst hx
      cases hget : s.toppars[r]? with
      | none => rfl
      | some rktp => exact (h rktp hget).1
    case isFalse => rfl
  · rw [State.queue, State.queue, getElem?_modifyToppar]
    split
    case isTrue hx =>
      subst hx
      cases hget : s.toppars[r]? with
      | none => simp
      | some rktp => exact (h rktp hget).2
    case isFalse => exact List.sublist_append_left _ _

theorem quiet_modifyBroker (b : ℕ) (f : Broker → Broker)
    (h : ∀ rkb, s.brokers[b]? = some rkb →
      (f rkb).outbufs = rkb.outbufs ∧ (f rkb).retrybufs = rkb.retrybufs) :
    Quiet [] s (s.modifyBroker b f) := by
  refine ⟨rfl, rfl, fun x => ?_, fun x => ?_, fun _ => rfl, fun x => by
    rw [List.append_nil]
    exact List.Sublist.refl _⟩
  · rw [State.out, State.out, getElem?_modifyBroker]
    split
    case isTrue hx =>
      subst hx
      cases hget : s.brokers[b]? with
      | none => rfl
      | some rkb => exact (h rkb hget).1
    case isFalse => rfl
  · rw [State.retries, State.retries, getElem?_modifyBroker]
    split
    case isTrue hx =>
      subst hx
      cases hget : s.brokers[b]? with
      | none => rfl
      | some rkb => exact (h rkb hget).2
    case isFalse => rfl

/-- The counters and the reports say nothing about the queues. -/
theorem quiet_of_eq (hcreated : s'.created = s.created) (hwire : s'.wire = s.wire)
    (hbrokers : s'.brokers = s.brokers) (htoppars : s'.toppars = s.toppars) : Quiet [] s s' := by
  refine ⟨hcreated, hwire, fun x => ?_, fun x => ?_, fun x => ?_, fun x => ?_⟩
  · rw [State.out, State.out, hbrokers]
  · rw [State.retries, State.retries, hbrokers]
  · rw [State.leader, State.leader, htoppars]
  · rw [State.queue, State.queue, htoppars, List.append_nil]

theorem settleAll_eq (s : State) (fate : Fate) (msgs : List Msg) :
    Ensures (msgs.foldlM (fun s rkm => s.settle fate rkm) s) fun s' =>
      ∃ msgCnt settled, s' = { s with msgCnt := msgCnt, settled := settled } := by
  refine Ensures.foldlM (fun s' => ∃ msgCnt settled,
    s' = { s with msgCnt := msgCnt, settled := settled }) (fun rkm _ s₁ hs₁ s₂ hs₂ => ?_)
    ⟨s.msgCnt, s.settled, rfl⟩
  obtain ⟨msgCnt, settled, rfl⟩ := hs₁
  rw [settle_eq] at hs₂
  split at hs₂
  · exact ⟨_, _, (Option.some.inj hs₂).symm⟩
  · cases hs₂

theorem drMsgq_eq (s : State) (rkmq : Msgq) (err : Err) :
    Ensures (s.drMsgq rkmq err) fun s' => ∃ msgCnt rep settled,
      s' = { s with msgCnt := msgCnt, rep := rep, settled := settled } := by
  refine Ensures.ite (fun _ => Ensures.some ⟨_, _, _, rfl⟩) fun _ =>
    (settleAll_eq s (.dropped err) rkmq.msgs).mono ?_
  rintro s' ⟨msgCnt, settled, hs'⟩
  exact ⟨msgCnt, s.rep, settled, hs'⟩

theorem toppar_eq_of_getElem? {rktp rktp' : Toppar} (h : s.toppar r = some rktp)
    (h' : s.toppars[r]? = some rktp') : rktp = rktp' := by
  rw [State.toppar, h', Option.bind_some] at h
  split at h
  · cases h
  · exact (Option.some.inj h).symm

theorem quiet_drMsgq (s : State) (rkmq : Msgq) (err : Err) :
    Ensures (s.drMsgq rkmq err) (Quiet [] s) := by
  refine (drMsgq_eq s rkmq err).mono ?_
  rintro s' ⟨_, _, _, rfl⟩
  exact quiet_of_eq rfl rfl rfl rfl

theorem quiet_topparKeep (s : State) (r : ℕ) : Ensures (s.topparKeep r) (Quiet [] s) :=
  Ensures.bind_read fun _ _ => Ensures.some (quiet_modifyToppar r _ fun rktp _ =>
    ⟨rfl, by rw [List.append_nil]; exact List.Sublist.refl _⟩)

theorem quiet_topparDestroy (s : State) (r : ℕ) : Ensures (s.topparDestroy r) (Quiet [] s) := by
  refine Ensures.bind_read fun rktp _ => ?_
  have h₁ : Quiet [] s (s.modifyToppar r fun rktp => { rktp with refcnt := rktp.refcnt - 1 }) :=
    quiet_modifyToppar r _ fun rktp _ => ⟨rfl, by rw [List.append_nil]; exact List.Sublist.refl _⟩
  refine Ensures.ite (fun _ => Ensures.bind_read fun rktp' _ => ?_) fun _ => Ensures.some h₁
  refine (quiet_drMsgq _ rktp'.xmitMsgq .destroy).bind fun s₂ _ h₂ => ?_
  refine (quiet_drMsgq _ rktp'.msgq .destroy).bind fun s₃ _ h₃ => Ensures.some ?_
  refine ((h₁.trans h₂).trans h₃).trans (quiet_modifyToppar r _ fun _ _ => ⟨rfl, ?_⟩)
  exact List.nil_sublist _

theorem frame_topparDestroy (s : State) (r : ℕ) :
    Ensures (s.topparDestroy r) fun s' => s'.topics = s.topics ∧ s'.brokers = s.brokers := by
  refine Ensures.bind_read fun rktp _ => ?_
  refine Ensures.ite (fun _ => Ensures.bind_read fun rktp' _ => ?_) fun _ => Ensures.some ⟨rfl, rfl⟩
  refine (drMsgq_eq _ rktp'.xmitMsgq .destroy).bind ?_
  rintro s₂ _ ⟨_, _, _, hs₂⟩
  refine (drMsgq_eq _ rktp'.msgq .destroy).bind ?_
  rintro s₃ - ⟨_, _, _, hs₃⟩
  refine Ensures.some ?_
  rw [hs₃, hs₂]
  exact ⟨rfl, rfl⟩

theorem quiet_scanToppar (s : State) (t : ℕ) (partition now : ℤ) :
    Ensures (s.scanToppar t partition now) (Quiet [] s) := by
  rw [State.scanToppar]
  split
  · exact Ensures.some (Quiet.refl s)
  · rename_i r _
    refine (quiet_topparKeep s r).bind fun s₁ _ h₁ => Ensures.bind_read fun rktp hrktp => ?_
    refine Ensures.bind_read ?_
    rintro ⟨rkmq, timedout⟩ hscan
    have hrkmq : rkmq.msgs <+ rktp.msgq.msgs := by
      rw [((Msgq.ageScan_spec _ _ _).eq_some hscan).1]
      exact List.dropWhile_sublist _
    have h₂ : Quiet [] s₁ { s₁ with timedout := timedout } := quiet_of_eq rfl rfl rfl rfl
    have h₃ : Quiet [] { s₁ with timedout := timedout } (State.modifyToppar
        { s₁ with timedout := timedout } r fun rktp => { rktp with msgq := rkmq }) := by
      refine quiet_modifyToppar r _ fun rktp' hget => ⟨rfl, ?_⟩
      obtain rfl := toppar_eq_of_getElem? hrktp hget
      rw [List.append_nil]
      exact hrkmq.append_left _
    exact (quiet_topparDestroy _ r).mono fun s₄ h₄ => (h₁.trans (h₂.trans h₃)).trans h₄

theorem quiet_takeMsgq (s : State) (b r : ℕ) : Ensures (s.takeMsgq b r) (Quiet [] s) := by
  refine Ensures.bind_read fun rktp _ => Ensures.bind_read fun rkt _ => ?_
  refine Ensures.ite (fun _ => Ensures.some ?_) fun _ => Ensures.some ?_
  · have h₁ : Quiet [] s (s.modifyBroker b fun rkb =>
        { rkb with isrfailed := rkb.isrfailed.concat rktp.msgq }) :=
      quiet_modifyBroker b _ fun _ _ => ⟨rfl, rfl⟩
    refine h₁.trans (quiet_modifyToppar r _ fun rktp _ => ⟨rfl, ?_⟩)
    simp [Toppar.queue, Msgq.init]
  · refine quiet_modifyToppar r _ fun rktp _ => ⟨rfl, ?_⟩
    simp [Toppar.queue, Msgq.init, Msgq.concat]

theorem quiet_scanXmit (s : State) (b r : ℕ) (now : ℤ) :
    Ensures (s.scanXmit b r now) (Quiet [] s) := by
  refine Ensures.bind_read fun rktp hrktp => Ensures.bind_read fun rkb _ => ?_
  refine Ensures.bind_read ?_
  rintro ⟨xmit, timedout⟩ hscan
  refine Ensures.some ?_
  have hxmit : xmit.msgs <+ rktp.xmitMsgq.msgs := by
    rw [((Msgq.ageScan_spec _ _ _).eq_some hscan).1]
    exact List.dropWhile_sublist _
  have h₁ : Quiet [] s (s.modifyBroker b fun rkb => { rkb with timedout := timedout }) :=
    quiet_modifyBroker b _ fun _ _ => ⟨rfl, rfl⟩
  refine h₁.trans (quiet_modifyToppar r _ fun rktp' hget => ⟨rfl, ?_⟩)
  obtain rfl := toppar_eq_of_getElem? hrktp hget
  rw [List.append_nil]
  exact hxmit.append_right _

theorem quiet_serveReport (s : State) (b : ℕ) : Ensures (s.serveReport b) (Quiet [] s) := by
  refine Ensures.bind_read fun rkb _ => ?_
  have h₁ : Quiet [] s (s.modifyBroker b fun rkb =>
      { rkb with isrfailed := .init, timedout := .init }) :=
    quiet_modifyBroker b _ fun _ _ => ⟨rfl, rfl⟩
  have hlast : ∀ {s₂ : State}, Quiet [] s s₂ → Ensures
      (if 0 < rkb.timedout.msgCnt then s₂.drMsgq rkb.timedout .msgTimedOut else some s₂)
      (Quiet [] s) :=
    fun h₂ => Ensures.ite (fun _ => (quiet_drMsgq _ _ _).mono fun _ h₃ => h₂.trans h₃)
      fun _ => Ensures.some h₂
  exact Ensures.ite (fun _ => (quiet_drMsgq _ _ _).bind fun s₂ _ h₂ => hlast (h₁.trans h₂))
    fun _ => hlast h₁

theorem quiet_scanReport (s : State) : Ensures s.scanReport (Quiet [] s) := by
  have h₁ : Quiet [] s { s with timedout := .init } := quiet_of_eq rfl rfl rfl rfl
  exact Ensures.ite (fun _ => (quiet_drMsgq _ _ _).mono fun _ h₂ => h₁.trans h₂)
    fun _ => Ensures.some h₁

theorem quiet_pollServe (s : State) : Ensures s.pollServe (Quiet [] s) := by
  rw [State.pollServe]
  split
  · exact Ensures.some (Quiet.refl s)
  · refine (settleAll_eq _ _ _).mono ?_
    rintro s' ⟨_, _, hs'⟩
    exact quiet_of_eq (by rw [hs']) (by rw [hs']) (by rw [hs']) (by rw [hs'])

/-- New partitions have no queue and no leader. -/
theorem quiet_addToppar (s : State) (rktp : Toppar) (topics : List Topic)
    (hleader : rktp.leader = none) (hqueue : rktp.queue = []) :
    Quiet [] s { s with toppars := s.toppars ++ [rktp], topics := topics } := by
  have hcases : ∀ r : ℕ, (s.toppars ++ [rktp])[r]? = s.toppars[r]? ∨
      s.toppars[r]? = none ∧ (s.toppars ++ [rktp])[r]? = some rktp := by
    intro r
    rcases Nat.lt_trichotomy r s.toppars.length with hlt | heq | hgt
    · exact .inl (List.getElem?_append_left hlt)
    · exact .inr ⟨List.getElem?_eq_none heq.ge, by simp [heq]⟩
    · refine .inl ?_
      rw [List.getElem?_eq_none (by simp; omega), List.getElem?_eq_none (by omega)]
  refine ⟨rfl, rfl, fun _ => rfl, fun _ => rfl, fun r => ?_, fun r => ?_⟩
  · rcases hcases r with h | ⟨hnone, h⟩
    · rw [State.leader, State.leader, h]
    · rw [State.leader, State.leader, h, hnone]
      exact hleader
  · rw [List.append_nil]
    rcases hcases r with h | ⟨hnone, h⟩
    · rw [State.queue, State.queue, h]
    · rw [State.queue, State.queue, h, hnone]
      exact hqueue ▸ List.Sublist.refl _

/-- New brokers have no requests. -/
theorem quiet_addBroker (s : State) (nodeid : ℤ) :
    Quiet [] s { s with brokers := s.brokers ++ [{ nodeid := nodeid }] } := by
  have hcases : ∀ b : ℕ, (s.brokers ++ [({ nodeid := nodeid } : Broker)])[b]? = s.brokers[b]? ∨
      s.brokers[b]? = none ∧ (s.brokers ++ [({ nodeid := nodeid } : Broker)])[b]? =
        some { nodeid := nodeid } := by
    intro b
    rcases Nat.lt_trichotomy b s.brokers.length with hlt | heq | hgt
    · exact .inl (List.getElem?_append_left hlt)
    · exact .inr ⟨List.getElem?_eq_none heq.ge, by simp [heq]⟩
    · refine .inl ?_
      rw [List.getElem?_eq_none (by simp; omega), List.getElem?_eq_none (by omega)]
  refine ⟨rfl, rfl, fun b => ?_, fun b => ?_, fun _ => rfl, fun r => ?_⟩
  · rcases hcases b with h | ⟨hnone, h⟩
    · rw [State.out, State.out, h]
    · rw [State.out, State.out, h, hnone]
      rfl
  · rcases hcases b with h | ⟨hnone, h⟩
    · rw [State.retries, State.retries, h]
    · rw [State.retries, State.retries, h, hnone]
      rfl
  · rw [List.append_nil]
    exact List.Sublist.refl _

end State

/-! ## Answers that end a request -/

/-- The answers after which a request is reported and not tried again. -/
def Err.final : Err → Bool
  | .noError | .destroy | .invalidMsg | .invalidMsgSize | .msgSizeTooLarge => true
  | _ => false

namespace State

variable {s s' : State} {r b t : ℕ} {extra : List Msg}

theorem quiet_produceMsgsetReply (s : State) (b : ℕ) {err : Err} (herr : err.final = true)
    (request : Buf) (now : ℤ) :
    Ensures (s.produceMsgsetReply b err request now) (Quiet [] s) := by
  have hreport : Ensures ((s.drMsgq request.msgq err).bind fun s => s.topparDestroy request.rktp)
      (Quiet [] s) :=
    (quiet_drMsgq s request.msgq err).bind fun s₁ _ h₁ =>
      (quiet_topparDestroy s₁ request.rktp).mono fun _ h₂ => h₁.trans h₂
  cases err with
  | noError | destroy | invalidMsg | invalidMsgSize | msgSizeTooLarge => exact hreport
  | _ => cases herr

theorem quiet_reqResponse (s : State) (b : ℕ) (corrid : UInt32) {err : Err}
    (herr : err.final = true) (now : ℤ) :
    Ensures (s.reqResponse b corrid err now) (Quiet [] s) := by
  refine Ensures.bind_read fun rkb _ => ?_
  split
  · exact Ensures.some (Quiet.refl s)
  · refine Ensures.bind_read fun rkb' _ => ?_
    split
    · exact Ensures.some (Quiet.refl s)
    · rename_i request _
      exact (quiet_produceMsgsetReply _ b herr request now).mono fun _ h₂ =>
        (quiet_modifyBroker b _ fun _ _ => by exact ⟨rfl, rfl⟩).trans h₂

/-! ## Metadata that changes nothing -/

/-- The metadata has as many partitions as the topic, with the same
leaders. -/
def Unchanged (s : State) (t : ℕ) (err : Err) (partitions : List MetadataPartition) : Prop :=
  err ≠ .unknownTopicOrPart ∧
    ∀ rkt, s.topics[t]? = some rkt → rkt.p.length = partitions.length ∧
      ∀ mdp ∈ partitions, ∀ r, rkt.get mdp.id = some r →
        s.leader r = if mdp.leader = -1 then none else s.findByNodeid mdp.leader

theorem leader_eq {rktp : Toppar} (h : s.toppar r = some rktp) : s.leader r = rktp.leader := by
  obtain ⟨rktp', hget, hfreed⟩ := Option.bind_eq_some_iff.1 h
  split at hfreed
  · cases hfreed
  · rw [State.leader, hget, ← Option.some.inj hfreed]
    rfl

/-- The queues and the leaders of all partitions are as they were. -/
structure Still (s s' : State) : Prop where
  created : s'.created = s.created
  wire : s'.wire = s.wire
  topics : s'.topics = s.topics
  brokers : s'.brokers = s.brokers
  toppars : ∀ r : ℕ, s'.toppars[r]?.map Toppar.place = s.toppars[r]?.map Toppar.place

theorem Still.refl (s : State) : Still s s := ⟨rfl, rfl, rfl, rfl, fun _ => rfl⟩

theorem Still.trans {s'' : State} (h : Still s s') (h' : Still s' s'') : Still s s'' :=
  ⟨h'.created.trans h.created, h'.wire.trans h.wire, h'.topics.trans h.topics,
    h'.brokers.trans h.brokers, fun r => (h'.toppars r).trans (h.toppars r)⟩

theorem still_modifyToppar (s : State) (r : ℕ) {f : Toppar → Toppar}
    (hf : ∀ rktp, (f rktp).place = rktp.place) : Still s (s.modifyToppar r f) := by
  refine ⟨rfl, rfl, rfl, rfl, fun x => ?_⟩
  rw [getElem?_modifyToppar]
  split
  · rw [Option.map_map]
    exact congrArg (Option.map · s.toppars[x]?) (funext hf)
  · rfl

theorem Still.leader (h : Still s s') (r : ℕ) : s'.leader r = s.leader r := by
  have hmap : ∀ s : State, s.leader r = (s.toppars[r]?.map Toppar.place).bind Prod.fst := by
    intro s
    rw [State.leader]
    cases s.toppars[r]? <;> rfl
  rw [hmap, hmap, h.toppars]

theorem Still.queue (h : Still s s') (r : ℕ) : s'.queue r = s.queue r := by
  have hmap : ∀ s : State, s.queue r =
      (s.toppars[r]?.map Toppar.place).elim [] fun p => p.2.2.msgs ++ p.2.1.msgs := by
    intro s
    rw [State.queue]
    cases s.toppars[r]? <;> rfl
  rw [hmap, hmap, h.toppars]

theorem Still.quiet (h : Still s s') : Quiet [] s s' := by
  refine ⟨h.created, h.wire, fun b => ?_, fun b => ?_, h.leader, fun r => ?_⟩
  · rw [State.out, State.out, h.brokers]
  · rw [State.retries, State.retries, h.brokers]
  · rw [h.queue, List.append_nil]

theorem Accounted.leaderUpdate_same (h : s.Accounted [] []) {rkt : Topic}
    (ht : s.topics[t]? = some rkt) {mdp : MetadataPartition} (hr : rkt.get mdp.id = some r)
    {b : Option ℕ} (hleader : s.leader r = b) :
    Succeeds (s.leaderUpdate t mdp b) fun p =>
      p.1 = false ∧ p.2.Accounted [] [] ∧ Still s p.2 := by
  have hpos := refs_pos_of_get ht hr
  rw [State.leaderUpdate, ht]
  simp only [Option.bind_eq_bind, Option.bind_some]
  rw [hr]
  simp only [Option.bind_some]
  refine Succeeds.bind (h.topparKeep (by simpa using hpos)) ?_
  rintro s₁ ⟨hs₁, h₁⟩
  obtain ⟨rktp₁, -, hget₁⟩ := h₁.toppar_eq (r := r) (by simp)
  set s₂ := s₁.modifyToppar r fun rktp => { rktp with isrCnt := mdp.isrCnt } with hs₂
  have h₂ : s₂.Accounted [r] [] := h₁.modifyQueues hget₁ _ rfl rfl rfl rfl fun w => rfl
  have hstill : Still s s₂ := by
    rw [hs₂, hs₁]
    exact (still_modifyToppar s r fun _ => by rfl).trans (still_modifyToppar _ r fun _ => by rfl)
  obtain ⟨rktp, hrktp, -⟩ := h₂.toppar_eq (r := r) (by simp)
  have hleader₂ : rktp.leader = b := by rw [← leader_eq hrktp, hstill.leader, hleader]
  rw [hrktp]
  simp only [Option.bind_some]
  have hdestroy : Succeeds ((s₂.topparDestroy r).bind fun s => some (false, s)) fun p =>
      p.1 = false ∧ p.2.Accounted [] [] ∧ Still s p.2 := by
    have hpos₂ : 0 < s₂.refs r + ([] : List ℕ).count r := by
      rw [List.count_nil, add_zero, hs₂, hs₁]
      exact hpos
    refine Succeeds.bind (h₂.topparDestroy_of_pos hpos₂) ?_
    rintro s₃ ⟨hs₃, h₃⟩
    refine Succeeds.some ⟨rfl, h₃, ?_⟩
    rw [hs₃]
    exact hstill.trans (still_modifyToppar _ r fun _ => by rfl)
  cases b with
  | none =>
    have hsame : s₂.brokerDelegate r none = some s₂ := by
      rw [State.brokerDelegate, hrktp]
      exact if_pos hleader₂
    rw [hsame, hleader₂]
    exact hdestroy
  | some b => exact Succeeds.ite (fun _ => hdestroy) fun hne => absurd hleader₂ hne

theorem Accounted.leaderUpdates_same {rkt : Topic} {partitions : List MetadataPartition}
    (h : s.Accounted [] []) (ht : s.topics[t]? = some rkt)
    (hids : ∀ mdp ∈ partitions, -1 ≤ mdp.id ∧ mdp.id < rkt.p.length)
    (hleaders : ∀ mdp ∈ partitions, ∀ r, rkt.get mdp.id = some r →
      s.leader r = if mdp.leader = -1 then none else s.findByNodeid mdp.leader) :
    Succeeds (State.leaderUpdates t partitions s) fun p => p.1 = false ∧ Still s p.2 := by
  induction partitions generalizing s with
  | nil => exact Succeeds.some ⟨rfl, Still.refl s⟩
  | cons mdp rest ih =>
    obtain ⟨hlo, hhi⟩ := hids mdp List.mem_cons_self
    obtain ⟨r, hr⟩ := get_isSome hlo hhi
    rw [State.leaderUpdates]
    refine Succeeds.bind (h.leaderUpdate_same ht hr (hleaders mdp List.mem_cons_self r hr)) ?_
    rintro ⟨upd, s₁⟩ ⟨hupd, h₁, hstill₁⟩
    refine Succeeds.bind (ih h₁ (by rw [hstill₁.topics, ht])
      (fun m hm => hids m (List.mem_cons_of_mem _ hm)) fun m hm x hx => ?_) ?_
    · rw [hstill₁.leader, findByNodeid, hstill₁.brokers]
      exact hleaders m (List.mem_cons_of_mem _ hm) x hx
    · rintro ⟨upds, s₂⟩ ⟨hupds, hstill₂⟩
      refine Succeeds.some ⟨?_, hstill₁.trans hstill₂⟩
      dsimp only at hupd hupds ⊢
      rw [hupd, hupds]
      rfl

/-- **Metadata that changes nothing** changes the state of the topic and
leaves every queue as it is. -/
theorem Accounted.metadataUpdate_same (h : s.Accounted [] []) (t : ℕ) {err : Err}
    {partitions : List MetadataPartition}
    (hids : ∀ mdp ∈ partitions, -1 ≤ mdp.id ∧ mdp.id < partitions.length)
    (hsame : s.Unchanged t err partitions) (partitioner : Msg → ℤ) :
    Succeeds (s.metadataUpdate t err partitions partitioner)
      (Still (s.modifyTopic t fun rkt => { rkt with state := .exists })) := by
  obtain ⟨herr, hsame⟩ := hsame
  rw [State.metadataUpdate]
  cases ht : s.topics[t]? with
  | none =>
    refine Succeeds.some ?_
    rw [State.modifyTopic, List.modify_eq_self (List.getElem?_eq_none_iff.1 ht)]
    exact Still.refl s
  | some rkt =>
    obtain ⟨hlen, hleaders⟩ := hsame rkt ht
    dsimp only
    rw [if_neg herr]
    set s₀ := s.modifyTopic t fun rkt => { rkt with state := .exists } with hs₀
    have ht₀ : s₀.topics[t]? = some { rkt with state := .exists } := getElem?_setState ht _
    have hcnt : s₀.partitionCntUpdate t partitions.length = some (false, s₀) := by
      rw [State.partitionCntUpdate, ht₀]
      exact if_pos hlen
    rw [hcnt, Option.bind_eq_bind, Option.bind_some]
    refine Succeeds.bind ((h.setState t .exists).leaderUpdates_same ht₀ (hlen ▸ hids) hleaders) ?_
    rintro ⟨upd, s₁⟩ ⟨hupd, hstill⟩
    dsimp only at hupd ⊢
    rw [hupd]
    exact Succeeds.some hstill

/-! ## A new message -/

theorem quiet_msgPartitioner (s : State) (t : ℕ) (partitioner : Msg → ℤ) (rkm : Msg) :
    Ensures (s.msgPartitioner t partitioner rkm) fun p => Quiet [rkm] s p.2 := by
  have hsame : Quiet [rkm] s s :=
    ⟨rfl, rfl, fun _ => rfl, fun _ => rfl, fun _ => rfl, fun r => List.sublist_append_left _ _⟩
  refine Ensures.bind_read fun rkt _ => ?_
  split
  · exact Ensures.some hsame
  · split
    · exact Ensures.some hsame
    · rename_i r _
      refine (quiet_topparKeep s r).bind fun s₁ _ h₁ => ?_
      refine Ensures.bind_read fun s₂ hs₂ => ?_
      refine (quiet_topparDestroy s₂ r).bind fun s₃ _ h₃ => Ensures.some ?_
      have h₂ : Quiet [rkm] s₁ s₂ := by
        obtain ⟨_, -, hs₂⟩ := Option.bind_eq_some_iff.1 hs₂
        rw [← Option.some.inj hs₂]
        refine quiet_modifyToppar r _ fun rktp _ => ⟨rfl, ?_⟩
        simp [Toppar.queue, Msgq.enq]
      exact (h₁.trans h₂).trans h₃

/-- **A call of `rd_kafka_produce`** puts its message at the end, or
nowhere. -/
theorem inOrder_msgNewFinish (s : State) (i : ℕ) (partitioner : Msg → ℤ) (now : ℤ) :
    Ensures (s.msgNewFinish i partitioner now) fun s' => InOrder s s' ∧ (s.Led → s'.Led) := by
  rw [State.msgNewFinish]
  split
  · exact Ensures.some ⟨InOrder.refl s, id⟩
  · rename_i call _
    have hcount : ∀ msgCnt : ℤ,
        Quiet [] s { s with calls := s.calls.eraseIdx i, msgCnt := msgCnt } :=
      fun msgCnt => quiet_of_eq rfl rfl rfl rfl
    refine Ensures.ite (fun _ => Ensures.bind_read fun rkt _ => ?_)
      fun _ => Ensures.some ⟨(hcount _).inOrder, (hcount _).led⟩
    refine Ensures.ite (fun _ => Ensures.some ⟨(hcount _).inOrder, (hcount _).led⟩) fun _ => ?_
    refine (quiet_msgPartitioner _ call.topic partitioner _).bind ?_
    rintro ⟨err, s₁⟩ _ h₁
    have hboth : ∀ {s₂ : State}, Quiet [] s₁ s₂ → InOrder s s₂ ∧ (s.Led → s₂.Led) := by
      intro s₂ h₁₂
      have h₂ := h₁.trans h₁₂
      have hcreated := h₂.created
      refine ⟨⟨hcreated ▸ List.prefix_append _ _, fun r => ⟨[], ?_, ?_⟩⟩, fun hled => ?_⟩
      · rw [sent, sent, h₂.wire, List.append_nil]
      · rw [hcreated, List.drop_left, List.nil_append, unsent, unsent, h₂.leader]
        simp only [h₂.out]
        rw [List.append_assoc]
        exact (h₂.queue r).append_left _
      · exact h₂.led hled
    refine Ensures.ite (fun _ => Ensures.some (hboth (Quiet.refl s₁))) fun _ s₂ hs₂ => hboth ?_
    rw [settle_eq] at hs₂
    split at hs₂
    · rw [← Option.some.inj hs₂]
      exact quiet_of_eq rfl rfl rfl rfl
    · cases hs₂

/-! ## Requests are made and sent -/

theorem out_modifyBroker {rkb : Broker} (hb : s.brokers[b]? = some rkb) (f : Broker → Broker)
    (c : ℕ) : (s.modifyBroker b f).out c = if b = c then (f rkb).outbufs else s.out c := by
  rw [State.out, State.out, getElem?_modifyBroker]
  split
  case isTrue hc =>
    rw [← hc, hb]
    rfl
  case isFalse => rfl

theorem retries_modifyBroker (s : State) (b : ℕ) {f : Broker → Broker}
    (hf : ∀ rkb, (f rkb).retrybufs = rkb.retrybufs) (c : ℕ) :
    (s.modifyBroker b f).retries c = s.retries c := by
  rw [State.retries, State.retries, getElem?_modifyBroker]
  split
  case isTrue =>
    cases s.brokers[c]? with
    | none => rfl
    | some rkb => exact hf rkb
  case isFalse => rfl

theorem queue_modifyToppar {rktp : Toppar} (hget : s.toppars[r]? = some rktp)
    (f : Toppar → Toppar) (x : ℕ) :
    (s.modifyToppar r f).queue x = if r = x then (f rktp).queue else s.queue x := by
  rw [State.queue, State.queue, getElem?_modifyToppar]
  split
  case isTrue hx =>
    rw [← hx, hget]
    rfl
  case isFalse => rfl

theorem Accounted.leader_of_mem (h : s.Accounted [] []) {rkb : Broker}
    (hb : s.brokers[b]? = some rkb) (hr : r ∈ rkb.toppars) : s.leader r = some b := by
  obtain ⟨rktp, hrktp, hget⟩ :=
    h.toppar_eq (r := r) (by simpa using refs_pos_of_mem hb hr)
  have hcount := (h.toppar r rktp hget).listed b rkb hb
  have hmem := List.count_pos_iff.2 hr
  rw [leader_eq hrktp]
  by_contra hne
  rw [if_neg hne] at hcount
  omega

/-- **Requests are made** for a transmit queue: its messages go from its
front to the end of the requests of its leader. -/
theorem Accounted.inOrder_serveXmit (h : s.Accounted [] []) (hpos : 0 < s.refs r)
    (hleader : s.leader r = some b) {rkb : Broker} (hb : s.brokers[b]? = some rkb) (now : ℤ) :
    Ensures (s.serveXmit b r now) fun s' => InOrder s s' ∧ (s.Led → s'.Led) := by
  obtain ⟨rktp, -, hget⟩ := h.toppar_eq (r := r) (by simpa using hpos)
  intro s' hs'
  rcases (h.serveXmit (by simpa using hpos) hget hb now).eq_some hs' with
    ⟨rfl, -⟩ | ⟨new, rfl, hnew, hmsgs⟩
  · exact ⟨InOrder.refl _, id⟩
  have hrktps : ∀ rkbuf ∈ new, rkbuf.rktp = r := fun rkbuf hmem => (hnew rkbuf hmem).rktp_eq
  set s₁ := s.modifyToppar r fun rktp => { rktp with tsLastXmit := now } with hs₁
  set s₂ := s₁.modifyToppar r fun rktp =>
    { rktp with xmitMsgq := .init, refcnt := rktp.refcnt + new.length } with hs₂
  have hquiet₁ : Quiet [] s s₁ :=
    quiet_modifyToppar r _ fun _ _ => ⟨rfl, by rw [List.append_nil]; exact List.Sublist.refl _⟩
  have hquiet : Quiet [] s s₂ := hquiet₁.trans <| quiet_modifyToppar r _ fun _ _ =>
    ⟨rfl, by simp [Toppar.queue, Msgq.init]⟩
  have hb₂ : s₂.brokers[b]? = some rkb := hb
  have hout : ∀ c, (s₁.addRequests b r .init new).out c =
      if b = c then s.out c ++ new else s.out c := by
    intro c
    rw [State.addRequests, ← hs₂, out_modifyBroker hb₂]
    split
    case isTrue hc =>
      rw [← hc, State.out, hb]
      rfl
    case isFalse => exact hquiet.out c
  have hqueue : ∀ x, (s₁.addRequests b r .init new).queue x =
      if r = x then rktp.msgq.msgs else s.queue x := by
    intro x
    change s₂.queue x = _
    rw [hs₂, queue_modifyToppar (toppars_modifyToppar hget _), queue_modifyToppar hget]
    split <;> rfl
  have hunsent : ∀ x, (s₁.addRequests b r .init new).unsent x = s.unsent x := by
    intro x
    rw [unsent, unsent, hqueue, show (s₁.addRequests b r .init new).leader x = s.leader x from
      hquiet.leader x]
    simp only [hout]
    by_cases hx : r = x
    · subst hx
      rw [hleader, if_pos rfl, State.queue, hget]
      simp [requestMsgs_of_eq hrktps, Toppar.queue, hmsgs]
    · rw [if_neg hx]
      cases s.leader x with
      | none => rfl
      | some c =>
        have hnone : requestMsgs x new = [] :=
          requestMsgs_of_ne fun rkbuf hmem => hrktps rkbuf hmem ▸ hx
        simp only [Option.elim]
        split <;> simp [hnone]
  refine ⟨⟨List.prefix_rfl, fun x => ⟨[], (List.append_nil _).symm, ?_⟩⟩, fun hled c => ⟨?_, ?_⟩⟩
  · rw [hunsent]
    exact List.sublist_append_left _ _
  · rw [State.addRequests, retries_modifyBroker _ _ fun _ => by rfl]
    exact (hquiet.retries c).trans (hled c).1
  · intro rkbuf hmem
    rw [show (s₁.addRequests b r .init new).leader rkbuf.rktp = s.leader rkbuf.rktp from
      hquiet.leader _]
    rw [hout] at hmem
    split at hmem
    case isTrue hc =>
      subst hc
      rcases List.mem_append.1 hmem with hmem | hmem
      · exact (hled b).2 rkbuf hmem
      · rw [hrktps rkbuf hmem, hleader]
    case isFalse => exact (hled c).2 rkbuf hmem

theorem Accounted.inOrder_serveToppar (h : s.Accounted [] []) {rkb : Broker}
    (hb : s.brokers[b]? = some rkb) (hr : r ∈ rkb.toppars) (now : ℤ) (doTimeoutScan : Bool) :
    Ensures (s.serveToppar b r now doTimeoutScan) fun s' => InOrder s s' ∧ (s.Led → s'.Led) := by
  have hpos := refs_pos_of_mem hb hr
  have hleader := h.leader_of_mem hb hr
  have hserve : ∀ {s₂ : State}, Quiet [] s s₂ → s₂.Accounted [] [] → s₂.refs r = s.refs r →
      (∃ rkb₂, s₂.brokers[b]? = some rkb₂) →
      Ensures (s₂.serveXmit b r now) fun s' => InOrder s s' ∧ (s.Led → s'.Led) := by
    rintro s₂ hquiet h₂ hrefs ⟨rkb₂, hb₂⟩
    exact (h₂.inOrder_serveXmit (hrefs ▸ hpos) ((hquiet.leader r).trans hleader) hb₂ now).mono
      fun s' h' => ⟨hquiet.inOrder.trans h'.1, fun hs => h'.2 (hquiet.led hs)⟩
  refine (quiet_takeMsgq s b r).bind fun s₁ hs₁ hquiet₁ => ?_
  obtain ⟨h₁, hrefs₁, hb₁⟩ := (h.takeMsgq hb hpos).eq_some hs₁
  cases doTimeoutScan with
  | false => exact hserve hquiet₁ h₁ hrefs₁ hb₁
  | true =>
    obtain ⟨rkb₁, hb₁⟩ := hb₁
    refine (quiet_scanXmit s₁ b r now).bind fun s₂ hs₂ hquiet₂ => ?_
    obtain ⟨h₂, hrefs₂, hb₂⟩ := (h₁.scanXmit hb₁ (hrefs₁ ▸ hpos) now).eq_some hs₂
    exact hserve (hquiet₁.trans hquiet₂) h₂ (hrefs₂.trans hrefs₁) hb₂

/-- **The first request is sent.** -/
theorem inOrder_sendFirst (hled : s.Led) (b : ℕ) (now : ℤ) :
    Ensures (s.sendFirst b now) fun s' => InOrder s s' ∧ s'.Led := by
  refine Ensures.bind_read fun rkb hb => ?_
  split
  · exact Ensures.some ⟨InOrder.refl s, hled⟩
  · rename_i rkbuf rest hrest
    have hsout : s.out b = rkbuf :: rest := by
      rw [State.out, hb]
      exact hrest
    have hleader : s.leader rkbuf.rktp = some b :=
      (hled b).2 rkbuf (hsout ▸ List.mem_cons_self)
    -- what holds when the request was moved to the wire
    have hmove : ∀ (f : Broker → Broker), (f rkb).outbufs = rest →
        (∀ rkb, (f rkb).retrybufs = rkb.retrybufs) →
        InOrder s (State.modifyBroker { s with wire := s.wire ++ [(b, rkbuf)] } b f) ∧
          (State.modifyBroker { s with wire := s.wire ++ [(b, rkbuf)] } b f).Led := by
      intro f hf hretry
      set s₁ : State := { s with wire := s.wire ++ [(b, rkbuf)] } with hs₁
      have hb₁ : s₁.brokers[b]? = some rkb := hb
      have hout : ∀ c, (s₁.modifyBroker b f).out c = if b = c then rest else s.out c := by
        intro c
        rw [out_modifyBroker hb₁, hf]
        rfl
      refine ⟨⟨List.prefix_rfl, fun x => ⟨requestMsgs x [rkbuf], ?_, ?_⟩⟩, fun c => ⟨?_, ?_⟩⟩
      · change requestMsgs x ((s.wire ++ [(b, rkbuf)]).map Prod.snd) = _
        rw [List.map_append, requestMsgs_append]
        rfl
      · have hpath : requestMsgs x [rkbuf] ++ (s₁.modifyBroker b f).unsent x = s.unsent x := by
          rw [unsent, unsent, show (s₁.modifyBroker b f).leader x = s.leader x from rfl,
            show (s₁.modifyBroker b f).queue x = s.queue x from rfl]
          simp only [hout]
          by_cases hx : rkbuf.rktp = x
          · subst hx
            rw [hleader]
            simp [hsout, requestMsgs_cons rkbuf.rktp rkbuf rest]
          · have hother : requestMsgs x [rkbuf] = [] := requestMsgs_of_ne (by simpa using hx)
            rw [hother, List.nil_append]
            cases s.leader x with
            | none => rfl
            | some c =>
              simp only [Option.elim]
              split
              case isTrue hc =>
                rw [← hc, hsout, requestMsgs_cons, hother, List.nil_append]
              case isFalse => rfl
        rw [hpath]
        exact List.sublist_append_left _ _
      · rw [retries_modifyBroker _ _ hretry]
        exact (hled c).1
      · intro rkbuf' hmem
        rw [hout] at hmem
        split at hmem
        case isTrue hc =>
          subst hc
          exact (hled b).2 rkbuf' (hsout ▸ List.mem_cons_of_mem _ hmem)
        case isFalse => exact (hled c).2 rkbuf' hmem
    refine Ensures.ite (fun _ => ?_) fun _ => Ensures.some (hmove _ rfl fun _ => rfl)
    have h₁ := hmove (fun rkb => { rkb with outbufs := rest }) rfl fun _ => rfl
    exact (quiet_produceMsgsetReply _ b rfl rkbuf now).mono fun s₂ h₂ =>
      ⟨h₁.1.trans h₂.inOrder, h₂.led h₁.2⟩

/-! ## Calm runs -/

/-- **No request fails and no leader changes**: requests are answered for
good, none times out, and metadata says nothing new. -/
def Calm (s : State) : Action → Prop
  | .metadataUpdate t err partitions partitioner =>
    (Action.metadataUpdate t err partitions partitioner).WellFormed ∧ s.Unchanged t err partitions
  | .response _ _ err _ => err.final = true
  | .requestTimeout b i now => ∀ rkb : Broker, s.brokers[b]? = some rkb →
    ∀ request, rkb.waitresps[i]? = some request → now < request.tsTimeout
  | .metadataNone .. | .fail .. | .failPurge .. | .failUndelegate .. | .failDone .. => False
  | _ => True

theorem Calm.wellFormed {a : Action} (h : s.Calm a) : a.WellFormed := by
  cases a with
  | metadataUpdate => exact h.1
  | _ => trivial

theorem inOrder_broker (hled : s.Led) (b : ℕ) (p : Broker → Prop) [DecidablePred p]
    {f : Broker → Option State}
    (hf : ∀ rkb, s.brokers[b]? = some rkb → p rkb →
      Ensures (f rkb) fun s' => InOrder s s' ∧ s'.Led) :
    Ensures (s.broker b p f) fun s' => InOrder s s' ∧ s'.Led := by
  rw [State.broker]
  split
  · exact Ensures.some ⟨InOrder.refl s, hled⟩
  · rename_i rkb hb
    exact Ensures.ite (hf rkb hb) fun _ => Ensures.some ⟨InOrder.refl s, hled⟩

/-- **A calm step overtakes nothing.** -/
theorem Accounted.inOrder_step (h : s.Accounted [] []) (hled : s.Led) {a : Action}
    (ha : s.Calm a) : Ensures (s.step a) fun s' => InOrder s s' ∧ s'.Led := by
  have hquiet : ∀ {s' : State}, Quiet [] s s' → InOrder s s' ∧ s'.Led :=
    fun h' => ⟨h'.inOrder, h'.led hled⟩
  cases a with
  | topicNew name conf =>
    refine Ensures.some ?_
    rw [State.topicNew]
    split
    · exact hquiet (Quiet.refl s)
    · exact hquiet (quiet_addToppar s _ _ rfl rfl)
  | brokersAdd => exact Ensures.some (hquiet (quiet_addBroker s _))
  | brokerUpdate nodeid =>
    refine Ensures.some ?_
    rw [State.brokerUpdate]
    split
    · exact hquiet (Quiet.refl s)
    · exact hquiet (quiet_addBroker s _)
  | connect b =>
    exact inOrder_broker hled b _ fun _ _ _ => Ensures.some
      (hquiet (quiet_modifyBroker b _ fun _ _ => ⟨rfl, rfl⟩))
  | produce t partition payload key =>
    exact Ensures.ite (fun _ => Ensures.some (hquiet (quiet_of_eq rfl rfl rfl rfl)))
      fun _ => Ensures.some (hquiet (Quiet.refl s))
  | produceFinish i partitioner now =>
    exact (inOrder_msgNewFinish s i partitioner now).mono fun _ h' => ⟨h'.1, h'.2 hled⟩
  | metadataNone => exact ha.elim
  | metadataUpdate t err partitions partitioner =>
    have hstate : Quiet [] s (s.modifyTopic t fun rkt => { rkt with state := .exists }) :=
      quiet_of_eq rfl rfl rfl rfl
    exact fun s' hs' => hquiet (hstate.trans
      ((h.metadataUpdate_same t ha.1 ha.2 partitioner).eq_some hs').quiet)
  | metadataExpire t => exact Ensures.some (hquiet (quiet_of_eq rfl rfl rfl rfl))
  | scanToppar t partition now =>
    exact (quiet_scanToppar s t partition now).mono fun _ h' => hquiet h'
  | scanReport => exact (quiet_scanReport s).mono fun _ h' => hquiet h'
  | serveToppar b r now doTimeoutScan =>
    exact inOrder_broker hled b _ fun rkb hb hp =>
      (h.inOrder_serveToppar hb hp.2.2 now doTimeoutScan).mono fun _ h' => ⟨h'.1, h'.2 hled⟩
  | serveReport b =>
    exact inOrder_broker hled b _ fun _ _ _ => (quiet_serveReport s b).mono fun _ h' => hquiet h'
  | retryBufsMove b now =>
    refine inOrder_broker hled b _ fun rkb hb _ => Ensures.some (hquiet ?_)
    refine quiet_modifyBroker b _ fun rkb' hb' => ?_
    have hnil : rkb'.retrybufs = [] := by
      have := (hled b).1
      rwa [State.retries, hb'] at this
    simp [hnil]
  | send b now => exact inOrder_broker hled b _ fun _ _ _ => inOrder_sendFirst hled b now
  | response b corrid err now =>
    exact inOrder_broker hled b _ fun _ _ _ =>
      (quiet_reqResponse s b corrid ha now).mono fun _ h' => hquiet h'
  | requestTimeout b i now =>
    refine inOrder_broker hled b _ fun rkb hb _ => Ensures.bind_read fun rkb' hb' => ?_
    split
    · exact Ensures.some (hquiet (Quiet.refl s))
    · rename_i request hi
      exact Ensures.ite (fun _ => Ensures.some (hquiet (Quiet.refl s)))
        fun hlt => absurd (ha rkb' hb' request hi) hlt
  | fail => exact ha.elim
  | failPurge => exact ha.elim
  | failUndelegate => exact ha.elim
  | failDone => exact ha.elim
  | pollTake => exact Ensures.some (hquiet (quiet_of_eq rfl rfl rfl rfl))
  | pollServe => exact (quiet_pollServe s).mono fun _ h' => hquiet h'

/-- A run in which each step is calm where it is made. -/
def CalmRun : State → List Action → Prop
  | _, [] => True
  | s, a :: actions => s.Calm a ∧ ∀ s', s.step a = some s' → CalmRun s' actions

theorem Accounted.inOrder_run {actions : List Action} (h : s.Accounted [] []) (hled : s.Led)
    (hcalm : s.CalmRun actions) :
    Succeeds (s.run actions) (InOrder s) := by
  induction actions generalizing s with
  | nil => exact Succeeds.some (InOrder.refl s)
  | cons a actions ih =>
    obtain ⟨ha, hrest⟩ := hcalm
    obtain ⟨s₁, hs₁, h₁⟩ := h.step ha.wellFormed
    obtain ⟨horder, hled₁⟩ := h.inOrder_step hled ha s₁ hs₁
    rw [State.run, List.foldlM_cons, hs₁]
    exact (ih h₁ hled₁ (hrest s₁ hs₁)).mono fun s' hs' => horder.trans hs'

theorem led_queuedTwo : queuedTwo.Led := by
  intro b
  cases b with
  | zero => exact ⟨rfl, fun rkbuf hmem => absurd hmem List.not_mem_nil⟩
  | succ b => exact ⟨rfl, fun rkbuf hmem => absurd hmem List.not_mem_nil⟩

end State

end Kafka

end Xpod
