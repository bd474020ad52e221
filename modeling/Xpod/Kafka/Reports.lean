import Mathlib.Tactic
import Xpod.Kafka.Conservation
/-!
# What a delivery report says

A message that is reported without an error was sent in a request, and the
broker confirmed that request, or the topic asks for no confirmation.
Nothing here is about partitions: an invariant of requests, reports and
ends of messages is enough, and every other part of the state may change.
-/

namespace Xpod

namespace Kafka

/-- The ends of a message that say it was delivered. -/
def Fate.Delivered (fate : Fate) : Prop := fate = .reported .noError ∨ fate = .dropped .noError

namespace State

/-- The message was in a request that was sent and confirmed: the topic
wants no response, or the broker answered without an error. -/
def Confirmed (actions : List Action) (s : State) (rkm : Msg) : Prop :=
  ∃ b rkbuf, (b, rkbuf) ∈ s.wire ∧ rkm ∈ rkbuf.msgq.msgs ∧
    (rkbuf.noResponse = true ∨ ∃ now, Action.response b rkbuf.corrid .noError now ∈ actions)

/-- **The invariant of reports**, with `actions` the steps of the whole
run. -/
structure Sound (actions : List Action) (s : State) : Prop where
  settled : ∀ rkm fate, (rkm, fate) ∈ s.settled → fate.Delivered → s.Confirmed actions rkm
  rep : ∀ rko ∈ s.rep, rko.err = .noError → ∀ rkm ∈ rko.msgq.msgs, s.Confirmed actions rkm
  localq : ∀ rko ∈ s.localq, rko.err = .noError → ∀ rkm ∈ rko.msgq.msgs, s.Confirmed actions rkm
  waitresps : ∀ (b : ℕ) (rkb : Broker), s.brokers[b]? = some rkb →
    ∀ rkbuf ∈ rkb.waitresps, (b, rkbuf) ∈ s.wire
  failing : ∀ (b : ℕ) (rkb : Broker), s.brokers[b]? = some rkb →
    ∀ failing, rkb.failing = some failing → failing.err ≠ .noError

variable {s : State} {actions : List Action} {r b t : ℕ}

/-! ## Changes of the state -/

theorem Sound.modifyToppar (h : s.Sound actions) (r : ℕ) (f : Toppar → Toppar) :
    (s.modifyToppar r f).Sound actions :=
  ⟨h.settled, h.rep, h.localq, h.waitresps, h.failing⟩

theorem Sound.modifyTopic (h : s.Sound actions) (t : ℕ) (f : Topic → Topic) :
    (s.modifyTopic t f).Sound actions :=
  ⟨h.settled, h.rep, h.localq, h.waitresps, h.failing⟩

/-- A change of a broker that adds no request to those that wait for a
response. -/
theorem Sound.modifyBroker (h : s.Sound actions) (b : ℕ) (f : Broker → Broker)
    (hwait : ∀ rkb : Broker, s.brokers[b]? = some rkb →
      ∀ rkbuf ∈ (f rkb).waitresps, (b, rkbuf) ∈ s.wire)
    (hfailing : ∀ rkb : Broker, s.brokers[b]? = some rkb →
      ∀ failing, (f rkb).failing = some failing → failing.err ≠ .noError) :
    (s.modifyBroker b f).Sound actions := by
  refine ⟨h.settled, h.rep, h.localq, fun c rkb hc => ?_, fun c rkb hc => ?_⟩
  · rw [getElem?_modifyBroker] at hc
    split at hc
    case isTrue hcb =>
      subst hcb
      obtain ⟨rkb', hb, rfl⟩ := Option.map_eq_some_iff.1 hc
      exact hwait rkb' hb
    case isFalse => exact h.waitresps c rkb hc
  · rw [getElem?_modifyBroker] at hc
    split at hc
    case isTrue hcb =>
      subst hcb
      obtain ⟨rkb', hb, rfl⟩ := Option.map_eq_some_iff.1 hc
      exact hfailing rkb' hb
    case isFalse => exact h.failing c rkb hc

/-- A change of a broker that leaves its sent requests alone. -/
theorem Sound.modifyBroker_of_eq (h : s.Sound actions) (b : ℕ) (f : Broker → Broker)
    (hwait : ∀ rkb, (f rkb).waitresps = rkb.waitresps)
    (hfailing : ∀ rkb, (f rkb).failing = rkb.failing) :
    (s.modifyBroker b f).Sound actions :=
  h.modifyBroker b f (fun rkb hb => hwait rkb ▸ h.waitresps b rkb hb)
    fun rkb hb => hfailing rkb ▸ h.failing b rkb hb

/-- The partitions that a broker lists have nothing to do with requests. -/
theorem Sound.setToppars (h : s.Sound actions) (b : ℕ) (f : List ℕ → List ℕ) :
    (s.modifyBroker b fun rkb => { rkb with toppars := f rkb.toppars }).Sound actions :=
  h.modifyBroker_of_eq b _ (fun _ => rfl) fun _ => rfl

theorem eq_of_settle {s' : State} {rkm : Msg} {fate : Fate}
    (h : s.settle fate rkm = some s') :
    s' = { s with msgCnt := s.msgCnt - 1, settled := s.settled ++ [(rkm, fate)] } := by
  rw [settle_eq] at h
  split at h
  · exact (Option.some.inj h).symm
  · cases h

/-- Messages come to their end, and the requests stay as they are. -/
theorem Sound.settleAll (h : s.Sound actions) {msgs : List Msg} {fate : Fate}
    (hmsgs : ∀ rkm ∈ msgs, fate.Delivered → s.Confirmed actions rkm) :
    Ensures (msgs.foldlM (fun s rkm => s.settle fate rkm) s) (Sound actions) := by
  refine (Ensures.foldlM (fun s' => s'.Sound actions ∧ s'.wire = s.wire) (fun rkm hrkm s₁ hs₁ => ?_)
    ⟨h, rfl⟩).mono fun s' hs' => hs'.1
  obtain ⟨h₁, hwire⟩ := hs₁
  intro s' hs'
  rw [eq_of_settle hs']
  refine ⟨⟨fun m f hm hf => ?_, h₁.rep, h₁.localq, h₁.waitresps, h₁.failing⟩, hwire⟩
  rcases List.mem_append.1 hm with hm | hm
  · exact h₁.settled m f hm hf
  · cases List.mem_singleton.1 hm
    obtain ⟨b, rkbuf, hmem, hrest⟩ := hmsgs rkm hrkm hf
    exact ⟨b, rkbuf, hwire ▸ hmem, hrest⟩

/-- **A report without an error** needs messages that are confirmed. -/
theorem Sound.drMsgq (h : s.Sound actions) {rkmq : Msgq} {err : Err}
    (hmsgs : err = .noError → ∀ rkm ∈ rkmq.msgs, s.Confirmed actions rkm) :
    Ensures (s.drMsgq rkmq err) (Sound actions) := by
  refine Ensures.ite (fun _ => Ensures.some ?_) fun _ => h.settleAll fun rkm hrkm hfate => ?_
  · refine ⟨h.settled, fun rko hrko => ?_, h.localq, h.waitresps, h.failing⟩
    rcases List.mem_append.1 hrko with hrko | hrko
    · exact h.rep rko hrko
    · obtain rfl := List.mem_singleton.1 hrko
      exact hmsgs
  · rcases hfate with hfate | hfate
    · cases hfate
    · exact hmsgs (Fate.dropped.inj hfate) rkm hrkm

theorem Sound.drMsgq_of_ne (h : s.Sound actions) (rkmq : Msgq) {err : Err} (herr : err ≠ .noError) :
    Ensures (s.drMsgq rkmq err) (Sound actions) :=
  h.drMsgq fun hno => absurd hno herr

/-! ## Partitions -/

theorem Sound.topparKeep (h : s.Sound actions) (r : ℕ) :
    Ensures (s.topparKeep r) (Sound actions) :=
  Ensures.bind_read fun _ _ => Ensures.some (h.modifyToppar r _)

theorem Sound.topparDestroy0 (h : s.Sound actions) (r : ℕ) :
    Ensures (s.topparDestroy0 r) (Sound actions) :=
  Ensures.bind_read fun rktp _ =>
    (h.drMsgq_of_ne rktp.xmitMsgq (by simp)).bind fun s₁ _ h₁ =>
      (h₁.drMsgq_of_ne rktp.msgq (by simp)).bind fun s₂ _ h₂ => Ensures.some (h₂.modifyToppar r _)

theorem Sound.topparDestroy (h : s.Sound actions) (r : ℕ) :
    Ensures (s.topparDestroy r) (Sound actions) :=
  Ensures.bind_read fun _ _ =>
    Ensures.ite (fun _ => (h.modifyToppar r _).topparDestroy0 r)
      fun _ => Ensures.some (h.modifyToppar r _)

theorem Sound.topparEnqMsg (h : s.Sound actions) (r : ℕ) (rkm : Msg) :
    Ensures (s.topparEnqMsg r rkm) (Sound actions) :=
  Ensures.bind_read fun _ _ => Ensures.some (h.modifyToppar r _)

theorem Sound.topparInsertMsgq (h : s.Sound actions) (r : ℕ) (rkmq : Msgq) :
    Ensures (s.topparInsertMsgq r rkmq) (Sound actions) :=
  Ensures.bind_read fun _ _ => Ensures.some (h.modifyToppar r _)

theorem Sound.topparMoveMsgs (h : s.Sound actions) (dst src : ℕ) :
    Ensures (s.topparMoveMsgs dst src) (Sound actions) :=
  (h.topparKeep src).bind fun _ _ h₁ => Ensures.bind_read fun _ _ => Ensures.bind_read fun _ _ =>
    ((h₁.modifyToppar dst _).modifyToppar src _).topparDestroy src

theorem Sound.msgPartitioner (h : s.Sound actions) (t : ℕ) (partitioner : Msg → ℤ) (rkm : Msg) :
    Ensures (s.msgPartitioner t partitioner rkm) fun p => p.2.Sound actions := by
  refine Ensures.bind_read fun rkt _ => ?_
  split
  · exact Ensures.some h
  · split
    · exact Ensures.some h
    · rename_i r _
      exact (h.topparKeep r).bind fun s₁ _ h₁ => (h₁.topparEnqMsg r rkm).bind fun s₂ _ h₂ =>
        (h₂.topparDestroy r).bind fun s₃ _ h₃ => Ensures.some h₃

/-! ## Producing -/

theorem Sound.msgNewFinish (h : s.Sound actions) (i : ℕ) (partitioner : Msg → ℤ) (now : ℤ) :
    Ensures (s.msgNewFinish i partitioner now) (Sound actions) := by
  rw [State.msgNewFinish]
  split
  · exact Ensures.some h
  · rename_i call _
    have hsame : ∀ (calls : List Call) (msgCnt : ℤ) (created : List Msg),
        Sound actions { s with calls := calls, msgCnt := msgCnt, created := created } :=
      fun _ _ _ => ⟨h.settled, h.rep, h.localq, h.waitresps, h.failing⟩
    refine Ensures.ite (fun _ => Ensures.bind_read fun rkt _ => ?_)
      fun _ => Ensures.some (hsame _ _ s.created)
    refine Ensures.ite (fun _ => Ensures.some (hsame _ _ s.created)) fun _ => ?_
    refine ((hsame _ s.msgCnt _).msgPartitioner call.topic partitioner _).bind ?_
    rintro ⟨err, s₂⟩ _ h₂
    refine Ensures.ite (fun _ => Ensures.some h₂) fun _ s' hs' => ?_
    rw [eq_of_settle hs']
    refine ⟨fun m f hm hf => ?_, h₂.rep, h₂.localq, h₂.waitresps, h₂.failing⟩
    rcases List.mem_append.1 hm with hm | hm
    · exact h₂.settled m f hm hf
    · cases List.mem_singleton.1 hm
      rcases hf with hf | hf <;> cases hf

/-! ## Leaders and metadata -/

theorem Sound.brokerDelegate (h : s.Sound actions) (r : ℕ) (b : Option ℕ) :
    Ensures (s.brokerDelegate r b) (Sound actions) := by
  refine Ensures.bind_read fun rktp _ => Ensures.ite (fun _ => Ensures.some h) fun _ => ?_
  refine (h.topparKeep r).bind fun s₁ _ h₁ => ?_
  have hundelegate : Ensures (s₁.undelegate r) (Sound actions) := by
    refine Ensures.bind_read fun rktp _ => ?_
    split
    · exact Ensures.some h₁
    · rename_i old _
      exact ((h₁.setToppars old (List.erase · r)).modifyToppar r _).topparDestroy r
  refine hundelegate.bind fun s₂ _ h₂ => ?_
  have hdelegate : Ensures (s₂.delegateTo r b) (Sound actions) := by
    cases b with
    | none => exact Ensures.some h₂
    | some b =>
      exact (h₂.topparKeep r).bind fun s₃ _ h₃ =>
        Ensures.some ((h₃.setToppars b (· ++ [r])).modifyToppar r _)
  exact hdelegate.bind fun s₃ _ h₃ => h₃.topparDestroy r

theorem Sound.leaderUpdate (h : s.Sound actions) (t : ℕ) (mdp : MetadataPartition)
    (b : Option ℕ) : Ensures (s.leaderUpdate t mdp b) fun p => p.2.Sound actions := by
  refine Ensures.bind_read fun rkt _ => Ensures.bind_read fun r _ => ?_
  refine (h.topparKeep r).bind fun s₁ _ h₁ => Ensures.bind_read fun rktp _ => ?_
  have hdelegate : ∀ (b : Option ℕ) (upd : Bool), Ensures
      (((s₁.modifyToppar r fun rktp => { rktp with isrCnt := mdp.isrCnt }).brokerDelegate r b).bind
        fun s => (s.topparDestroy r).bind fun s => some (upd, s)) fun p => p.2.Sound actions :=
    fun b upd => ((h₁.modifyToppar r _).brokerDelegate r b).bind fun s₂ _ h₂ =>
      (h₂.topparDestroy r).bind fun s₃ _ h₃ => Ensures.some h₃
  cases b with
  | none => exact hdelegate none _
  | some b =>
    refine Ensures.ite (fun _ => ?_) fun _ => hdelegate (some b) true
    exact ((h₁.modifyToppar r _).topparDestroy r).bind fun s₃ _ h₃ => Ensures.some h₃

theorem Sound.newPartitions (h : s.Sound actions) (t i n : ℕ) :
    (newPartitions t i n s).2.Sound actions := by
  induction n generalizing i s with
  | zero => exact h
  | succ n ih =>
    exact ih (s := (s.topparNew t i).2) ⟨h.settled, h.rep, h.localq, h.waitresps, h.failing⟩ (i + 1)

theorem Sound.removePartitions (h : s.Sound actions) (ua : ℕ) (rs : List ℕ) :
    Ensures (removePartitions ua rs s) (Sound actions) := by
  induction rs generalizing s with
  | nil => exact Ensures.some h
  | cons r rs ih =>
    exact (h.topparMoveMsgs ua r).bind fun s₁ _ h₁ => (h₁.topparDestroy r).bind fun s₂ _ h₂ => ih h₂

theorem Sound.partitionCntUpdate (h : s.Sound actions) (t partitionCnt : ℕ) :
    Ensures (s.partitionCntUpdate t partitionCnt) fun p => p.2.Sound actions := by
  refine Ensures.bind_read fun rkt _ => Ensures.ite (fun _ => Ensures.some h) fun _ => ?_
  refine ((h.newPartitions t _ _).topparKeep rkt.ua).bind fun s₁ _ h₁ => ?_
  refine ((h₁.modifyTopic t _).removePartitions rkt.ua _).bind fun s₂ _ h₂ => ?_
  exact (h₂.topparDestroy rkt.ua).bind fun s₃ _ h₃ => Ensures.some h₃

theorem Sound.assignLoop (h : s.Sound actions) (t : ℕ) (partitioner : Msg → ℤ) (msgs : List Msg)
    (failed : Msgq) :
    Ensures (assignLoop t partitioner msgs failed s) fun p => p.2.Sound actions := by
  induction msgs generalizing failed s with
  | nil => exact Ensures.some h
  | cons rkm rest ih =>
    refine Ensures.bind_read fun rkt _ => Ensures.ite (fun _ => ih h _) fun _ => ?_
    exact (h.msgPartitioner t partitioner rkm).bind fun _ _ h₁ => ih h₁ _

theorem Sound.assignUas (h : s.Sound actions) (t : ℕ) (partitioner : Msg → ℤ) :
    Ensures (s.assignUas t partitioner) (Sound actions) := by
  refine Ensures.bind_read fun rkt _ => ?_
  refine (h.topparKeep rkt.ua).bind fun s₁ _ h₁ => Ensures.bind_read fun ua _ => ?_
  refine ((h₁.modifyToppar rkt.ua _).assignLoop t partitioner _ _).bind ?_
  rintro ⟨failed, s₂⟩ _ h₂
  refine Ensures.ite (fun _ => ?_) fun _ => h₂.topparDestroy rkt.ua
  refine (h₂.drMsgq_of_ne failed ?_).bind fun s₃ _ h₃ => h₃.topparDestroy rkt.ua
  split <;> simp

theorem Sound.metadataNone (h : s.Sound actions) (t : ℕ) (partitioner : Msg → ℤ) :
    Ensures (s.metadataNone t partitioner) (Sound actions) := by
  rw [State.metadataNone]
  split
  · exact Ensures.some h
  · exact ((h.modifyTopic t _).partitionCntUpdate t 0).bind fun _ _ h₁ =>
      h₁.assignUas t partitioner

theorem Sound.leaderUpdates (h : s.Sound actions) (t : ℕ) (partitions : List MetadataPartition) :
    Ensures (leaderUpdates t partitions s) fun p => p.2.Sound actions := by
  induction partitions generalizing s with
  | nil => exact Ensures.some h
  | cons mdp rest ih =>
    exact (h.leaderUpdate t mdp _).bind fun _ _ h₁ => (ih h₁).bind fun _ _ h₂ => Ensures.some h₂

theorem Sound.metadataUpdate (h : s.Sound actions) (t : ℕ) (err : Err)
    (partitions : List MetadataPartition) (partitioner : Msg → ℤ) :
    Ensures (s.metadataUpdate t err partitions partitioner) (Sound actions) := by
  rw [State.metadataUpdate]
  split
  · exact Ensures.some h
  · refine ((h.modifyTopic t _).partitionCntUpdate t _).bind ?_
    rintro ⟨cnt, s₁⟩ _ h₁
    refine (h₁.leaderUpdates t partitions).bind ?_
    rintro ⟨upd, s₂⟩ _ h₂
    exact Ensures.ite (fun _ => h₂.assignUas t partitioner) fun _ => Ensures.some h₂

/-! ## Requests -/

/-- **The answer to a request** that is taken from its queue: it is
reported without an error if the answer says so and the request is
confirmed. -/
theorem Sound.produceMsgsetReply (h : s.Sound actions) (b : ℕ) {err : Err} {request : Buf}
    (hmsgs : err = .noError → ∀ rkm ∈ request.msgq.msgs, s.Confirmed actions rkm) (now : ℤ) :
    Ensures (s.produceMsgsetReply b err request now) (Sound actions) := by
  have hreport : Ensures ((s.drMsgq request.msgq err).bind fun s => s.topparDestroy request.rktp)
      (Sound actions) := (h.drMsgq hmsgs).bind fun s₁ _ h₁ => h₁.topparDestroy request.rktp
  have hinsert : Ensures ((s.topparInsertMsgq request.rktp request.msgq).bind fun s =>
      s.topparDestroy request.rktp) (Sound actions) :=
    (h.topparInsertMsgq request.rktp request.msgq).bind fun s₁ _ h₁ =>
      h₁.topparDestroy request.rktp
  have hretry : Ensures (if request.retries + 1 < s.conf.maxRetries then
      some (s.modifyBroker b fun rkb =>
        { rkb with
          retrybufs := rkb.retrybufs ++
            [{ request with
                retries := request.retries + 1
                tsRetry := now + s.conf.retryBackoffMs * 1000 }] })
      else (s.drMsgq request.msgq err).bind fun s => s.topparDestroy request.rktp)
      (Sound actions) :=
    Ensures.ite
      (fun _ => Ensures.some (h.modifyBroker_of_eq b _ (fun _ => by rfl) (fun _ => by rfl)))
      fun _ => hreport
  cases err with
  | noError | destroy | invalidMsg | invalidMsgSize | msgSizeTooLarge => exact hreport
  | requestTimedOut | msgTimedOut => exact hretry
  | _ => exact hinsert

theorem Sound.produceToppar (h : s.Sound actions) (b r : ℕ) :
    Ensures (s.produceToppar b r) fun p => p.2.Sound actions := by
  refine Ensures.bind_read fun rktp _ => Ensures.bind_read fun rkt _ => ?_
  refine Ensures.ite (fun _ => Ensures.none) fun _ => Ensures.bind_read ?_
  rintro ⟨xmit, rkmq⟩ _
  dsimp only
  split
  · exact Ensures.some h
  · exact ((h.modifyToppar r _).topparKeep r).bind fun s₁ _ h₁ =>
      Ensures.some (h₁.modifyBroker_of_eq b _ (fun _ => by rfl) (fun _ => by rfl))

theorem Sound.produceLoop (h : s.Sound actions) (b r fuel : ℕ) :
    Ensures (produceLoop b r fuel s) (Sound actions) := by
  induction fuel generalizing s with
  | zero => exact Ensures.some h
  | succ fuel ih =>
    refine Ensures.bind_read fun rktp _ => Ensures.ite (fun _ => Ensures.some h) fun _ => ?_
    exact (h.produceToppar b r).bind fun _ _ h₁ =>
      Ensures.ite (fun _ => ih h₁) fun _ => Ensures.some h₁

theorem Sound.serveToppar (h : s.Sound actions) (b r : ℕ) (now : ℤ) (doTimeoutScan : Bool) :
    Ensures (s.serveToppar b r now doTimeoutScan) (Sound actions) := by
  have htake : Ensures (s.takeMsgq b r) (Sound actions) := by
    refine Ensures.bind_read fun rktp _ => Ensures.bind_read fun rkt _ => ?_
    exact Ensures.ite
      (fun _ => Ensures.some
        ((h.modifyBroker_of_eq b _ (fun _ => by rfl) (fun _ => by rfl)).modifyToppar r _))
      fun _ => Ensures.some (h.modifyToppar r _)
  refine htake.bind fun s₁ _ h₁ => ?_
  have hserve : ∀ {s₂ : State}, s₂.Sound actions →
      Ensures (s₂.serveXmit b r now) (Sound actions) := by
    intro s₂ h₂
    refine Ensures.bind_read fun rktp _ => Ensures.ite (fun _ => Ensures.some h₂) fun _ => ?_
    exact Ensures.ite (fun _ => Ensures.some h₂) fun _ => (h₂.modifyToppar r _).produceLoop b r _
  refine Ensures.ite (fun _ => ?_) fun _ => hserve h₁
  have hscan : Ensures (s₁.scanXmit b r now) (Sound actions) :=
    Ensures.bind_read fun rktp _ => Ensures.bind_read fun rkb _ =>
      Ensures.bind_read fun _ _ => Ensures.some
        ((h₁.modifyBroker_of_eq b _ (fun _ => by rfl) (fun _ => by rfl)).modifyToppar r _)
  exact hscan.bind fun s₂ _ h₂ => hserve h₂

theorem Sound.serveReport (h : s.Sound actions) (b : ℕ) :
    Ensures (s.serveReport b) (Sound actions) := by
  refine Ensures.bind_read fun rkb _ => ?_
  have h₁ := h.modifyBroker_of_eq b (fun rkb => { rkb with isrfailed := .init, timedout := .init })
    (fun _ => by rfl) (fun _ => by rfl)
  have hlast : ∀ {s₂ : State}, s₂.Sound actions → Ensures
      (if 0 < rkb.timedout.msgCnt then s₂.drMsgq rkb.timedout .msgTimedOut else some s₂)
      (Sound actions) :=
    fun h₂ => Ensures.ite (fun _ => h₂.drMsgq_of_ne _ (by simp)) fun _ => Ensures.some h₂
  exact Ensures.ite (fun _ => (h₁.drMsgq_of_ne _ (by simp)).bind fun s₂ _ h₂ => hlast h₂)
    fun _ => hlast h₁

/-- A request is sent. -/
theorem Sound.addWire (h : s.Sound actions) (p : ℕ × Buf) :
    Sound actions { s with wire := s.wire ++ [p] } := by
  have hmono : ∀ {rkm}, s.Confirmed actions rkm →
      Confirmed actions { s with wire := s.wire ++ [p] } rkm := by
    rintro rkm ⟨b, rkbuf, hmem, hrest⟩
    exact ⟨b, rkbuf, List.mem_append_left _ hmem, hrest⟩
  exact ⟨fun m f hm hf => hmono (h.settled m f hm hf),
    fun rko hrko herr m hm => hmono (h.rep rko hrko herr m hm),
    fun rko hrko herr m hm => hmono (h.localq rko hrko herr m hm),
    fun c rkb hc rkbuf hmem => List.mem_append_left _ (h.waitresps c rkb hc rkbuf hmem), h.failing⟩

theorem Sound.sendFirst (h : s.Sound actions) (b : ℕ) (now : ℤ) :
    Ensures (s.sendFirst b now) (Sound actions) := by
  refine Ensures.bind_read fun rkb hb => ?_
  split
  · exact Ensures.some h
  · rename_i rkbuf rest _
    have h₁ := h.addWire (b, rkbuf)
    have hsent : (b, rkbuf) ∈ s.wire ++ [(b, rkbuf)] := by simp
    refine Ensures.ite (fun hno => ?_) fun _ => Ensures.some ?_
    · refine (h₁.modifyBroker_of_eq b _ (fun _ => by rfl) (fun _ => by rfl)).produceMsgsetReply b
        (fun _ rkm hrkm => ?_) now
      exact ⟨b, rkbuf, hsent, hrkm, .inl hno⟩
    · refine h₁.modifyBroker b _ (fun rkb' hb' rkbuf' hmem => ?_) (h₁.failing b)
      rcases List.mem_append.1 hmem with hmem | hmem
      · exact h₁.waitresps b rkb' hb' rkbuf' hmem
      · exact List.mem_singleton.1 hmem ▸ hsent

theorem Sound.completeWaitresp (h : s.Sound actions) (b i : ℕ) (err : Err)
    (herr : ∀ (rkb : Broker) rkbuf, s.brokers[b]? = some rkb → rkb.waitresps[i]? = some rkbuf →
      err = .noError → ∃ now, Action.response b rkbuf.corrid .noError now ∈ actions) (now : ℤ) :
    Ensures (s.completeWaitresp b i err now) (Sound actions) := by
  refine Ensures.bind_read fun rkb hb => ?_
  split
  · exact Ensures.some h
  · rename_i request hi
    have hwait := h.waitresps b rkb hb request (List.mem_of_getElem? hi)
    have h₁ : (s.modifyBroker b fun rkb =>
        { rkb with waitresps := rkb.waitresps.eraseIdx i }).Sound actions :=
      h.modifyBroker b _ (fun rkb' hb' rkbuf hmem =>
        h.waitresps b rkb' hb' rkbuf (List.mem_of_mem_eraseIdx hmem)) (h.failing b)
    refine h₁.produceMsgsetReply b (fun hno rkm hrkm => ?_) now
    exact ⟨b, request, hwait, hrkm, .inr (herr rkb request hb hi hno)⟩

theorem Sound.reqResponse (h : s.Sound actions) (b : ℕ) {corrid : UInt32} {err : Err} {now : ℤ}
    (hmem : Action.response b corrid err now ∈ actions) :
    Ensures (s.reqResponse b corrid err now) (Sound actions) := by
  refine Ensures.bind_read fun rkb hb => ?_
  split
  · exact Ensures.some h
  · rename_i i hi
    refine h.completeWaitresp b i err (fun rkb' rkbuf hb' hget hno => ⟨now, ?_⟩) now
    obtain rfl : rkb = rkb' := Option.some.inj (hb.symm.trans hb')
    obtain ⟨hlt, hcorrid, -⟩ := List.findIdx?_eq_some_iff_getElem.1 hi
    rw [List.getElem?_eq_getElem hlt, Option.some_inj] at hget
    rw [hget, decide_eq_true_eq] at hcorrid
    rwa [hcorrid, ← hno]

theorem Sound.waitrespTimeout (h : s.Sound actions) (b i : ℕ) (now : ℤ) :
    Ensures (s.waitrespTimeout b i now) (Sound actions) := by
  refine Ensures.bind_read fun rkb _ => ?_
  split
  · exact Ensures.some h
  · exact Ensures.ite (fun _ => Ensures.some h) fun _ =>
      h.completeWaitresp b i .msgTimedOut (fun _ _ _ _ hno => absurd hno (by simp)) now

/-! ## Failing brokers, the main thread and the application -/

theorem Sound.failBegin (h : s.Sound actions) (b : ℕ) {err : Err} (herr : err ≠ .noError) :
    (s.failBegin b err).Sound actions :=
  h.modifyBroker b _ (fun _ _ _ hmem => absurd hmem List.not_mem_nil)
    fun _ _ _ hfailing => Option.some.inj hfailing ▸ herr

theorem Sound.failPurge (h : s.Sound actions) {b : ℕ} {rkb : Broker}
    (hb : s.brokers[b]? = some rkb) {failing : Failing} (hfailing : rkb.failing = some failing)
    (now : ℤ) : Ensures (s.failPurge b failing now) (Sound actions) := by
  have herr := h.failing b rkb hb failing hfailing
  rw [State.failPurge]
  split
  · exact Ensures.some h
  · rename_i request rest _
    have h₁ : (s.modifyBroker b fun rkb =>
        { rkb with failing := some ⟨failing.err, rest⟩ }).Sound actions :=
      h.modifyBroker b _ (h.waitresps b) fun _ _ _ hsome => Option.some.inj hsome ▸ herr
    exact h₁.produceMsgsetReply b (fun hno => absurd hno herr) now

theorem Sound.failUndelegate (h : s.Sound actions) (b : ℕ) :
    Ensures (s.failUndelegate b) (Sound actions) := by
  refine Ensures.bind_read fun rkb _ => ?_
  split
  · exact Ensures.some h
  · rename_i r _ _
    exact (h.topparKeep r).bind fun s₁ _ h₁ => (h₁.brokerDelegate r none).bind fun s₂ _ h₂ =>
      h₂.topparDestroy r

theorem Sound.scanToppar (h : s.Sound actions) (t : ℕ) (partition now : ℤ) :
    Ensures (s.scanToppar t partition now) (Sound actions) := by
  rw [State.scanToppar]
  split
  · exact Ensures.some h
  · rename_i r _
    refine (h.topparKeep r).bind fun s₁ _ h₁ => Ensures.bind_read fun rktp _ => ?_
    refine Ensures.bind_read ?_
    rintro ⟨rkmq, timedout⟩ _
    have h₂ : Sound actions { s₁ with timedout := timedout } :=
      ⟨h₁.settled, h₁.rep, h₁.localq, h₁.waitresps, h₁.failing⟩
    exact (h₂.modifyToppar r _).topparDestroy r

theorem Sound.scanReport (h : s.Sound actions) : Ensures s.scanReport (Sound actions) := by
  have h₁ : Sound actions { s with timedout := .init } :=
    ⟨h.settled, h.rep, h.localq, h.waitresps, h.failing⟩
  exact Ensures.ite (fun _ => h₁.drMsgq_of_ne _ (by simp)) fun _ => Ensures.some h₁

theorem Sound.addBroker (h : s.Sound actions) (nodeid : ℤ) :
    Sound actions { s with brokers := s.brokers ++ [{ nodeid := nodeid }] } := by
  have hcases : ∀ (c : ℕ) (rkb : Broker), (s.brokers ++ [{ nodeid := nodeid }])[c]? = some rkb →
      s.brokers[c]? = some rkb ∨ rkb = { nodeid := nodeid } := by
    intro c rkb hc
    rcases Nat.lt_or_ge c s.brokers.length with hlt | hge
    · exact .inl (by rwa [List.getElem?_append_left hlt] at hc)
    · rw [List.getElem?_append_right hge] at hc
      exact .inr (List.mem_singleton.1 (List.mem_of_getElem? hc))
  refine ⟨h.settled, h.rep, h.localq, fun c rkb hc rkbuf hmem => ?_, fun c rkb hc failing hf => ?_⟩
  · rcases hcases c rkb hc with hold | rfl
    · exact h.waitresps c rkb hold rkbuf hmem
    · cases hmem
  · rcases hcases c rkb hc with hold | rfl
    · exact h.failing c rkb hold failing hf
    · cases hf

theorem Sound.pollTake (h : s.Sound actions) :
    Sound actions { s with localq := s.localq ++ s.rep, rep := [] } := by
  refine ⟨h.settled, fun rko hrko => absurd hrko List.not_mem_nil, fun rko hrko => ?_, h.waitresps,
    h.failing⟩
  exact (List.mem_append.1 hrko).elim (h.localq rko) (h.rep rko)

theorem Sound.pollServe (h : s.Sound actions) : Ensures s.pollServe (Sound actions) := by
  rw [State.pollServe]
  split
  · exact Ensures.some h
  · rename_i rko rest hq
    have h₁ : Sound actions { s with localq := rest } :=
      ⟨h.settled, h.rep, fun rko' hrko' => h.localq rko' (hq ▸ List.mem_cons_of_mem _ hrko'),
        h.waitresps, h.failing⟩
    refine h₁.settleAll fun rkm hrkm hfate => ?_
    rcases hfate with hfate | hfate
    · exact h.localq rko (hq ▸ List.mem_cons_self) (Fate.reported.inj hfate) rkm hrkm
    · cases hfate

/-! ## Steps and runs -/

theorem Sound.broker (h : s.Sound actions) (b : ℕ) (p : Broker → Prop) [DecidablePred p]
    {f : Broker → Option State}
    (hf : ∀ rkb, s.brokers[b]? = some rkb → p rkb → Ensures (f rkb) (Sound actions)) :
    Ensures (s.broker b p f) (Sound actions) := by
  rw [State.broker]
  split
  · exact Ensures.some h
  · rename_i rkb hb
    exact Ensures.ite (hf rkb hb) fun _ => Ensures.some h

/-- **Every step keeps the reports sound.** -/
theorem Sound.step (h : s.Sound actions) {a : Action} (ha : a ∈ actions) :
    Ensures (s.step a) (Sound actions) := by
  cases a with
  | topicNew name conf =>
    refine Ensures.some ?_
    rw [State.topicNew]
    split
    · exact h
    · exact ⟨h.settled, h.rep, h.localq, h.waitresps, h.failing⟩
  | brokersAdd => exact Ensures.some (h.addBroker _)
  | brokerUpdate nodeid =>
    refine Ensures.some ?_
    rw [State.brokerUpdate]
    split
    · exact h
    · exact h.addBroker _
  | connect b =>
    exact h.broker b _ fun _ _ _ => Ensures.some
      (h.modifyBroker_of_eq b _ (fun _ => by rfl) (fun _ => by rfl))
  | produce t partition payload key =>
    exact Ensures.ite
      (fun _ => Ensures.some ⟨h.settled, h.rep, h.localq, h.waitresps, h.failing⟩)
      fun _ => Ensures.some h
  | produceFinish i partitioner now => exact h.msgNewFinish i partitioner now
  | metadataNone t partitioner => exact h.metadataNone t partitioner
  | metadataUpdate t err partitions partitioner =>
    exact h.metadataUpdate t err partitions partitioner
  | metadataExpire t => exact Ensures.some (h.modifyTopic t _)
  | scanToppar t partition now => exact h.scanToppar t partition now
  | scanReport => exact h.scanReport
  | serveToppar b r now doTimeoutScan =>
    exact h.broker b _ fun _ _ _ => h.serveToppar b r now doTimeoutScan
  | serveReport b => exact h.broker b _ fun _ _ _ => h.serveReport b
  | retryBufsMove b now =>
    exact h.broker b _ fun _ _ _ => Ensures.some
      (h.modifyBroker_of_eq b _ (fun _ => by rfl) (fun _ => by rfl))
  | send b now => exact h.broker b _ fun _ _ _ => h.sendFirst b now
  | response b corrid err now => exact h.broker b _ fun _ _ _ => h.reqResponse b ha
  | requestTimeout b i now => exact h.broker b _ fun _ _ _ => h.waitrespTimeout b i now
  | fail b err => exact h.broker b _ fun _ _ hp => Ensures.some (h.failBegin b hp.2)
  | failPurge b now =>
    refine h.broker b _ fun rkb hb _ => ?_
    cases hfailing : rkb.failing with
    | none => exact Ensures.some h
    | some failing => exact h.failPurge hb hfailing now
  | failUndelegate b => exact h.broker b _ fun _ _ _ => h.failUndelegate b
  | failDone b =>
    exact h.broker b _ fun _ _ _ => Ensures.some
      (h.modifyBroker b _ (h.waitresps b) fun _ _ _ hsome => absurd hsome (by simp))
  | pollTake => exact Ensures.some h.pollTake
  | pollServe => exact h.pollServe

theorem run_sound (conf : Conf) (actions : List Action) :
    Ensures ((new conf).run actions) (Sound actions) :=
  Ensures.foldlM (Sound actions) (fun _ ha _ h => h.step ha)
    ⟨by simp [new], by simp [new], by simp [new], by simp [new], by simp [new]⟩

end State

end Kafka

end Xpod
