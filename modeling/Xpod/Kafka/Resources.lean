import Mathlib.Tactic
import Xpod.Common.Succeeds
import Xpod.Common.Weights
import Xpod.Kafka.Model.Producer
/-!
# What the producer holds

Messages sit in queues and references to partitions sit in the arrays of
topics, in the lists of brokers and in requests. Both are counted over the
whole state, with what the running thread has in its hands: the messages
`inHand` it took from a queue and the references `held` it took with
`rd_kafka_toppar_keep`. Every operation of the source moves what it was
handed to another place, and none fails.
-/

namespace Xpod

namespace Kafka

open Weights

/-! ## Where messages and references are -/

def Msgq.weight (w : Msg → ℕ) (rkmq : Msgq) : ℕ := total w rkmq.msgs

def Toppar.weight (w : Msg → ℕ) (rktp : Toppar) : ℕ :=
  rktp.msgq.weight w + rktp.xmitMsgq.weight w

def Buf.weight (w : Msg → ℕ) (rkbuf : Buf) : ℕ := rkbuf.msgq.weight w

def Op.weight (w : Msg → ℕ) (rko : Op) : ℕ := rko.msgq.weight w

namespace Broker

/-- The requests of a broker, wherever its thread has them. -/
def bufs (rkb : Broker) : List Buf :=
  rkb.outbufs ++ rkb.waitresps ++ rkb.retrybufs ++ rkb.failing.elim [] Failing.tmpq

def weight (w : Msg → ℕ) (rkb : Broker) : ℕ :=
  total (Buf.weight w) rkb.bufs + rkb.isrfailed.weight w + rkb.timedout.weight w

/-- How many requests of the broker refer to a partition. -/
def bufRefs (r : ℕ) (rkb : Broker) : ℕ :=
  total (fun rkbuf => if rkbuf.rktp = r then 1 else 0) rkb.bufs

def refs (r : ℕ) (rkb : Broker) : ℕ := rkb.toppars.count r + rkb.bufRefs r

end Broker

/-- A call within the limit has room for its message. -/
def Call.room (call : Call) : ℕ := if call.admitted then 1 else 0

/-- How often a topic refers to a partition. -/
def Topic.refs (r : ℕ) (rkt : Topic) : ℕ := rkt.p.count r + if rkt.ua = r then 1 else 0

namespace State

/-- The weight of all messages that have a place. -/
def weight (w : Msg → ℕ) (s : State) : ℕ :=
  total (Toppar.weight w) s.toppars + total (Broker.weight w) s.brokers +
    total (Op.weight w) s.rep + total (Op.weight w) s.localq + s.timedout.weight w

/-- How often the topics refer to a partition. -/
def slots (r : ℕ) (s : State) : ℕ := total (Topic.refs r) s.topics

/-- How often a partition is referred to. -/
def refs (r : ℕ) (s : State) : ℕ := s.slots r + total (Broker.refs r) s.brokers

end State

@[simp] theorem Msgq.weight_init (w : Msg → ℕ) : Msgq.init.weight w = 0 := rfl

@[simp] theorem Msgq.weight_enq (w : Msg → ℕ) (rkmq : Msgq) (rkm : Msg) :
    (rkmq.enq rkm).weight w = rkmq.weight w + w rkm := by
  simp [Msgq.weight, Msgq.enq]

@[simp] theorem Msgq.weight_concat (w : Msg → ℕ) (dst src : Msgq) :
    (dst.concat src).weight w = dst.weight w + src.weight w := by
  simp [Msgq.weight, Msgq.concat]

theorem Msgq.total_msgs (w : Msg → ℕ) (rkmq : Msgq) : total w rkmq.msgs = rkmq.weight w := rfl

/-! ## The invariant -/

/-- A partition is as the state refers to it: the count is right, the
memory is given back when nothing refers to it, and the brokers list it
exactly if they lead it. -/
structure Toppar.Accounted (s : State) (held : List ℕ) (r : ℕ) (rktp : Toppar) : Prop where
  refcnt : rktp.refcnt = ((s.refs r + held.count r : ℕ) : ℤ)
  freed : rktp.freed = true ↔ s.refs r + held.count r = 0
  rkt : rktp.rkt < s.topics.length
  leader : ∀ b, rktp.leader = some b → b < s.brokers.length
  listed : ∀ b rkb, s.brokers[b]? = some rkb →
    rkb.toppars.count r = if rktp.leader = some b then 1 else 0

/-- **The books are in order**, with the references `held` and the
messages `inHand` of the running thread. -/
structure State.Accounted (s : State) (held : List ℕ) (inHand : List Msg) : Prop where
  toppar : ∀ r (rktp : Toppar), s.toppars[r]? = some rktp → rktp.Accounted s held r
  range : ∀ r, 0 < s.refs r + held.count r → r < s.toppars.length
  slots : ∀ r, s.slots r ≤ 1
  /-- every message that was created has one place or one fate -/
  conserve : ∀ w : Msg → ℕ,
    total w s.created = s.weight w + total w inHand + total w (s.settled.map Prod.fst)
  counted : s.msgCnt =
    ((s.weight (fun _ => 1) + total (fun _ => 1) inHand + s.calls.length : ℕ) : ℤ)
  bounded : s.weight (fun _ => 1) + total (fun _ => 1) inHand + total Call.room s.calls ≤
    s.conf.queueBufferingMaxMsgs
  ids : s.created.map Msg.id = List.range s.created.length
  sized : ∀ rkm ∈ s.created, rkm.len + rkm.keylen ≤ s.conf.maxMsgSize
  called : ∀ call ∈ s.calls, call.topic < s.topics.length

namespace State

variable {s s' : State} {held held' : List ℕ} {inHand inHand' : List Msg}

/-- The parts that the operations on queues and counts leave alone. -/
structure Frame (s s' : State) : Prop where
  conf : s'.conf = s.conf
  topics : s'.topics = s.topics
  calls : s'.calls = s.calls
  created : s'.created = s.created

theorem Frame.refl (s : State) : Frame s s := ⟨rfl, rfl, rfl, rfl⟩

theorem Frame.trans {s'' : State} (h : Frame s s') (h' : Frame s' s'') : Frame s s'' :=
  ⟨h'.conf.trans h.conf, h'.topics.trans h.topics, h'.calls.trans h.calls,
    h'.created.trans h.created⟩

theorem frame_modifyToppar (s : State) (r : ℕ) (f : Toppar → Toppar) :
    Frame s (s.modifyToppar r f) := ⟨rfl, rfl, rfl, rfl⟩

/-! ## One place changes -/

theorem weight_modifyToppar {r : ℕ} {rktp : Toppar} (h : s.toppars[r]? = some rktp)
    (f : Toppar → Toppar) (w : Msg → ℕ) :
    (s.modifyToppar r f).weight w + rktp.weight w = s.weight w + (f rktp).weight w := by
  have := total_modify (w := Toppar.weight w) h f
  simp only [weight, modifyToppar]
  omega

theorem weight_modifyBroker {b : ℕ} {rkb : Broker} (h : s.brokers[b]? = some rkb)
    (f : Broker → Broker) (w : Msg → ℕ) :
    (s.modifyBroker b f).weight w + rkb.weight w = s.weight w + (f rkb).weight w := by
  have := total_modify (w := Broker.weight w) h f
  simp only [weight, modifyBroker]
  omega

theorem refs_modifyBroker {b : ℕ} {rkb : Broker} (h : s.brokers[b]? = some rkb)
    (f : Broker → Broker) (r : ℕ) :
    (s.modifyBroker b f).refs r + rkb.refs r = s.refs r + (f rkb).refs r := by
  have := total_modify (w := Broker.refs r) h f
  simp only [refs, slots, modifyBroker] at this ⊢
  omega

theorem getElem?_modifyToppar (r x : ℕ) (f : Toppar → Toppar) :
    (s.modifyToppar r f).toppars[x]? =
      if r = x then s.toppars[x]?.map f else s.toppars[x]? := by
  rw [modifyToppar, List.getElem?_modify]
  split <;> simp_all

theorem getElem?_modifyBroker (b x : ℕ) (f : Broker → Broker) :
    (s.modifyBroker b f).brokers[x]? =
      if b = x then s.brokers[x]?.map f else s.brokers[x]? := by
  rw [modifyBroker, List.getElem?_modify]
  split <;> simp_all

theorem toppars_modifyToppar {r : ℕ} {rktp : Toppar} (h : s.toppars[r]? = some rktp)
    (f : Toppar → Toppar) : (s.modifyToppar r f).toppars[r]? = some (f rktp) := by
  rw [getElem?_modifyToppar, if_pos rfl, h, Option.map_some]

theorem brokers_modifyBroker {b : ℕ} {rkb : Broker} (h : s.brokers[b]? = some rkb)
    (f : Broker → Broker) : (s.modifyBroker b f).brokers[b]? = some (f rkb) := by
  rw [getElem?_modifyBroker, if_pos rfl, h, Option.map_some]

/-- The books depend on what is held and in hand only as a whole. -/
theorem Accounted.congr (h : s.Accounted held inHand) (hheld : ∀ r, held'.count r = held.count r)
    (hhand : ∀ w : Msg → ℕ, total w inHand' = total w inHand) : s.Accounted held' inHand' where
  toppar r rktp hr := by
    obtain ⟨hrefcnt, hfreed, hrkt, hleader, hlisted⟩ := h.toppar r rktp hr
    exact ⟨by rw [hheld, hrefcnt], by rw [hheld, hfreed], hrkt, hleader, hlisted⟩
  range r hr := h.range r (by rwa [hheld] at hr)
  slots := h.slots
  conserve w := by rw [hhand, h.conserve]
  counted := by rw [hhand, h.counted]
  bounded := by rw [hhand]; exact h.bounded
  ids := h.ids
  sized := h.sized
  called := h.called

/-- **A partition changes** and what is held and in hand with it. -/
theorem Accounted.modifyToppar (h : s.Accounted held inHand) {r : ℕ} {rktp : Toppar}
    (hr : s.toppars[r]? = some rktp) (f : Toppar → Toppar)
    (hother : ∀ x, x ≠ r → held'.count x = held.count x)
    (hrefcnt : (f rktp).refcnt = ((s.refs r + held'.count r : ℕ) : ℤ))
    (hfreed : (f rktp).freed = true ↔ s.refs r + held'.count r = 0)
    (hrkt : (f rktp).rkt = rktp.rkt) (hleader : (f rktp).leader = rktp.leader)
    (hweight : ∀ w, (f rktp).weight w + total w inHand' = rktp.weight w + total w inHand) :
    (s.modifyToppar r f).Accounted held' inHand' where
  toppar x rktp' hx := by
    rw [getElem?_modifyToppar] at hx
    split at hx
    case isTrue hrx =>
      subst hrx
      rw [hr, Option.map_some, Option.some_inj] at hx
      subst hx
      obtain ⟨-, -, hrkt', hleader', hlisted'⟩ := h.toppar r rktp hr
      exact ⟨hrefcnt, hfreed, hrkt ▸ hrkt', fun b hb => hleader' b (hleader ▸ hb),
        fun b rkb hb => hleader ▸ hlisted' b rkb hb⟩
    case isFalse hrx =>
      obtain ⟨hrefcnt', hfreed', hrkt', hleader', hlisted'⟩ := h.toppar x rktp' hx
      rw [← hother x (Ne.symm hrx)] at hrefcnt' hfreed'
      exact ⟨hrefcnt', hfreed', hrkt', hleader', hlisted'⟩
  range x hx := by
    have hlen : (s.modifyToppar r f).toppars.length = s.toppars.length := by
      simp [State.modifyToppar]
    rw [hlen]
    by_cases hxr : x = r
    · subst hxr
      exact (List.getElem?_eq_some_iff.1 hr).1
    · rw [hother x hxr] at hx
      exact h.range x hx
  slots := h.slots
  conserve w := by
    have := weight_modifyToppar hr f w
    have := hweight w
    have := h.conserve w
    simp only [State.modifyToppar] at *
    omega
  counted := by
    have := weight_modifyToppar hr f (fun _ => 1)
    have := hweight (fun _ => 1)
    have := h.counted
    simp only [State.modifyToppar] at *
    omega
  bounded := by
    have := weight_modifyToppar hr f (fun _ => 1)
    have := hweight (fun _ => 1)
    have := h.bounded
    simp only [State.modifyToppar] at *
    omega
  ids := h.ids
  sized := h.sized
  called := h.called

/-- **A broker changes** its requests or its local queues. -/
theorem Accounted.modifyBroker (h : s.Accounted held inHand) {b : ℕ} {rkb : Broker}
    (hb : s.brokers[b]? = some rkb) (f : Broker → Broker)
    (htoppars : (f rkb).toppars = rkb.toppars)
    (hrefs : ∀ r, (f rkb).bufRefs r + held'.count r = rkb.bufRefs r + held.count r)
    (hweight : ∀ w, (f rkb).weight w + total w inHand' = rkb.weight w + total w inHand) :
    (s.modifyBroker b f).Accounted held' inHand' := by
  have hsum : ∀ r, (s.modifyBroker b f).refs r + held'.count r = s.refs r + held.count r := by
    intro r
    have := refs_modifyBroker hb f r
    have := hrefs r
    simp only [Broker.refs, htoppars] at *
    omega
  have hlen : (s.modifyBroker b f).brokers.length = s.brokers.length := by
    simp [State.modifyBroker]
  refine ⟨fun r rktp hr => ?_, fun r hr => ?_, h.slots, fun w => ?_, ?_, ?_, h.ids, h.sized,
    h.called⟩
  · obtain ⟨hrefcnt, hfreed, hrkt, hleader, hlisted⟩ := h.toppar r rktp hr
    refine ⟨by rw [hsum, hrefcnt], by rw [hsum, hfreed], hrkt,
      fun b' hb' => hlen ▸ hleader b' hb', fun b' rkb' hb' => ?_⟩
    rw [getElem?_modifyBroker] at hb'
    split at hb'
    case isTrue hbb =>
      subst hbb
      rw [hb, Option.map_some, Option.some_inj] at hb'
      rw [← hb', htoppars]
      exact hlisted b rkb hb
    case isFalse => exact hlisted b' rkb' hb'
  · exact h.range r (by rwa [hsum] at hr)
  · have := weight_modifyBroker hb f w
    have := hweight w
    have := h.conserve w
    simp only [State.modifyBroker] at *
    omega
  · have := weight_modifyBroker hb f (fun _ => 1)
    have := hweight (fun _ => 1)
    have := h.counted
    simp only [State.modifyBroker] at *
    omega
  · have := weight_modifyBroker hb f (fun _ => 1)
    have := hweight (fun _ => 1)
    have := h.bounded
    simp only [State.modifyBroker] at *
    omega

/-- Nothing that is referred to changes, and the messages still add up. -/
theorem Accounted.of_same (h : s.Accounted held inHand) (htopics : s'.topics = s.topics)
    (htoppars : s'.toppars = s.toppars) (hbrokers : s'.brokers = s.brokers)
    (hconf : s'.conf = s.conf) (hcreated : s'.created = s.created)
    (hconserve : ∀ w : Msg → ℕ, s'.weight w + total w inHand' +
      total w (s'.settled.map Prod.fst) =
        s.weight w + total w inHand + total w (s.settled.map Prod.fst))
    (hcounted : s'.msgCnt =
      ((s'.weight (fun _ => 1) + total (fun _ => 1) inHand' + s'.calls.length : ℕ) : ℤ))
    (hbounded : s'.weight (fun _ => 1) + total (fun _ => 1) inHand' +
      total Call.room s'.calls ≤ s'.conf.queueBufferingMaxMsgs)
    (hcalled : ∀ call ∈ s'.calls, call.topic < s.topics.length) :
    s'.Accounted held inHand' := by
  have hslots : ∀ r, s'.slots r = s.slots r := fun r => by rw [State.slots, State.slots, htopics]
  have hrefs : ∀ r, s'.refs r = s.refs r := fun r => by
    rw [State.refs, State.refs, hslots, hbrokers]
  refine ⟨fun r rktp hr => ?_, fun r hr => ?_, fun r => ?_, fun w => ?_, hcounted, hbounded, ?_, ?_,
    htopics ▸ hcalled⟩
  · obtain ⟨hrefcnt, hfreed, hrkt, hleader, hlisted⟩ := h.toppar r rktp (htoppars ▸ hr)
    exact ⟨by rw [hrefs, hrefcnt], by rw [hrefs, hfreed], htopics ▸ hrkt, hbrokers ▸ hleader,
      hbrokers ▸ hlisted⟩
  · rw [htoppars]
    exact h.range r (by rwa [hrefs] at hr)
  · rw [hslots]
    exact h.slots r
  · rw [hcreated, h.conserve, hconserve]
  · rw [hcreated, h.ids]
  · rw [hcreated, hconf]
    exact h.sized

/-! ## References -/

/-- **What is referred to is there.** -/
theorem Accounted.toppar_eq (h : s.Accounted held inHand) {r : ℕ}
    (hr : 0 < s.refs r + held.count r) :
    ∃ rktp, s.toppar r = some rktp ∧ s.toppars[r]? = some rktp := by
  have hlt := h.range r hr
  have hget := List.getElem?_eq_getElem hlt
  have hfreed : ¬ s.toppars[r].freed = true := by
    rw [(h.toppar r _ hget).freed]
    omega
  exact ⟨s.toppars[r], by simp [State.toppar, hget, hfreed], hget⟩

theorem Accounted.topparKeep (h : s.Accounted held inHand) {r : ℕ}
    (hr : 0 < s.refs r + held.count r) :
    Succeeds (s.topparKeep r) fun s' =>
      s' = s.modifyToppar r (fun rktp => { rktp with refcnt := rktp.refcnt + 1 }) ∧
        s'.Accounted (r :: held) inHand := by
  obtain ⟨rktp, hrktp, hget⟩ := h.toppar_eq hr
  have hok := h.toppar r rktp hget
  refine Succeeds.of_eq (by rw [State.topparKeep, hrktp]; rfl) ⟨rfl, ?_⟩
  refine h.modifyToppar hget _ (fun x hx => List.count_cons_of_ne (Ne.symm hx)) ?_ ?_ rfl rfl
    fun w => rfl
  · rw [List.count_cons_self]
    simp only [hok.refcnt]
    push_cast
    ring
  · rw [List.count_cons_self]
    simp only [hok.freed]
    omega

/-! ## The end of messages -/

/-- The messages, the counts and the reports change, and nothing else. -/
structure Settled (s s' : State) : Prop extends Frame s s' where
  toppars : s'.toppars = s.toppars
  brokers : s'.brokers = s.brokers

theorem Settled.refl (s : State) : Settled s s := ⟨Frame.refl s, rfl, rfl⟩

theorem Settled.trans {s'' : State} (h : Settled s s') (h' : Settled s' s'') : Settled s s'' :=
  ⟨h.toFrame.trans h'.toFrame, h'.toppars.trans h.toppars, h'.brokers.trans h.brokers⟩

theorem settle_eq (s : State) (fate : Fate) (rkm : Msg) :
    s.settle fate rkm =
      if 0 < s.msgCnt then
        some { s with msgCnt := s.msgCnt - 1, settled := s.settled ++ [(rkm, fate)] }
      else none := by
  rw [settle, msgDestroy]
  split <;> rfl

theorem Accounted.settle {rkm : Msg} (h : s.Accounted held (rkm :: inHand)) (fate : Fate) :
    Succeeds (s.settle fate rkm) fun s' => s'.Accounted held inHand ∧ Settled s s' := by
  have hcounted := h.counted
  have hbounded := h.bounded
  simp only [total_cons] at hcounted hbounded
  have hpos : 0 < s.msgCnt := by omega
  refine Succeeds.of_eq ((settle_eq s fate rkm).trans (if_pos hpos))
    ⟨h.of_same rfl rfl rfl rfl rfl (fun w => ?_) ?_ ?_ h.called, ⟨rfl, rfl, rfl, rfl⟩, rfl, rfl⟩
  · simp only [List.map_append, List.map_cons, List.map_nil, total_append, total_cons, total_nil]
    change s.weight w + _ + _ = _
    omega
  · change s.msgCnt - 1 = ((s.weight _ + _ + s.calls.length : ℕ) : ℤ)
    omega
  · change s.weight _ + _ + total Call.room s.calls ≤ s.conf.queueBufferingMaxMsgs
    omega

/-- A whole queue comes to its end. -/
theorem Accounted.settleAll {msgs : List Msg} (h : s.Accounted held (msgs ++ inHand))
    (fate : Fate) :
    Succeeds (msgs.foldlM (fun s rkm => s.settle fate rkm) s) fun s' =>
      s'.Accounted held inHand ∧ Settled s s' := by
  refine Succeeds.foldlM (fun rest s' => s'.Accounted held (rest ++ inHand) ∧ Settled s s') ?_
    ⟨h, Settled.refl s⟩
  rintro rkm rest s₁ ⟨h₁, hs₁⟩
  exact (Accounted.settle h₁ fate).mono fun s₂ hs₂ => ⟨hs₂.1, hs₁.trans hs₂.2⟩

/-- **A queue that is reported** leaves the hands of the thread. -/
theorem Accounted.drMsgq {rkmq : Msgq} (h : s.Accounted held (rkmq.msgs ++ inHand)) (err : Err) :
    Succeeds (s.drMsgq rkmq err) fun s' => s'.Accounted held inHand ∧ Settled s s' := by
  rw [State.drMsgq]
  refine Succeeds.ite (fun _ => Succeeds.some ⟨?_, ⟨rfl, rfl, rfl, rfl⟩, rfl, rfl⟩)
    fun _ => h.settleAll _
  -- the queue is now in the op at the end of `rep`
  have hweight : ∀ w : Msg → ℕ,
      State.weight w { s with rep := s.rep ++ [⟨rkmq, err⟩] } = s.weight w + total w rkmq.msgs := by
    intro w
    simp only [State.weight, total_append, total_cons, total_nil, Op.weight, Msgq.weight]
    omega
  have hcounted := h.counted
  have hbounded := h.bounded
  simp only [total_append] at hcounted hbounded
  refine h.of_same rfl rfl rfl rfl rfl (fun w => ?_) ?_ ?_ h.called
  · simp only [hweight, total_append]
    omega
  · simp only [hweight]
    omega
  · simp only [hweight]
    omega

/-! ## Giving references back -/

/-- A reference that is not the last one is given back. -/
theorem Accounted.topparDestroy_of_pos {r : ℕ} (h : s.Accounted (r :: held) inHand)
    (hr : 0 < s.refs r + held.count r) :
    Succeeds (s.topparDestroy r) fun s' =>
      s' = s.modifyToppar r (fun rktp => { rktp with refcnt := rktp.refcnt - 1 }) ∧
        s'.Accounted held inHand := by
  have hcount : (r :: held).count r = held.count r + 1 := List.count_cons_self
  obtain ⟨rktp, hrktp, hget⟩ := h.toppar_eq (r := r) (by omega)
  have hok := h.toppar r rktp hget
  have hrefcnt := hok.refcnt
  have hfreed := hok.freed
  rw [hcount] at hrefcnt hfreed
  have heq : s.topparDestroy r =
      some (s.modifyToppar r fun rktp => { rktp with refcnt := rktp.refcnt - 1 }) := by
    rw [State.topparDestroy, hrktp]
    exact if_neg (by omega)
  refine Succeeds.of_eq heq ⟨rfl, h.modifyToppar hget _
    (fun x hx => (List.count_cons_of_ne (Ne.symm hx)).symm) ?_ ?_ rfl rfl fun w => rfl⟩
  · simp only [hrefcnt]
    push_cast
    ring
  · simp only [hfreed]
    omega

theorem toppar_modifyToppar {r : ℕ} {rktp : Toppar} (h : s.toppar r = some rktp)
    (f : Toppar → Toppar) (hf : (f rktp).freed = rktp.freed) :
    (s.modifyToppar r f).toppar r = some (f rktp) := by
  obtain ⟨rktp', hget, hrktp⟩ := Option.bind_eq_some_iff.1 h
  split at hrktp
  case isTrue => cases hrktp
  case isFalse hfreed =>
    obtain rfl := Option.some.inj hrktp
    simp [toppar, getElem?_modifyToppar, hget, hf, hfreed]

theorem modifyToppar_modifyToppar (r : ℕ) (f g : Toppar → Toppar) :
    (s.modifyToppar r f).modifyToppar r g = s.modifyToppar r (g ∘ f) := by
  simp [modifyToppar, List.modify_modify_eq]

theorem settleAll_modifyToppar (s : State) (r : ℕ) (f : Toppar → Toppar) (fate : Fate)
    (msgs : List Msg) :
    msgs.foldlM (fun (s : State) rkm => s.settle fate rkm) (s.modifyToppar r f) =
      (msgs.foldlM (fun (s : State) rkm => s.settle fate rkm) s).map (modifyToppar · r f) := by
  induction msgs generalizing s with
  | nil => rfl
  | cons rkm msgs ih =>
    rw [List.foldlM_cons, List.foldlM_cons, settle_eq, settle_eq]
    by_cases hpos : 0 < s.msgCnt
    · rw [if_pos hpos, if_pos (show 0 < (s.modifyToppar r f).msgCnt from hpos)]
      exact ih { s with msgCnt := s.msgCnt - 1, settled := s.settled ++ [(rkm, fate)] }
    · rw [if_neg hpos, if_neg (show ¬ 0 < (s.modifyToppar r f).msgCnt from hpos)]
      rfl

/-- Reports do not touch the partitions. -/
theorem drMsgq_modifyToppar (s : State) (r : ℕ) (f : Toppar → Toppar) (rkmq : Msgq) (err : Err) :
    (s.modifyToppar r f).drMsgq rkmq err = (s.drMsgq rkmq err).map (modifyToppar · r f) := by
  cases hcb : s.conf.drCb with
  | true => simp [drMsgq, modifyToppar, hcb]
  | false =>
    have hcb' : (s.modifyToppar r f).conf.drCb = false := hcb
    simp only [drMsgq, hcb, hcb', Bool.false_eq_true, if_false]
    exact settleAll_modifyToppar s r f _ _

/-- The last reference is given back: the queues are reported and the
memory is freed. -/
theorem Accounted.topparDestroy_of_last {r : ℕ} (h : s.Accounted (r :: held) inHand)
    (hr : s.refs r + held.count r = 0) :
    Succeeds (s.topparDestroy r) fun s' =>
      s'.Accounted held inHand ∧ Frame s s' ∧ s'.brokers = s.brokers := by
  have hcount : (r :: held).count r = held.count r + 1 := List.count_cons_self
  obtain ⟨rktp, hrktp, hget⟩ := h.toppar_eq (r := r) (by omega)
  have hrefcnt := (h.toppar r rktp hget).refcnt
  rw [hcount] at hrefcnt
  let dec : Toppar → Toppar := fun rktp => { rktp with refcnt := rktp.refcnt - 1 }
  let free : Toppar → Toppar := fun rktp =>
    { rktp with xmitMsgq := .init, msgq := .init, freed := true }
  -- with the partition freed first, its messages are in hand
  have hfree : (s.modifyToppar r (free ∘ dec)).Accounted held
      (rktp.xmitMsgq.msgs ++ (rktp.msgq.msgs ++ inHand)) := by
    refine h.modifyToppar hget _ (fun x hx => (List.count_cons_of_ne (Ne.symm hx)).symm) ?_ ?_
      rfl rfl fun w => ?_
    · simp only [Function.comp_apply, dec, free]
      omega
    · simp only [Function.comp_apply, dec, free, true_iff]
      exact hr
    · simp only [Function.comp_apply, dec, free, Toppar.weight, Msgq.weight_init, total_append,
        Msgq.total_msgs]
      omega
  obtain ⟨s₁', hs₁', h₁, hf₁⟩ := hfree.drMsgq .destroy
  obtain ⟨s₂', hs₂', h₂, hf₂⟩ := h₁.drMsgq .destroy
  rw [drMsgq_modifyToppar] at hs₁'
  obtain ⟨s₁, hs₁, rfl⟩ := Option.map_eq_some_iff.1 hs₁'
  rw [drMsgq_modifyToppar] at hs₂'
  obtain ⟨s₂, hs₂, rfl⟩ := Option.map_eq_some_iff.1 hs₂'
  have hdec : (s.modifyToppar r dec).toppar r = some (dec rktp) :=
    toppar_modifyToppar hrktp dec rfl
  have heq : s.topparDestroy r = some (s₂.modifyToppar r (free ∘ dec)) := by
    rw [State.topparDestroy, hrktp]
    simp only [Option.bind_eq_bind, Option.bind_some]
    rw [if_pos (by omega), topparDestroy0]
    simp only [Option.bind_eq_bind]
    rw [hdec]
    simp only [Option.bind_some]
    rw [drMsgq_modifyToppar, hs₁, Option.map_some, Option.bind_some, drMsgq_modifyToppar, hs₂,
      Option.map_some, Option.bind_some, modifyToppar_modifyToppar]
  refine Succeeds.of_eq heq ⟨h₂, ?_, ?_⟩
  · exact (frame_modifyToppar s r _).trans (hf₁.toFrame.trans hf₂.toFrame)
  · exact hf₂.brokers.trans hf₁.brokers

/-- **A reference is given back.** -/
theorem Accounted.topparDestroy {r : ℕ} (h : s.Accounted (r :: held) inHand) :
    Succeeds (s.topparDestroy r) fun s' =>
      s'.Accounted held inHand ∧ Frame s s' ∧ s'.brokers = s.brokers := by
  rcases Nat.eq_zero_or_pos (s.refs r + held.count r) with hr | hr
  · exact h.topparDestroy_of_last hr
  · refine (h.topparDestroy_of_pos hr).mono ?_
    rintro s' ⟨rfl, h'⟩
    exact ⟨h', frame_modifyToppar s r _, rfl⟩

end State

end Kafka

end Xpod
