import Mathlib.Tactic
import Xpod.Kafka.Resources
/-!
# The operations keep the books

Each operation of the producer, from the partitioner to the replies of the
brokers, succeeds on a state whose books are in order and leaves such a
state behind.
-/

namespace Xpod

namespace Kafka

open Weights

namespace State

variable {s s' : State} {held held' : List ℕ} {inHand inHand' : List Msg} {r t b : ℕ}

/-! ## Finding partitions -/

theorem refs_pos_of_get {rkt : Topic} (ht : s.topics[t]? = some rkt) {partition : ℤ}
    (hr : rkt.get partition = some r) : 0 < s.refs r := by
  have hle : rkt.refs r ≤ s.slots r := le_total ht
  have hpos : 0 < rkt.refs r := by
    rw [Topic.get] at hr
    split at hr
    · have := List.count_pos_iff.2 (List.mem_of_getElem? hr)
      rw [Topic.refs]
      omega
    · split at hr
      · rw [Topic.refs, if_pos (Option.some.inj hr)]
        omega
      · cases hr
  rw [refs]
  omega

theorem get_ua (rkt : Topic) : rkt.get partitionUa = some rkt.ua := by
  simp [Topic.get, partitionUa]

theorem refs_ua_pos {rkt : Topic} (ht : s.topics[t]? = some rkt) : 0 < s.refs rkt.ua :=
  refs_pos_of_get ht (get_ua rkt)

theorem get_isSome {rkt : Topic} {partition : ℤ} (hlo : -1 ≤ partition)
    (hhi : partition < rkt.p.length) : ∃ r, rkt.get partition = some r := by
  rw [Topic.get]
  by_cases h0 : 0 ≤ partition
  · rw [if_pos ⟨h0, hhi⟩]
    exact ⟨_, List.getElem?_eq_getElem (by omega)⟩
  · rw [if_neg (by omega), if_pos (by rw [partitionUa]; omega)]
    exact ⟨_, rfl⟩

theorem Frame.refs (h : Frame s s') (hbrokers : s'.brokers = s.brokers) (r : ℕ) :
    s'.refs r = s.refs r := by
  rw [State.refs, State.refs, State.slots, State.slots, h.topics, hbrokers]

/-- Only the queues of a partition change. -/
theorem Accounted.modifyQueues (h : s.Accounted held inHand) {rktp : Toppar}
    (hr : s.toppars[r]? = some rktp) (f : Toppar → Toppar) (hrefcnt : (f rktp).refcnt = rktp.refcnt)
    (hfreed : (f rktp).freed = rktp.freed) (hrkt : (f rktp).rkt = rktp.rkt)
    (hleader : (f rktp).leader = rktp.leader)
    (hweight : ∀ w, (f rktp).weight w + total w inHand' = rktp.weight w + total w inHand) :
    (s.modifyToppar r f).Accounted held inHand' :=
  h.modifyToppar hr f (fun _ _ => rfl) (hrefcnt.trans (h.toppar r rktp hr).refcnt)
    (by rw [hfreed]; exact (h.toppar r rktp hr).freed) hrkt hleader hweight

theorem Accounted.topparEnqMsg {rkm : Msg} (h : s.Accounted held (rkm :: inHand))
    (hr : 0 < s.refs r + held.count r) :
    Succeeds (s.topparEnqMsg r rkm) fun s' =>
      s'.Accounted held inHand ∧ Frame s s' ∧ s'.brokers = s.brokers := by
  obtain ⟨rktp, hrktp, hget⟩ := h.toppar_eq hr
  refine Succeeds.of_eq (by rw [State.topparEnqMsg, hrktp]; rfl)
    ⟨h.modifyQueues hget _ rfl rfl rfl rfl fun w => ?_, frame_modifyToppar s r _, rfl⟩
  simp only [Toppar.weight, Msgq.weight_enq, total_cons]
  omega

theorem Accounted.topparInsertMsgq {rkmq : Msgq} (h : s.Accounted held (rkmq.msgs ++ inHand))
    (hr : 0 < s.refs r + held.count r) :
    Succeeds (s.topparInsertMsgq r rkmq) fun s' =>
      s'.Accounted held inHand ∧ Frame s s' ∧ s'.brokers = s.brokers := by
  obtain ⟨rktp, hrktp, hget⟩ := h.toppar_eq hr
  refine Succeeds.of_eq (by rw [State.topparInsertMsgq, hrktp]; rfl)
    ⟨h.modifyQueues hget _ rfl rfl rfl rfl fun w => ?_, frame_modifyToppar s r _, rfl⟩
  simp only [Toppar.weight, Msgq.weight_concat, total_append, Msgq.total_msgs]
  omega

/-! ## The partitioner -/

theorem partition_ne_noError {rkt : Topic} {partitioner : Msg → ℤ} {rkm : Msg} {err : Err}
    (h : rkt.partition partitioner rkm = .error err) : err ≠ .noError := by
  rw [Topic.partition] at h
  rintro rfl
  split at h
  · cases h
  · cases h
  · split at h
    · cases h
    · dsimp only at h
      generalize (if rkm.partition = partitionUa then partitioner rkm else rkm.partition) = p at h
      split at h <;> cases h

/-- **The partitioner** queues the message or leaves everything as it was. -/
theorem Accounted.msgPartitioner {rkm : Msg} {rkt : Topic} (h : s.Accounted held (rkm :: inHand))
    (ht : s.topics[t]? = some rkt) (partitioner : Msg → ℤ) :
    Succeeds (s.msgPartitioner t partitioner rkm) fun p =>
      p.2.Accounted held (if p.1 = .noError then inHand else rkm :: inHand) ∧ Frame s p.2 ∧
        p.2.brokers = s.brokers := by
  have hfail : ∀ err, err ≠ Err.noError →
      s.Accounted held (if err = .noError then inHand else rkm :: inHand) ∧ Frame s s ∧
        s.brokers = s.brokers := fun err herr => ⟨by rwa [if_neg herr], Frame.refl s, rfl⟩
  rw [State.msgPartitioner, ht]
  simp only [Option.bind_eq_bind, Option.bind_some]
  cases hp : rkt.partition partitioner rkm with
  | error err => exact Succeeds.some (hfail err (partition_ne_noError hp))
  | ok partition =>
    dsimp only
    cases hr : rkt.get partition with
    | none =>
      refine Succeeds.some (hfail _ ?_)
      split <;> simp
    | some r =>
      dsimp only
      have hpos := refs_pos_of_get ht hr
      refine Succeeds.bind (h.topparKeep (r := r) (by omega)) ?_
      rintro s₁ ⟨hs₁, h₁⟩
      have hf₁ : Frame s s₁ := hs₁ ▸ frame_modifyToppar s r _
      have hb₁ : s₁.brokers = s.brokers := by rw [hs₁]; rfl
      have hpos₁ := hf₁.refs hb₁ r
      refine Succeeds.bind (h₁.topparEnqMsg (r := r) (by omega)) ?_
      rintro s₂ ⟨h₂, hf₂, hb₂⟩
      refine Succeeds.bind h₂.topparDestroy ?_
      rintro s₃ ⟨h₃, hf₃, hb₃⟩
      exact Succeeds.some ⟨h₃, hf₁.trans (hf₂.trans hf₃), hb₃.trans (hb₂.trans hb₁)⟩

/-! ## Messages that move between partitions -/

theorem modifyToppar_comm {x y : ℕ} (h : x ≠ y) (f g : Toppar → Toppar) :
    (s.modifyToppar x f).modifyToppar y g = (s.modifyToppar y g).modifyToppar x f := by
  simp only [State.modifyToppar, List.modify_modify_ne _ _ _ h]

theorem Accounted.topparMoveMsgs (h : s.Accounted held inHand) {dst src : ℕ} (hne : dst ≠ src)
    (hdst : 0 < s.refs dst + held.count dst) (hsrc : 0 < s.refs src + held.count src) :
    Succeeds (s.topparMoveMsgs dst src) fun s' =>
      s'.Accounted held inHand ∧ Frame s s' ∧ s'.brokers = s.brokers := by
  rw [State.topparMoveMsgs]
  refine Succeeds.bind (h.topparKeep hsrc) ?_
  rintro s₁ ⟨hs₁, h₁⟩
  have hf₁ : Frame s s₁ := hs₁ ▸ frame_modifyToppar s src _
  have hb₁ : s₁.brokers = s.brokers := by rw [hs₁]; rfl
  have hrefs₁ := hf₁.refs hb₁
  have hcount : ∀ x, held.count x ≤ (src :: held).count x := fun x => by
    rw [List.count_cons]
    omega
  have hpos : ∀ x, 0 < s.refs x + held.count x → 0 < s₁.refs x + (src :: held).count x :=
    fun x hx => by have := hrefs₁ x; have := hcount x; omega
  obtain ⟨dstp, hdstp, hdget⟩ := h₁.toppar_eq (hpos dst hdst)
  obtain ⟨srcp, hsrcp, hsget⟩ := h₁.toppar_eq (hpos src hsrc)
  rw [hdstp, hsrcp]
  simp only [Option.bind_eq_bind, Option.bind_some]
  -- the source is emptied first: the messages are never in two queues
  rw [modifyToppar_comm hne]
  have hsource : (s₁.modifyToppar src fun rktp => { rktp with msgq := .init }).Accounted
      (src :: held) (srcp.msgq.msgs ++ inHand) :=
    h₁.modifyQueues hsget _ rfl rfl rfl rfl fun w => by
      simp only [Toppar.weight, Msgq.weight_init, total_append, Msgq.total_msgs]
      omega
  have hdget' : (s₁.modifyToppar src fun rktp => { rktp with msgq := .init }).toppars[dst]? =
      some dstp := by
    rw [getElem?_modifyToppar, if_neg (Ne.symm hne), hdget]
  have hmoved : ((s₁.modifyToppar src fun rktp => { rktp with msgq := .init }).modifyToppar dst
      fun rktp => { rktp with msgq := rktp.msgq.concat srcp.msgq }).Accounted
      (src :: held) inHand :=
    hsource.modifyQueues hdget' _ rfl rfl rfl rfl fun w => by
      simp only [Toppar.weight, Msgq.weight_concat, total_append, Msgq.total_msgs]
      omega
  refine hmoved.topparDestroy.mono ?_
  rintro s₂ ⟨h₂, hf₂, hb₂⟩
  exact ⟨h₂, hf₁.trans
    (((frame_modifyToppar s₁ src _).trans (frame_modifyToppar _ dst _)).trans hf₂), hb₂.trans hb₁⟩

/-! ## Leaders -/

/-- The list of a broker and the leader of a partition change together. -/
theorem Accounted.setLeader (h : s.Accounted held inHand) {rktp : Toppar} {rkb : Broker}
    (hget : s.toppars[r]? = some rktp) (hb : s.brokers[b]? = some rkb) (f : List ℕ → List ℕ)
    (leader : Option ℕ) (hleader : ∀ b', leader = some b' → b' < s.brokers.length)
    (hother : ∀ x, x ≠ r → (f rkb.toppars).count x = rkb.toppars.count x ∧
      held'.count x = held.count x)
    (hself : (f rkb.toppars).count r + held'.count r = rkb.toppars.count r + held.count r)
    (hlisted : (f rkb.toppars).count r = if leader = some b then 1 else 0)
    (hunlisted : ∀ b' rkb', b' ≠ b → s.brokers[b']? = some rkb' →
      rkb'.toppars.count r = if leader = some b' then 1 else 0) :
    ((s.modifyBroker b fun rkb => { rkb with toppars := f rkb.toppars }).modifyToppar r
      fun rktp => { rktp with leader := leader }).Accounted held' inHand := by
  set s₁ := s.modifyBroker b fun rkb => { rkb with toppars := f rkb.toppars } with hs₁
  have hsum : ∀ x, s₁.refs x + held'.count x = s.refs x + held.count x := by
    intro x
    have hx := refs_modifyBroker hb (fun rkb => { rkb with toppars := f rkb.toppars }) x
    rw [← hs₁] at hx
    simp only [Broker.refs, Broker.bufRefs, Broker.bufs] at hx
    by_cases hxr : x = r
    · subst hxr
      omega
    · obtain ⟨hf, hheld⟩ := hother x hxr
      omega
  have hlen : s₁.brokers.length = s.brokers.length := by simp [hs₁, State.modifyBroker]
  have hweight : ∀ w, (s₁.modifyToppar r fun rktp => { rktp with leader := leader }).weight w =
      s.weight w := by
    intro w
    have hw₁ := weight_modifyBroker hb (fun rkb => { rkb with toppars := f rkb.toppars }) w
    have hw₂ := weight_modifyToppar (s := s₁) (r := r) hget
      (fun rktp => { rktp with leader := leader }) w
    rw [← hs₁] at hw₁
    simp only [Broker.weight, Broker.bufs, Toppar.weight] at hw₁ hw₂
    omega
  -- the brokers list a partition `x` as before, or as the new leader has it
  have hlist : ∀ x leader', (∀ b' rkb', s.brokers[b']? = some rkb' → b' ≠ b →
      rkb'.toppars.count x = if leader' = some b' then 1 else 0) →
      ((f rkb.toppars).count x = if leader' = some b then 1 else 0) →
      ∀ b' rkb', s₁.brokers[b']? = some rkb' →
        rkb'.toppars.count x = if leader' = some b' then 1 else 0 := by
    intro x leader' hold hnew b' rkb' hb'
    rw [hs₁, getElem?_modifyBroker] at hb'
    split at hb'
    case isTrue hbb =>
      subst hbb
      rw [hb, Option.map_some, Option.some_inj] at hb'
      rw [← hb']
      exact hnew
    case isFalse hbb => exact hold b' rkb' hb' (Ne.symm hbb)
  refine ⟨fun x rktp' hx => ?_, fun x hx => ?_, h.slots, fun w => ?_, ?_, ?_, h.ids, h.sized,
    h.called⟩
  · rw [getElem?_modifyToppar] at hx
    split at hx
    case isTrue hrx =>
      subst hrx
      have hget₁ : s₁.toppars[r]? = some rktp := hget
      rw [hget₁, Option.map_some, Option.some_inj] at hx
      subst hx
      obtain ⟨hrefcnt, hfreed, hrkt, -, -⟩ := h.toppar r rktp hget
      rw [← hsum] at hrefcnt hfreed
      exact ⟨hrefcnt, hfreed, hrkt, fun b' hb' => hlen ▸ hleader b' hb',
        hlist r leader (fun b' rkb' hb' hne => hunlisted b' rkb' hne hb') hlisted⟩
    case isFalse hrx =>
      obtain ⟨hrefcnt, hfreed, hrkt, hleader', hlisted'⟩ := h.toppar x rktp' hx
      rw [← hsum] at hrefcnt hfreed
      refine ⟨hrefcnt, hfreed, hrkt, fun b' hb' => hlen ▸ hleader' b' hb',
        hlist x rktp'.leader (fun b' rkb' hb' _ => hlisted' b' rkb' hb') ?_⟩
      rw [(hother x (Ne.symm hrx)).1]
      exact hlisted' b rkb hb
  · have hlen' : (s₁.modifyToppar r fun rktp => { rktp with leader := leader }).toppars.length =
        s.toppars.length := by simp [hs₁, State.modifyToppar, State.modifyBroker]
    rw [hlen']
    exact h.range x (by rw [← hsum]; exact hx)
  · rw [hweight]
    exact h.conserve w
  · rw [hweight]
    exact h.counted
  · rw [hweight]
    exact h.bounded

/-- **A partition is taken from its leader**, by a thread that holds it. -/
theorem Accounted.undelegate (h : s.Accounted held inHand) (hr : r ∈ held) :
    Succeeds (s.undelegate r) fun s' =>
      s'.Accounted held inHand ∧ Frame s s' ∧ s'.brokers.length = s.brokers.length ∧
        ∃ rktp, s'.toppars[r]? = some rktp ∧ rktp.leader = none := by
  have hcount : 0 < held.count r := List.count_pos_iff.2 hr
  obtain ⟨rktp, hrktp, hget⟩ := h.toppar_eq (r := r) (by omega)
  have hok := h.toppar r rktp hget
  rw [State.undelegate, hrktp]
  simp only [Option.bind_eq_bind, Option.bind_some]
  cases hleader : rktp.leader with
  | none => exact Succeeds.some ⟨h, Frame.refl s, rfl, rktp, hget, hleader⟩
  | some old =>
    dsimp only
    obtain ⟨rkb, hold⟩ : ∃ rkb, s.brokers[old]? = some rkb :=
      ⟨_, List.getElem?_eq_getElem (hok.leader old hleader)⟩
    have hlisted := hok.listed old _ hold
    rw [if_pos hleader] at hlisted
    have h₁ := h.setLeader hget hold (·.erase r) none (by simp)
      (fun x hx => ⟨List.count_erase_of_ne hx, List.count_cons_of_ne (Ne.symm hx)⟩)
      (by rw [List.count_erase_self, List.count_cons_self]; omega)
      (by rw [List.count_erase_self, hlisted]; rfl)
      (fun b' rkb' hne hb' => by
        rw [hok.listed b' rkb' hb', hleader, if_neg (by simpa using Ne.symm hne), if_neg (by simp)])
    refine (h₁.topparDestroy_of_pos (by omega)).mono ?_
    rintro s₂ ⟨hs₂, h₂⟩
    refine ⟨h₂, ?_, ?_, ?_⟩
    · rw [hs₂]
      exact ⟨rfl, rfl, rfl, rfl⟩
    · rw [hs₂]
      simp [State.modifyToppar, State.modifyBroker]
    · refine ⟨{ rktp with leader := none, refcnt := rktp.refcnt - 1 }, ?_, rfl⟩
      rw [hs₂]
      exact toppars_modifyToppar (toppars_modifyToppar hget _) _

/-- **A partition without a leader is given one.** -/
theorem Accounted.delegateTo (h : s.Accounted held inHand) {rktp : Toppar}
    (hr : 0 < s.refs r + held.count r) (hget : s.toppars[r]? = some rktp)
    (hleader : rktp.leader = none) {b : Option ℕ} (hb : ∀ b', b = some b' → b' < s.brokers.length) :
    Succeeds (s.delegateTo r b) fun s' =>
      s'.Accounted held inHand ∧ Frame s s' ∧ s'.brokers.length = s.brokers.length := by
  cases b with
  | none => exact Succeeds.some ⟨h, Frame.refl s, rfl⟩
  | some b =>
    rw [State.delegateTo]
    refine Succeeds.bind (h.topparKeep hr) ?_
    rintro s₁ ⟨hs₁, h₁⟩
    have hget₁ : s₁.toppars[r]? = some { rktp with refcnt := rktp.refcnt + 1 } := by
      rw [hs₁]
      exact toppars_modifyToppar hget _
    have hlen : s₁.brokers.length = s.brokers.length := by rw [hs₁]; rfl
    obtain ⟨rkb, hb₁⟩ : ∃ rkb, s₁.brokers[b]? = some rkb :=
      ⟨_, List.getElem?_eq_getElem (hlen ▸ hb b rfl)⟩
    have hok := h₁.toppar r _ hget₁
    have hnone : ∀ (b' : ℕ) (rkb' : Broker), s₁.brokers[b']? = some rkb' →
        rkb'.toppars.count r = 0 := by
      intro b' rkb' hb'
      rw [hok.listed b' rkb' hb', hleader]
      rfl
    refine Succeeds.some ⟨h₁.setLeader hget₁ hb₁ (· ++ [r]) (some b) (fun b' hb' => ?_)
      (fun x hx => ⟨?_, (List.count_cons_of_ne (Ne.symm hx)).symm⟩) ?_ ?_ fun b' rkb' hne hb' => ?_,
      ?_, ?_⟩
    · exact hlen ▸ hb b' hb'
    · rw [List.count_append, List.count_singleton, if_neg (by simpa using Ne.symm hx), add_zero]
    · rw [List.count_append, List.count_singleton_self, List.count_cons_self]
      omega
    · rw [List.count_append, List.count_singleton_self, hnone b _ hb₁, if_pos rfl]
    · rw [hnone b' rkb' hb', if_neg (by simpa using Ne.symm hne)]
    · rw [hs₁]
      exact ⟨rfl, rfl, rfl, rfl⟩
    · rw [← hlen]
      simp [State.modifyToppar, State.modifyBroker]

/-- **`rd_kafka_toppar_broker_delegate` keeps the books.** -/
theorem Accounted.brokerDelegate (h : s.Accounted held inHand) (hr : 0 < s.refs r + held.count r)
    {b : Option ℕ} (hb : ∀ b', b = some b' → b' < s.brokers.length) :
    Succeeds (s.brokerDelegate r b) fun s' =>
      s'.Accounted held inHand ∧ Frame s s' ∧ s'.brokers.length = s.brokers.length := by
  obtain ⟨rktp, hrktp, hget⟩ := h.toppar_eq hr
  rw [State.brokerDelegate, hrktp]
  simp only [Option.bind_eq_bind, Option.bind_some]
  refine Succeeds.ite (fun _ => Succeeds.some ⟨h, Frame.refl s, rfl⟩) fun _ => ?_
  refine Succeeds.bind (h.topparKeep hr) ?_
  rintro s₁ ⟨hs₁, h₁⟩
  have hf₁ : Frame s s₁ := hs₁ ▸ frame_modifyToppar s r _
  have hl₁ : s₁.brokers.length = s.brokers.length := by rw [hs₁]; rfl
  refine Succeeds.bind (h₁.undelegate List.mem_cons_self) ?_
  rintro s₂ ⟨h₂, hf₂, hl₂, rktp₂, hget₂, hleader₂⟩
  refine Succeeds.bind (h₂.delegateTo (by rw [List.count_cons_self]; omega) hget₂ hleader₂
    fun b' hb' => ?_) ?_
  · rw [hl₂, hl₁]
    exact hb b' hb'
  · rintro s₃ ⟨h₃, hf₃, hl₃⟩
    refine h₃.topparDestroy.mono ?_
    rintro s₄ ⟨h₄, hf₄, hb₄⟩
    exact ⟨h₄, hf₁.trans (hf₂.trans (hf₃.trans hf₄)), by rw [hb₄, hl₃, hl₂, hl₁]⟩

/-- **The leader of a partition that is there** is brought up to date. -/
theorem Accounted.leaderUpdate (h : s.Accounted held inHand) {rkt : Topic}
    (ht : s.topics[t]? = some rkt) {mdp : MetadataPartition} (hr : rkt.get mdp.id = some r)
    {b : Option ℕ} (hb : ∀ b', b = some b' → b' < s.brokers.length) :
    Succeeds (s.leaderUpdate t mdp b) fun p =>
      p.2.Accounted held inHand ∧ Frame s p.2 ∧ p.2.brokers.length = s.brokers.length := by
  have hpos := refs_pos_of_get ht hr
  rw [State.leaderUpdate, ht]
  simp only [Option.bind_eq_bind, Option.bind_some]
  rw [hr]
  simp only [Option.bind_some]
  refine Succeeds.bind (h.topparKeep (by omega)) ?_
  rintro s₁ ⟨hs₁, h₁⟩
  obtain ⟨rktp, -, hget⟩ := h₁.toppar_eq (r := r) (by rw [List.count_cons_self]; omega)
  -- the metadata is stored
  set s₂ := s₁.modifyToppar r fun rktp => { rktp with isrCnt := mdp.isrCnt } with hs₂
  have h₂ : s₂.Accounted (r :: held) inHand :=
    h₁.modifyQueues hget _ rfl rfl rfl rfl fun w => rfl
  have hf₂ : Frame s s₂ := by
    rw [hs₂, hs₁]
    exact (frame_modifyToppar s r _).trans (frame_modifyToppar _ r _)
  have hl₂ : s₂.brokers.length = s.brokers.length := by
    rw [hs₂, hs₁]
    rfl
  have hpos₂ : 0 < s₂.refs r + (r :: held).count r := by
    rw [List.count_cons_self]
    omega
  have hdone : ∀ b', (∀ b'', b' = some b'' → b'' < s.brokers.length) →
      Succeeds (s₂.brokerDelegate r b') fun s₃ => Succeeds (s₃.topparDestroy r) fun s' =>
        s'.Accounted held inHand ∧ Frame s s' ∧ s'.brokers.length = s.brokers.length := by
    intro b' hb'
    refine (h₂.brokerDelegate hpos₂ (b := b') (by rwa [hl₂])).mono ?_
    rintro s₃ ⟨h₃, hf₃, hl₃⟩
    refine h₃.topparDestroy.mono ?_
    rintro s₄ ⟨h₄, hf₄, hb₄⟩
    exact ⟨h₄, hf₂.trans (hf₃.trans hf₄), by rw [hb₄, hl₃, hl₂]⟩
  obtain ⟨rktp₂, hrktp₂, -⟩ := h₂.toppar_eq hpos₂
  rw [hrktp₂]
  simp only [Option.bind_some]
  cases b with
  | none =>
    refine Succeeds.bind (hdone none (by simp)) fun s₃ hs₃ => ?_
    exact Succeeds.bind hs₃ fun s₄ hs₄ => Succeeds.some hs₄
  | some b =>
    refine Succeeds.ite (fun _ => ?_) fun _ => ?_
    · refine Succeeds.bind h₂.topparDestroy ?_
      rintro s₃ ⟨h₃, hf₃, hb₃⟩
      exact Succeeds.some ⟨h₃, hf₂.trans hf₃, by rw [hb₃, hl₂]⟩
    · refine Succeeds.bind (hdone (some b) hb) fun s₃ hs₃ => ?_
      exact Succeeds.bind hs₃ fun s₄ hs₄ => Succeeds.some hs₄

/-! ## The partitions of a topic -/

/-- A new partition, and topics that may take the reference to it from the
thread that makes it. -/
theorem Accounted.addToppar (h : s.Accounted held inHand) (extra : List Topic)
    (ht : t < s.topics.length + extra.length) (partition : ℤ)
    (hsum : ∀ r, total (Topic.refs r) extra + held'.count r = (s.toppars.length :: held).count r)
    (hslots : ∀ r, r ≠ s.toppars.length → total (Topic.refs r) extra = 0) :
    ({ (s.topparNew t partition).2 with topics := s.topics ++ extra } : State).Accounted
      held' inHand := by
  set n := s.toppars.length with hn
  set s₁ : State := { (s.topparNew t partition).2 with topics := s.topics ++ extra } with hs₁
  have hnone : s.refs n + held.count n = 0 := by
    rcases Nat.eq_zero_or_pos (s.refs n + held.count n) with h0 | hpos
    · exact h0
    · exact absurd (h.range n hpos) (by omega)
  have hweight : ∀ w, s₁.weight w = s.weight w := by
    intro w
    simp [hs₁, State.weight, State.topparNew, Toppar.weight]
  have hslots₁ : ∀ r, s₁.slots r = s.slots r + total (Topic.refs r) extra := fun r =>
    total_append _ _ _
  have hrefs : ∀ r, s₁.refs r + held'.count r = s.refs r + (n :: held).count r := by
    intro r
    have := hsum r
    have := hslots₁ r
    change s₁.slots r + total (Broker.refs r) s.brokers + _ = s.slots r + _ + _
    omega
  have hother : ∀ r, r ≠ n → (n :: held).count r = held.count r := fun r hr =>
    List.count_cons_of_ne (Ne.symm hr)
  have hself : (n :: held).count n = held.count n + 1 := List.count_cons_self
  have hlen : s₁.topics.length = s.topics.length + extra.length := List.length_append
  refine ⟨fun r rktp hr => ?_, fun r hr => ?_, fun r => ?_, fun w => ?_, ?_, ?_, h.ids, h.sized,
    fun call hcall => ?_⟩
  · change (s.toppars ++ [_])[r]? = some rktp at hr
    rcases Nat.lt_trichotomy r n with hlt | rfl | hgt
    · rw [List.getElem?_append_left hlt] at hr
      obtain ⟨hrefcnt, hfreed, hrkt, hleader, hlisted⟩ := h.toppar r rktp hr
      rw [← hother r (by omega), ← hrefs] at hrefcnt hfreed
      exact ⟨hrefcnt, hfreed, by omega, hleader, hlisted⟩
    · rw [List.getElem?_append_right (by omega)] at hr
      simp only [hn, Nat.sub_self, List.getElem?_cons_zero, Option.some_inj] at hr
      subst hr
      -- no broker lists the new reference: it would be within the old ones
      have hlisted : ∀ (b : ℕ) (rkb : Broker), s.brokers[b]? = some rkb →
          rkb.toppars.count n = 0 := by
        intro b rkb hb
        have hle : Broker.refs n rkb ≤ total (Broker.refs n) s.brokers := le_total hb
        simp only [Broker.refs] at hle
        simp only [State.refs] at hnone
        omega
      refine ⟨?_, ?_, by change t < _; omega, by simp, fun b rkb hb => ?_⟩
      · rw [hrefs]
        change (1 : ℤ) = _
        omega
      · rw [hrefs, hself]
        simp
      · rw [hlisted b rkb hb]
        simp
    · rw [List.getElem?_eq_none (by simp; omega)] at hr
      cases hr
  · change r < (s.toppars ++ [_]).length
    rw [List.length_append, List.length_singleton]
    by_cases hrn : r = n
    · omega
    · rw [hrefs, hother r hrn] at hr
      have := h.range r hr
      omega
  · rw [hslots₁]
    by_cases hrn : r = n
    · subst hrn
      have := hsum n
      simp only [State.refs] at hnone
      omega
    · rw [hslots r hrn]
      exact h.slots r
  · rw [hweight]
    exact h.conserve w
  · rw [hweight]
    exact h.counted
  · rw [hweight]
    exact h.bounded
  · have := h.called call hcall
    omega

/-- A new partition is held by the thread that makes it. -/
theorem Accounted.topparNew (h : s.Accounted held inHand) (ht : t < s.topics.length)
    (partition : ℤ) :
    (s.topparNew t partition).2.Accounted (s.toppars.length :: held) inHand := by
  have hnew : ({ (s.topparNew t partition).2 with topics := s.topics ++ [] } : State).Accounted
      (s.toppars.length :: held) inHand :=
    h.addToppar [] (by simpa using ht) partition (by simp) (by simp)
  rwa [List.append_nil] at hnew

theorem Accounted.newPartitions (h : s.Accounted held inHand) (ht : t < s.topics.length)
    (i n : ℕ) :
    (newPartitions t i n s).2.Accounted ((newPartitions t i n s).1 ++ held) inHand ∧
      Frame s (newPartitions t i n s).2 ∧ (newPartitions t i n s).2.brokers = s.brokers ∧
      (newPartitions t i n s).1 = List.range' s.toppars.length n := by
  induction n generalizing s held i with
  | zero => exact ⟨h, Frame.refl s, rfl, rfl⟩
  | succ n ih =>
    have h₁ := h.topparNew ht i
    obtain ⟨h₂, hf₂, hb₂, hnew⟩ := ih (s := (s.topparNew t i).2) h₁ ht (i + 1)
    refine ⟨h₂.congr (fun r => ?_) fun w => rfl, ⟨hf₂.conf, hf₂.topics, hf₂.calls, hf₂.created⟩,
      hb₂, ?_⟩
    · rw [State.newPartitions]
      simp only [List.cons_append, List.count_cons, List.count_append]
      change _ + (if (s.toppars.length == r) = true then 1 else 0) = _
      omega
    · rw [State.newPartitions]
      simp only [hnew]
      change s.toppars.length :: List.range' (s.toppars ++ [_]).length n = _
      rw [List.length_append, List.length_singleton, List.range'_succ]

theorem slots_modifyTopic {rkt : Topic} (ht : s.topics[t]? = some rkt) (f : Topic → Topic) (r : ℕ) :
    (s.modifyTopic t f).slots r + rkt.refs r = s.slots r + (f rkt).refs r :=
  total_modify ht f

/-- A topic changes, and what the thread holds with it. -/
theorem Accounted.modifyTopic (h : s.Accounted held inHand) {rkt : Topic}
    (ht : s.topics[t]? = some rkt) (f : Topic → Topic)
    (hsum : ∀ r, (f rkt).refs r + held'.count r = rkt.refs r + held.count r)
    (hslots : ∀ r, (s.modifyTopic t f).slots r ≤ 1) :
    (s.modifyTopic t f).Accounted held' inHand := by
  have hrefs : ∀ r, (s.modifyTopic t f).refs r + held'.count r = s.refs r + held.count r := by
    intro r
    have hr := slots_modifyTopic ht f r
    have := hsum r
    simp only [State.refs, State.modifyTopic] at *
    omega
  have hlen : (s.modifyTopic t f).topics.length = s.topics.length := by simp [State.modifyTopic]
  refine ⟨fun r rktp hr => ?_, fun r hr => ?_, hslots, h.conserve, h.counted, h.bounded, h.ids,
    h.sized, fun call hcall => hlen ▸ h.called call hcall⟩
  · obtain ⟨hrefcnt, hfreed, hrkt, hleader, hlisted⟩ := h.toppar r rktp hr
    rw [← hrefs] at hrefcnt hfreed
    exact ⟨hrefcnt, hfreed, hlen ▸ hrkt, hleader, hlisted⟩
  · exact h.range r (by rwa [hrefs] at hr)

/-- The state of a topic is set. -/
theorem Accounted.setState (h : s.Accounted held inHand) (t : ℕ) (state : TopicState) :
    (s.modifyTopic t fun rkt => { rkt with state := state }).Accounted held inHand := by
  cases ht : s.topics[t]? with
  | none =>
    have hsame : (s.modifyTopic t fun rkt => { rkt with state := state }) = s := by
      rw [State.modifyTopic, List.modify_eq_self (List.getElem?_eq_none_iff.1 ht)]
    rwa [hsame]
  | some rkt =>
    refine h.modifyTopic ht _ (fun r => rfl) fun r => ?_
    have := slots_modifyTopic ht (fun rkt => { rkt with state := state }) r
    have := h.slots r
    simp only [Topic.refs] at *
    omega

/-- The array of a topic is replaced: the new partitions were held, and
those that are cut off are. -/
theorem Accounted.setPartitions {new : List ℕ} (h : s.Accounted (new ++ held) inHand) {rkt : Topic}
    (ht : s.topics[t]? = some rkt) (cnt : ℕ) (hnew : new.Nodup)
    (hfresh : ∀ r ∈ new, s.slots r = 0) :
    (s.modifyTopic t fun rkt => { rkt with p := rkt.p.take cnt ++ new }).Accounted
      (rkt.p.drop cnt ++ held) inHand := by
  have hsplit : ∀ r, (rkt.p.take cnt).count r + (rkt.p.drop cnt).count r = rkt.p.count r := by
    intro r
    rw [← List.count_append, List.take_append_drop]
  refine h.modifyTopic ht _ (fun r => ?_) fun r => ?_
  · have := hsplit r
    simp only [Topic.refs, List.count_append]
    omega
  · have hr := slots_modifyTopic ht (fun rkt => { rkt with p := rkt.p.take cnt ++ new }) r
    have hle : rkt.refs r ≤ s.slots r := le_total ht
    have := hsplit r
    have := h.slots r
    simp only [Topic.refs, List.count_append] at hr hle
    by_cases hmem : r ∈ new
    · have := hfresh r hmem
      have := List.nodup_iff_count_le_one.1 hnew r
      omega
    · rw [List.count_eq_zero_of_not_mem hmem] at hr
      omega

theorem Accounted.removePartitions {ua : ℕ} {rs : List ℕ} (h : s.Accounted (rs ++ held) inHand)
    (hua : ua ∉ rs) (hpos : 0 < s.refs ua + held.count ua) :
    Succeeds (removePartitions ua rs s) fun s' =>
      s'.Accounted held inHand ∧ Frame s s' ∧ s'.brokers = s.brokers := by
  induction rs generalizing s with
  | nil => exact Succeeds.some ⟨h, Frame.refl s, rfl⟩
  | cons r rs ih =>
    rw [List.mem_cons, not_or] at hua
    rw [State.removePartitions]
    refine Succeeds.bind (h.topparMoveMsgs hua.1 ?_ ?_) ?_
    · rw [List.count_append]
      omega
    · rw [List.cons_append, List.count_cons_self]
      omega
    · rintro s₁ ⟨h₁, hf₁, hb₁⟩
      refine Succeeds.bind (Accounted.topparDestroy h₁) ?_
      rintro s₂ ⟨h₂, hf₂, hb₂⟩
      have hrefs := (hf₁.trans hf₂).refs (hb₂.trans hb₁) ua
      refine (ih h₂ hua.2 (by omega)).mono ?_
      rintro s₃ ⟨h₃, hf₃, hb₃⟩
      exact ⟨h₃, hf₁.trans (hf₂.trans hf₃), hb₃.trans (hb₂.trans hb₁)⟩

/-- **The number of partitions is brought up to date.** -/
theorem Accounted.partitionCntUpdate (h : s.Accounted held inHand) {rkt : Topic}
    (ht : s.topics[t]? = some rkt) (cnt : ℕ) :
    Succeeds (s.partitionCntUpdate t cnt) fun p =>
      p.2.Accounted held inHand ∧
        ∃ rkt', p.2.topics[t]? = some rkt' ∧ rkt'.state = rkt.state ∧ rkt'.p.length = cnt := by
  rw [State.partitionCntUpdate, ht]
  simp only [Option.bind_eq_bind, Option.bind_some]
  refine Succeeds.ite (fun hcnt => Succeeds.some ⟨h, rkt, ht, rfl, hcnt⟩) fun hcnt => ?_
  have hlt : t < s.topics.length := (List.getElem?_eq_some_iff.1 ht).1
  obtain ⟨h₁, hf₁, hb₁, hnew⟩ := h.newPartitions hlt rkt.p.length (cnt - rkt.p.length)
  generalize hnp : State.newPartitions t rkt.p.length (cnt - rkt.p.length) s = np at *
  obtain ⟨new, s₁⟩ := np
  dsimp only at *
  have ht₁ : s₁.topics[t]? = some rkt := by rw [hf₁.topics, ht]
  have hua₁ := refs_ua_pos ht₁
  refine Succeeds.bind (h₁.topparKeep (r := rkt.ua) (by omega)) ?_
  rintro s₂ ⟨hs₂, h₂⟩
  have hf₂ : Frame s₁ s₂ := hs₂ ▸ frame_modifyToppar s₁ rkt.ua _
  have ht₂ : s₂.topics[t]? = some rkt := by rw [hf₂.topics, ht₁]
  have hfresh : ∀ r ∈ new, s₂.slots r = 0 := by
    intro r hr
    rw [hnew, List.mem_range'_1] at hr
    have hslots : s₂.slots r = s.slots r := by
      rw [State.slots, State.slots, hf₂.topics, hf₁.topics]
    rcases Nat.eq_zero_or_pos (s.slots r) with h0 | hpos
    · omega
    · exact absurd (h.range r (by rw [State.refs]; omega)) (by omega)
  have h₂' : s₂.Accounted (new ++ (rkt.ua :: held)) inHand :=
    h₂.congr (fun r => by simp only [List.count_append, List.count_cons]; omega) fun w => rfl
  have h₃ := h₂'.setPartitions ht₂ cnt (by rw [hnew]; exact List.nodup_range') hfresh
  -- the unassigned partition is in its own slot and in no other
  have hua : rkt.ua ∉ rkt.p.drop cnt := by
    intro hmem
    have hle : rkt.refs rkt.ua ≤ s.slots rkt.ua := le_total ht
    have := h.slots rkt.ua
    have := List.count_pos_iff.2 (List.mem_of_mem_drop hmem)
    simp only [Topic.refs, if_true] at hle
    omega
  refine Succeeds.bind (h₃.removePartitions hua (by rw [List.count_cons_self]; omega)) ?_
  rintro s₄ ⟨h₄, hf₄, hb₄⟩
  refine Succeeds.bind h₄.topparDestroy ?_
  rintro s₅ ⟨h₅, hf₅, hb₅⟩
  refine Succeeds.some ⟨h₅, { rkt with p := rkt.p.take cnt ++ new }, ?_, rfl, ?_⟩
  · rw [hf₅.topics, hf₄.topics, State.modifyTopic, List.getElem?_modify, ht₂]
    simp
  · simp only [List.length_append, List.length_take, hnew, List.length_range']
    omega

/-! ## Unassigned messages -/

theorem Accounted.assignLoop {rkt : Topic} (ht : s.topics[t]? = some rkt) (partitioner : Msg → ℤ)
    {msgs : List Msg} {failed : Msgq} (h : s.Accounted held (msgs ++ (failed.msgs ++ inHand))) :
    Succeeds (assignLoop t partitioner msgs failed s) fun p =>
      p.2.Accounted held (p.1.msgs ++ inHand) ∧ Frame s p.2 ∧ p.2.brokers = s.brokers := by
  induction msgs generalizing s failed with
  | nil => exact Succeeds.some ⟨h, Frame.refl s, rfl⟩
  | cons rkm rest ih =>
    -- a message that fails is behind the others that did
    have hfail : ∀ {s' : State}, s'.Accounted held (rkm :: (rest ++ (failed.msgs ++ inHand))) →
        s'.Accounted held (rest ++ ((failed.enq rkm).msgs ++ inHand)) := fun h' =>
      h'.congr (fun _ => rfl) fun w => by
        simp only [Msgq.enq, total_cons, total_append, total_nil]
        omega
    rw [State.assignLoop, ht]
    simp only [Option.bind_eq_bind, Option.bind_some]
    refine Succeeds.ite (fun _ => ih ht (hfail h)) fun _ => ?_
    refine Succeeds.bind (h.msgPartitioner ht partitioner) ?_
    rintro ⟨err, s₁⟩ ⟨h₁, hf₁, hb₁⟩
    refine Succeeds.mono (ih (s := s₁) (by rw [hf₁.topics, ht]) ?_) ?_
    · split
      case isTrue herr => rwa [if_pos herr] at h₁
      case isFalse herr =>
        rw [if_neg herr] at h₁
        exact hfail h₁
    · rintro p ⟨h₂, hf₂, hb₂⟩
      exact ⟨h₂, hf₁.trans hf₂, hb₂.trans hb₁⟩

/-- **Unassigned messages** are queued at a partition or reported. -/
theorem Accounted.assignUas (h : s.Accounted held inHand) {rkt : Topic}
    (ht : s.topics[t]? = some rkt) (partitioner : Msg → ℤ) :
    Succeeds (s.assignUas t partitioner) fun s' => s'.Accounted held inHand := by
  have hpos := refs_ua_pos ht
  rw [State.assignUas, ht]
  simp only [Option.bind_eq_bind, Option.bind_some]
  refine Succeeds.bind (h.topparKeep (r := rkt.ua) (by omega)) ?_
  rintro s₁ ⟨hs₁, h₁⟩
  obtain ⟨ua, hua, hget⟩ := h₁.toppar_eq (r := rkt.ua) (by rw [List.count_cons_self]; omega)
  rw [hua]
  simp only [Option.bind_some]
  have h₂ : (s₁.modifyToppar rkt.ua fun rktp => { rktp with msgq := .init }).Accounted
      (rkt.ua :: held) (ua.msgq.msgs ++ (Msgq.init.msgs ++ inHand)) :=
    h₁.modifyQueues hget _ rfl rfl rfl rfl fun w => by
      simp only [Toppar.weight, Msgq.weight_init, total_append, Msgq.total_msgs]
      omega
  have ht₂ : (s₁.modifyToppar rkt.ua fun rktp => { rktp with msgq := .init }).topics[t]? =
      some rkt := by
    rw [hs₁]
    exact ht
  refine Succeeds.bind (Accounted.assignLoop ht₂ partitioner h₂) ?_
  rintro ⟨failed, s₃⟩ ⟨h₃, hf₃, hb₃⟩
  refine Succeeds.ite (fun _ => ?_) fun hcnt => ?_
  · exact Succeeds.bind (h₃.drMsgq _) fun s₄ h₄ => h₄.1.topparDestroy.mono fun s' hs' => hs'.1
  · have hnil : failed.msgs = [] := by
      rw [← List.length_eq_zero_iff, ← failed.cnt_eq]
      exact Nat.eq_zero_of_not_pos hcnt
    rw [hnil, List.nil_append] at h₃
    exact h₃.topparDestroy.mono fun s' hs' => hs'.1

/-! ## Metadata -/

theorem lt_of_findByNodeid {nodeid : ℤ} (h : s.findByNodeid nodeid = some b) :
    b < s.brokers.length := by
  rw [findByNodeid] at h
  exact (List.findIdx?_eq_some_iff_getElem.1 h).1

theorem Accounted.leaderUpdates {rkt : Topic} (ht : s.topics[t]? = some rkt)
    {partitions : List MetadataPartition} (h : s.Accounted held inHand)
    (hids : ∀ mdp ∈ partitions, -1 ≤ mdp.id ∧ mdp.id < rkt.p.length) :
    Succeeds (leaderUpdates t partitions s) fun p =>
      p.2.Accounted held inHand ∧ Frame s p.2 := by
  induction partitions generalizing s with
  | nil => exact Succeeds.some ⟨h, Frame.refl s⟩
  | cons mdp rest ih =>
    obtain ⟨hlo, hhi⟩ := hids mdp List.mem_cons_self
    obtain ⟨r, hr⟩ := get_isSome hlo hhi
    rw [State.leaderUpdates]
    refine Succeeds.bind (h.leaderUpdate ht hr ?_) ?_
    · intro b hb
      split at hb
      · cases hb
      · exact lt_of_findByNodeid hb
    · rintro ⟨upd, s₁⟩ ⟨h₁, hf₁, hl₁⟩
      refine Succeeds.bind (ih (by rw [hf₁.topics, ht]) h₁ fun m hm =>
        hids m (List.mem_cons_of_mem _ hm)) ?_
      rintro ⟨upds, s₂⟩ ⟨h₂, hf₂⟩
      exact Succeeds.some ⟨h₂, hf₁.trans hf₂⟩

theorem getElem?_setState {rkt : Topic} (ht : s.topics[t]? = some rkt) (state : TopicState) :
    (s.modifyTopic t fun rkt => { rkt with state := state }).topics[t]? =
      some { rkt with state := state } := by
  rw [State.modifyTopic, List.getElem?_modify, ht]
  simp

theorem Accounted.metadataNone (h : s.Accounted held inHand) (t : ℕ) (partitioner : Msg → ℤ) :
    Succeeds (s.metadataNone t partitioner) fun s' => s'.Accounted held inHand := by
  rw [State.metadataNone]
  cases ht : s.topics[t]? with
  | none => exact Succeeds.some h
  | some rkt =>
    refine Succeeds.bind
      ((h.setState t .notExists).partitionCntUpdate (getElem?_setState ht _) 0) ?_
    rintro ⟨upd, s₁⟩ ⟨h₁, rkt₁, ht₁, -, -⟩
    exact h₁.assignUas ht₁ partitioner

/-- **Metadata that numbers its partitions from zero** keeps the books. -/
theorem Accounted.metadataUpdate (h : s.Accounted held inHand) (t : ℕ) (err : Err)
    {partitions : List MetadataPartition}
    (hids : ∀ mdp ∈ partitions, -1 ≤ mdp.id ∧ mdp.id < partitions.length)
    (partitioner : Msg → ℤ) :
    Succeeds (s.metadataUpdate t err partitions partitioner) fun s' =>
      s'.Accounted held inHand := by
  rw [State.metadataUpdate]
  cases ht : s.topics[t]? with
  | none => exact Succeeds.some h
  | some rkt =>
    dsimp only
    generalize (if err = .unknownTopicOrPart then TopicState.notExists else .exists) = state
    refine Succeeds.bind ((h.setState t state).partitionCntUpdate (getElem?_setState ht state)
      partitions.length) ?_
    rintro ⟨cnt, s₁⟩ ⟨h₁, rkt₁, ht₁, -, hlen₁⟩
    refine Succeeds.bind (Accounted.leaderUpdates ht₁ h₁ (hlen₁ ▸ hids)) ?_
    rintro ⟨upd, s₂⟩ ⟨h₂, hf₂⟩
    exact Succeeds.ite (fun _ => h₂.assignUas (by rw [hf₂.topics, ht₁]) partitioner)
      fun _ => Succeeds.some h₂

/-! ## Replies -/

/-- **A request that is answered**, times out or is purged: its messages
and its reference to the partition leave the hands of the thread. -/
theorem Accounted.produceMsgsetReply {request : Buf} {rkb : Broker} (hb : s.brokers[b]? = some rkb)
    (h : s.Accounted (request.rktp :: held) (request.msgq.msgs ++ inHand)) (err : Err) (now : ℤ) :
    Succeeds (s.produceMsgsetReply b err request now) fun s' => s'.Accounted held inHand := by
  have hreport : ∀ err, Succeeds (do
      let s ← s.drMsgq request.msgq err
      s.topparDestroy request.rktp) fun s' => s'.Accounted held inHand := fun err =>
    Succeeds.bind (h.drMsgq err) fun s₁ h₁ => h₁.1.topparDestroy.mono fun s' hs' => hs'.1
  have hrequeue : Succeeds (do
      let s ← s.topparInsertMsgq request.rktp request.msgq
      s.topparDestroy request.rktp) fun s' => s'.Accounted held inHand := by
    exact Succeeds.bind (h.topparInsertMsgq (by rw [List.count_cons_self]; omega))
      fun s₁ h₁ => h₁.1.topparDestroy.mono fun s' hs' => hs'.1
  have hretry : ∀ err, Succeeds (if request.retries + 1 < s.conf.maxRetries then
      some (s.modifyBroker b fun rkb =>
        { rkb with
          retrybufs := rkb.retrybufs ++
            [{ request with
                retries := request.retries + 1
                tsRetry := now + s.conf.retryBackoffMs * 1000 }] })
      else do
        let s ← s.drMsgq request.msgq err
        s.topparDestroy request.rktp) fun s' => s'.Accounted held inHand := by
    intro err
    refine Succeeds.ite (fun _ => Succeeds.some ?_) fun _ => hreport err
    refine h.modifyBroker hb _ rfl (fun r => ?_) fun w => ?_
    · simp only [Broker.bufRefs, Broker.bufs, total_append, total_cons, total_nil, List.count_cons,
        beq_iff_eq]
      omega
    · simp only [Broker.weight, Broker.bufs, Buf.weight, total_append, total_cons, total_nil,
        Msgq.total_msgs]
      omega
  cases err with
  | noError | destroy | invalidMsg | invalidMsgSize | msgSizeTooLarge => exact hreport _
  | requestTimedOut | msgTimedOut => exact hretry _
  | transport | badMsg | unknownPartition | unknownTopic | isrInsuff | unknownTopicOrPart |
    other => exact hrequeue

end State

end Kafka

end Xpod
