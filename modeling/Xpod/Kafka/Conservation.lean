import Mathlib.Tactic
import Xpod.Kafka.Batches
/-!
# Every interleaving keeps the books

Whatever the threads do in whatever order, no step fails: no assertion of
the source does, no partition is used after it was freed, and every
message that was ever created has one place or one end.
-/

namespace Xpod

namespace Kafka

open Weights

namespace State

variable {s s' : State} {r t b : ℕ}

/-! ## The thread of a broker -/

theorem refs_pos_of_mem {rkb : Broker} (hb : s.brokers[b]? = some rkb) (hr : r ∈ rkb.toppars) :
    0 < s.refs r := by
  have hle : rkb.refs r ≤ total (Broker.refs r) s.brokers := le_total hb
  have := List.count_pos_iff.2 hr
  simp only [State.refs, Broker.refs] at *
  omega

theorem Accounted.takeMsgq (h : s.Accounted [] []) {rkb : Broker} (hb : s.brokers[b]? = some rkb)
    (hr : 0 < s.refs r) :
    Succeeds (s.takeMsgq b r) fun s' =>
      s'.Accounted [] [] ∧ s'.refs r = s.refs r ∧ ∃ rkb', s'.brokers[b]? = some rkb' := by
  obtain ⟨rktp, hrktp, hget⟩ := h.toppar_eq (r := r) (by simpa using hr)
  obtain ⟨rkt, hrkt⟩ : ∃ rkt, s.topics[rktp.rkt]? = some rkt :=
    ⟨_, List.getElem?_eq_getElem (h.toppar r rktp hget).rkt⟩
  rw [State.takeMsgq, hrktp]
  simp only [Option.bind_eq_bind, Option.bind_some]
  rw [hrkt]
  simp only [Option.bind_some]
  refine Succeeds.ite (fun _ => Succeeds.some ⟨?_, ?_, ?_⟩)
    fun _ => Succeeds.some ⟨?_, rfl, rkb, hb⟩
  · -- the queue is emptied first
    have h₁ : (s.modifyToppar r fun rktp => { rktp with msgq := .init }).Accounted []
        rktp.msgq.msgs :=
      h.modifyQueues hget _ rfl rfl rfl rfl fun w => by
        simp only [Toppar.weight, Msgq.weight_init, total_nil, Msgq.total_msgs]
        omega
    refine h₁.modifyBroker hb
      (fun rkb => { rkb with isrfailed := rkb.isrfailed.concat rktp.msgq }) rfl (fun x => rfl)
      fun w => ?_
    simp only [Broker.weight, Broker.bufs, Msgq.weight_concat, total_nil, Msgq.total_msgs]
    omega
  · have hsame := refs_modifyBroker hb
      (fun rkb => { rkb with isrfailed := rkb.isrfailed.concat rktp.msgq }) r
    simp only [Broker.refs, Broker.bufRefs, Broker.bufs] at hsame
    change State.refs r (s.modifyBroker b _) = _
    omega
  · exact ⟨_, brokers_modifyBroker hb _⟩
  · refine h.modifyQueues hget _ rfl rfl rfl rfl fun w => ?_
    simp only [Toppar.weight, Msgq.weight_concat, Msgq.weight_init]
    omega

theorem Accounted.scanXmit (h : s.Accounted [] []) {rkb : Broker} (hb : s.brokers[b]? = some rkb)
    (hr : 0 < s.refs r) (now : ℤ) :
    Succeeds (s.scanXmit b r now) fun s' =>
      s'.Accounted [] [] ∧ s'.refs r = s.refs r ∧ ∃ rkb', s'.brokers[b]? = some rkb' := by
  obtain ⟨rktp, hrktp, hget⟩ := h.toppar_eq (r := r) (by simpa using hr)
  rw [State.scanXmit, hrktp]
  simp only [Option.bind_eq_bind, Option.bind_some]
  rw [hb]
  simp only [Option.bind_some]
  refine Succeeds.bind ((Msgq.ageScan_spec _ _ _)) ?_
  rintro ⟨xmit, timedout⟩ ⟨hxmit, htimedout⟩
  dsimp only at hxmit htimedout ⊢
  set aged := rktp.xmitMsgq.msgs.takeWhile fun rkm => decide (rkm.tsTimeout ≤ now) with haged
  have hsplit : rktp.xmitMsgq.msgs = aged ++ xmit.msgs := by
    rw [haged, hxmit, List.takeWhile_append_dropWhile]
  refine Succeeds.some ⟨?_, ?_, ?_⟩
  · have h₁ : (s.modifyToppar r fun rktp => { rktp with xmitMsgq := xmit }).Accounted [] aged :=
      h.modifyQueues hget _ rfl rfl rfl rfl fun w => by
        simp only [Toppar.weight, Msgq.weight, hsplit, total_append, total_nil]
        omega
    refine h₁.modifyBroker hb (fun rkb => { rkb with timedout := timedout }) rfl
      (fun x => rfl) fun w => ?_
    simp only [Broker.weight, Broker.bufs, Msgq.weight, htimedout, total_append, total_nil]
    omega
  · have hsame := refs_modifyBroker hb (fun rkb => { rkb with timedout := timedout }) r
    simp only [Broker.refs, Broker.bufRefs, Broker.bufs] at hsame
    change State.refs r (s.modifyBroker b _) = _
    omega
  · exact ⟨_, brokers_modifyBroker hb _⟩

/-- **A pass over a partition** keeps the books. -/
theorem Accounted.serveToppar (h : s.Accounted [] []) {rkb : Broker}
    (hb : s.brokers[b]? = some rkb) (hr : r ∈ rkb.toppars) (now : ℤ) (doTimeoutScan : Bool) :
    Succeeds (s.serveToppar b r now doTimeoutScan) fun s' => s'.Accounted [] [] := by
  rw [State.serveToppar]
  refine Succeeds.bind (h.takeMsgq hb (refs_pos_of_mem hb hr)) ?_
  rintro s₁ ⟨h₁, hr₁, rkb₁, hb₁⟩
  have hpos := refs_pos_of_mem hb hr
  have hsend : ∀ s₂ : State, s₂.Accounted [] [] → s₂.refs r = s₁.refs r →
      (∃ rkb₂, s₂.brokers[b]? = some rkb₂) →
      Succeeds (s₂.serveXmit b r now) fun s' => s'.Accounted [] [] := by
    rintro s₂ h₂ hr₂ ⟨rkb₂, hb₂⟩
    have hpos₂ : 0 < s₂.refs r + ([] : List ℕ).count r := by
      rw [List.count_nil]
      omega
    obtain ⟨rktp, -, hget⟩ := h₂.toppar_eq hpos₂
    exact h₂.of_serveXmit hpos₂ hget hb₂ now
  cases doTimeoutScan with
  | false => exact hsend s₁ h₁ rfl ⟨rkb₁, hb₁⟩
  | true =>
    refine Succeeds.bind (h₁.scanXmit hb₁ (by omega) now) ?_
    rintro s₂ ⟨h₂, hr₂, hb₂⟩
    exact hsend s₂ h₂ hr₂ hb₂

theorem Accounted.serveReport (h : s.Accounted [] []) {rkb : Broker}
    (hb : s.brokers[b]? = some rkb) :
    Succeeds (s.serveReport b) fun s' => s'.Accounted [] [] := by
  rw [State.serveReport, hb]
  simp only [Option.bind_eq_bind, Option.bind_some]
  have h₁ : (s.modifyBroker b fun rkb =>
      { rkb with isrfailed := .init, timedout := .init }).Accounted
      [] (rkb.isrfailed.msgs ++ (rkb.timedout.msgs ++ [])) :=
    h.modifyBroker hb _ rfl (fun x => rfl) fun w => by
      simp only [Broker.weight, Broker.bufs, Msgq.weight_init, total_append, total_nil,
        Msgq.total_msgs]
      omega
  have hskip : ∀ {s' : State} {rkmq : Msgq} {inHand : List Msg}, ¬ 0 < rkmq.msgCnt →
      s'.Accounted [] (rkmq.msgs ++ inHand) → s'.Accounted [] inHand := by
    intro s' rkmq inHand hcnt h'
    rwa [Msgq.msgCnt_eq_zero_iff.1 (Nat.eq_zero_of_not_pos hcnt), List.nil_append] at h'
  have hlast : ∀ s₂ : State, s₂.Accounted [] (rkb.timedout.msgs ++ []) →
      Succeeds (if 0 < rkb.timedout.msgCnt then s₂.drMsgq rkb.timedout .msgTimedOut else some s₂)
        fun s' => s'.Accounted [] [] := fun s₂ h₂ =>
    Succeeds.ite (fun _ => (h₂.drMsgq _).mono fun s' hs' => hs'.1)
      fun hcnt => Succeeds.some (hskip hcnt h₂)
  refine Succeeds.ite (fun _ => ?_) fun hcnt => hlast _ (hskip hcnt h₁)
  exact Succeeds.bind (h₁.drMsgq _) fun s₂ h₂ => hlast s₂ h₂.1

theorem Accounted.retryBufsMove (h : s.Accounted [] []) {rkb : Broker}
    (hb : s.brokers[b]? = some rkb) (now : ℤ) : (s.retryBufsMove b now).Accounted [] [] := by
  have hsplit : ∀ w : Buf → ℕ,
      total w (rkb.retrybufs.takeWhile fun rkbuf => decide (rkbuf.tsRetry ≤ now)) +
        total w (rkb.retrybufs.dropWhile fun rkbuf => decide (rkbuf.tsRetry ≤ now)) =
      total w rkb.retrybufs := by
    intro w
    rw [← total_append, List.takeWhile_append_dropWhile]
  refine h.modifyBroker hb _ rfl (fun x => ?_) fun w => ?_
  · have := hsplit fun rkbuf => if rkbuf.rktp = x then 1 else 0
    simp only [Broker.bufRefs, Broker.bufs, total_append]
    omega
  · have := hsplit (Buf.weight w)
    simp only [Broker.weight, Broker.bufs, total_append]
    omega

/-- A request is taken from a broker, with its reference. -/
theorem Accounted.takeRequest (h : s.Accounted [] []) {rkb : Broker}
    (hb : s.brokers[b]? = some rkb) (rkbuf : Buf) (f : Broker → Broker)
    (htoppars : (f rkb).toppars = rkb.toppars) (hisr : (f rkb).isrfailed = rkb.isrfailed)
    (htimedout : (f rkb).timedout = rkb.timedout)
    (hbufs : ∀ w : Buf → ℕ, total w (f rkb).bufs + w rkbuf = total w rkb.bufs) :
    (s.modifyBroker b f).Accounted [rkbuf.rktp] (rkbuf.msgq.msgs ++ []) := by
  refine h.modifyBroker hb f htoppars (fun x => ?_) fun w => ?_
  · have := hbufs fun rkbuf => if rkbuf.rktp = x then 1 else 0
    simp only [Broker.bufRefs, List.count_cons, List.count_nil, beq_iff_eq]
    omega
  · have := hbufs (Buf.weight w)
    simp only [Broker.weight, hisr, htimedout, total_append, total_nil, Msgq.total_msgs,
      Buf.weight] at *
    omega

theorem Accounted.setWire (h : s.Accounted [] []) (wire : List (ℕ × Buf)) :
    ({ s with wire := wire } : State).Accounted [] [] :=
  h.of_same rfl rfl rfl rfl rfl (fun _ => rfl) h.counted h.bounded h.called

theorem Accounted.sendFirst (h : s.Accounted [] []) {rkb : Broker}
    (hb : s.brokers[b]? = some rkb) (now : ℤ) :
    Succeeds (s.sendFirst b now) fun s' => s'.Accounted [] [] := by
  rw [State.sendFirst, hb]
  simp only [Option.bind_eq_bind, Option.bind_some]
  cases hout : rkb.outbufs with
  | nil => exact Succeeds.some h
  | cons rkbuf rest =>
    have h₁ := h.setWire (s.wire ++ [(b, rkbuf)])
    refine Succeeds.ite (fun _ => ?_) fun _ => Succeeds.some ?_
    · have h₂ := h₁.takeRequest hb rkbuf (fun rkb => { rkb with outbufs := rest })
        rfl rfl rfl fun w => by
          simp only [Broker.bufs, hout, total_append, total_cons]
          omega
      exact Accounted.produceMsgsetReply
        (brokers_modifyBroker (s := { s with wire := s.wire ++ [(b, rkbuf)] }) hb _) h₂ _ now
    · refine h₁.modifyBroker hb _ rfl (fun x => ?_) fun w => ?_
      · simp only [Broker.bufRefs, Broker.bufs, hout, total_append, total_cons, total_nil]
        omega
      · simp only [Broker.weight, Broker.bufs, hout, total_append, total_cons, total_nil]
        omega

theorem Accounted.completeWaitresp (h : s.Accounted [] []) {rkb : Broker}
    (hb : s.brokers[b]? = some rkb) (i : ℕ) (err : Err) (now : ℤ) :
    Succeeds (s.completeWaitresp b i err now) fun s' => s'.Accounted [] [] := by
  rw [State.completeWaitresp, hb]
  simp only [Option.bind_eq_bind, Option.bind_some]
  cases hi : rkb.waitresps[i]? with
  | none => exact Succeeds.some h
  | some request =>
    have h₁ := h.takeRequest hb request
      (fun rkb => { rkb with waitresps := rkb.waitresps.eraseIdx i }) rfl rfl rfl fun w => by
        have := total_eraseIdx (w := w) hi
        simp only [Broker.bufs, total_append]
        omega
    exact Accounted.produceMsgsetReply (brokers_modifyBroker hb _) h₁ _ now

theorem Accounted.reqResponse (h : s.Accounted [] []) {rkb : Broker}
    (hb : s.brokers[b]? = some rkb) (corrid : UInt32) (err : Err) (now : ℤ) :
    Succeeds (s.reqResponse b corrid err now) fun s' => s'.Accounted [] [] := by
  rw [State.reqResponse, hb]
  simp only [Option.bind_eq_bind, Option.bind_some]
  split
  · exact Succeeds.some h
  · exact h.completeWaitresp hb _ _ _

theorem Accounted.waitrespTimeout (h : s.Accounted [] []) {rkb : Broker}
    (hb : s.brokers[b]? = some rkb) (i : ℕ) (now : ℤ) :
    Succeeds (s.waitrespTimeout b i now) fun s' => s'.Accounted [] [] := by
  rw [State.waitrespTimeout, hb]
  simp only [Option.bind_eq_bind, Option.bind_some]
  split
  · exact Succeeds.some h
  · exact Succeeds.ite (fun _ => Succeeds.some h) fun _ => h.completeWaitresp hb _ _ _

/-! ## Failing brokers -/

theorem Accounted.failBegin (h : s.Accounted [] []) {rkb : Broker} (hb : s.brokers[b]? = some rkb)
    (hidle : rkb.failing.isNone) (err : Err) : (s.failBegin b err).Accounted [] [] := by
  have hnone : rkb.failing = none := Option.isNone_iff_eq_none.1 hidle
  refine h.modifyBroker hb _ rfl (fun x => ?_) fun w => ?_
  · simp only [Broker.bufRefs, Broker.bufs, hnone, Option.elim, total_append, total_nil]
    omega
  · simp only [Broker.weight, Broker.bufs, hnone, Option.elim, total_append, total_nil]
    omega

theorem Accounted.failPurge (h : s.Accounted [] []) {rkb : Broker} (hb : s.brokers[b]? = some rkb)
    {failing : Failing} (hfailing : rkb.failing = some failing) (now : ℤ) :
    Succeeds (s.failPurge b failing now) fun s' => s'.Accounted [] [] := by
  rw [State.failPurge]
  cases htmp : failing.tmpq with
  | nil => exact Succeeds.some h
  | cons request rest =>
    have h₁ := h.takeRequest hb request
      (fun rkb => { rkb with failing := some ⟨failing.err, rest⟩ }) rfl rfl rfl fun w => by
        simp only [Broker.bufs, hfailing, Option.elim, htmp, total_append, total_cons]
        omega
    exact Accounted.produceMsgsetReply (brokers_modifyBroker hb _) h₁ _ now

theorem Accounted.failUndelegate (h : s.Accounted [] []) {rkb : Broker}
    (hb : s.brokers[b]? = some rkb) :
    Succeeds (s.failUndelegate b) fun s' => s'.Accounted [] [] := by
  rw [State.failUndelegate, hb]
  simp only [Option.bind_eq_bind, Option.bind_some]
  cases htop : rkb.toppars with
  | nil => exact Succeeds.some h
  | cons r rest =>
    have hpos : 0 < s.refs r := refs_pos_of_mem hb (htop ▸ List.mem_cons_self)
    refine Succeeds.bind (h.topparKeep (by simpa using hpos)) ?_
    rintro s₁ ⟨hs₁, h₁⟩
    refine Succeeds.bind (h₁.brokerDelegate (r := r) (b := none) (by simp) (by simp)) ?_
    rintro s₂ ⟨h₂, _, _⟩
    exact h₂.topparDestroy.mono fun s' hs' => hs'.1

/-! ## The main thread and the application -/

theorem Accounted.scanToppar (h : s.Accounted [] []) (t : ℕ) (partition now : ℤ) :
    Succeeds (s.scanToppar t partition now) fun s' => s'.Accounted [] [] := by
  rw [State.scanToppar]
  cases hget : s.topics[t]?.bind fun rkt => rkt.get partition with
  | none => exact Succeeds.some h
  | some r =>
    obtain ⟨rkt, ht, hr⟩ := Option.bind_eq_some_iff.1 hget
    have hpos := refs_pos_of_get ht hr
    refine Succeeds.bind (h.topparKeep (r := r) (by simpa using hpos)) ?_
    rintro s₁ ⟨hs₁, h₁⟩
    obtain ⟨rktp, hrktp, hget₁⟩ := h₁.toppar_eq (r := r) (by simp)
    rw [hrktp]
    simp only [Option.bind_eq_bind, Option.bind_some]
    refine Succeeds.bind (Msgq.ageScan_spec _ _ _) ?_
    rintro ⟨rkmq, timedout⟩ ⟨hrkmq, htimedout⟩
    dsimp only at hrkmq htimedout ⊢
    set aged := rktp.msgq.msgs.takeWhile fun rkm => decide (rkm.tsTimeout ≤ now) with haged
    have hsplit : rktp.msgq.msgs = aged ++ rkmq.msgs := by
      rw [haged, hrkmq, List.takeWhile_append_dropWhile]
    have h₂ : (s₁.modifyToppar r fun rktp => { rktp with msgq := rkmq }).Accounted [r] aged :=
      h₁.modifyQueues hget₁ _ rfl rfl rfl rfl fun w => by
        simp only [Toppar.weight, Msgq.weight, hsplit, total_append, total_nil]
        omega
    have hweight : ∀ w, State.weight w { s₁.modifyToppar r (fun rktp => { rktp with msgq := rkmq })
        with timedout := timedout } =
        (s₁.modifyToppar r fun rktp => { rktp with msgq := rkmq }).weight w + total w aged := by
      intro w
      simp only [State.weight, Msgq.weight, htimedout, total_append]
      simp only [State.modifyToppar]
      omega
    have hcounted := h₂.counted
    have hbounded := h₂.bounded
    have h₃ : ({ s₁.modifyToppar r (fun rktp => { rktp with msgq := rkmq }) with
        timedout := timedout } : State).Accounted [r] [] := by
      refine h₂.of_same rfl rfl rfl rfl rfl (fun w => ?_) ?_ ?_ h₂.called
      · rw [hweight]
        rfl
      · rw [hweight]
        exact hcounted
      · rw [hweight]
        exact hbounded
    exact h₃.topparDestroy.mono fun s' hs' => hs'.1

theorem Accounted.scanReport (h : s.Accounted [] []) :
    Succeeds s.scanReport fun s' => s'.Accounted [] [] := by
  have hweight : ∀ w, s.weight w =
      State.weight w { s with timedout := .init } + total w s.timedout.msgs := by
    intro w
    simp only [State.weight, Msgq.weight_init, Msgq.total_msgs]
    omega
  have hcounted := h.counted
  have hbounded := h.bounded
  rw [hweight] at hcounted hbounded
  have h₁ : ({ s with timedout := .init } : State).Accounted [] (s.timedout.msgs ++ []) := by
    refine h.of_same rfl rfl rfl rfl rfl (fun w => ?_) ?_ ?_ h.called
    · rw [hweight w]
      simp only [total_append, total_nil]
      omega
    · simpa using hcounted
    · simpa using hbounded
  rw [State.scanReport]
  refine Succeeds.ite (fun _ => (h₁.drMsgq _).mono fun s' hs' => hs'.1) fun hcnt => Succeeds.some ?_
  rwa [Msgq.msgCnt_eq_zero_iff.1 (Nat.eq_zero_of_not_pos hcnt), List.nil_append] at h₁

theorem Accounted.topicNew (h : s.Accounted [] []) (name : List UInt8) (conf : TopicConf) :
    (s.topicNew name conf).Accounted [] [] := by
  rw [State.topicNew]
  split
  · exact h
  · refine h.addToppar [{ name := name, conf := conf, ua := s.toppars.length }]
      (by simp) partitionUa (fun r => ?_) fun r hr => ?_
    · simp only [Topic.refs, total_cons, total_nil, List.count_nil, List.count_cons, beq_iff_eq]
      omega
    · simp [Topic.refs, Ne.symm hr]

theorem Accounted.addBroker (h : s.Accounted [] []) (nodeid : ℤ) :
    ({ s with brokers := s.brokers ++ [{ nodeid := nodeid }] } : State).Accounted [] [] := by
  have hrefs : ∀ r, State.refs r { s with brokers := s.brokers ++ [{ nodeid := nodeid }] } =
      s.refs r := by
    intro r
    simp [State.refs, State.slots, Broker.refs, Broker.bufRefs, Broker.bufs]
  have hweight : ∀ w, State.weight w { s with brokers := s.brokers ++ [{ nodeid := nodeid }] } =
      s.weight w := by
    intro w
    simp [State.weight, Broker.weight, Broker.bufs]
  refine ⟨fun r rktp hr => ?_, fun r hr => ?_, h.slots, fun w => ?_, ?_, ?_, h.ids, h.sized,
    h.called⟩
  · obtain ⟨hrefcnt, hfreed, hrkt, hleader, hlisted⟩ := h.toppar r rktp hr
    rw [← hrefs] at hrefcnt hfreed
    refine ⟨hrefcnt, hfreed, hrkt, fun b hb => ?_, fun b rkb hb => ?_⟩
    · have := hleader b hb
      simp only [List.length_append]
      omega
    · -- the new broker lists nothing and leads nothing
      rcases Nat.lt_trichotomy b s.brokers.length with hlt | heq | hgt
      · exact hlisted b rkb (by rwa [List.getElem?_append_left hlt] at hb)
      · rw [List.getElem?_append_right heq.ge, heq] at hb
        simp only [Nat.sub_self, List.getElem?_cons_zero, Option.some_inj] at hb
        have hnot : ¬ rktp.leader = some b := fun hl => by
          have := hleader b hl
          omega
        rw [← hb, if_neg hnot]
        rfl
      · rw [List.getElem?_eq_none (by simp; omega)] at hb
        cases hb
  · exact h.range r (by rwa [hrefs] at hr)
  · rw [hweight]
    exact h.conserve w
  · rw [hweight]
    exact h.counted
  · rw [hweight]
    exact h.bounded

theorem Accounted.pollTake (h : s.Accounted [] []) :
    ({ s with localq := s.localq ++ s.rep, rep := [] } : State).Accounted [] [] := by
  have hweight : ∀ w, State.weight w { s with localq := s.localq ++ s.rep, rep := [] } =
      s.weight w := by
    intro w
    simp only [State.weight, total_append, total_nil]
    omega
  refine h.of_same rfl rfl rfl rfl rfl (fun w => ?_) ?_ ?_ h.called
  · rw [hweight]
  · rw [hweight]
    exact h.counted
  · rw [hweight]
    exact h.bounded

theorem Accounted.pollServe (h : s.Accounted [] []) :
    Succeeds s.pollServe fun s' => s'.Accounted [] [] := by
  rw [State.pollServe]
  cases hq : s.localq with
  | nil => exact Succeeds.some h
  | cons rko rest =>
    have hweight : ∀ w, s.weight w =
        State.weight w { s with localq := rest } + total w rko.msgq.msgs := by
      intro w
      simp only [State.weight, hq, total_cons, Op.weight, Msgq.total_msgs]
      omega
    have hcounted := h.counted
    have hbounded := h.bounded
    rw [hweight] at hcounted hbounded
    have h₁ : ({ s with localq := rest } : State).Accounted [] (rko.msgq.msgs ++ []) := by
      refine h.of_same rfl rfl rfl rfl rfl (fun w => ?_) ?_ ?_ h.called
      · rw [hweight w]
        simp only [total_append, total_nil]
        omega
      · simpa using hcounted
      · simpa using hbounded
    exact (h₁.settleAll _).mono fun s' hs' => hs'.1

/-! ## Producing -/

/-- A call counts its message, and has room for it if the count is within
the limit. -/
theorem Accounted.msgNewCount (h : s.Accounted [] []) {t : ℕ} (ht : t < s.topics.length)
    (partition : ℤ) (payload : List UInt8) (key : Option (List UInt8)) :
    (s.msgNewCount t partition payload key).Accounted [] [] := by
  have hcounted := h.counted
  have hbounded := h.bounded
  simp only [total_nil, add_zero] at hcounted hbounded
  refine h.of_same rfl rfl rfl rfl rfl (fun w => rfl) ?_ ?_ ?_
  · change s.msgCnt + 1 = ((s.weight (fun _ => 1) + 0 + (s.calls ++ [_]).length : ℕ) : ℤ)
    rw [List.length_append, List.length_singleton]
    omega
  · change s.weight (fun _ => 1) + 0 + total Call.room (s.calls ++ [_]) ≤
      s.conf.queueBufferingMaxMsgs
    have hroom : total Call.room s.calls ≤ s.calls.length := by
      rw [← total_one s.calls]
      exact total_le_total fun call _ => by
        rw [Call.room]
        split <;> omega
    rw [total_append, total_cons, total_nil, Call.room]
    split
    case isTrue hadmitted =>
      have := of_decide_eq_true hadmitted
      omega
    case isFalse => omega
  · intro call hcall
    rcases List.mem_append.1 hcall with hcall | hcall
    · exact h.called call hcall
    · obtain rfl := List.mem_singleton.1 hcall
      exact ht

/-- A call that fails gives back what it counted. -/
theorem Accounted.refuseCall (h : s.Accounted [] []) {i : ℕ} {call : Call}
    (hi : s.calls[i]? = some call) :
    ({ s with calls := s.calls.eraseIdx i, msgCnt := s.msgCnt - 1 } : State).Accounted [] [] := by
  have hcounted := h.counted
  have hbounded := h.bounded
  have hroom := total_eraseIdx (w := Call.room) hi
  have hlen := total_eraseIdx (w := fun _ : Call => 1) hi
  rw [total_one, total_one] at hlen
  refine h.of_same rfl rfl rfl rfl rfl (fun w => rfl) ?_ ?_ fun call' hcall' =>
    h.called call' (List.mem_of_mem_eraseIdx hcall')
  · change s.msgCnt - 1 = ((s.weight _ + _ + (s.calls.eraseIdx i).length : ℕ) : ℤ)
    omega
  · change s.weight _ + _ + total Call.room (s.calls.eraseIdx i) ≤ s.conf.queueBufferingMaxMsgs
    omega

/-- A call within the limit makes its message. -/
theorem Accounted.createMsg (h : s.Accounted [] []) {i : ℕ} {call : Call}
    (hi : s.calls[i]? = some call) (hadmitted : call.admitted = true) (rkm : Msg)
    (hid : rkm.id = s.created.length) (hsize : rkm.len + rkm.keylen ≤ s.conf.maxMsgSize) :
    ({ s with calls := s.calls.eraseIdx i, created := s.created ++ [rkm] } : State).Accounted
      [] [rkm] := by
  have hcounted := h.counted
  have hbounded := h.bounded
  have hroom := total_eraseIdx (w := Call.room) hi
  rw [Call.room, if_pos hadmitted] at hroom
  have hlen := total_eraseIdx (w := fun _ : Call => 1) hi
  rw [total_one, total_one] at hlen
  refine ⟨fun r rktp hr => ?_, h.range, h.slots, fun w => ?_, ?_, ?_, ?_, ?_,
    fun call' hcall' => h.called call' (List.mem_of_mem_eraseIdx hcall')⟩
  · obtain ⟨hrefcnt, hfreed, hrkt, hleader, hlisted⟩ := h.toppar r rktp hr
    exact ⟨hrefcnt, hfreed, hrkt, hleader, hlisted⟩
  · have := h.conserve w
    simp only [total_append, total_cons, total_nil] at *
    change _ = s.weight w + _ + _
    omega
  · change s.msgCnt = ((s.weight (fun _ => 1) + (1 + 0) + (s.calls.eraseIdx i).length : ℕ) : ℤ)
    simp only [total_nil] at hcounted
    omega
  · change s.weight (fun _ => 1) + (1 + 0) + total Call.room (s.calls.eraseIdx i) ≤
      s.conf.queueBufferingMaxMsgs
    simp only [total_nil] at hbounded
    omega
  · simp only [List.map_append, List.map_cons, List.map_nil, List.length_append, List.length_cons,
      List.length_nil, h.ids, hid, List.range_succ]
  · intro m hm
    rcases List.mem_append.1 hm with hm | hm
    · exact h.sized m hm
    · obtain rfl := List.mem_singleton.1 hm
      exact hsize

/-- **`rd_kafka_produce` keeps the books.** -/
theorem Accounted.msgNewFinish (h : s.Accounted [] []) (i : ℕ) (partitioner : Msg → ℤ) (now : ℤ) :
    Succeeds (s.msgNewFinish i partitioner now) fun s' => s'.Accounted [] [] := by
  rw [State.msgNewFinish]
  cases hi : s.calls[i]? with
  | none => exact Succeeds.some h
  | some call =>
    dsimp only
    refine Succeeds.ite (fun hadmitted => ?_) fun _ => Succeeds.some (h.refuseCall hi)
    obtain ⟨rkt, ht⟩ : ∃ rkt, s.topics[call.topic]? = some rkt :=
      ⟨_, List.getElem?_eq_getElem (h.called call (List.mem_of_getElem? hi))⟩
    rw [State.msgNewAdmitted, ht]
    simp only [Option.bind_eq_bind, Option.bind_some]
    refine Succeeds.ite (fun _ => Succeeds.some (h.refuseCall hi)) fun hsize => ?_
    have h₁ := h.createMsg hi hadmitted ⟨s.created.length, call.partition, call.payload,
      call.key, rkt.conf.tsTimeout now⟩ rfl (not_lt.1 hsize)
    refine Succeeds.bind (h₁.msgPartitioner ht partitioner) ?_
    rintro ⟨err, s₂⟩ ⟨h₂, _, _⟩
    dsimp only at h₂ ⊢
    refine Succeeds.ite (fun herr => Succeeds.some ?_) fun herr => ?_
    · rwa [if_pos herr] at h₂
    · rw [if_neg herr] at h₂
      exact (Accounted.settle h₂ _).mono fun s' hs' => hs'.1

end State

/-! ## Steps and runs -/

/-- Metadata numbers the partitions of a topic from zero. -/
def Action.WellFormed : Action → Prop
  | .metadataUpdate _ _ partitions _ =>
    ∀ mdp ∈ partitions, -1 ≤ mdp.id ∧ mdp.id < partitions.length
  | _ => True

theorem Broker.Purged.tmpq_eq {rkb : Broker} (h : rkb.Purged) :
    rkb.failing.elim [] Failing.tmpq = [] := by
  rw [Broker.Purged] at h
  cases hfailing : rkb.failing with
  | none => rfl
  | some failing => simpa [hfailing] using h

namespace State

variable {s : State}

theorem Accounted.broker (h : s.Accounted [] []) (b : ℕ) (p : Broker → Prop) [DecidablePred p]
    {f : Broker → Option State}
    (hf : ∀ rkb, s.brokers[b]? = some rkb → p rkb →
      Succeeds (f rkb) fun s' => s'.Accounted [] []) :
    Succeeds (s.broker b p f) fun s' => s'.Accounted [] [] := by
  rw [State.broker]
  cases hb : s.brokers[b]? with
  | none => exact Succeeds.some h
  | some rkb => exact Succeeds.ite (hf rkb hb) fun _ => Succeeds.some h

/-- A change of the state of a broker's thread. -/
theorem Accounted.setBroker (h : s.Accounted [] []) {b : ℕ} {rkb : Broker}
    (hb : s.brokers[b]? = some rkb) (f : Broker → Broker)
    (htoppars : (f rkb).toppars = rkb.toppars) (hbufs : (f rkb).bufs = rkb.bufs)
    (hisr : (f rkb).isrfailed = rkb.isrfailed) (htimedout : (f rkb).timedout = rkb.timedout) :
    (s.modifyBroker b f).Accounted [] [] :=
  h.modifyBroker hb f htoppars (fun r => by rw [Broker.bufRefs, Broker.bufRefs, hbufs])
    fun w => by rw [Broker.weight, Broker.weight, hbufs, hisr, htimedout]

/-- **Every step succeeds and keeps the books.** -/
theorem Accounted.step (h : s.Accounted [] []) {a : Action} (ha : a.WellFormed) :
    Succeeds (s.step a) fun s' => s'.Accounted [] [] := by
  cases a with
  | topicNew name conf => exact Succeeds.some (h.topicNew name conf)
  | brokersAdd => exact Succeeds.some (h.addBroker _)
  | brokerUpdate nodeid =>
    refine Succeeds.some ?_
    rw [brokerUpdate]
    split
    · exact h
    · exact h.addBroker _
  | connect b =>
    exact h.broker b _ fun rkb hb _ => Succeeds.some (h.setBroker hb _ rfl rfl rfl rfl)
  | produce t partition payload key =>
    exact Succeeds.ite (fun ht => Succeeds.some (h.msgNewCount ht partition payload key))
      fun _ => Succeeds.some h
  | produceFinish i partitioner now => exact h.msgNewFinish i partitioner now
  | metadataNone t partitioner => exact h.metadataNone t partitioner
  | metadataUpdate t err partitions partitioner => exact h.metadataUpdate t err ha partitioner
  | metadataExpire t => exact Succeeds.some (h.setState t .unknown)
  | scanToppar t partition now => exact h.scanToppar t partition now
  | scanReport => exact h.scanReport
  | serveToppar b r now doTimeoutScan =>
    exact h.broker b _ fun rkb hb hserving => h.serveToppar hb hserving.2.2 now doTimeoutScan
  | serveReport b => exact h.broker b _ fun rkb hb _ => h.serveReport hb
  | retryBufsMove b now =>
    exact h.broker b _ fun rkb hb _ => Succeeds.some (h.retryBufsMove hb now)
  | send b now => exact h.broker b _ fun rkb hb _ => h.sendFirst hb now
  | response b corrid err now =>
    exact h.broker b _ fun rkb hb _ => h.reqResponse hb corrid err now
  | requestTimeout b i now => exact h.broker b _ fun rkb hb _ => h.waitrespTimeout hb i now
  | fail b err =>
    exact h.broker b _ fun rkb hb hidle => Succeeds.some (h.failBegin hb hidle.1 err)
  | failPurge b now =>
    refine h.broker b _ fun rkb hb _ => ?_
    cases hfailing : rkb.failing with
    | none => exact Succeeds.some h
    | some failing => exact h.failPurge hb hfailing now
  | failUndelegate b => exact h.broker b _ fun rkb hb _ => h.failUndelegate hb
  | failDone b =>
    refine h.broker b _ fun rkb hb hpurged => Succeeds.some (h.setBroker hb _ rfl ?_ rfl rfl)
    simp [Broker.bufs, hpurged.1.tmpq_eq]
  | pollTake => exact Succeeds.some h.pollTake
  | pollServe => exact h.pollServe

theorem accounted_new (conf : Conf) : (new conf).Accounted [] [] where
  toppar := by simp [new]
  range := by simp [new, refs, slots]
  slots := by simp [new, slots]
  conserve w := rfl
  counted := rfl
  bounded := Nat.zero_le _
  ids := rfl
  sized := by simp [new]
  called := by simp [new]

/-- **Every run succeeds and keeps the books.** -/
theorem run_accounted (conf : Conf) {actions : List Action} (h : ∀ a ∈ actions, a.WellFormed) :
    Succeeds ((new conf).run actions) fun s => s.Accounted [] [] := by
  refine Succeeds.foldlM (fun rest s => s.Accounted [] [] ∧ ∀ a ∈ rest, a.WellFormed)
    ?_ ⟨accounted_new conf, h⟩ |>.mono fun s hs => hs.1
  rintro a rest s ⟨hs, hrest⟩
  exact (hs.step (hrest a List.mem_cons_self)).mono fun s' hs' =>
    ⟨hs', fun a' ha' => hrest a' (List.mem_cons_of_mem a ha')⟩

/-! ## What follows for messages -/

/-- The messages that have a place: in the queues of partitions, in the
requests and the local queues of the threads of brokers, in delivery
reports that were not served, and in the hands of the main thread. -/
def messages (s : State) : List Msg :=
  s.toppars.flatMap (fun rktp => rktp.msgq.msgs ++ rktp.xmitMsgq.msgs) ++
    s.brokers.flatMap (fun rkb => rkb.bufs.flatMap (fun rkbuf => rkbuf.msgq.msgs) ++
      rkb.isrfailed.msgs ++ rkb.timedout.msgs) ++
    (s.rep ++ s.localq).flatMap (fun rko => rko.msgq.msgs) ++ s.timedout.msgs

theorem total_messages (s : State) (w : Msg → ℕ) : total w s.messages = s.weight w := by
  simp only [messages, total_append, total_flatMap, weight]
  change total (Toppar.weight w) s.toppars + total (Broker.weight w) s.brokers +
    (total (Op.weight w) s.rep + total (Op.weight w) s.localq) + s.timedout.weight w = _
  omega

theorem Accounted.nodup_created (h : s.Accounted [] []) : s.created.Nodup := by
  have hids : (s.created.map Msg.id).Nodup := h.ids ▸ List.nodup_range
  exact hids.of_map

/-- A producer that sends each message in a request of its own. -/
def smallConf : Conf where
  maxMsgSize := 4000000
  queueBufferingMaxMsgs := 10
  bufferingMaxMs := 1000
  maxRetries := 0
  retryBackoffMs := 100
  batchNumMessages := 1
  drCb := true
  maxMsgSize_le := by decide
  batchNumMessages_pos := by decide

/-- A topic with one partition, the reference `1`, and its leader. -/
def setUp : List Action :=
  [.topicNew [116] ⟨1, 0, 300000⟩, .brokerUpdate 7, .connect 0,
    .metadataUpdate 0 .noError [⟨0, 7, 1⟩] fun _ => 0]

/-- Two messages for the partition. -/
def produceTwo : List Action :=
  [.produce 0 0 [104] none, .produce 0 (-1) [105] none, .produceFinish 0 (fun _ => 0) 0,
    .produceFinish 0 (fun _ => 0) 1]

/-- Both messages are sent, confirmed and reported. -/
def deliverTwo : List Action :=
  [.serveToppar 0 1 2000000 false, .send 0 2000001, .send 0 2000002,
    .response 0 2 .noError 2000003, .response 0 1 .noError 2000004, .pollTake, .pollServe,
    .pollServe]

theorem wellFormed_example : ∀ a ∈ setUp ++ produceTwo ++ deliverTwo, a.WellFormed := by
  simp [setUp, produceTwo, deliverTwo, Action.WellFormed]

end State

end Kafka

end Xpod
