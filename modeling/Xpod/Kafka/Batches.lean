import Mathlib.Tactic
import Xpod.Kafka.Operations
/-!
# Requests

What is in the transmit queue of a partition is cut into requests. Each
holds as many messages as the limits allow, the first message always fits,
and together the requests hold the queue in its order.
-/

namespace Xpod

namespace Kafka

open Weights

/-! ## Queues -/

theorem Msgq.ext_msgs {rkmq rkmq' : Msgq} (h : rkmq.msgs = rkmq'.msgs) : rkmq = rkmq' := by
  refine Msgq.ext h ?_ ?_
  · rw [rkmq.cnt_eq, rkmq'.cnt_eq, h]
  · rw [rkmq.bytes_eq, rkmq'.bytes_eq, h]

theorem Msgq.eq_init_iff {rkmq : Msgq} : rkmq = .init ↔ rkmq.msgs = [] :=
  ⟨fun h => h ▸ rfl, fun h => Msgq.ext_msgs h⟩

theorem Msgq.msgCnt_eq_zero_iff {rkmq : Msgq} : rkmq.msgCnt = 0 ↔ rkmq.msgs = [] := by
  rw [rkmq.cnt_eq, List.length_eq_zero_iff]

/-- The counters allow the first message to be taken. -/
theorem Msgq.deq_first {rkmq : Msgq} {rkm : Msg} {rest : List Msg} (h : rkmq.msgs = rkm :: rest) :
    Succeeds (rkmq.deq rkm) fun rkmq' => rkmq'.msgs = rest := by
  have hmem : rkm ∈ rkmq.msgs := h ▸ List.mem_cons_self
  have hcnt : 0 < rkmq.msgCnt ∧ rkm.len ≤ rkmq.msgBytes := by
    rw [rkmq.cnt_eq, rkmq.bytes_eq, h]
    simp
  refine Succeeds.of_eq (by rw [Msgq.deq, dif_pos hmem, if_pos hcnt]) ?_
  simp only [h, List.erase_cons_head]

theorem Msgq.ageScanLoop_spec (now : ℤ) {msgs : List Msg} {rkmq timedout : Msgq}
    (h : rkmq.msgs = msgs) :
    Succeeds (Msgq.ageScanLoop now msgs rkmq timedout) fun p =>
      p.1.msgs = msgs.dropWhile (fun rkm => rkm.tsTimeout ≤ now) ∧
        p.2.msgs = timedout.msgs ++ msgs.takeWhile (fun rkm => rkm.tsTimeout ≤ now) := by
  induction msgs generalizing rkmq timedout with
  | nil => exact Succeeds.some ⟨h, by simp⟩
  | cons rkm rest ih =>
    rw [Msgq.ageScanLoop]
    refine Succeeds.ite (fun hnow => Succeeds.some ?_) fun hnow => ?_
    · have hkeep : ¬ rkm.tsTimeout ≤ now := not_le.2 hnow
      exact ⟨by simp [h, hkeep], by simp [hkeep]⟩
    · have hgo : rkm.tsTimeout ≤ now := not_lt.1 hnow
      refine Succeeds.bind (Msgq.deq_first h) fun rkmq₁ h₁ => ?_
      refine (ih h₁).mono ?_
      rintro p ⟨hq, ht⟩
      exact ⟨by simp [hq, hgo], by simp [ht, Msgq.enq, hgo]⟩

/-- **The scan for timeouts** takes the messages in front that have timed
out, and no message behind one that has not. -/
theorem Msgq.ageScan_spec (rkmq timedout : Msgq) (now : ℤ) :
    Succeeds (rkmq.ageScan timedout now) fun p =>
      p.1.msgs = rkmq.msgs.dropWhile (fun rkm => rkm.tsTimeout ≤ now) ∧
        p.2.msgs = timedout.msgs ++ rkmq.msgs.takeWhile (fun rkm => rkm.tsTimeout ≤ now) :=
  Msgq.ageScanLoop_spec now rfl

/-! ## One request -/

/-- The messages fit into a `MessageSet` that has `size` bytes: with each
value the limit is not passed. Its header and its key are not counted. -/
def Fits (maxMsgSize : ℕ) : ℕ → List Msg → Prop
  | _, [] => True
  | size, rkm :: rest =>
    size + rkm.len ≤ maxMsgSize ∧ Fits maxMsgSize (size + rkm.setSize) rest

/-- The size of a `MessageSet`. -/
def setSize (msgs : List Msg) : ℕ := total Msg.setSize msgs

/-- The messages of one request, `n` at most, and those that are left. -/
structure IsBatch (maxMsgSize n size : ℕ) (batch left : List Msg) : Prop where
  length_le : batch.length ≤ n
  fits : Fits maxMsgSize size batch
  /-- one more would be too many or too large -/
  maximal : ∀ rkm rest, left = rkm :: rest →
    batch.length = n ∨ ¬ Fits maxMsgSize size (batch ++ [rkm])

theorem State.batchLoop_spec (maxMsgSize n size : ℕ) (xmit rkmq : Msgq) :
    Succeeds (State.batchLoop maxMsgSize n size xmit rkmq) fun p =>
      ∃ batch, xmit.msgs = batch ++ p.1.msgs ∧ p.2.msgs = rkmq.msgs ++ batch ∧
        IsBatch maxMsgSize n size batch p.1.msgs := by
  induction n generalizing size xmit rkmq with
  | zero => exact Succeeds.some ⟨[], rfl, by simp, by simp, trivial, fun _ _ _ => .inl rfl⟩
  | succ n ih =>
    rw [State.batchLoop]
    cases hx : xmit.msgs with
    | nil =>
      exact Succeeds.some ⟨[], by simp [hx], by simp, by simp, trivial, by simp [hx]⟩
    | cons rkm rest =>
      refine Succeeds.ite (fun hlarge => ?_) fun hfits => ?_
      · refine Succeeds.some ⟨[], by simp [hx], by simp, by simp, trivial, fun m ms hm => .inr ?_⟩
        obtain ⟨rfl, -⟩ := List.cons_eq_cons.1 (hx ▸ hm)
        simp only [List.nil_append, Fits, and_true]
        omega
      · refine Succeeds.bind (Msgq.deq_first hx) fun xmit₁ hx₁ => ?_
        refine (ih (size + rkm.setSize) xmit₁ (rkmq.enq rkm)).mono ?_
        rintro p ⟨batch, hsplit, hbatch, hlen, hfit, hmax⟩
        refine ⟨rkm :: batch, by rw [← hx₁, hsplit]; rfl, by simp [hbatch, Msgq.enq], ?_,
          ⟨by omega, hfit⟩, fun m ms hm => ?_⟩
        · simp only [List.length_cons]
          omega
        · rcases hmax m ms hm with hn | hnot
          · left
            simp only [List.length_cons]
            omega
          · right
            exact fun hall => hnot hall.2

theorem Fits.setSize_le {maxMsgSize size : ℕ} {msgs : List Msg} (h : Fits maxMsgSize size msgs)
    (hsize : size ≤ 2 * maxMsgSize + 26)
    (hlen : ∀ rkm ∈ msgs, rkm.len + rkm.keylen ≤ maxMsgSize) :
    size + setSize msgs ≤ 2 * maxMsgSize + 26 := by
  induction msgs generalizing size with
  | nil => simpa [setSize] using hsize
  | cons rkm rest ih =>
    have hrkm := hlen rkm List.mem_cons_self
    have hsize' : size + rkm.setSize ≤ 2 * maxMsgSize + 26 := by
      have := h.1
      rw [Msg.setSize]
      omega
    have := ih h.2 hsize' fun m hm => hlen m (List.mem_cons_of_mem _ hm)
    simp only [setSize, total_cons] at *
    omega

/-- The bound on the messages of a request is positive for a queue that is
not empty, and it is no more than the configured one. -/
theorem State.msgcnt_pos {conf : Conf} {n : ℕ} (h : 0 < n) : 0 < State.msgcnt conf n := by
  have := conf.batchNumMessages_pos
  have hiov : State.payloadIovMax = 1022 := rfl
  simp only [State.msgcnt]
  by_cases hlarge : State.payloadIovMax < 3 + 4 * min n conf.batchNumMessages
  · rw [if_pos hlarge]
    omega
  · rw [if_neg hlarge]
    omega

theorem State.msgcnt_le (conf : Conf) (n : ℕ) :
    State.msgcnt conf n ≤ conf.batchNumMessages ∧ 3 + 4 * State.msgcnt conf n ≤ payloadIovMax := by
  have hiov : State.payloadIovMax = 1022 := rfl
  simp only [State.msgcnt]
  by_cases hlarge : State.payloadIovMax < 3 + 4 * min n conf.batchNumMessages
  · rw [if_pos hlarge]
    omega
  · rw [if_neg hlarge]
    omega

namespace State

variable {s s' : State} {held : List ℕ} {inHand : List Msg} {r t b : ℕ}

/-- A message that is queued was created. -/
theorem Accounted.mem_created (h : s.Accounted held inHand) {rkm : Msg}
    (hrkm : 0 < s.weight fun m => if m = rkm then 1 else 0) : rkm ∈ s.created := by
  have := h.conserve fun m => if m = rkm then 1 else 0
  rw [total_indicator] at this
  exact List.count_pos_iff.1 (by omega)

theorem Accounted.mem_created_of_xmit (h : s.Accounted held inHand) {rktp : Toppar}
    (hget : s.toppars[r]? = some rktp) {rkm : Msg} (hrkm : rkm ∈ rktp.xmitMsgq.msgs) :
    rkm ∈ s.created := by
  refine h.mem_created ?_
  have hle : rktp.weight (fun m => if m = rkm then 1 else 0) ≤
      total (Toppar.weight fun m => if m = rkm then 1 else 0) s.toppars := le_total hget
  have hpos : 0 < rktp.xmitMsgq.weight fun m => if m = rkm then 1 else 0 := by
    rw [Msgq.weight, total_indicator]
    exact List.count_pos_iff.2 hrkm
  simp only [Toppar.weight, State.weight] at *
  omega

/-- Requests are added to those of a broker, and refer to a partition whose
transmit queue is now `xmit`. -/
def addRequests (s : State) (b r : ℕ) (xmit : Msgq) (new : List Buf) : State :=
  (s.modifyToppar r fun rktp =>
    { rktp with xmitMsgq := xmit, refcnt := rktp.refcnt + new.length }).modifyBroker b fun rkb =>
    { rkb with corrid := rkb.corrid + UInt32.ofNat new.length, outbufs := rkb.outbufs ++ new }

theorem modifyToppar_eq_self {rktp : Toppar} (hget : s.toppars[r]? = some rktp)
    {f : Toppar → Toppar} (hf : f rktp = rktp) : s.modifyToppar r f = s := by
  have hsame : s.toppars.modify r f = s.toppars := by
    refine List.ext_getElem? fun i => ?_
    rw [List.getElem?_modify]
    by_cases hi : r = i
    · subst hi
      simp [hget, hf]
    · simp [hi]
  rw [modifyToppar, hsame]

theorem modifyBroker_congr {rkb : Broker} (hb : s.brokers[b]? = some rkb) {f g : Broker → Broker}
    (h : f rkb = g rkb) : s.modifyBroker b f = s.modifyBroker b g := by
  have hsame : s.brokers.modify b f = s.brokers.modify b g := by
    refine List.ext_getElem? fun i => ?_
    rw [List.getElem?_modify, List.getElem?_modify]
    by_cases hi : b = i
    · subst hi
      simp [hb, h]
    · simp [hi]
  rw [modifyBroker, modifyBroker, hsame]

theorem modifyBroker_eq_self {f : Broker → Broker} (hf : ∀ rkb, f rkb = rkb) :
    s.modifyBroker b f = s := by
  have hid : f = id := funext hf
  rw [modifyBroker, hid, List.modify_id]

theorem addRequests_nil {rktp : Toppar} (hget : s.toppars[r]? = some rktp) :
    s.addRequests b r rktp.xmitMsgq [] = s := by
  rw [addRequests, modifyBroker_eq_self (fun rkb => by simp)]
  exact modifyToppar_eq_self hget (by simp)

theorem addRequests_init_nil {rktp : Toppar} (hget : s.toppars[r]? = some rktp)
    (hnil : rktp.xmitMsgq.msgs = []) : s = s.addRequests b r .init [] := by
  rw [← Msgq.eq_init_iff.2 hnil, addRequests_nil hget]

theorem refs_le_addRequests {rkb : Broker} (hb : s.brokers[b]? = some rkb) (xmit : Msgq)
    (new : List Buf) (x : ℕ) : s.refs x ≤ (s.addRequests b r xmit new).refs x := by
  have hx := refs_modifyBroker (s := s.modifyToppar r fun rktp =>
    { rktp with xmitMsgq := xmit, refcnt := rktp.refcnt + new.length }) hb (fun rkb =>
    { rkb with corrid := rkb.corrid + UInt32.ofNat new.length, outbufs := rkb.outbufs ++ new }) x
  simp only [Broker.refs, Broker.bufRefs, Broker.bufs, total_append] at hx
  change _ = s.refs x + _ at hx
  rw [addRequests]
  omega

theorem addRequests_addRequests (xmit xmit' : Msgq) (new new' : List Buf) :
    (s.addRequests b r xmit new).addRequests b r xmit' new' =
      s.addRequests b r xmit' (new ++ new') := by
  simp only [addRequests, modifyToppar, modifyBroker, List.modify_modify_eq, Function.comp_def,
    List.append_assoc, List.length_append, UInt32.ofNat_add, Nat.cast_add, add_assoc,
    UInt32.add_assoc]

/-- **New requests keep the books**: they hold what left the transmit
queue. -/
theorem Accounted.addRequests (h : s.Accounted held inHand) {rktp : Toppar} {rkb : Broker}
    (hr : 0 < s.refs r + held.count r)
    (hget : s.toppars[r]? = some rktp) (hb : s.brokers[b]? = some rkb) {xmit : Msgq}
    {new : List Buf} (hnew : ∀ rkbuf ∈ new, rkbuf.rktp = r)
    (hmsgs : rktp.xmitMsgq.msgs = new.flatMap (fun rkbuf => rkbuf.msgq.msgs) ++ xmit.msgs) :
    (s.addRequests b r xmit new).Accounted held inHand := by
  have htotal : ∀ w, total (Buf.weight w) new =
      total w (new.flatMap fun rkbuf => rkbuf.msgq.msgs) := by
    intro w
    clear hmsgs hnew
    induction new with
    | nil => rfl
    | cons rkbuf new ih => simp [ih, Buf.weight, Msgq.weight]
  have hok := h.toppar r rktp hget
  -- the requests are in hand, with a reference for each
  have h₁ : (s.modifyToppar r fun rktp =>
      { rktp with xmitMsgq := xmit, refcnt := rktp.refcnt + new.length }).Accounted
      (List.replicate new.length r ++ held)
      (new.flatMap (fun rkbuf => rkbuf.msgq.msgs) ++ inHand) := by
    refine h.modifyToppar hget _ (fun x hx => ?_) ?_ ?_ rfl rfl fun w => ?_
    · rw [List.count_append, List.count_replicate, if_neg (by simpa using Ne.symm hx), zero_add]
    · rw [List.count_append, List.count_replicate_self]
      simp only [hok.refcnt]
      push_cast
      ring
    · rw [List.count_append]
      simp only [hok.freed]
      omega
    · simp only [Toppar.weight, Msgq.weight, hmsgs, total_append]
      omega
  refine h₁.modifyBroker hb _ rfl (fun x => ?_) fun w => ?_
  · have hcount : total (fun rkbuf : Buf => if rkbuf.rktp = x then 1 else 0) new =
        (List.replicate new.length r).count x := by
      have hsame : ∀ rkbuf ∈ new,
          (if rkbuf.rktp = x then 1 else 0) = if r = x then 1 else 0 := by
        intro rkbuf hrkbuf
        rw [hnew rkbuf hrkbuf]
      rw [total_congr hsame, List.count_replicate]
      simp [total]
    simp only [Broker.bufRefs, Broker.bufs, total_append, List.count_append, hcount]
    omega
  · simp only [Broker.weight, Broker.bufs, total_append, htotal]
    omega

/-- What holds of the requests that are made for the partition `r`. -/
structure IsRequest (s : State) (r : ℕ) (rktp : Toppar) (rkbuf : Buf) : Prop where
  rktp_eq : rkbuf.rktp = r
  ne_nil : rkbuf.msgq.msgs ≠ []
  length_le : rkbuf.msgq.msgs.length ≤ s.conf.batchNumMessages
  iov_le : 3 + 4 * rkbuf.msgq.msgs.length ≤ payloadIovMax
  fits : Fits s.conf.maxMsgSize 0 rkbuf.msgq.msgs
  noResponse : ∀ rkt, s.topics[rktp.rkt]? = some rkt →
    (rkbuf.noResponse = true ↔ rkt.conf.requiredAcks = 0)

/-- **One request is made of a transmit queue that is not empty.** The
first message always fits. -/
theorem Accounted.produceToppar (h : s.Accounted held inHand) {rktp : Toppar} {rkb : Broker}
    (hr : 0 < s.refs r + held.count r) (hget : s.toppars[r]? = some rktp)
    (hb : s.brokers[b]? = some rkb) (hne : rktp.xmitMsgq.msgs ≠ []) :
    Succeeds (s.produceToppar b r) fun p =>
      p.1 = true ∧ ∃ rkbuf xmit, p.2 = s.addRequests b r xmit [rkbuf] ∧
        s.IsRequest r rktp rkbuf ∧ rktp.xmitMsgq.msgs = rkbuf.msgq.msgs ++ xmit.msgs := by
  obtain ⟨rktp', hrktp, hget'⟩ := h.toppar_eq hr
  obtain rfl : rktp' = rktp := Option.some.inj (hget'.symm.trans hget)
  have hok := h.toppar r rktp' hget
  obtain ⟨rkt, hrkt⟩ : ∃ rkt, s.topics[rktp'.rkt]? = some rkt :=
    ⟨_, List.getElem?_eq_getElem hok.rkt⟩
  have hcnt : 0 < rktp'.xmitMsgq.msgCnt := by
    rw [rktp'.xmitMsgq.cnt_eq]
    exact List.length_pos_iff.2 hne
  have hmin : ¬ min rktp'.xmitMsgq.msgCnt s.conf.batchNumMessages = 0 := by
    have := s.conf.batchNumMessages_pos
    omega
  rw [State.produceToppar, hrktp]
  simp only [Option.bind_eq_bind, Option.bind_some]
  rw [hrkt]
  simp only [Option.bind_some]
  rw [if_neg hmin]
  refine Succeeds.bind (batchLoop_spec _ _ _ _ _) ?_
  rintro ⟨xmit, rkmq⟩ ⟨batch, hsplit, hrkmq, hbatch⟩
  dsimp only at hsplit hrkmq hbatch ⊢
  obtain rfl : rkmq.msgs = batch := by simpa [Msgq.init] using hrkmq
  -- the first message of the queue is within the limit, so the batch has it
  have hbne : rkmq.msgs ≠ [] := by
    intro hnil
    rw [hnil, List.nil_append] at hsplit
    obtain ⟨first, rest, hfirst⟩ := List.exists_cons_of_ne_nil hne
    have hsized := h.sized first (h.mem_created_of_xmit hget (hfirst ▸ List.mem_cons_self))
    rcases hbatch.maximal first rest (hsplit ▸ hfirst) with hfull | hlarge
    · have : 0 < msgcnt s.conf rktp'.xmitMsgq.msgCnt := msgcnt_pos hcnt
      rw [hnil, List.length_nil] at hfull
      omega
    · rw [hnil] at hlarge
      exact hlarge ⟨by omega, trivial⟩
  obtain ⟨first, rest, hfirst⟩ := List.exists_cons_of_ne_nil hbne
  rw [hfirst]
  dsimp only
  have hkeep : (s.modifyToppar r fun rktp => { rktp with xmitMsgq := xmit }).topparKeep r =
      some ((s.modifyToppar r fun rktp => { rktp with xmitMsgq := xmit }).modifyToppar r
        fun rktp => { rktp with refcnt := rktp.refcnt + 1 }) := by
    rw [State.topparKeep,
      toppar_modifyToppar hrktp (fun rktp => { rktp with xmitMsgq := xmit }) rfl]
    rfl
  rw [hkeep]
  let rkbuf : Buf :=
    { corrid := rkb.corrid + 1
      rktp := r
      noResponse := rkt.conf.requiredAcks = 0
      tsTimeout := first.tsTimeout
      msgq := rkmq }
  refine Succeeds.some ⟨rfl, rkbuf, xmit, ?_, ⟨rfl, hbne, ?_, ?_, hbatch.fits, ?_⟩, hsplit⟩
  · rw [modifyToppar_modifyToppar, State.addRequests]
    exact modifyBroker_congr (s := s.modifyToppar r _) hb rfl
  · exact hbatch.length_le.trans (msgcnt_le s.conf _).1
  · change 3 + 4 * rkmq.msgs.length ≤ payloadIovMax
    have := (msgcnt_le s.conf rktp'.xmitMsgq.msgCnt).2
    have := hbatch.length_le
    omega
  · intro rkt' hrkt'
    obtain rfl := Option.some.inj (hrkt.symm.trans hrkt')
    simp [rkbuf]

/-- **The transmit queue is cut into requests**, in its order and to its
end. -/
theorem Accounted.produceLoop (h : s.Accounted held inHand) {rktp : Toppar} {rkb : Broker}
    (hr : 0 < s.refs r + held.count r) (hget : s.toppars[r]? = some rktp)
    (hb : s.brokers[b]? = some rkb) {fuel : ℕ} (hfuel : rktp.xmitMsgq.msgCnt ≤ fuel) :
    Succeeds (produceLoop b r fuel s) fun s' =>
      ∃ new, s' = s.addRequests b r .init new ∧ (∀ rkbuf ∈ new, s.IsRequest r rktp rkbuf) ∧
        rktp.xmitMsgq.msgs = new.flatMap fun rkbuf => rkbuf.msgq.msgs := by
  induction fuel generalizing s rktp rkb with
  | zero =>
    have hnil : rktp.xmitMsgq.msgs = [] := Msgq.msgCnt_eq_zero_iff.1 (by omega)
    exact Succeeds.some ⟨[], addRequests_init_nil hget hnil, by simp, hnil⟩
  | succ fuel ih =>
    obtain ⟨rktp', hrktp, hget'⟩ := h.toppar_eq hr
    obtain rfl : rktp' = rktp := Option.some.inj (hget'.symm.trans hget)
    rw [State.produceLoop, hrktp]
    simp only [Option.bind_eq_bind, Option.bind_some]
    refine Succeeds.ite (fun hcnt => ?_) fun hcnt => ?_
    · have hnil := Msgq.msgCnt_eq_zero_iff.1 hcnt
      exact Succeeds.some ⟨[], addRequests_init_nil hget hnil, by simp, hnil⟩
    · have hne : rktp'.xmitMsgq.msgs ≠ [] := fun hnil => hcnt (Msgq.msgCnt_eq_zero_iff.2 hnil)
      refine Succeeds.bind (h.produceToppar hr hget hb hne) ?_
      rintro ⟨made, s₁⟩ ⟨hmade, rkbuf, xmit, hs₁, hreq, hsplit⟩
      dsimp only at hmade hs₁ ⊢
      rw [if_pos hmade]
      have hsplit' : rktp'.xmitMsgq.msgs =
          [rkbuf].flatMap (fun rkbuf => rkbuf.msgq.msgs) ++ xmit.msgs := by
        simpa using hsplit
      have h₁ := h.addRequests hr hget hb (by simpa using hreq.rktp_eq) hsplit'
      rw [← hs₁] at h₁
      -- the state with one request more is like the one before
      have hget₁ : s₁.toppars[r]? =
          some { rktp' with xmitMsgq := xmit, refcnt := rktp'.refcnt + 1 } := by
        rw [hs₁]
        exact toppars_modifyToppar hget _
      obtain ⟨rkb₁, hb₁⟩ : ∃ rkb₁, s₁.brokers[b]? = some rkb₁ := by
        rw [hs₁]
        exact ⟨_, brokers_modifyBroker hb _⟩
      have hlt : xmit.msgCnt ≤ fuel := by
        have hlen := congrArg List.length hsplit
        have := List.length_pos_iff.2 hreq.ne_nil
        rw [List.length_append] at hlen
        rw [rktp'.xmitMsgq.cnt_eq] at hfuel
        rw [xmit.cnt_eq]
        omega
      have hr₁ : 0 < s₁.refs r + held.count r := by
        have := refs_le_addRequests (r := r) hb xmit [rkbuf] r
        rw [hs₁]
        omega
      refine (ih h₁ hr₁ hget₁ hb₁ hlt).mono ?_
      rintro s₂ ⟨new, hs₂, hnew, hmsgs⟩
      refine ⟨rkbuf :: new, ?_, fun rkbuf' hmem => ?_, ?_⟩
      · rw [hs₂, hs₁, addRequests_addRequests]
        rfl
      · rcases List.mem_cons.1 hmem with rfl | hmem
        · exact hreq
        · obtain ⟨hrktp', hne', hlen', hiov', hfits', hack'⟩ := hnew rkbuf' hmem
          rw [hs₁] at hlen' hfits' hack'
          exact ⟨hrktp', hne', hlen', hiov', hfits', hack'⟩
      · rw [hsplit, List.flatMap_cons, ← hmsgs]

/-- **A transmit queue is served** as a whole, or it waits for more
messages. -/
theorem Accounted.serveXmit (h : s.Accounted held inHand) {rktp : Toppar} {rkb : Broker}
    (hr : 0 < s.refs r + held.count r) (hget : s.toppars[r]? = some rktp)
    (hb : s.brokers[b]? = some rkb) (now : ℤ) :
    Succeeds (s.serveXmit b r now) fun s' =>
      s' = s ∧ (rktp.xmitMsgq.msgs ≠ [] →
        now < rktp.tsLastXmit + s.conf.bufferingMaxMs * 1000 ∧
          rktp.xmitMsgq.msgCnt < s.conf.batchNumMessages) ∨
      ∃ new, s' = (s.modifyToppar r fun rktp => { rktp with tsLastXmit := now }).addRequests b r
          .init new ∧ (∀ rkbuf ∈ new, s.IsRequest r rktp rkbuf) ∧
        rktp.xmitMsgq.msgs = new.flatMap fun rkbuf => rkbuf.msgq.msgs := by
  obtain ⟨rktp', hrktp, hget'⟩ := h.toppar_eq hr
  obtain rfl : rktp' = rktp := Option.some.inj (hget'.symm.trans hget)
  rw [State.serveXmit, hrktp]
  simp only [Option.bind_eq_bind, Option.bind_some]
  refine Succeeds.ite (fun hcnt => Succeeds.some (.inl ⟨rfl, fun hne =>
    absurd (Msgq.msgCnt_eq_zero_iff.1 hcnt) hne⟩)) fun _ => ?_
  refine Succeeds.ite (fun hwait => Succeeds.some (.inl ⟨rfl, fun _ => hwait⟩)) fun _ => ?_
  set s₁ := s.modifyToppar r fun rktp => { rktp with tsLastXmit := now } with hs₁
  have h₁ : s₁.Accounted held inHand := h.modifyQueues hget _ rfl rfl rfl rfl fun w => rfl
  have hget₁ : s₁.toppars[r]? = some { rktp' with tsLastXmit := now } := by
    rw [hs₁]
    exact toppars_modifyToppar hget _
  refine (h₁.produceLoop hr hget₁ hb le_rfl).mono ?_
  rintro s' ⟨new, hs', hnew, hmsgs⟩
  refine .inr ⟨new, hs', fun rkbuf hmem => ?_, hmsgs⟩
  obtain ⟨hrktp', hne', hlen', hiov', hfits', hack'⟩ := hnew rkbuf hmem
  exact ⟨hrktp', hne', hlen', hiov', hfits', hack'⟩

theorem Accounted.of_serveXmit (h : s.Accounted held inHand) {rktp : Toppar} {rkb : Broker}
    (hr : 0 < s.refs r + held.count r) (hget : s.toppars[r]? = some rktp)
    (hb : s.brokers[b]? = some rkb) (now : ℤ) :
    Succeeds (s.serveXmit b r now) fun s' => s'.Accounted held inHand := by
  refine (h.serveXmit hr hget hb now).mono fun s' hs' => ?_
  rcases hs' with ⟨rfl, -⟩ | ⟨new, rfl, hnew, hmsgs⟩
  · exact h
  · set s₁ := s.modifyToppar r fun rktp => { rktp with tsLastXmit := now } with hs₁
    have h₁ : s₁.Accounted held inHand := h.modifyQueues hget _ rfl rfl rfl rfl fun w => rfl
    have hget₁ : s₁.toppars[r]? = some { rktp with tsLastXmit := now } := by
      rw [hs₁]
      exact toppars_modifyToppar hget _
    exact h₁.addRequests hr hget₁ hb (fun rkbuf hmem => (hnew rkbuf hmem).rktp_eq)
      (by simpa [Msgq.init] using hmsgs)

end State

end Kafka

end Xpod
