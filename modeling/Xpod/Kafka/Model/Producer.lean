import Mathlib.Data.Int.Basic
import Mathlib.Tactic
/-!
# The producer of librdkafka

What `rd_kafka_produce` is given travels from the queue of a partition to
the transmit queue of its leader, into a request, and comes back as a
delivery report, while the application threads, one thread for each
broker and the main thread work on the queues at the same time. A step is
what one of them does under its locks. A failed `rd_kafka_assert` and the
use of a partition that was freed are the result `none`: the process is
lost.

Only produce requests are modelled, since no other request carries
messages; the consumer and the termination of the handle are not.
-/

namespace Xpod

namespace Kafka

/-- `rd_kafka_resp_err_t`: the codes that the producer tells apart. -/
inductive Err
  | noError
  | destroy
  | transport
  | badMsg
  | msgTimedOut
  | unknownPartition
  | unknownTopic
  | isrInsuff
  | msgSizeTooLarge
  | invalidMsg
  | invalidMsgSize
  | requestTimedOut
  | unknownTopicOrPart
  | other (code : ℤ)
deriving DecidableEq, Repr

/-! ## Messages and their queues -/

/-- `rd_kafka_msg_t`. The `id` stands for the address of the message. -/
structure Msg where
  id : ℕ
  partition : ℤ
  payload : List UInt8
  key : Option (List UInt8)
  tsTimeout : ℤ
deriving DecidableEq, Repr

namespace Msg

/-- `rkm_len` -/
def len (rkm : Msg) : ℕ := rkm.payload.length

/-- The length of the key; a message without a key has none. -/
def keylen (rkm : Msg) : ℕ := rkm.key.elim 0 List.length

/-- What a message adds to `MessageSetSize`: 18 bytes of header, the key
and the value with their lengths. -/
def setSize (rkm : Msg) : ℕ := 18 + (4 + rkm.keylen) + (4 + rkm.len)

end Msg

/-- `rd_kafka_msgq_t`: a queue with counters, which say what is in it. -/
@[ext]
structure Msgq where
  msgs : List Msg
  msgCnt : ℕ
  msgBytes : ℕ
  cnt_eq : msgCnt = msgs.length
  bytes_eq : msgBytes = (msgs.map Msg.len).sum
deriving DecidableEq, Repr

namespace Msgq

/-- `rd_kafka_msgq_init` -/
def init : Msgq := ⟨[], 0, 0, rfl, rfl⟩

/-- `rd_kafka_msgq_enq` -/
def enq (rkmq : Msgq) (rkm : Msg) : Msgq where
  msgs := rkmq.msgs ++ [rkm]
  msgCnt := rkmq.msgCnt + 1
  msgBytes := rkmq.msgBytes + rkm.len
  cnt_eq := by simp [rkmq.cnt_eq]
  bytes_eq := by simp [rkmq.bytes_eq]

/-- `rd_kafka_msgq_concat`: what becomes of `dst`; `src` is emptied. -/
def concat (dst src : Msgq) : Msgq where
  msgs := dst.msgs ++ src.msgs
  msgCnt := dst.msgCnt + src.msgCnt
  msgBytes := dst.msgBytes + src.msgBytes
  cnt_eq := by simp [dst.cnt_eq, src.cnt_eq]
  bytes_eq := by simp [dst.bytes_eq, src.bytes_eq]

theorem sum_len_erase {msgs : List Msg} {rkm : Msg} (h : rkm ∈ msgs) :
    ((msgs.erase rkm).map Msg.len).sum = (msgs.map Msg.len).sum - rkm.len := by
  have hsum := ((List.perm_cons_erase h).map Msg.len).sum_eq
  simp only [List.map_cons, List.sum_cons] at hsum
  omega

/-- `rd_kafka_msgq_deq` with `do_count`, of a message that is in the queue:
the counters must be large enough. -/
def deq (rkmq : Msgq) (rkm : Msg) : Option Msgq :=
  if h : rkm ∈ rkmq.msgs then
    if 0 < rkmq.msgCnt ∧ rkm.len ≤ rkmq.msgBytes then
      some
        { msgs := rkmq.msgs.erase rkm
          msgCnt := rkmq.msgCnt - 1
          msgBytes := rkmq.msgBytes - rkm.len
          cnt_eq := by rw [rkmq.cnt_eq, List.length_erase_of_mem h]
          bytes_eq := by rw [rkmq.bytes_eq, sum_len_erase h] }
    else none
  else none

/-- The loop of `rd_kafka_msgq_age_scan`. -/
def ageScanLoop (now : ℤ) : List Msg → Msgq → Msgq → Option (Msgq × Msgq)
  | [], rkmq, timedout => some (rkmq, timedout)
  | rkm :: rest, rkmq, timedout =>
    if now < rkm.tsTimeout then some (rkmq, timedout)
    else do
      let rkmq ← rkmq.deq rkm
      ageScanLoop now rest rkmq (timedout.enq rkm)

/-- `rd_kafka_msgq_age_scan`: the two queues after the scan. -/
def ageScan (rkmq timedout : Msgq) (now : ℤ) : Option (Msgq × Msgq) :=
  ageScanLoop now rkmq.msgs rkmq timedout

end Msgq

/-! ## Configuration -/

/-- `rd_kafka_conf_t`, with the ranges of `rdkafka_defaultconf.c` that the
producer relies on. -/
structure Conf where
  maxMsgSize : ℕ
  queueBufferingMaxMsgs : ℕ
  bufferingMaxMs : ℕ
  maxRetries : ℕ
  retryBackoffMs : ℕ
  batchNumMessages : ℕ
  /-- a `dr_cb` or a `dr_msg_cb` is set -/
  drCb : Bool
  maxMsgSize_le : maxMsgSize ≤ 1000000000
  batchNumMessages_pos : 0 < batchNumMessages

/-- `rd_kafka_topic_conf_t` -/
structure TopicConf where
  requiredAcks : ℤ
  enforceIsrCnt : ℤ
  messageTimeoutMs : ℕ
deriving DecidableEq, Repr

/-- `rkm_ts_timeout` of a new message; `INT64_MAX` stands for no timeout. -/
def TopicConf.tsTimeout (conf : TopicConf) (now : ℤ) : ℤ :=
  if conf.messageTimeoutMs = 0 then 2 ^ 63 - 1 else now + conf.messageTimeoutMs * 1000

/-! ## Partitions, topics, requests, brokers -/

/-- `rd_kafka_toppar_t`. `freed` says that the memory was given back. -/
structure Toppar where
  rkt : ℕ
  partition : ℤ
  leader : Option ℕ := none
  refcnt : ℤ
  msgq : Msgq := .init
  xmitMsgq : Msgq := .init
  tsLastXmit : ℤ := 0
  isrCnt : ℤ := 0
  freed : Bool := false

/-- `rkt_state` -/
inductive TopicState
  | unknown
  | exists
  | notExists
deriving DecidableEq, Repr

/-- `rd_kafka_topic_t`: the partitions are references to `Toppar`s. -/
structure Topic where
  name : List UInt8
  conf : TopicConf
  state : TopicState := .unknown
  ua : ℕ
  p : List ℕ := []

/-- `rd_kafka_buf_t` of a produce request. `rktp` is `rkbuf_opaque`. -/
structure Buf where
  corrid : UInt32
  rktp : ℕ
  noResponse : Bool
  retries : ℕ := 0
  tsTimeout : ℤ
  tsRetry : ℤ := 0
  msgq : Msgq

/-- `rkb_state` -/
inductive BrokerState
  | init
  | down
  | up
deriving DecidableEq, Repr

/-- `rd_kafka_broker_fail` while it runs: its error and `tmpq`. -/
structure Failing where
  err : Err
  tmpq : List Buf

/-- `rd_kafka_broker_t` and the local variables of its thread: `isrfailed`
and `timedout` of `rd_kafka_broker_producer_serve`. -/
structure Broker where
  nodeid : ℤ
  state : BrokerState := .init
  corrid : UInt32 := 0
  toppars : List ℕ := []
  outbufs : List Buf := []
  waitresps : List Buf := []
  retrybufs : List Buf := []
  isrfailed : Msgq := .init
  timedout : Msgq := .init
  failing : Option Failing := none

/-- A `RD_KAFKA_OP_DR` op. -/
structure Op where
  msgq : Msgq
  err : Err

/-- How the life of a message ended: `rd_kafka_produce` failed, the
delivery report callback was called, or there is no callback. -/
inductive Fate
  | refused (err : Err)
  | reported (err : Err)
  | dropped (err : Err)
deriving DecidableEq, Repr

/-- A call of `rd_kafka_produce` that has counted its message and not yet
returned. `admitted` says that the count was within the limit. -/
structure Call where
  topic : ℕ
  partition : ℤ
  payload : List UInt8
  key : Option (List UInt8)
  admitted : Bool

/-- `rd_kafka_t` and everything it refers to. `created` and `settled` are
not in the source: they list the messages that were ever created and what
became of those whose life is over. So is `wire`: the requests that were
sent, each with its broker. -/
structure State where
  conf : Conf
  msgCnt : ℤ := 0
  topics : List Topic := []
  toppars : List Toppar := []
  brokers : List Broker := []
  /-- `rk_rep` -/
  rep : List Op := []
  /-- the local queue of `rd_kafka_q_serve` -/
  localq : List Op := []
  /-- `timedout` of `rd_kafka_topic_scan_all` -/
  timedout : Msgq := .init
  calls : List Call := []
  created : List Msg := []
  settled : List (Msg × Fate) := []
  wire : List (ℕ × Buf) := []

namespace State

variable (s : State)

/-! ## Partitions and their reference counts -/

/-- What a reference to a partition refers to, unless it was freed. -/
def toppar (r : ℕ) : Option Toppar :=
  s.toppars[r]?.bind fun rktp => if rktp.freed then none else some rktp

def modifyToppar (r : ℕ) (f : Toppar → Toppar) : State :=
  { s with toppars := s.toppars.modify r f }

def modifyBroker (b : ℕ) (f : Broker → Broker) : State :=
  { s with brokers := s.brokers.modify b f }

def modifyTopic (t : ℕ) (f : Topic → Topic) : State :=
  { s with topics := s.topics.modify t f }

/-- `rd_kafka_msg_destroy` -/
def msgDestroy : Option State :=
  if 0 < s.msgCnt then some { s with msgCnt := s.msgCnt - 1 } else none

/-- The end of a message's life. -/
def settle (fate : Fate) (rkm : Msg) : Option State := do
  let s ← s.msgDestroy
  some { s with settled := s.settled ++ [(rkm, fate)] }

/-- `rd_kafka_dr_msgq`: the queue goes into an op, or its messages are
destroyed at once (`rd_kafka_msgq_purge`). -/
def drMsgq (rkmq : Msgq) (err : Err) : Option State :=
  if s.conf.drCb then some { s with rep := s.rep ++ [⟨rkmq, err⟩] }
  else rkmq.msgs.foldlM (fun s rkm => s.settle (.dropped err) rkm) s

/-- `rd_kafka_toppar_keep` -/
def topparKeep (r : ℕ) : Option State := do
  let _ ← s.toppar r
  some (s.modifyToppar r fun rktp => { rktp with refcnt := rktp.refcnt + 1 })

/-- `rd_kafka_toppar_destroy0` -/
def topparDestroy0 (r : ℕ) : Option State := do
  let rktp ← s.toppar r
  let s ← s.drMsgq rktp.xmitMsgq .destroy
  let s ← s.drMsgq rktp.msgq .destroy
  some (s.modifyToppar r fun rktp =>
    { rktp with xmitMsgq := .init, msgq := .init, freed := true })

/-- `rd_kafka_toppar_destroy` -/
def topparDestroy (r : ℕ) : Option State := do
  let rktp ← s.toppar r
  let s := s.modifyToppar r fun rktp => { rktp with refcnt := rktp.refcnt - 1 }
  if rktp.refcnt - 1 = 0 then s.topparDestroy0 r else some s

/-- `rd_kafka_toppar_new`: the reference to the new partition. -/
def topparNew (rkt : ℕ) (partition : ℤ) : ℕ × State :=
  (s.toppars.length,
    { s with toppars := s.toppars ++ [{ rkt := rkt, partition := partition, refcnt := 1 }] })

/-- `rd_kafka_toppar_enq_msg` -/
def topparEnqMsg (r : ℕ) (rkm : Msg) : Option State := do
  let _ ← s.toppar r
  some (s.modifyToppar r fun rktp => { rktp with msgq := rktp.msgq.enq rkm })

/-- `rd_kafka_toppar_insert_msgq`: in front of what is queued. -/
def topparInsertMsgq (r : ℕ) (rkmq : Msgq) : Option State := do
  let _ ← s.toppar r
  some (s.modifyToppar r fun rktp => { rktp with msgq := rkmq.concat rktp.msgq })

/-- `rd_kafka_toppar_move_msgs` -/
def topparMoveMsgs (dst src : ℕ) : Option State := do
  let s ← s.topparKeep src
  let _ ← s.toppar dst
  let source ← s.toppar src
  let s := s.modifyToppar dst fun rktp => { rktp with msgq := rktp.msgq.concat source.msgq }
  let s := s.modifyToppar src fun rktp => { rktp with msgq := .init }
  s.topparDestroy src

end State

/-- `RD_KAFKA_PARTITION_UA` -/
def partitionUa : ℤ := -1

/-- The partition that `rd_kafka_toppar_get` finds, without `ua_on_miss`. -/
def Topic.get (rkt : Topic) (partition : ℤ) : Option ℕ :=
  if 0 ≤ partition ∧ partition < rkt.p.length then rkt.p[partition.toNat]?
  else if partition = partitionUa then some rkt.ua
  else none

/-- The choice of `rd_kafka_msg_partitioner`. `partitioner` is what the
configured partitioner answers for a message. -/
def Topic.partition (rkt : Topic) (partitioner : Msg → ℤ) (rkm : Msg) : Except Err ℤ :=
  match rkt.state with
  | .unknown => .ok partitionUa
  | .notExists => .error .unknownTopic
  | .exists =>
    if rkt.p.length = 0 then .ok partitionUa
    else
      let partition := if rkm.partition = partitionUa then partitioner rkm else rkm.partition
      if (rkt.p.length : ℤ) ≤ partition then .error .unknownPartition else .ok partition

namespace State

variable (s : State)

/-! ## Producing -/

/-- `rd_kafka_msg_partitioner`: the error, and the state. -/
def msgPartitioner (t : ℕ) (partitioner : Msg → ℤ) (rkm : Msg) : Option (Err × State) := do
  let rkt ← s.topics[t]?
  match rkt.partition partitioner rkm with
  | .error err => some (err, s)
  | .ok partition =>
    match rkt.get partition with
    | none => some (if rkt.state = .notExists then .unknownTopic else .unknownPartition, s)
    | some r => do
      let s ← s.topparKeep r
      let s ← s.topparEnqMsg r rkm
      let s ← s.topparDestroy r
      some (.noError, s)

/-- `rd_kafka_msg_new`, up to the test of the limit. -/
def msgNewCount (t : ℕ) (partition : ℤ) (payload : List UInt8) (key : Option (List UInt8)) :
    State :=
  { s with
    msgCnt := s.msgCnt + 1
    calls := s.calls ++
      [⟨t, partition, payload, key, decide (s.msgCnt + 1 ≤ s.conf.queueBufferingMaxMsgs)⟩] }

/-- The rest of `rd_kafka_msg_new` for a call within the limit:
`rd_kafka_msg_new0`, the partitioner, and what follows its failure. -/
def msgNewAdmitted (call : Call) (partitioner : Msg → ℤ) (now : ℤ) : Option State := do
  let rkt ← s.topics[call.topic]?
  if s.conf.maxMsgSize < call.payload.length + (call.key.elim 0 List.length) then
    some { s with msgCnt := s.msgCnt - 1 }
  else
    let rkm : Msg :=
      ⟨s.created.length, call.partition, call.payload, call.key, rkt.conf.tsTimeout now⟩
    let s := { s with created := s.created ++ [rkm] }
    let (err, s) ← s.msgPartitioner call.topic partitioner rkm
    if err = .noError then some s else s.settle (.refused err) rkm

/-- The rest of `rd_kafka_msg_new`. -/
def msgNewFinish (i : ℕ) (partitioner : Msg → ℤ) (now : ℤ) : Option State :=
  match s.calls[i]? with
  | none => some s
  | some call =>
    let s := { s with calls := s.calls.eraseIdx i }
    if call.admitted then s.msgNewAdmitted call partitioner now
    else some { s with msgCnt := s.msgCnt - 1 }

/-! ## Leaders -/

/-- The first half of `rd_kafka_toppar_broker_delegate`: the partition is
taken from its leader. -/
def undelegate (r : ℕ) : Option State := do
  let rktp ← s.toppar r
  match rktp.leader with
  | none => some s
  | some old => do
    let s := s.modifyBroker old fun rkb => { rkb with toppars := rkb.toppars.erase r }
    let s := s.modifyToppar r fun rktp => { rktp with leader := none }
    s.topparDestroy r

/-- The second half: the partition is given to a broker. -/
def delegateTo (r : ℕ) : Option ℕ → Option State
  | none => some s
  | some b => do
    let s ← s.topparKeep r
    let s := s.modifyBroker b fun rkb => { rkb with toppars := rkb.toppars ++ [r] }
    some (s.modifyToppar r fun rktp => { rktp with leader := some b })

/-- `rd_kafka_toppar_broker_delegate` -/
def brokerDelegate (r : ℕ) (b : Option ℕ) : Option State := do
  let rktp ← s.toppar r
  if rktp.leader = b then some s
  else do
    let s ← s.topparKeep r
    let s ← s.undelegate r
    let s ← s.delegateTo r b
    s.topparDestroy r

/-! ## Metadata -/

/-- `rd_kafka_metadata_partition` -/
structure MetadataPartition where
  id : ℤ
  leader : ℤ
  isrCnt : ℤ

/-- `rd_kafka_broker_find_by_nodeid` -/
def findByNodeid (nodeid : ℤ) : Option ℕ := s.brokers.findIdx? fun rkb => rkb.nodeid = nodeid

/-- `rd_kafka_topic_leader_update`: whether the leader changed, and the
state. A partition that is not there fails an assertion. -/
def leaderUpdate (t : ℕ) (mdp : MetadataPartition) (b : Option ℕ) : Option (Bool × State) := do
  let rkt ← s.topics[t]?
  let r ← rkt.get mdp.id
  let s ← s.topparKeep r
  let s := s.modifyToppar r fun rktp => { rktp with isrCnt := mdp.isrCnt }
  let rktp ← s.toppar r
  match b with
  | none => do
    let s ← s.brokerDelegate r none
    let s ← s.topparDestroy r
    some (rktp.leader.isSome, s)
  | some b =>
    if rktp.leader = some b then do
      let s ← s.topparDestroy r
      some (false, s)
    else do
      let s ← s.brokerDelegate r (some b)
      let s ← s.topparDestroy r
      some (true, s)

/-- The new partitions of `rd_kafka_topic_partition_cnt_update`. -/
def newPartitions (t : ℕ) : ℕ → ℕ → State → List ℕ × State
  | _, 0, s => ([], s)
  | i, n + 1, s =>
    let (r, s) := s.topparNew t i
    let (rs, s) := newPartitions t (i + 1) n s
    (r :: rs, s)

/-- The partitions that went away: their messages move to the unassigned
partition. -/
def removePartitions (ua : ℕ) : List ℕ → State → Option State
  | [], s => some s
  | r :: rs, s => do
    let s ← s.topparMoveMsgs ua r
    let s ← s.topparDestroy r
    removePartitions ua rs s

/-- `rd_kafka_topic_partition_cnt_update`: whether the count changed, and
the state. The array is replaced before the excessive partitions are
removed and not after, which no other thread can see. -/
def partitionCntUpdate (t : ℕ) (partitionCnt : ℕ) : Option (Bool × State) := do
  let rkt ← s.topics[t]?
  if rkt.p.length = partitionCnt then some (false, s)
  else do
    let (new, s) := newPartitions t rkt.p.length (partitionCnt - rkt.p.length) s
    let s ← s.topparKeep rkt.ua
    let s := s.modifyTopic t fun rkt => { rkt with p := rkt.p.take partitionCnt ++ new }
    let s ← removePartitions rkt.ua (rkt.p.drop partitionCnt) s
    let s ← s.topparDestroy rkt.ua
    some (true, s)

/-- The loop of `rd_kafka_topic_assign_uas`: the messages that failed, and
the state. -/
def assignLoop (t : ℕ) (partitioner : Msg → ℤ) : List Msg → Msgq → State → Option (Msgq × State)
  | [], failed, s => some (failed, s)
  | rkm :: rest, failed, s => do
    let rkt ← s.topics[t]?
    if rkm.partition ≠ partitionUa ∧ (rkt.p.length : ℤ) ≤ rkm.partition ∧
        rkt.state ≠ .unknown then
      assignLoop t partitioner rest (failed.enq rkm) s
    else do
      let (err, s) ← s.msgPartitioner t partitioner rkm
      assignLoop t partitioner rest (if err = .noError then failed else failed.enq rkm) s

/-- `rd_kafka_topic_assign_uas` -/
def assignUas (t : ℕ) (partitioner : Msg → ℤ) : Option State := do
  let rkt ← s.topics[t]?
  let s ← s.topparKeep rkt.ua
  let ua ← s.toppar rkt.ua
  let s := s.modifyToppar rkt.ua fun rktp => { rktp with msgq := .init }
  let (failed, s) ← assignLoop t partitioner ua.msgq.msgs .init s
  let s ←
    if 0 < failed.msgCnt then
      s.drMsgq failed (if rkt.state = .notExists then .unknownTopic else .unknownPartition)
    else some s
  s.topparDestroy rkt.ua

/-- `rd_kafka_topic_metadata_none` -/
def metadataNone (t : ℕ) (partitioner : Msg → ℤ) : Option State :=
  match s.topics[t]? with
  | none => some s
  | some _ => do
    let s := s.modifyTopic t fun rkt => { rkt with state := .notExists }
    let (_, s) ← s.partitionCntUpdate t 0
    s.assignUas t partitioner

/-- The leaders of `rd_kafka_topic_metadata_update`, one after the other:
whether one changed, and the state. -/
def leaderUpdates (t : ℕ) : List MetadataPartition → State → Option (Bool × State)
  | [], s => some (false, s)
  | mdp :: rest, s => do
    let b := if mdp.leader = -1 then none else s.findByNodeid mdp.leader
    let (upd, s) ← s.leaderUpdate t mdp b
    let (upds, s) ← leaderUpdates t rest s
    some (upd || upds, s)

/-- `rd_kafka_topic_metadata_update` for a topic that is known. -/
def metadataUpdate (t : ℕ) (err : Err) (partitions : List MetadataPartition)
    (partitioner : Msg → ℤ) : Option State :=
  match s.topics[t]? with
  | none => some s
  | some _ => do
    let state : TopicState := if err = .unknownTopicOrPart then .notExists else .exists
    let s := s.modifyTopic t fun rkt => { rkt with state := state }
    let (cnt, s) ← s.partitionCntUpdate t partitions.length
    let (upd, s) ← leaderUpdates t partitions s
    if cnt || upd || state = .notExists then s.assignUas t partitioner else some s

/-! ## Requests -/

/-- `rd_kafka_produce_msgset_reply` for a request that was taken from its
queue: report, retry, or back to the head of the partition's queue. -/
def produceMsgsetReply (b : ℕ) (err : Err) (request : Buf) (now : ℤ) : Option State :=
  match err with
  | .noError | .destroy | .invalidMsg | .invalidMsgSize | .msgSizeTooLarge => do
    let s ← s.drMsgq request.msgq err
    s.topparDestroy request.rktp
  | .requestTimedOut | .msgTimedOut =>
    if request.retries + 1 < s.conf.maxRetries then
      some (s.modifyBroker b fun rkb =>
        { rkb with
          retrybufs := rkb.retrybufs ++
            [{ request with
                retries := request.retries + 1
                tsRetry := now + s.conf.retryBackoffMs * 1000 }] })
    else do
      let s ← s.drMsgq request.msgq err
      s.topparDestroy request.rktp
  | _ => do
    let s ← s.topparInsertMsgq request.rktp request.msgq
    s.topparDestroy request.rktp

/-- The messages that `rd_kafka_broker_produce_toppar` puts in one request:
what is left of the transmit queue, and the messages. -/
def batchLoop (maxMsgSize : ℕ) : ℕ → ℕ → Msgq → Msgq → Option (Msgq × Msgq)
  | 0, _, xmit, rkmq => some (xmit, rkmq)
  | msgcnt + 1, setSize, xmit, rkmq =>
    match xmit.msgs with
    | [] => some (xmit, rkmq)
    | rkm :: _ =>
      if maxMsgSize < setSize + rkm.len then some (xmit, rkmq)
      else do
        let xmit ← xmit.deq rkm
        batchLoop maxMsgSize msgcnt (setSize + rkm.setSize) xmit (rkmq.enq rkm)

/-- `RD_KAFKA_PAYLOAD_IOV_MAX` -/
def payloadIovMax : ℕ := 1024 - 2

/-- The bound on the messages of one request: the queue, the configuration
and the vectors of one `sendmsg`, three and four for each message. -/
def msgcnt (conf : Conf) (xmitCnt : ℕ) : ℕ :=
  let n := min xmitCnt conf.batchNumMessages
  if payloadIovMax < 3 + 4 * n then payloadIovMax / 4 - 3 else n

/-- `rd_kafka_broker_produce_toppar`: whether a request was made. -/
def produceToppar (b r : ℕ) : Option (Bool × State) := do
  let rktp ← s.toppar r
  let rkt ← s.topics[rktp.rkt]?
  if min rktp.xmitMsgq.msgCnt s.conf.batchNumMessages = 0 then none
  else do
    let (xmit, rkmq) ←
      batchLoop s.conf.maxMsgSize (msgcnt s.conf rktp.xmitMsgq.msgCnt) 0 rktp.xmitMsgq .init
    match rkmq.msgs with
    | [] => some (false, s)
    | first :: _ => do
      let s := s.modifyToppar r fun rktp => { rktp with xmitMsgq := xmit }
      let s ← s.topparKeep r
      some (true, s.modifyBroker b fun rkb =>
        { rkb with
          corrid := rkb.corrid + 1
          outbufs := rkb.outbufs ++
            [{ corrid := rkb.corrid + 1
               rktp := r
               noResponse := rkt.conf.requiredAcks = 0
               tsTimeout := first.tsTimeout
               msgq := rkmq }] })

/-- The requests for a partition, until its transmit queue is empty. A
request takes a message at least, so the length of the queue is enough
fuel. -/
def produceLoop (b r : ℕ) : ℕ → State → Option State
  | 0, s => some s
  | fuel + 1, s => do
    let rktp ← s.toppar r
    if rktp.xmitMsgq.msgCnt = 0 then some s
    else do
      let (made, s) ← s.produceToppar b r
      if made then produceLoop b r fuel s else some s

/-- The queue of a partition goes to `isrfailed` of the broker `b`, when
there are too few replicas, or to the transmit queue. -/
def takeMsgq (b r : ℕ) : Option State := do
  let rktp ← s.toppar r
  let rkt ← s.topics[rktp.rkt]?
  if rktp.isrCnt < rkt.conf.enforceIsrCnt then
    let s := s.modifyBroker b fun rkb => { rkb with isrfailed := rkb.isrfailed.concat rktp.msgq }
    some (s.modifyToppar r fun rktp => { rktp with msgq := .init })
  else
    some (s.modifyToppar r fun rktp =>
      { rktp with xmitMsgq := rktp.xmitMsgq.concat rktp.msgq, msgq := .init })

/-- The timeout scan of a transmit queue. -/
def scanXmit (b r : ℕ) (now : ℤ) : Option State := do
  let rktp ← s.toppar r
  let rkb ← s.brokers[b]?
  let (xmit, timedout) ← rktp.xmitMsgq.ageScan rkb.timedout now
  let s := s.modifyBroker b fun rkb => { rkb with timedout := timedout }
  some (s.modifyToppar r fun rktp => { rktp with xmitMsgq := xmit })

/-- The requests for a transmit queue, unless it is better to wait for more
messages. -/
def serveXmit (b r : ℕ) (now : ℤ) : Option State := do
  let rktp ← s.toppar r
  if rktp.xmitMsgq.msgCnt = 0 then some s
  else if now < rktp.tsLastXmit + s.conf.bufferingMaxMs * 1000 ∧
      rktp.xmitMsgq.msgCnt < s.conf.batchNumMessages then some s
  else
    let s := s.modifyToppar r fun rktp => { rktp with tsLastXmit := now }
    produceLoop b r rktp.xmitMsgq.msgCnt s

/-- `rd_kafka_broker_producer_serve` for one partition. -/
def serveToppar (b r : ℕ) (now : ℤ) (doTimeoutScan : Bool) : Option State := do
  let s ← s.takeMsgq b r
  let s ← if doTimeoutScan then s.scanXmit b r now else some s
  s.serveXmit b r now

/-- The end of a pass of `rd_kafka_broker_producer_serve`: the reports of
what failed in it. -/
def serveReport (b : ℕ) : Option State := do
  let rkb ← s.brokers[b]?
  let s := s.modifyBroker b fun rkb => { rkb with isrfailed := .init, timedout := .init }
  let s ← if 0 < rkb.isrfailed.msgCnt then s.drMsgq rkb.isrfailed .isrInsuff else some s
  if 0 < rkb.timedout.msgCnt then s.drMsgq rkb.timedout .msgTimedOut else some s

/-- `rd_kafka_broker_retry_bufs_move` -/
def retryBufsMove (b : ℕ) (now : ℤ) : State :=
  s.modifyBroker b fun rkb =>
    { rkb with
      outbufs := rkb.outbufs ++ rkb.retrybufs.takeWhile fun rkbuf => rkbuf.tsRetry ≤ now
      retrybufs := rkb.retrybufs.dropWhile fun rkbuf => rkbuf.tsRetry ≤ now }

/-- `rd_kafka_send` for the first request, when all of it is sent. -/
def sendFirst (b : ℕ) (now : ℤ) : Option State := do
  let rkb ← s.brokers[b]?
  match rkb.outbufs with
  | [] => some s
  | rkbuf :: rest =>
    let s := { s with wire := s.wire ++ [(b, rkbuf)] }
    if rkbuf.noResponse then
      let s := s.modifyBroker b fun rkb => { rkb with outbufs := rest }
      s.produceMsgsetReply b .noError rkbuf now
    else
      some (s.modifyBroker b fun rkb =>
        { rkb with outbufs := rest, waitresps := rkb.waitresps ++ [rkbuf] })

/-- The `i`-th request that waits for its response is taken from the queue
and its callback is called. -/
def completeWaitresp (b i : ℕ) (err : Err) (now : ℤ) : Option State := do
  let rkb ← s.brokers[b]?
  match rkb.waitresps[i]? with
  | none => some s
  | some request =>
    let s := s.modifyBroker b fun rkb => { rkb with waitresps := rkb.waitresps.eraseIdx i }
    s.produceMsgsetReply b err request now

/-- `rd_kafka_req_response`: the first request with the correlation id. -/
def reqResponse (b : ℕ) (corrid : UInt32) (err : Err) (now : ℤ) : Option State := do
  let rkb ← s.brokers[b]?
  match rkb.waitresps.findIdx? fun rkbuf => rkbuf.corrid = corrid with
  | none => some s
  | some i => s.completeWaitresp b i err now

/-- `rd_kafka_broker_waitresp_timeout_scan` for the `i`-th request. -/
def waitrespTimeout (b i : ℕ) (now : ℤ) : Option State := do
  let rkb ← s.brokers[b]?
  match rkb.waitresps[i]? with
  | none => some s
  | some request =>
    if now < request.tsTimeout then some s else s.completeWaitresp b i .msgTimedOut now

/-! ## Failing brokers -/

/-- `rd_kafka_broker_fail`, up to the purge of the requests. -/
def failBegin (b : ℕ) (err : Err) : State :=
  s.modifyBroker b fun rkb =>
    { rkb with
      state := .down
      failing := some ⟨err, rkb.waitresps ++ rkb.outbufs⟩
      waitresps := []
      outbufs := [] }

/-- `rd_kafka_bufq_purge` for the next request. -/
def failPurge (b : ℕ) (failing : Failing) (now : ℤ) : Option State :=
  match failing.tmpq with
  | [] => some s
  | request :: rest =>
    let s := s.modifyBroker b fun rkb => { rkb with failing := some ⟨failing.err, rest⟩ }
    s.produceMsgsetReply b failing.err request now

/-- The next partition of the broker loses its leader. -/
def failUndelegate (b : ℕ) : Option State := do
  let rkb ← s.brokers[b]?
  match rkb.toppars with
  | [] => some s
  | r :: _ => do
    let s ← s.topparKeep r
    let s ← s.brokerDelegate r none
    s.topparDestroy r

/-! ## The main thread and the application -/

/-- `rd_kafka_topic_scan_all` for one partition. -/
def scanToppar (t : ℕ) (partition : ℤ) (now : ℤ) : Option State :=
  match s.topics[t]?.bind fun rkt => rkt.get partition with
  | none => some s
  | some r => do
    let s ← s.topparKeep r
    let rktp ← s.toppar r
    let (rkmq, timedout) ← rktp.msgq.ageScan s.timedout now
    let s := { s with timedout := timedout }
    let s := s.modifyToppar r fun rktp => { rktp with msgq := rkmq }
    s.topparDestroy r

/-- The end of `rd_kafka_topic_scan_all`. -/
def scanReport : Option State :=
  let timedout := s.timedout
  let s := { s with timedout := .init }
  if 0 < timedout.msgCnt then s.drMsgq timedout .msgTimedOut else some s

/-- `rd_kafka_topic_new` -/
def topicNew (name : List UInt8) (conf : TopicConf) : State :=
  if s.topics.any fun rkt => rkt.name = name then s
  else
    let (ua, s) := s.topparNew s.topics.length partitionUa
    { s with topics := s.topics ++ [{ name := name, conf := conf, ua := ua }] }

/-- `RD_KAFKA_NODEID_UA` -/
def nodeidUa : ℤ := -1

/-- `rd_kafka_brokers_add` for one broker of the list. -/
def brokersAdd : State := { s with brokers := s.brokers ++ [{ nodeid := nodeidUa }] }

/-- `rd_kafka_broker_update` -/
def brokerUpdate (nodeid : ℤ) : State :=
  if (s.findByNodeid nodeid).isSome then s
  else { s with brokers := s.brokers ++ [{ nodeid := nodeid }] }

/-- `rd_kafka_poll_cb` for the next delivery report. -/
def pollServe : Option State :=
  match s.localq with
  | [] => some s
  | rko :: rest =>
    rko.msgq.msgs.foldlM (fun s rkm => s.settle (.reported rko.err) rkm) { s with localq := rest }

end State

/-! ## Steps -/

/-- What a thread does next. -/
inductive Action
  | topicNew (name : List UInt8) (conf : TopicConf)
  | brokersAdd
  | brokerUpdate (nodeid : ℤ)
  | connect (b : ℕ)
  | produce (t : ℕ) (partition : ℤ) (payload : List UInt8) (key : Option (List UInt8))
  | produceFinish (i : ℕ) (partitioner : Msg → ℤ) (now : ℤ)
  | metadataNone (t : ℕ) (partitioner : Msg → ℤ)
  | metadataUpdate (t : ℕ) (err : Err) (partitions : List State.MetadataPartition)
      (partitioner : Msg → ℤ)
  | metadataExpire (t : ℕ)
  | scanToppar (t : ℕ) (partition : ℤ) (now : ℤ)
  | scanReport
  | serveToppar (b r : ℕ) (now : ℤ) (doTimeoutScan : Bool)
  | serveReport (b : ℕ)
  | retryBufsMove (b : ℕ) (now : ℤ)
  | send (b : ℕ) (now : ℤ)
  | response (b : ℕ) (corrid : UInt32) (err : Err) (now : ℤ)
  | requestTimeout (b i : ℕ) (now : ℤ)
  | fail (b : ℕ) (err : Err)
  | failPurge (b : ℕ) (now : ℤ)
  | failUndelegate (b : ℕ)
  | failDone (b : ℕ)
  | pollTake
  | pollServe

/-- The thread of the broker is in its loop with a connection. -/
def Broker.Serving (rkb : Broker) : Prop := rkb.state = .up ∧ rkb.failing.isNone

instance Broker.decidableServing (rkb : Broker) : Decidable rkb.Serving :=
  inferInstanceAs (Decidable (_ ∧ _))

/-- The thread is in `rd_kafka_broker_fail` and has purged its requests. -/
def Broker.Purged (rkb : Broker) : Prop := rkb.failing.any fun failing => failing.tmpq.isEmpty

instance Broker.decidablePurged (rkb : Broker) : Decidable rkb.Purged :=
  inferInstanceAs (Decidable (_ = true))

namespace State

/-- What the thread of a broker does when it is where `p` says; elsewhere
the step is not its next one, and nothing happens. -/
def broker (s : State) (b : ℕ) (p : Broker → Prop) [DecidablePred p]
    (f : Broker → Option State) : Option State :=
  match s.brokers[b]? with
  | none => some s
  | some rkb => if p rkb then f rkb else some s

/-- **One step of a thread.** `none` is the loss of the process. -/
def step (s : State) : Action → Option State
  | .topicNew name conf => some (s.topicNew name conf)
  | .brokersAdd => some s.brokersAdd
  | .brokerUpdate nodeid => some (s.brokerUpdate nodeid)
  | .connect b =>
    s.broker b (fun rkb => rkb.state ≠ .up ∧ rkb.failing.isNone) fun _ =>
      some (s.modifyBroker b fun rkb => { rkb with state := .up })
  | .produce t partition payload key =>
    if t < s.topics.length then some (s.msgNewCount t partition payload key) else some s
  | .produceFinish i partitioner now => s.msgNewFinish i partitioner now
  | .metadataNone t partitioner => s.metadataNone t partitioner
  | .metadataUpdate t err partitions partitioner => s.metadataUpdate t err partitions partitioner
  | .metadataExpire t => some (s.modifyTopic t fun rkt => { rkt with state := .unknown })
  | .scanToppar t partition now => s.scanToppar t partition now
  | .scanReport => s.scanReport
  | .serveToppar b r now doTimeoutScan =>
    s.broker b (fun rkb => rkb.Serving ∧ rkb.nodeid ≠ nodeidUa ∧ r ∈ rkb.toppars) fun _ =>
      s.serveToppar b r now doTimeoutScan
  | .serveReport b => s.broker b Broker.Serving fun _ => s.serveReport b
  | .retryBufsMove b now => s.broker b Broker.Serving fun _ => some (s.retryBufsMove b now)
  | .send b now => s.broker b Broker.Serving fun _ => s.sendFirst b now
  | .response b corrid err now => s.broker b Broker.Serving fun _ => s.reqResponse b corrid err now
  | .requestTimeout b i now => s.broker b Broker.Serving fun _ => s.waitrespTimeout b i now
  | .fail b err =>
    s.broker b (fun rkb => rkb.failing.isNone ∧ err ≠ .noError) fun _ => some (s.failBegin b err)
  | .failPurge b now =>
    s.broker b (fun _ => True) fun rkb =>
      rkb.failing.elim (some s) fun failing => s.failPurge b failing now
  | .failUndelegate b => s.broker b Broker.Purged fun _ => s.failUndelegate b
  | .failDone b =>
    s.broker b (fun rkb => rkb.Purged ∧ rkb.toppars = []) fun _ =>
      some (s.modifyBroker b fun rkb => { rkb with failing := none })
  | .pollTake => some { s with localq := s.localq ++ s.rep, rep := [] }
  | .pollServe => s.pollServe

/-- A run: one step after the other, in any order of the threads. -/
def run (s : State) (actions : List Action) : Option State := actions.foldlM step s

/-- `rd_kafka_new` -/
def new (conf : Conf) : State := { conf := conf }

end State

end Kafka

end Xpod
