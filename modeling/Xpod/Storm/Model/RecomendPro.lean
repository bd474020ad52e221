import Mathlib.Data.BitVec
import Mathlib.Tactic
import Xpod.Common.BigEndian
import Xpod.Common.Java
import Xpod.Common.Threads
import Xpod.Common.Utf8
import Xpod.Storm.Model.DownLoadStat
/-!
# The bolt that stores user actions

`RecomendPro` writes every listen, download and visit of a rank list to
the HBase table `user_action`: one row under the device id of the client
and one under the user id. The row key holds the id, its kind, the time
counted down from `timeReducer`, and a sequence string that keeps two
actions of one millisecond apart.

The platform charset is UTF-8. All columns are of the family `stat`.
-/

namespace Xpod

namespace Storm

namespace RecomendPro

/-! ## Columns -/

/-- `getBytes` and `Bytes.toBytes` of a string. -/
def getBytes (s : Text) : List UInt8 := Utf8.encode s

/-- `Bytes.toBytes` of an `Int`. -/
def intBytes (n : BitVec 32) : List UInt8 := BigEndian.write 4 n.toNat

/-- `Bytes.toBytes` of a `Long`. -/
def longBytes (n : BitVec 64) : List UInt8 := BigEndian.write 8 n.toNat

/-- The columns of a put: qualifiers and values. -/
abbrev Columns : Type := List (Text × List UInt8)

/-- `put.add(…)` of a string, if it is not null. -/
def addText (qualifier : String) (s : Option Text) : Columns :=
  s.toList.map fun s => (qualifier.toList, getBytes s)

/-- `put.add(…)` of a string, if it is neither null nor empty. -/
def addPresent (qualifier : String) (s : Option Text) : Columns :=
  addText qualifier (WriteToHbase.present s)

/-- `PubInfo`: the device id and the user id, and what all operations of a
log share. -/
structure PubInfo where
  ids : Option Text × Option Text
  channel : Option Text
  version : Option Text
  net : BitVec 32
  app : Option Text
  location : Option Location
  devType : BitVec 32
deriving DecidableEq, Repr

/-- `addInfoToPut`: a null location throws. -/
def PubInfo.addInfoToPut (p : PubInfo) : Except Java.Exception Columns :=
  match p.location with
  | none => .error .nullPointer
  | some location =>
    .ok (addText "s" p.channel ++ addText "v" p.version ++ [("net".toList, intBytes p.net)] ++
      addText "app" p.app ++ addPresent "isp" location.isp ++
      addPresent "country" location.country ++ addPresent "city" location.city ++
      addPresent "province" location.province ++ addPresent "devId" p.ids.1 ++
      addPresent "userid" p.ids.2 ++ [("devtype".toList, intBytes p.devType)])

/-- `ListenInfo`, `DownLoadInfo` and `RankListInfo`, by what is their own. -/
inductive Info
  | listenInfo (songId : Option Text) (playTime : BitVec 32)
  | downLoadInfo (songId : Option Text) (downLoadTime : BitVec 64)
  | rankListInfo (rankId : Option Text)
deriving DecidableEq, Repr

/-- `PutTrait` -/
structure PutTrait where
  info : Info
  time : BitVec 64
  seq : Text
deriving DecidableEq, Repr

/-- `addInfo`: a null id is left out of a listen and throws elsewhere. -/
def PutTrait.addInfo (p : PutTrait) : Except Java.Exception Columns :=
  match p.info with
  | .listenInfo songId playTime =>
    .ok (addText "song_id" songId ++ [("tlen".toList, intBytes playTime),
      ("time".toList, longBytes p.time), ("module".toList, getBytes "listen".toList)])
  | .downLoadInfo none _ => .error .nullPointer
  | .downLoadInfo (some songId) downLoadTime =>
    .ok [("song_id".toList, getBytes songId), ("tlen".toList, longBytes downLoadTime),
      ("time".toList, longBytes p.time), ("module".toList, getBytes "download".toList)]
  | .rankListInfo none => .error .nullPointer
  | .rankListInfo (some rankId) =>
    .ok [("rank_id".toList, getBytes rankId), ("time".toList, longBytes p.time),
      ("module".toList, getBytes "song_list".toList)]

/-! ## Row keys -/

def timeReducer : BitVec 64 := 9999999999999

/-- The kinds of ids: devices and users. -/
inductive IdType
  | u
  | t
deriving DecidableEq, Repr

def IdType.text : IdType → Text
  | .u => ['u']
  | .t => ['t']

/-- The row key of an action. -/
def rowKey (id : Text) (type : IdType) (time : BitVec 64) (seq : Text) : List UInt8 :=
  getBytes (id ++ '_' :: type.text ++ '_' :: intText (timeReducer - time).toInt ++ '_' :: seq)

/-- An HBase put. -/
structure Put where
  row : List UInt8
  columns : Columns
deriving DecidableEq, Repr

/-- The put under one of the two ids, if it is neither null nor empty. -/
def PutTrait.putUnder (p : PutTrait) (pubInfo : PubInfo) (type : IdType) (id : Option Text) :
    Except Java.Exception (List Put) :=
  match WriteToHbase.present id with
  | none => .ok []
  | some id => do
    let info ← p.addInfo
    let shared ← pubInfo.addInfoToPut
    return [⟨rowKey id type p.time p.seq, info ++ shared⟩]

/-- `createPut`: what it adds to the buffer. -/
def PutTrait.createPut (p : PutTrait) (pubInfo : PubInfo) : Except Java.Exception (List Put) := do
  let device ← p.putUnder pubInfo .u pubInfo.ids.1
  let user ← p.putUnder pubInfo .t pubInfo.ids.2
  return device ++ user

/-! ## Sequence strings -/

/-- The variables of a bolt. -/
structure Bolt where
  seq : BitVec 32 := 100000
  seed : BitVec 32 := 0
deriving DecidableEq, Repr

/-- `getSeq` -/
def getSeq (processId : BitVec 32) (bolt : Bolt) : Bolt × Text :=
  let seq := if 999999 ≤ bolt.seq.toInt then 100000 else bolt.seq + 1
  ({ bolt with seq },
    intText bolt.seed.toInt ++ intText seq.toInt ++ '_' :: intText processId.toInt)

/-! ## The bolts of a process -/

/-- The bolts that were prepared in a process, with the counter they take
their seeds from, and what the calls of `getSeq` have returned so far: each
time the bolt and the string. -/
structure Process where
  sequence : BitVec 32 := 1000
  bolts : List Bolt := []
  returned : List (ℕ × Text) := []

/-- What happens next: another bolt is prepared, or a bolt calls
`getSeq`. -/
inductive Event
  | prepare
  | getSeq (i : ℕ)
deriving DecidableEq, Repr

namespace Process

/-- `prepare` of another bolt. -/
def prepare (p : Process) : Process :=
  { p with
    sequence := p.sequence + 1
    bolts := p.bolts ++ [{ seed := p.sequence + 1 }] }

/-- A call of `getSeq` on bolt `i`, if it was prepared. -/
def call (processId : BitVec 32) (p : Process) (i : ℕ) : Process :=
  match p.bolts[i]? with
  | none => p
  | some bolt =>
    { p with
      bolts := p.bolts.set i (getSeq processId bolt).1
      returned := p.returned ++ [(i, (getSeq processId bolt).2)] }

def step (processId : BitVec 32) (p : Process) : Event → Process
  | .prepare => p.prepare
  | .getSeq i => p.call processId i

/-- The process after an interleaving. -/
def run (processId : BitVec 32) (events : List Event) : Process :=
  Threads.run (step processId) {} events

end Process

end RecomendPro

end Storm

end Xpod
