import Mathlib.Data.BitVec
import Mathlib.Tactic
import Xpod.Common.Java
import Xpod.LoadIp.Model.Location
import Xpod.Storm.Model.RecomendPro
import Xpod.Storm.Model.RecordPath
/-!
# The bolt that stores user actions: a log at a time

`RecomendPro.execute` reads what the operations of a log share, turns each
operation into a listen, a download or a visit of a rank list, and sends
the puts of all of them to the receiver in one message. An exception on the
way is logged, and the log is dropped.

The address database, the time format and `toString` of lists and maps
belong to libraries and are parameters.
-/

namespace Xpod

namespace Storm

namespace RecomendPro

/-! ## Reading a log -/

/-- The scalars of the JSON reader. A truth value, a big or a broken number
is held by what it prints. -/
inductive Scalar
  | integer (n : BitVec 32)
  | long (n : BitVec 64)
  | string (s : Text)
  | other (text : Text)
deriving DecidableEq, Repr

/-- `ILog` -/
abbrev ILog : Type := JsonRecord Scalar

/-- `getString(key)`: an object that is no string fails the cast. -/
def getString (log : ILog) (key : String) : Except Java.Exception (Option Text) := do
  match ← log.getObject key.toList with
  | .null => return none
  | .scalar (.string s) => return some s
  | _ => .error .classCast

/-- `safeGetNumberLong` -/
def safeGetNumberLong (operation : ILog) (key : String) (defval : BitVec 64) :
    Except Java.Exception (BitVec 64) := do
  match ← operation.getObject key.toList with
  | .scalar (.long e) => return e
  | .scalar (.integer e) => return e.signExtend 64
  | .scalar (.string e) =>
    match LoadIp.Util.parseLong e with
    | .ok n => return BitVec.ofInt 64 n
    | .error _ => return defval
  | _ => return defval

/-- `Integer.parseInt` -/
def parseInt (s : Text) : Except Java.Exception ℤ := do
  let n ← LoadIp.Util.parseLong s
  if -2 ^ 31 ≤ n ∧ n < 2 ^ 31 then return n else .error .numberFormat

/-- `safeGetNumberInt` -/
def safeGetNumberInt (operation : ILog) (key : String) (defval : BitVec 32) :
    Except Java.Exception (BitVec 32) := do
  match ← operation.getObject key.toList with
  | .scalar (.long e) => return e.setWidth 32
  | .scalar (.integer e) => return e
  | .scalar (.string e) =>
    match parseInt e with
    | .ok n => return BitVec.ofInt 32 n
    | .error _ => return defval
  | _ => return defval

/-- What the bolt is surrounded by. -/
structure Surroundings where
  processId : BitVec 32
  /-- `DownLoadStatBolt.reader.get(ip)` -/
  get : Text → Except Java.Exception (Option Location)
  /-- `fmt.parseMillis` -/
  parseMillis : Option Text → Except Java.Exception (BitVec 64)
  /-- `toString` of a list or a map -/
  toString : JsonTree Scalar → Text

/-- `match { case null => null; case e => e.toString }` -/
def textOf (env : Surroundings) : JsonTree Scalar → Option Text
  | .null => none
  | .scalar (.integer n) => some (intText n.toInt)
  | .scalar (.long n) => some (intText n.toInt)
  | .scalar (.string s) => some s
  | .scalar (.other text) => some text
  | e => some (env.toString e)

/-! ## What the operations share -/

/-- `uid` -/
def uidOf (log : ILog) : Except Java.Exception (Option Text) := do
  match WriteToHbase.present (← getString log "request_body.param.uid") with
  | some e => return some e
  | none => getString log "request_body.param.uuid"

/-- `tuid` -/
def tuidOf (log : ILog) : Except Java.Exception (Option Text) := do
  match ← log.getObject "request_body.param.tid".toList with
  | .scalar (.string e) => return WriteToHbase.present (some e)
  | .scalar (.long e) => return if 0 < e.toInt then some (intText e.toInt) else none
  | .scalar (.integer e) => return if 0 < e.toInt then some (intText e.toInt) else none
  | _ => return none

/-- The characters a dot does not match. -/
def lineTerminators : List Char := ['\n', '\r', '\u0085', '\u2028', '\u2029']

/-- `x.contains(s)` -/
def contains (x : Text) (s : String) : Bool := x.tails.any s.toList.isPrefixOf

/-- `x.matches(".*" + s + ".*")` -/
def matchesAround (x : Text) (s : String) : Bool :=
  x.all (fun c => c ∉ lineTerminators) && contains x s

/-- `devType` -/
def devTypeOf (uri : Option Text) : Except Java.Exception (BitVec 32) :=
  match uri with
  | none => .error .nullPointer
  | some x =>
    .ok (if matchesAround x "/ttpod_client/" || matchesAround x "/ttpod_ios_client/" then 0
      else if matchesAround x "/ttpod_ios_pad/" then 1
      else if matchesAround x "/ttpod_client_hd/" then 2
      else 0)

/-- `getPubInfo` -/
def getPubInfo (env : Surroundings) (log : ILog) : Except Java.Exception (Option PubInfo) := do
  match ← getString log "remote_addr" with
  | none => return none
  | some ip =>
    let location ← env.get ip
    let uid ← uidOf log
    let tuid ← tuidOf log
    if uid = none ∧ tuid = none then return none
    else
      let devType ← devTypeOf (← getString log "request_uri")
      let channel ← getString log "request_body.param.s"
      let version ← getString log "request_body.param.v"
      let net ← safeGetNumberInt log "request_body.param.net" (-1)
      let app ← getString log "request_body.param.app"
      return some ⟨(uid, tuid), channel, version, net, app, location, devType⟩

/-! ## An operation -/

/-- A listen of the song under `key`, if there is one. `tlen.toInt * 1000`
is a multiplication of `Int`s. -/
def listenOf (env : Surroundings) (operation : ILog) (key : String) :
    Except Java.Exception (Option Info) := do
  let tlen ← safeGetNumberLong operation "play_time" 0
  let songId ← textOf env <$> operation.getObject key.toList
  return (WriteToHbase.present songId).map fun id => .listenInfo (some id) (tlen.setWidth 32 * 1000)

/-- A download of the song under `fileid`. `tlen.toInt` is widened to the
`Long` it is stored in. -/
def downloadOf (env : Surroundings) (operation : ILog) : Except Java.Exception (Option Info) := do
  let songId ← textOf env <$> operation.getObject "fileid".toList
  let tlen ← safeGetNumberLong operation "download_time" 0
  return (WriteToHbase.present songId).map fun id =>
    .downLoadInfo (some id) ((tlen.setWidth 32).signExtend 64)

/-- A visit of the rank list under `optmessage`. -/
def rankListOf (operation : ILog) : Except Java.Exception (Option Info) := do
  let rankId ← getString operation "optmessage"
  return (WriteToHbase.present rankId).map fun id => .rankListInfo (some id)

/-- The `match` on `module`: what the operation was, or null. -/
def infoOf (env : Surroundings) (operation : ILog) : Except Java.Exception (Option Info) := do
  let module ← getString operation "module"
  if module = some "song".toList then
    if (← getString operation "type") = some "listen_info".toList then
      listenOf env operation "song_id"
    else return none
  else if module = some "download".toList then
    if (← getString operation "type") = some "song".toList then downloadOf env operation
    else return none
  else if module = some "listen_info".toList then
    if (← getString operation "type") = some "listen".toList then listenOf env operation "songid"
    else return none
  else if module = some "find_music".toList then
    let type ← getString operation "type"
    if type = some "listen".toList then rankListOf operation
    else if type = some "rank_show".toList ∨ type = some "library_show".toList then
      let origin ← getString operation "origin"
      if contains (origin.getD []) "play" then rankListOf operation else return none
    else return none
  else return none

/-! ## A log -/

/-- The loop over the operations. The bolt has counted the actions up to an
exception. -/
def loop (env : Surroundings) (pubInfo : PubInfo) :
    List ILog → BitVec 64 → Bolt → List Put → Bolt × Except Java.Exception (List Put)
  | [], _, bolt, ops => (bolt, .ok ops)
  | operation :: logList, time, bolt, ops =>
    match infoOf env operation with
    | .error e => (bolt, .error e)
    | .ok none => loop env pubInfo logList (time + 1) bolt ops
    | .ok (some info) =>
      match PutTrait.createPut ⟨info, time + 1, (getSeq env.processId bolt).2⟩ pubInfo with
      | .error e => ((getSeq env.processId bolt).1, .error e)
      | .ok puts =>
        loop env pubInfo logList (time + 1) (getSeq env.processId bolt).1 (ops ++ puts)

/-- `myExecute`, up to the loop: what the operations share, the time of the
log and its operations, or nothing for a log without ids. -/
def readLog (env : Surroundings) (log : ILog) :
    Except Java.Exception (Option (PubInfo × BitVec 64 × List ILog)) := do
  let logList ← log.getLogList "request_body.data".toList
  match ← getPubInfo env log with
  | none => return none
  | some pubInfo =>
    let time ← env.parseMillis (← getString log "time_local")
    match logList with
    | none => .error .nullPointer
    | some logList => return some (pubInfo, time, logList)

/-- `myExecute`: the bolt after it, and the puts it has collected. -/
def myExecute (env : Surroundings) (bolt : Bolt) (log : ILog) :
    Bolt × Except Java.Exception (List Put) :=
  match readLog env log with
  | .error e => (bolt, .error e)
  | .ok none => (bolt, .ok [])
  | .ok (some (pubInfo, time, logList)) => loop env pubInfo logList time bolt []

/-- `execute`: the bolt after it, and the message to the receiver, if one is
sent. -/
def execute (env : Surroundings) (bolt : Bolt) (log : ILog) : Bolt × Option (List Put) :=
  match myExecute env bolt log with
  | (bolt, .error _) => (bolt, none)
  | (bolt, .ok ops) => (bolt, if ops.isEmpty then none else some ops)

end RecomendPro

end Storm

end Xpod
