import Mathlib.Data.BitVec
import Mathlib.Data.List.AList
import Mathlib.Tactic
import Xpod.Common.Java
import Xpod.Storm.Model.DownLoadStat
/-!
# The bolt that counts operations

`DownLoadStatBolt.myExecute` goes through the operations of a log, sorts
each by what it was and how it ended, and sums up the operations of each
kind. The map of sums is then sent to the actor `WriteToHbase`.

An operation is a JSON object, and a log is what the bolt reads of it: its
operations and what they share. The sums of `statValue` are `Int`s; the
accumulation is written here for counters of any type, and the bolt's is
the one for `Int`.
-/

namespace Xpod

namespace Storm

/-! ## Operations -/

/-- The objects the JSON reader puts in a map, as far as the bolt tells
them apart. -/
inductive Obj
  | integer (n : BitVec 32)
  | long (n : BitVec 64)
  | string (s : Text)
  | other
deriving DecidableEq, Repr

/-- An operation, by the `get` of its map: none of the names the bolt asks
for has a dot. -/
structure Operation where
  getObject : Text → Option Obj

namespace Operation

/-- `getString(key)`: an object that is no string fails the cast. -/
def getString (op : Operation) (key : String) : Except Java.Exception (Option Text) :=
  match op.getObject key.toList with
  | none => .ok none
  | some (.string s) => .ok (some s)
  | some _ => .error .classCast

/-- `getIntDefZero(name)`, with `x.toInt` of a `Long`. -/
def getIntDefZero (op : Operation) (name : String) : Count :=
  match op.getObject name.toList with
  | some (.integer n) => n
  | some (.long n) => n.setWidth 32
  | _ => 0

end Operation

/-- What the bolt reads of a log: `request_body.data` and the `PubInfo` it
makes. -/
structure Log where
  operations : List Operation
  pubinfo : PubInfo

namespace DownLoadStatBolt

/-! ## Sorting an operation -/

/-- `cndToDomain` -/
def cndToDomain : List (Text × Text) :=
  [("bav.kvb.yymommy.com".toList, ['蓝', '汛']), ("hzd.exi.hotchaleur.com".toList, ['蓝', '汛']),
   ("jdlbqc.tgg.yymommy.com".toList, ['网', '宿']), ("ws.cs.hotchanson.com".toList, ['网', '宿']),
   ("nie.dfe.yymommy.com".toList, ['云', '端']), ("nmo.ouj.yymommy.com".toList, ['云', '端']),
   ("oen.cye.yymommy.com".toList, ['云', '端']), ("a.ali.dongting.com".toList, ['阿', '里']),
   ("b.ali.hotchanson.com".toList, ['阿', '里'])]

/-- `getCdnInfo(url)`: the host behind `http://`, or what stands between
the next two slashes when the host does not end in `com`. Without a second
slash `substring` throws. -/
def getCdnInfo (url : Option Text) : Except Java.Exception (Option (Text × Text)) :=
  match url with
  | none => .ok none
  | some url =>
    match Java.cutAt '/' (url.drop 7) with
    | none => .ok none
    | some (host, rest) => do
      let domain ←
        if "com".toList.isSuffixOf host then .ok host
        else
          match Java.cutAt '/' rest with
          | none => .error .stringIndexOutOfBounds
          | some (domain, _) => .ok domain
      return (cndToDomain.lookup domain).map fun name => (name, domain)

/-- A `statKey` of the operation's CDN, with the default quality. -/
def listenKey (statType : ℤ) (url : Option Text) : Except Java.Exception (Option StatKey) := do
  let cdnInfo ← getCdnInfo url
  return some { module := .songListen, statType, cdnInfo }

/-- A `statKey` of a download. -/
def downloadKey (op : Operation) (statType : ℤ) : Except Java.Exception (Option StatKey) := do
  let cdnInfo ← getCdnInfo (← op.getString "url")
  let quality ← op.getString "quality"
  return some { module := .songDownload, statType, cdnInfo, quality := quality.getD ['-', '1'] }

/-- The `match` on `module`: the kind of the operation, or null. -/
def statOf (op : Operation) : Except Java.Exception (Option StatKey) := do
  let module ← op.getString "module"
  if module = some "song".toList then
    if (← op.getString "type") = some "listen_info".toList then
      if (← op.getString "origin") = some "local".toList then
        listenKey 10 (← op.getString "url")
      else
        let isBuffer := op.getIntDefZero "is_buffer"
        if isBuffer = 0 ∧ op.getIntDefZero "buffer_count" = 0 then
          listenKey 0 (← op.getString "url")
        else if isBuffer = 1 then listenKey 0 (← op.getString "url")
        else if isBuffer = 0 then listenKey 1 (← op.getString "url")
        else return none
    else return none
  else if module = some "download".toList then
    if (← op.getString "type") = some "song".toList then
      let downstatus ← op.getString "downstatus"
      if downstatus = some "success".toList then downloadKey op 0
      else if downstatus = some "failed".toList then downloadKey op 1
      else if downstatus = some "deleted".toList then downloadKey op 2
      else return none
    else return none
  else if module = some "error".toList then
    let type ← op.getString "type"
    if type = some "song".toList then
      let origin ← op.getString "origin"
      if origin = some "local".toList then
        return some { module := .songListen, statType := 11, cdnInfo := none }
      else listenKey 2 origin
    else if type = some "not_url".toList then
      let origin ← op.getString "origin"
      if origin = some "song".toList then listenKey 3 (← op.getString "url")
      else if origin = some "download".toList then
        let cdnInfo ← getCdnInfo (← op.getString "url")
        return some { module := .songDownload, statType := 3, cdnInfo }
      else return none
    else return none
  else return none

/-! ## Summing up -/

/-- `statValue`, with counters of type `ν`. -/
structure Tally (ν : Type) where
  count : ν
  kadunCount : ν
  responseTime : ν
  loadTime : ν
deriving DecidableEq

/-- The map `stats`. -/
abbrev Stats (ν : Type) : Type := AList fun _ : StatKey => Tally ν

section Loop

variable {ν : Type} [Add ν] [Zero ν] [One ν]

/-- What an operation makes of the value of its kind. The response time of
an operation that is not the first of its kind goes to `loadTime`. -/
def accumulate (number : String → ν) (song : Bool) : Option (Tally ν) → Tally ν
  | some cc =>
    if song then
      { cc with
        count := cc.count + 1
        kadunCount := cc.kadunCount + number "buffer_count"
        loadTime := cc.loadTime + number "response_time" + number "loading_time" }
    else { cc with count := cc.count + 1 }
  | none =>
    if song then ⟨1, number "buffer_count", number "response_time", number "loading_time"⟩
    else ⟨1, 0, 0, 0⟩

/-- The loop over the operations. -/
def statsLoop (number : Operation → String → ν) :
    List Operation → Stats ν → Except Java.Exception (Stats ν)
  | [], stats => .ok stats
  | op :: operations, stats => do
    match ← statOf op with
    | none => statsLoop number operations stats
    | some stat =>
      let module ← op.getString "module"
      let value := accumulate (number op) (module = some "song".toList) (stats.lookup stat)
      statsLoop number operations (stats.insert stat value)

end Loop

/-- `myExecute`, up to the message: the map `stats`. -/
def myExecute (log : Log) : Except Java.Exception (Stats Count) :=
  statsLoop Operation.getIntDefZero log.operations ∅

/-- `execute`: the message to `WriteToHbase`, if one is sent. An exception
is logged and ends the work on the log. -/
def execute (log : Log) : Option (Stats Count × PubInfo) :=
  match myExecute log with
  | .error _ => none
  | .ok stats => if stats.entries.isEmpty then none else some (stats, log.pubinfo)

/-- The `statValue` of a kind. -/
def Tally.statValue (v : Tally Count) : StatValue :=
  ⟨v.count, v.kadunCount, v.responseTime, v.loadTime⟩

/-- An entry of the map, as the message has it. -/
def entryOf (e : Sigma fun _ : StatKey => Tally Count) : StatKey × StatValue :=
  (e.1, e.2.statValue)

end DownLoadStatBolt

end Storm

end Xpod
