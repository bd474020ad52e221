import Mathlib.Data.BitVec
import Mathlib.Data.List.AList
import Mathlib.Tactic
import Xpod.Common.Java
import Xpod.Storm.Model.Record
/-!
# The download statistics

`DownLoadStatBolt` turns a log into counts by operation and sends them,
with what the log says about the client, to the actor `WriteToHbase`. The
actor merges each count into the rows of every combination of the
client's dimensions, and hands its containers to the HBase writer at each
tick.

A name of the source that may be null is an `Option`. The counters are
Scala `Int`s and wrap around at 32 bits.
-/

namespace Xpod

namespace Storm

/-- A Scala `Int`. -/
abbrev Count : Type := BitVec 32

/-! ## Messages -/

/-- `Location`, by the fields the statistics read. -/
structure Location where
  country : Option Text := none
  province : Option Text := none
  city : Option Text := none
  isp : Option Text := none
deriving DecidableEq, Repr

/-- The part of a `DateTime` the row keys print. -/
structure DateTime where
  year : ℕ
  monthOfYear : ℕ
  dayOfMonth : ℕ
  hourOfDay : ℕ
  hourOfDay_lt : hourOfDay < 24
deriving DecidableEq, Repr

/-- `PubInfo`, with the values its constructor computes: `location` is what
`Reader.get` found for the client's address, null when it found nothing. -/
structure PubInfo where
  nettype : ℤ
  version : Option Text
  location : Option Location
  dateHour : DateTime
deriving DecidableEq, Repr

/-- `toString` of a number. -/
def intText : ℤ → Text
  | .ofNat n => Nat.toDigits 10 n
  | .negSucc n => '-' :: Nat.toDigits 10 (n + 1)

theorem underscore_notMem_intText (z : ℤ) : '_' ∉ intText z := by
  have hdigits : ∀ n, '_' ∉ Nat.toDigits 10 n := Java.not_mem_toDigits (by decide)
  cases z with
  | ofNat n => exact hdigits n
  | negSucc n => simp [intText, hdigits]

namespace PubInfo

/-- `date` -/
def date (p : PubInfo) : Text :=
  Nat.toDigits 10 p.dateHour.year ++ '-' :: Nat.toDigits 10 p.dateHour.monthOfYear ++
    '-' :: Nat.toDigits 10 p.dateHour.dayOfMonth

/-- `hour` -/
def hour (p : PubInfo) : Text := p.date ++ '-' :: Nat.toDigits 10 p.dateHour.hourOfDay

end PubInfo

/-- `SONG_LISREN` and `SONG_DOWNLOAD` -/
inductive Module
  | songListen
  | songDownload
deriving DecidableEq, Repr

/-- `statKey` -/
structure StatKey where
  module : Module
  statType : ℤ
  cdnInfo : Option (Text × Text)
  quality : Text := ['-', '1']
deriving DecidableEq, Repr

/-- `statValue` -/
structure StatValue where
  count : Count := 0
  kadunCount : Count := 0
  responseTime : Count := 0
  loadTime : Count := 0
deriving DecidableEq, Repr

namespace WriteToHbase

/-! ## Containers -/

/-- `mutable.HashMap[String, mutable.HashMap[String, Int]]` -/
abbrev Container : Type := AList fun _ : Text => AList fun _ : Text => Count

/-- `add` -/
def add (container : Container) (firstKey secondKey : Text) (count : Count) : Container :=
  match container.lookup firstKey with
  | some firstVal =>
    match firstVal.lookup secondKey with
    | some secondVal => container.insert firstKey (firstVal.insert secondKey (secondVal + count))
    | none => container.insert firstKey (firstVal.insert secondKey count)
  | none => container.insert firstKey (AList.singleton secondKey count)

/-! ## Dimensions -/

/-- `a + "_" + b` -/
def join (a b : Text) : Text := a ++ '_' :: b

def china : Text := ['中', '国']

def noDaLu : List Text := [['香', '港', '省'], ['台', '湾', '省'], ['澳', '门', '省']]

/-- The condition at the head of `mergeSong` and `mergeDownload`. -/
def isMainland (loc : Location) : Bool :=
  loc.country == some china && !(noDaLu.map some).contains loc.province

/-- A field that is neither null nor empty. -/
def present : Option Text → Option Text
  | some [] => none
  | s => s

/-- The list `locs` for a country. -/
def locs (country : Text) (loc : Location) : List Text :=
  match present loc.province, present loc.city with
  | none, _ => [country]
  | some province, none => [country, join country province]
  | some province, some city =>
    [country, join country province, join (join country province) city]

/-- The list `keys`. Only the version may be null. -/
def keys (stat : StatKey) (pubinfo : PubInfo) (loc : Location) : List (Option Text) :=
  (present loc.isp).toList.map some ++
    (match stat.cdnInfo with
      | none => []
      | some (name, domain) => [some name, some (join name domain)]) ++
    [pubinfo.version, some (intText pubinfo.nettype)]

/-- The inner loop over `j`, for key `i`: the names that rows are made of,
up to an exception. A null key throws at `isEmpty`. -/
def innerNames (locs : List Text) (i : ℕ) (key : Text) :
    ℕ → List (Option Text) → List Text × Option Java.Exception
  | _, [] => ([], none)
  | _, none :: _ => ([], some .nullPointer)
  | j, some other :: keys =>
    let names :=
      if other.isEmpty then []
      else if i = j then key :: locs.dropLast.map (join key)
      else [join key other]
    let rest := innerNames locs i key (j + 1) keys
    (names ++ rest.1, rest.2)

/-- The outer loop over `i`. -/
def outerNames (locs : List Text) (keys : List (Option Text)) :
    ℕ → List (Option Text) → List Text × Option Java.Exception
  | _, [] => ([], none)
  | _, none :: _ => ([], some .nullPointer)
  | i, some key :: rest =>
    if key.isEmpty then outerNames locs keys (i + 1) rest
    else
      match innerNames locs i key 0 keys with
      | (names, some e) => (names, some e)
      | (names, none) =>
        let more := outerNames locs keys (i + 1) rest
        (names ++ more.1, more.2)

/-- The names of all rows of a message, in the order of the source, and
the exception that ended it. -/
def names (stat : StatKey) (pubinfo : PubInfo) : List Text × Option Java.Exception :=
  match pubinfo.location with
  | none => ([], some .nullPointer)
  | some loc =>
    if isMainland loc then
      let ks := keys stat pubinfo loc
      let ls := locs china loc
      let inner := outerNames ls ks 0 ks
      (ls ++ inner.1, inner.2)
    else ([], none)

/-! ## Merging -/

/-- The columns `mergeSong` adds to in every row it touches. -/
def songFields (stat : StatKey) (count : StatValue) : List (Text × Count) :=
  [("totalcount".toList, count.count),
   ("totalkaduncount".toList, count.kadunCount),
   ("stattype_".toList ++ intText stat.statType ++ "_count".toList, count.count),
   ("totalrespondtime".toList, count.responseTime),
   ("totalloadtime".toList, count.loadTime)]

/-- The columns `mergeDownload` adds to in every row it touches. -/
def downloadFields (stat : StatKey) (count : StatValue) : List (Text × Count) :=
  [("totalcount".toList, count.count),
   ("stattype_".toList ++ intText stat.statType ++ "_count".toList, count.count),
   ("quality_".toList ++ stat.quality ++ "_count".toList, count.count)]

/-- One call of `add`. -/
structure Add where
  row : Text
  field : Text
  count : Count
deriving DecidableEq, Repr

/-- The calls of `add` for a name: its row of the day, then its row of the
hour. -/
def addsOf (fields : List (Text × Count)) (pubinfo : PubInfo) (name : Text) : List Add :=
  (fields.map fun f => ⟨join name pubinfo.date, f.1, f.2⟩) ++
    fields.map fun f => ⟨join name pubinfo.hour, f.1, f.2⟩

/-- All calls of `add` of a merge, up to an exception. -/
def adds (fields : List (Text × Count)) (stat : StatKey) (pubinfo : PubInfo) : List Add :=
  (names stat pubinfo).1.flatMap (addsOf fields pubinfo)

def addAll (container : Container) (as : List Add) : Container :=
  as.foldl (fun c a => add c a.row a.field a.count) container

/-- `mergeSong` -/
def mergeSong (container : Container) (stat : StatKey) (count : StatValue) (pubinfo : PubInfo) :
    Container × Option Java.Exception :=
  (addAll container (adds (songFields stat count) stat pubinfo), (names stat pubinfo).2)

/-- `mergeDownload` -/
def mergeDownload (container : Container) (stat : StatKey) (count : StatValue)
    (pubinfo : PubInfo) : Container × Option Java.Exception :=
  (addAll container (adds (downloadFields stat count) stat pubinfo), (names stat pubinfo).2)

/-! ## The actor -/

inductive Message
  /-- `(stats, pubinfo)`: the entries of the map in the order it iterates. -/
  | stats (entries : List (StatKey × StatValue)) (pubinfo : PubInfo)
  /-- A string, which the timer sends. -/
  | tick
deriving DecidableEq, Repr

/-- The two tables of HBase. -/
inductive Table
  | songStat
  | downloadStat
deriving DecidableEq, Repr

/-- The variables of `act`, what was sent to the writer, and whether the
actor still runs: an exception that leaves `act` ends it. -/
structure Actor where
  songKeyCount : Container := ∅
  downKeyCount : Container := ∅
  sent : List (Container × Table) := []
  running : Bool := true
deriving DecidableEq

/-- The body of the loop over `stats`. -/
def mergeStat (pubinfo : PubInfo) (a : Actor) (entry : StatKey × StatValue) : Actor :=
  if !a.running then a
  else
    match entry.1.module with
    | .songListen =>
      let (container, e) := mergeSong a.songKeyCount entry.1 entry.2 pubinfo
      { a with songKeyCount := container, running := e.isNone }
    | .songDownload =>
      let (container, e) := mergeDownload a.downKeyCount entry.1 entry.2 pubinfo
      { a with downKeyCount := container, running := e.isNone }

/-- `writer ! (container, table)`, if the container has rows. -/
def send (container : Container) (table : Table) : List (Container × Table) :=
  if 0 < container.entries.length then [(container, table)] else []

/-- One turn of `act`'s loop. -/
def act (a : Actor) (m : Message) : Actor :=
  if !a.running then a
  else
    match m with
    | .stats entries pubinfo => entries.foldl (mergeStat pubinfo) a
    | .tick =>
      { a with
        sent := a.sent ++ send a.songKeyCount .songStat ++ send a.downKeyCount .downloadStat
        songKeyCount := ∅
        downKeyCount := ∅ }

/-- The actor after the messages. -/
def run (a : Actor) (messages : List Message) : Actor := messages.foldl act a

end WriteToHbase

end Storm

end Xpod
