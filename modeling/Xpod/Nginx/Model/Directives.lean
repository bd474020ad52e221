import Mathlib.Logic.Function.Basic
import Mathlib.Tactic
import Xpod.Nginx.Model.LogFormat
import Xpod.Nginx.Model.LogHandler
/-!
# The directives of the two nginx modules

The handlers of `new_log_format`, `new_access_log` and `new_kafka_brokers`
(`ngx_new_log_module`) and of `log_format` and `access_log` (the
Kafka-patched `ngx_http_log_module`), and the merging of a location's
settings with those of the level around it.

A handler reads its arguments by their index and checks no index against
their number; a read beyond them is an `Except.error` here. What nginx
itself does for a handler may fail, and is an input.
-/

namespace Xpod

namespace Nginx

namespace Config

/-! ## Arguments -/

/-- `value[k]`, or the index of an element that does not exist. The name of
the directive is `value[0]`. -/
def value (args : List Bytes) (k : ℕ) : Except ℕ Bytes :=
  match args[k]? with
  | none => .error k
  | some v => .ok v

/-- `value[s]` to the last argument, as the loop over `s < nelts` reads
them. -/
def valuesFrom (args : List Bytes) (s : ℕ) : Except ℕ (List Bytes) :=
  (List.range' s (args.length - s)).mapM (value args)

/-- The bytes of an argument up to a zero. -/
def cString (v : Bytes) : Bytes := v.takeWhile (· ≠ 0)

/-- `ngx_strcmp(v.data, s) == 0` -/
def isText (v : Bytes) (s : String) : Bool := cString v = ascii s

/-- `ngx_strncmp(v.data, s, n) == 0` for the length `n` of `s`. -/
def startsWith (v : Bytes) (s : String) : Bool := (ascii s).isPrefixOf v

/-- `ngx_tolower` -/
def toLower (c : UInt8) : UInt8 := if 65 ≤ c && c ≤ 90 then c ||| 0x20 else c

/-- `ngx_http_script_variables_count` -/
def variablesCount (v : Bytes) : ℕ := v.count 36

/-! ## The configuration -/

/-- `NGX_CONF_ERROR`, by the message that comes with it. -/
inductive Refusal
  | invalidParameter (v : Bytes)
  | invalidParameterNum (v : Bytes)
  | unknownFormat (name : Bytes)
  | duplicateFormat (name : Bytes)
  | format (e : FormatError)
  | invalidBufferSize (s : Bytes)
  | invalidFlushTime (s : Bytes)
  | invalidLevel (s : Bytes)
  | withoutZlib
  | noBuffer (v : Bytes)
  | variablesInName
  | conflicting (v : Bytes)
  /-- no memory, or a file or a script that nginx refuses -/
  | failed
deriving DecidableEq, Repr

/-- What nginx does for a handler. -/
structure Core where
  /-- The allocations of a handler, in the order of its text, succeed. -/
  alloc : ℕ → Bool
  /-- `ngx_conf_open_file` succeeds. -/
  openFile : Bytes → Bool
  /-- `ngx_conf_full_name` succeeds. -/
  fullName : Bytes → Bool
  /-- `ngx_http_script_compile` succeeds. -/
  scriptCompile : Bytes → Bool
  /-- `ngx_parse_size`: `none` for NGX_ERROR. -/
  parseSize : Bytes → Option ℕ
  /-- `ngx_parse_time` -/
  parseTime : Bytes → Option ℕ
  /-- `ngx_atoi` -/
  atoi : Bytes → Option ℕ
  /-- `NGX_ZLIB` -/
  zlib : Bool
  /-- What `compile_format` uses. -/
  conf : Conf
  /-- `ngx_http_access_log` -/
  httpAccessLog : Bytes

/-- `ngx_new_log_fmt_t` and `ngx_http_log_fmt_t`. -/
structure Fmt where
  name : Bytes
  /-- `ngx_http_log_module` only. -/
  topicName : Bytes := []
  /-- `ngx_http_log_module` only. -/
  brokerList : Bytes := []
  ops : List Op := []
deriving DecidableEq, Repr

/-- `ngx_new_log_main_conf_t` and `ngx_http_log_main_conf_t`. -/
structure MainConf where
  formats : List Fmt
  combinedUsed : Bool := false
deriving DecidableEq, Repr

/-- `open_file_cache` -/
inductive FileCache
  | unset
  | null
  | cache (id : ℕ)
deriving DecidableEq, Repr

/-- `ngx_new_log_loc_conf_t` and `ngx_http_log_loc_conf_t`, with logs of the
module's type. -/
structure LocConf (τ : Type) where
  logs : Option (List τ) := none
  openFileCache : FileCache := .unset
  openFileCacheValid : ℤ := 0
  openFileCacheMinUses : ℕ := 0
  off : Bool := false
deriving DecidableEq, Repr

/-- A log was pushed to the array, which exists. -/
def LocConf.push {τ : Type} (llcf : LocConf τ) (log : τ) : LocConf τ :=
  { llcf with logs := some (llcf.logs.getD [] ++ [log]) }

/-! ## Formats -/

/-- The names have one length and are equal up to a zero. -/
def Fmt.named (fmt : Fmt) (name : Bytes) : Bool :=
  fmt.name.length = name.length && cString fmt.name = cString name

/-- The same without regard to case. -/
def Fmt.namedAnyCase (fmt : Fmt) (name : Bytes) : Bool :=
  fmt.name.length = name.length && (cString fmt.name).map toLower = (cString name).map toLower

namespace MainConf

/-- `fmt = ngx_array_push(&lmcf->formats)`, filled. -/
def push (lmcf : MainConf) (fmt : Fmt) : MainConf := { lmcf with formats := lmcf.formats ++ [fmt] }

/-- The search for the format of a log, by its index. -/
def findFormat (lmcf : MainConf) (name : Bytes) : Option ℕ :=
  lmcf.formats.findIdx? (·.namedAnyCase name)

/-- `if (ngx_strcmp(name.data, "combined") == 0)` -/
def noteName (lmcf : MainConf) (name : Bytes) : MainConf :=
  if isText name "combined" then { lmcf with combinedUsed := true } else lmcf

/-- The end of `set_format`: the arguments from `s` on are compiled. -/
def compileFrom (core : Core) (lmcf : MainConf) (fmt : Fmt) (args : List Bytes) (s : ℕ) :
    Except ℕ (MainConf × Option Refusal) := do
  let values ← valuesFrom args s
  match core.conf.compileFormat values with
  | .error e => return (lmcf.push fmt, some (.format e))
  | .ok ops => return (lmcf.push { fmt with ops }, none)

end MainConf

/-! ## `ngx_new_log_module` -/

namespace NewLog

/-- A part of memory, which may not have been written to. -/
inductive Cell (α : Type)
  | undefined
  | set (a : α)
deriving DecidableEq, Repr

/-- `ngx_new_log_t`. A pointer is an `Option`: a file or a script by its
path, a format by its index. -/
structure Entry where
  file : Cell (Option Bytes) := .undefined
  script : Cell (Option Bytes) := .undefined
  diskFullTime : Cell ℤ := .undefined
  errorLogTime : Cell ℤ := .undefined
  format : Cell (Option ℕ) := .undefined
  topicName : Cell Bytes := .undefined
  topic : Cell (Option Unit) := .undefined
  opType : Cell SendType := .undefined
deriving DecidableEq, Repr

/-- `ngx_memzero(log, sizeof(ngx_new_log_t))` -/
def Entry.zero : Entry where
  file := .set none
  script := .set none
  diskFullTime := .set 0
  errorLogTime := .set 0
  format := .set none
  topicName := .set []
  topic := .set none
  opType := .set .sendTopic

/-- The file of a log, or the script that makes its name. -/
def openLog (core : Core) (path : Bytes) (log : Entry) : Option Entry :=
  if variablesCount path = 0 then
    if core.openFile path then some { log with file := .set (some path) } else none
  else if core.fullName path && core.alloc 2 && core.scriptCompile path then
    some { log with script := .set (some path) }
  else none

/-- The end of `ngx_new_log_set_log`: the log's format. -/
def chooseFormat (lmcf : MainConf) (llcf : LocConf Entry) (log : Entry) (name : Bytes) :
    LocConf Entry × MainConf × Option Refusal :=
  match lmcf.findFormat name with
  | none => (llcf.push log, lmcf.noteName name, some (.unknownFormat name))
  | some i => (llcf.push { log with format := .set (some i) }, lmcf.noteName name, none)

/-- `ngx_new_log_set_log`. The log is in the array from its push on, also
when the directive is refused. -/
def setLog (core : Core) (args : List Bytes) (lmcf : MainConf) (llcf : LocConf Entry) :
    Except ℕ (LocConf Entry × MainConf × Option Refusal) := do
  let topicName ← value args 1
  if isText topicName "off" then
    let llcf := { llcf with off := true }
    if args.length = 2 then return (llcf, lmcf, none)
    else return (llcf, lmcf, some (.invalidParameter (← value args 2)))
  else if llcf.logs = none ∧ core.alloc 0 = false then return (llcf, lmcf, some .failed)
  else if core.alloc 1 = false then
    return ({ llcf with logs := some (llcf.logs.getD []) }, lmcf, some .failed)
  else
    let log := { Entry.zero with topicName := .set topicName }
    if args.length = 3 then
      let log := { log with opType := .set .sendTopic }
      return chooseFormat lmcf llcf log (← value args 2)
    else if args.length = 4 then
      let log := { log with opType := .set .sendTopicAndFile }
      match openLog core (← value args 2) log with
      | none => return (llcf.push log, lmcf, some .failed)
      | some log => return chooseFormat lmcf llcf log (← value args 3)
    else return (llcf.push log, lmcf, some (.invalidParameterNum (← value args 2)))

/-- `ngx_new_log_set_format` -/
def setFormat (core : Core) (args : List Bytes) (lmcf : MainConf) :
    Except ℕ (MainConf × Option Refusal) := do
  let name ← value args 1
  if lmcf.formats.any (·.named name) then return (lmcf, some (.duplicateFormat name))
  else if core.alloc 0 = false then return (lmcf, some .failed)
  else if core.alloc 1 = false ∨ core.alloc 2 = false then
    return (lmcf.push { name }, some .failed)
  else lmcf.compileFrom core { name } args 2

/-- `new_kafka_brokers`: the static `brokerList` after it. -/
def newKafkaBrokers (args : List Bytes) (brokerList : Option Bytes) : Except ℕ (Option Bytes) :=
  match brokerList with
  | some list => return some list
  | none => do
    let list ← value args 1
    return some list

/-- The log of a location that has none: what `ngx_array_push` returns, with
five fields filled in. -/
def defaultLog (core : Core) : Entry where
  file := .set (some core.httpAccessLog)
  script := .set none
  diskFullTime := .set 0
  errorLogTime := .set 0
  format := .set (some 0)

/-- The first part of `ngx_new_log_merge_loc_conf`: the cache of open
files. -/
def mergeCache (prev conf : LocConf Entry) : LocConf Entry :=
  if conf.openFileCache = .unset then
    { conf with
      openFileCache := if prev.openFileCache = .unset then .null else prev.openFileCache
      openFileCacheValid := prev.openFileCacheValid
      openFileCacheMinUses := prev.openFileCacheMinUses }
  else conf

/-- `ngx_new_log_merge_loc_conf` -/
def mergeLocConf (core : Core) (lmcf : MainConf) (prev conf : LocConf Entry) :
    LocConf Entry × MainConf × Option Refusal :=
  if conf.logs.isSome || conf.off then (mergeCache prev conf, lmcf, none)
  else
    let conf := { mergeCache prev conf with logs := prev.logs, off := prev.off }
    if conf.logs.isSome || conf.off then (conf, lmcf, none)
    else if core.alloc 0 && core.alloc 1 && core.openFile core.httpAccessLog then
      ({ conf with logs := some [defaultLog core] }, { lmcf with combinedUsed := true }, none)
    else (conf, lmcf, some .failed)

end NewLog

/-! ## The patched `ngx_http_log_module` -/

namespace HttpLog

/-- `ngx_http_log_set_format` -/
def setFormat (core : Core) (args : List Bytes) (lmcf : MainConf) :
    Except ℕ (MainConf × Option Refusal) := do
  let name ← value args 1
  if lmcf.formats.any (·.named name) then return (lmcf, some (.duplicateFormat name))
  else if core.alloc 0 = false then return (lmcf, some .failed)
  else
    let topicName ← value args 2
    let brokerList ← value args 3
    let fmt : Fmt := { name, topicName, brokerList }
    if core.alloc 1 = false ∨ core.alloc 2 = false then return (lmcf.push fmt, some .failed)
    else lmcf.compileFrom core fmt args 4

/-- `ngx_http_log_t`, zeroed. -/
structure Entry where
  file : Option Bytes := none
  script : Option Bytes := none
  diskFullTime : ℤ := 0
  errorLogTime : ℤ := 0
  format : Option ℕ := none
deriving DecidableEq, Repr

/-- What the parameters behind the format say: the size and the flush time
of the buffer, and the level of compression. -/
structure Params where
  size : ℕ := 0
  flush : ℕ := 0
  gzip : ℕ := 0
deriving DecidableEq, Repr

/-- A turn of the loop over the parameters. -/
def parameter (core : Core) (v : Bytes) (p : Params) : Except Refusal Params :=
  if startsWith v "buffer=" then
    let s := v.drop 7
    match core.parseSize s with
    | none => .error (.invalidBufferSize s)
    | some size => if size = 0 then .error (.invalidBufferSize s) else .ok { p with size }
  else if startsWith v "flush=" then
    let s := v.drop 6
    match core.parseTime s with
    | none => .error (.invalidFlushTime s)
    | some flush => if flush = 0 then .error (.invalidFlushTime s) else .ok { p with flush }
  else if startsWith v "gzip" && (v.length = 4 || v[4]? = some 61) then
    if core.zlib then
      let p := { p with size := if p.size = 0 then 64 * 1024 else p.size }
      if v.length = 4 then .ok { p with gzip := 1 }
      else
        let s := v.drop 5
        match core.atoi s with
        | none => .error (.invalidLevel s)
        | some gzip =>
          if gzip < 1 ∨ 9 < gzip then .error (.invalidLevel s) else .ok { p with gzip }
    else .error .withoutZlib
  else .error (.invalidParameter v)

/-- The loop over the parameters, from the argument `i` on with `n` left. -/
def parameters (core : Core) (args : List Bytes) :
    ℕ → ℕ → Params → Except ℕ (Except Refusal Params)
  | 0, _, p => .ok (.ok p)
  | n + 1, i, p => do
    let v ← value args i
    match parameter core v p with
    | .error e => return .error e
    | .ok p => parameters core args n (i + 1) p

/-- The file of a log, or the script that makes its name. -/
def openLog (core : Core) (path : Bytes) : Option Entry :=
  if variablesCount path = 0 then
    if core.openFile path then some { file := some path } else none
  else if core.fullName path && core.alloc 2 && core.scriptCompile path then
    some { script := some path }
  else none

/-- The end of `ngx_http_log_set_log`: the buffer of the log's file. `files`
holds the buffers by the paths of their files. -/
def setBuffer (core : Core) (args : List Bytes) (files : Bytes → Option Params) (log : Entry)
    (p : Params) : Except ℕ ((Bytes → Option Params) × Option Refusal) := do
  if p.flush ≠ 0 ∧ p.size = 0 then return (files, some (.noBuffer (← value args 1)))
  else if p.size = 0 then return (files, none)
  else
    match log.script, log.file with
    | none, some path =>
      match files path with
      | some buffer =>
        if buffer ≠ p then return (files, some (.conflicting (← value args 1)))
        else return (files, none)
      | none =>
        if core.alloc 3 && core.alloc 4 && (p.flush = 0 || core.alloc 5) then
          return (Function.update files path (some p), none)
        else return (files, some .failed)
    | _, _ => return (files, some .variablesInName)

/-- The name of the log's format. -/
def formatName (args : List Bytes) : Except ℕ Bytes :=
  if 3 ≤ args.length then value args 2 else .ok (ascii "combined")

/-- `ngx_http_log_set_log` -/
def setLog (core : Core) (args : List Bytes) (lmcf : MainConf) (files : Bytes → Option Params)
    (llcf : LocConf Entry) :
    Except ℕ (LocConf Entry × MainConf × (Bytes → Option Params) × Option Refusal) := do
  let path ← value args 1
  if isText path "off" then
    let llcf := { llcf with off := true }
    if args.length = 2 then return (llcf, lmcf, files, none)
    else return (llcf, lmcf, files, some (.invalidParameter (← value args 2)))
  else if llcf.logs = none ∧ core.alloc 0 = false then return (llcf, lmcf, files, some .failed)
  else if core.alloc 1 = false then
    return ({ llcf with logs := some (llcf.logs.getD []) }, lmcf, files, some .failed)
  else
    match openLog core path with
    | none => return (llcf.push {}, lmcf, files, some .failed)
    | some log =>
      let name ← formatName args
      let lmcf := lmcf.noteName name
      match lmcf.findFormat name with
      | none => return (llcf.push log, lmcf, files, some (.unknownFormat name))
      | some i =>
        let log := { log with format := some i }
        match ← parameters core args (args.length - 3) 3 {} with
        | .error e => return (llcf.push log, lmcf, files, some e)
        | .ok p =>
          let (files, refusal) ← setBuffer core args files log p
          return (llcf.push log, lmcf, files, refusal)

end HttpLog

end Config

end Nginx

end Xpod
