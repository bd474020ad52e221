import Mathlib.Data.List.Basic
import Mathlib.Tactic
/-!
# The log format of the nginx modules

`ngx_http_log_module` and the `ngx_new_log_module` made from it compile a
format string into a list of operations and run the operations for each
request. The two files agree on everything modelled here:
`compile_format`, the table of log variables and the `run` functions.
`nginx`'s own variables (`ngx_http_get_indexed_variable`) are a field of
the request, named as the format names them.
-/

namespace Xpod

namespace Nginx

abbrev Bytes : Type := List UInt8

/-- The bytes of an ASCII literal. -/
def ascii (s : String) : Bytes := s.toList.map fun c => UInt8.ofNat c.toNat

/-- What the log operations read of a request, its connection and the
cached time. -/
structure Request where
  /-- `ngx_http_get_indexed_variable`: `none` when it returns NULL or the
  value is marked `not_found`. -/
  getIndexedVariable : Bytes → Option Bytes
  pipeline : Bool := false
  cachedHttpLogTime : Bytes := []
  cachedHttpLogIso8601 : Bytes := []
  sec : ℤ := 0
  msec : ℕ := 0
  startSec : ℤ := 0
  startMsec : ℕ := 0
  errStatus : ℕ := 0
  headersOutStatus : ℕ := 0
  /-- `http_version == NGX_HTTP_VERSION_9` -/
  version9 : Bool := false
  sent : ℤ := 0
  headerSize : ℤ := 0
  requestLength : ℤ := 0

/-! ## Numbers -/

/-- The conversion `%0<width>ui` of `ngx_sprintf`; width 0 is no padding. -/
def sprintUnsigned (width n : ℕ) : Bytes :=
  let digits := (Nat.toDigits 10 n).map fun c => UInt8.ofNat c.toNat
  List.replicate (width - digits.length) 48 ++ digits

/-- The conversions `%T` and `%O` of a signed number. -/
def sprintSigned : ℤ → Bytes
  | .ofNat n => sprintUnsigned 0 n
  | .negSucc n => 45 :: sprintUnsigned 0 (n + 1)

/-- The format `"%T.%03M"`. -/
def sprintTime (sec : ℤ) (msec : ℕ) : Bytes :=
  sprintSigned sec ++ 46 :: sprintUnsigned 3 msec

/-! ## The table `ngx_new_log_vars` -/

/-- The variables the log module computes itself. -/
inductive LogVar
  | pipe
  | timeLocal
  | timeIso8601
  | msec
  | requestTime
  | status
  | bytesSent
  | bodyBytesSent
  | requestLength
deriving DecidableEq, Repr

namespace LogVar

/-- The table's `name` column, in the table's order. -/
def table : List (Bytes × LogVar) :=
  [(ascii "pipe", pipe),
   (ascii "time_local", timeLocal),
   (ascii "time_iso8601", timeIso8601),
   (ascii "msec", msec),
   (ascii "request_time", requestTime),
   (ascii "status", status),
   (ascii "bytes_sent", bytesSent),
   (ascii "body_bytes_sent", bodyBytesSent),
   (ascii "request_length", requestLength)]

/-- The table's `len` column, with the constants of a 64-bit build. -/
def len : LogVar → ℕ
  | pipe => 1
  | timeLocal => 26
  | timeIso8601 => 25
  | msec => 20 + 4
  | requestTime => 20 + 4
  | status => 20
  | bytesSent => 20
  | bodyBytesSent => 20
  | requestLength => 20

/-- `ngx_new_log_status`'s choice of the status to print. -/
def statusOf (r : Request) : ℕ :=
  if r.errStatus ≠ 0 then r.errStatus
  else if r.headersOutStatus ≠ 0 then r.headersOutStatus
  else if r.version9 then 9
  else 0

/-- The table's `run` column. -/
def run (r : Request) : LogVar → Bytes
  | pipe => if r.pipeline then [112] else [46]
  | timeLocal => r.cachedHttpLogTime
  | timeIso8601 => r.cachedHttpLogIso8601
  | msec => sprintTime r.sec r.msec
  | requestTime =>
    let ms := ((r.sec - r.startSec) * 1000 + (r.msec - r.startMsec : ℤ)).toNat
    sprintTime (ms / 1000 : ℕ) (ms % 1000)
  | status => sprintUnsigned 3 (statusOf r)
  | bytesSent => sprintSigned r.sent
  | bodyBytesSent =>
    if 0 < r.sent - r.headerSize then sprintSigned (r.sent - r.headerSize) else [48]
  | requestLength => sprintSigned r.requestLength

end LogVar

/-! ## Operations -/

/-- An `ngx_new_log_op_t`, by its `run` function. -/
inductive Op
  /-- `copy_short`: up to eight bytes packed into `op->data`. -/
  | copyShort (len data : ℕ)
  /-- `copy_long`: a copy of the literal. -/
  | copyLong (p : Bytes)
  /-- A line of the table of log variables. -/
  | logVar (v : LogVar)
  /-- `variable`: a variable of nginx. -/
  | indexed (name : Bytes)
deriving DecidableEq, Repr

namespace Op

/-- `op->data` of a short literal: its bytes, the first one lowest. -/
def pack : Bytes → ℕ
  | [] => 0
  | b :: bs => b.toNat + pack bs <<< 8

/-- The loop of `copy_short`. -/
def unpack : ℕ → ℕ → Bytes
  | 0, _ => []
  | len + 1, data => UInt8.ofNat (data &&& 0xff) :: unpack len (data >>> 8)

/-- `ngx_new_log_variable`: the value as it is, or a dash. -/
def variableValue (r : Request) (name : Bytes) : Bytes :=
  match r.getIndexedVariable name with
  | none => [45]
  | some value => value

/-- `op->run`: the bytes the operation appends. -/
def run (r : Request) : Op → Bytes
  | copyShort len data => unpack len data
  | copyLong p => p
  | logVar v => v.run r
  | indexed name => variableValue r name

/-- `op->len`, or `op->getlen` for a variable of nginx: how much room the
handler counts for the operation. -/
def getlen (r : Request) : Op → ℕ
  | copyShort len _ => len
  | copyLong p => p.length
  | logVar v => v.len
  | indexed name =>
    match r.getIndexedVariable name with
    | none => 1
    | some value => value.length

/-- The operation for a literal: short ones fit into the operation. -/
def literal (data : Bytes) : Op :=
  if data.length ≤ 8 then copyShort data.length (pack data) else copyLong data

/-- The operation for a variable: the table of log variables is searched
first. -/
def ofName (name : Bytes) : Op :=
  match LogVar.table.lookup name with
  | some v => logVar v
  | none => indexed name

end Op

/-! ## `compile_format` -/

/-- The ways `compile_format` refuses a format. -/
inductive FormatError
  /-- `invalid parameter "%s"`, with the rest of the argument. -/
  | invalidParameter (data : Bytes)
  /-- `the closing bracket in "%V" variable is missing` -/
  | missingBracket (var : Bytes)
  /-- `ngx_http_get_variable_index` has no index for the variable. -/
  | unknownVariable (var : Bytes)
deriving DecidableEq, Repr

/-- The bytes a variable's name is made of. -/
def isNameByte (ch : UInt8) : Bool :=
  (65 ≤ ch && ch ≤ 90) || (97 ≤ ch && ch ≤ 122) || (48 ≤ ch && ch ≤ 57) || ch == 95

/-- The part of the loop behind a `$`: the operation and what is left.
`rest` is the argument behind the `$`. -/
def compileVariable (rest : Bytes) : Except FormatError (Op × Bytes) :=
  let data := 36 :: rest
  match rest with
  | [] => .error (.invalidParameter data)
  | 123 :: [] => .error (.invalidParameter data)
  | 123 :: rest =>
    let var := rest.takeWhile isNameByte
    match rest.dropWhile isNameByte with
    | 125 :: after =>
      if var.isEmpty then .error (.invalidParameter data) else .ok (Op.ofName var, after)
    | _ => .error (.missingBracket var)
  | rest =>
    let var := rest.takeWhile isNameByte
    if var.isEmpty then .error (.invalidParameter data)
    else .ok (Op.ofName var, rest.dropWhile isNameByte)

/-- The `while` loop over one argument of the directive. Every turn takes
at least one byte, so `fuel` may be the argument's length. -/
def compileLoop : ℕ → Bytes → Except FormatError (List Op)
  | 0, _ => .ok []
  | _, [] => .ok []
  | fuel + 1, 36 :: rest => do
    let (op, after) ← compileVariable rest
    let ops ← compileLoop fuel after
    return op :: ops
  | fuel + 1, ch :: rest => do
    let data := ch :: rest.takeWhile (· ≠ 36)
    let ops ← compileLoop fuel (rest.dropWhile (· ≠ 36))
    return Op.literal data :: ops

/-- `ngx_new_log_compile_format` -/
def compileFormat (args : List Bytes) : Except FormatError (List Op) := do
  let ops ← args.mapM fun value => compileLoop value.length value
  return ops.flatten

/-! ## Compiling within a configuration

The functions above take every variable for known. Here the configuration is
asked for it. -/

/-- What `compile_format` uses of `ngx_conf_t`. -/
structure Conf where
  /-- `ngx_http_get_variable_index`: `none` for NGX_ERROR. -/
  getVariableIndex : Bytes → Option ℕ

namespace Conf

/-- `ngx_new_log_variable_compile`, for a name that is not in the table of
log variables. -/
def variableCompile (cf : Conf) : Op → Except FormatError Op
  | .indexed name =>
    match cf.getVariableIndex name with
    | none => .error (.unknownVariable name)
    | some _ => .ok (.indexed name)
  | op => .ok op

/-- The part of the loop behind a `$`. -/
def compileVariable (cf : Conf) (rest : Bytes) : Except FormatError (Op × Bytes) := do
  let (op, after) ← Nginx.compileVariable rest
  let op ← cf.variableCompile op
  return (op, after)

/-- The `while` loop over one argument of the directive. -/
def compileLoop (cf : Conf) : ℕ → Bytes → Except FormatError (List Op)
  | 0, _ => .ok []
  | _, [] => .ok []
  | fuel + 1, 36 :: rest => do
    let (op, after) ← cf.compileVariable rest
    let ops ← cf.compileLoop fuel after
    return op :: ops
  | fuel + 1, ch :: rest => do
    let data := ch :: rest.takeWhile (· ≠ 36)
    let ops ← cf.compileLoop fuel (rest.dropWhile (· ≠ 36))
    return Op.literal data :: ops

/-- `ngx_new_log_compile_format` -/
def compileFormat (cf : Conf) (args : List Bytes) : Except FormatError (List Op) := do
  let ops ← args.mapM fun value => cf.compileLoop value.length value
  return ops.flatten

end Conf

/-! ## The line -/

/-- What the operations of a format write, one behind the other. -/
def runOps (r : Request) (ops : List Op) : Bytes := ops.flatMap (Op.run r)

/-- `NGX_LINEFEED` -/
def linefeed : Bytes := [10]

/-- The line the handler makes of a request. -/
def logLine (r : Request) (ops : List Op) : Bytes := runOps r ops ++ linefeed

/-- The handler's `len`: the room it counts for a line. -/
def lineLen (r : Request) (ops : List Op) : ℕ := (ops.map (Op.getlen r)).sum + 1

/-- The field `op->len`. -/
def Op.len : Op → ℕ
  | copyShort len _ => len
  | copyLong p => p.length
  | logVar v => v.len
  | indexed _ => 0

/-- The field `op->getlen`: `none` for NULL. -/
def Op.getlenFn : Op → Option (Request → ℕ)
  | indexed name => some fun r =>
    match r.getIndexedVariable name with
    | none => 1
    | some value => value.length
  | _ => none

/-- The handler's first loop over the operations; `none` when it calls
through a NULL pointer. -/
def lenLoop (r : Request) : ℕ → List Op → Option ℕ
  | len, [] => some len
  | len, op :: ops =>
    if op.len = 0 then
      match op.getlenFn with
      | none => none
      | some getlen => lenLoop r (len + getlen r) ops
    else lenLoop r (len + op.len) ops

/-- `len` as the handler sums it up. -/
def handlerLen (r : Request) (ops : List Op) : Option ℕ :=
  (lenLoop r 0 ops).map (· + linefeed.length)

end Nginx

end Xpod
