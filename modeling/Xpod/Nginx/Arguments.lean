import Mathlib.Tactic
import Xpod.Common.Java
import Xpod.Nginx.Model.Directives
/-!
# Arguments of the directives

How many arguments a directive must have is declared in the table of its
module, and its handler relies on it. Two handlers read more than the table
asks for: `new_access_log` names its third element in the refusal of a line
that has only two, and `log_format` takes its fourth as the list of
brokers.
-/

namespace Xpod

namespace Nginx

namespace Config

/-! ## Reads in range -/

/-- No read was out of range. -/
def Fine {α : Type} (x : Except ℕ α) : Prop := ∃ r, x = .ok r

section Fine

variable {α β : Type} {args : List Bytes}

theorem fine_ok (r : α) : Fine (.ok r) := ⟨r, rfl⟩

theorem fine_bind {x : Except ℕ α} {f : α → Except ℕ β} (hx : Fine x) (hf : ∀ a, Fine (f a)) :
    Fine (x >>= f) := by
  obtain ⟨a, rfl⟩ := hx
  exact hf a

theorem fine_value {k : ℕ} (h : k < args.length) : Fine (value args k) := by
  rw [value, List.getElem?_eq_getElem h]
  exact fine_ok _

/-- Reading an argument that exists. -/
theorem fine_value_bind {k : ℕ} {f : Bytes → Except ℕ β} (h : k < args.length)
    (hf : ∀ v, Fine (f v)) : Fine (value args k >>= f) :=
  fine_bind (fine_value h) hf

theorem fine_mapM {f : α → Except ℕ β} {l : List α} (h : ∀ a ∈ l, Fine (f a)) :
    Fine (l.mapM f) := by
  induction l with
  | nil => exact fine_ok _
  | cons a l ih =>
    obtain ⟨ha, h⟩ := List.forall_mem_cons.1 h
    rw [List.mapM_cons]
    exact fine_bind ha fun _ => fine_bind (ih h) fun _ => fine_ok _

/-- The loop of `compile_format` stays within the arguments. -/
theorem fine_valuesFrom (args : List Bytes) (s : ℕ) : Fine (valuesFrom args s) := by
  refine fine_mapM fun k hk => fine_value ?_
  obtain ⟨hle, hlt⟩ := List.mem_range'_1.1 hk
  omega

theorem fine_compileFrom (core : Core) (lmcf : MainConf) (fmt : Fmt) (args : List Bytes) (s : ℕ) :
    Fine (lmcf.compileFrom core fmt args s) := by
  refine fine_bind (fine_valuesFrom args s) fun values => ?_
  split
  · exact fine_ok _
  · exact fine_ok _

end Fine

/-! ## The handlers -/

section Handlers

variable {core : Core} {args : List Bytes}

/-- The line says `off`. -/
def SaysOff (args : List Bytes) : Prop := ∃ v, args[1]? = some v ∧ isText v "off"

theorem saysOff_iff {v : Bytes} (h : value args 1 = .ok v) :
    SaysOff args ↔ isText v "off" = true := by
  have hv : args[1]? = some v := by
    unfold value at h
    split at h
    · cases h
    · next w hw => rw [hw, Except.ok.inj h]
  simp [SaysOff, hv]

/-- `new_access_log`, but for a line of one argument that is not `off`. -/
theorem fine_newLog_setLog (harity : 2 ≤ args.length)
    (h : args.length = 2 → SaysOff args) (lmcf : MainConf) (llcf : LocConf NewLog.Entry) :
    Fine (NewLog.setLog core args lmcf llcf) := by
  obtain ⟨v, hv⟩ := fine_value (k := 1) harity
  have hoff := saysOff_iff hv
  unfold NewLog.setLog
  rw [hv, Java.ok_bind]
  split_ifs with h1 h2 h3 h4 h5 h6
  · exact fine_ok _
  · exact fine_value_bind (by omega) fun _ => fine_ok _
  · exact fine_ok _
  · exact fine_ok _
  · exact fine_value_bind (by omega) fun _ => fine_ok _
  · refine fine_value_bind (by omega) fun path => ?_
    split
    · exact fine_ok _
    · exact fine_value_bind (by omega) fun _ => fine_ok _
  · have hne : args.length ≠ 2 := fun h2 => h1 (hoff.1 (h h2))
    exact fine_value_bind (by omega) fun _ => fine_ok _

theorem fine_newLog_setFormat (harity : 3 ≤ args.length) (lmcf : MainConf) :
    Fine (NewLog.setFormat core args lmcf) := by
  refine fine_value_bind (by omega) fun name => ?_
  split_ifs
  · exact fine_ok _
  · exact fine_ok _
  · exact fine_ok _
  · exact fine_compileFrom _ _ _ _ _

theorem fine_newKafkaBrokers (harity : 2 ≤ args.length) (brokerList : Option Bytes) :
    Fine (NewLog.newKafkaBrokers args brokerList) := by
  cases brokerList with
  | none => exact fine_value_bind (by omega) fun _ => fine_ok _
  | some list => exact fine_ok _

/-- `log_format` with a list of brokers. -/
theorem fine_httpLog_setFormat (hbrokers : 4 ≤ args.length) (lmcf : MainConf) :
    Fine (HttpLog.setFormat core args lmcf) := by
  refine fine_value_bind (by omega) fun name => ?_
  split
  · exact fine_ok _
  split
  · exact fine_ok _
  refine fine_value_bind (by omega) fun topicName => ?_
  refine fine_value_bind (by omega) fun brokerList => ?_
  split
  · exact fine_ok _
  · exact fine_compileFrom _ _ _ _ _

theorem fine_parameters {n i : ℕ} (h : ∀ k < n, i + k < args.length) (p : HttpLog.Params) :
    Fine (HttpLog.parameters core args n i p) := by
  induction n generalizing i p with
  | zero => exact fine_ok _
  | succ n ih =>
    refine fine_value_bind (h 0 n.succ_pos) fun v => ?_
    split
    · exact fine_ok _
    · refine ih (fun k hk => ?_) _
      have hnext := h (k + 1) (Nat.succ_lt_succ hk)
      omega

theorem fine_setBuffer (harity : 2 ≤ args.length) (files : Bytes → Option HttpLog.Params)
    (log : HttpLog.Entry) (p : HttpLog.Params) :
    Fine (HttpLog.setBuffer core args files log p) := by
  unfold HttpLog.setBuffer
  split
  · exact fine_value_bind (by omega) fun _ => fine_ok _
  split
  · exact fine_ok _
  split
  · split
    · split
      · exact fine_value_bind (by omega) fun _ => fine_ok _
      · exact fine_ok _
    · split
      · exact fine_ok _
      · exact fine_ok _
  · exact fine_ok _

theorem fine_httpLog_setLog (harity : 2 ≤ args.length) (lmcf : MainConf)
    (files : Bytes → Option HttpLog.Params) (llcf : LocConf HttpLog.Entry) :
    Fine (HttpLog.setLog core args lmcf files llcf) := by
  refine fine_value_bind (by omega) fun path => ?_
  split
  · split
    · exact fine_ok _
    · exact fine_value_bind (by omega) fun _ => fine_ok _
  split
  · exact fine_ok _
  split
  · exact fine_ok _
  split
  · exact fine_ok _
  have hname : Fine (HttpLog.formatName args) := by
    unfold HttpLog.formatName
    split
    · exact fine_value (by omega)
    · exact fine_ok _
  refine fine_bind hname fun name => ?_
  dsimp only
  split
  · exact fine_ok _
  · refine fine_bind (fine_parameters (fun k hk => by omega) _) fun p => ?_
    split
    · exact fine_ok _
    · exact fine_bind (fine_setBuffer harity _ _ _) fun _ => fine_ok _

end Handlers

/-! ## The table of directives -/

inductive Directive
  | newLogFormat
  | newAccessLog
  | newKafkaBrokers
  | logFormat
  | accessLog
deriving DecidableEq, Repr

/-- What the flags `NGX_CONF_1MORE` and `NGX_CONF_2MORE` of the tables let
through: at least so many elements, with the name. -/
def Directive.atLeast : Directive → ℕ
  | .newLogFormat => 3
  | .newAccessLog => 2
  | .newKafkaBrokers => 2
  | .logFormat => 3
  | .accessLog => 2

/-- **On every path of its handler the directive reads arguments that
exist**: whatever nginx answers, and whatever was configured before. -/
def Directive.InRange : Directive → List Bytes → Prop
  | .newLogFormat, args => ∀ core lmcf, Fine (NewLog.setFormat core args lmcf)
  | .newAccessLog, args => ∀ core lmcf llcf, Fine (NewLog.setLog core args lmcf llcf)
  | .newKafkaBrokers, args => ∀ brokerList, Fine (NewLog.newKafkaBrokers args brokerList)
  | .logFormat, args => ∀ core lmcf, Fine (HttpLog.setFormat core args lmcf)
  | .accessLog, args => ∀ core lmcf files llcf, Fine (HttpLog.setLog core args lmcf files llcf)

/-- nginx does all that it is asked for. -/
def willing : Core where
  alloc _ := true
  openFile _ := true
  fullName _ := true
  scriptCompile _ := true
  parseSize _ := some 1
  parseTime _ := some 1
  atoi _ := some 1
  zlib := true
  conf := ⟨fun _ => some 0⟩
  httpAccessLog := ascii "logs/access.log"

/-- A line of one argument other than `off`. -/
theorem newLog_setLog_of_two {args : List Bytes} (hlen : args.length = 2) (hoff : ¬ SaysOff args)
    (lmcf : MainConf) (llcf : LocConf NewLog.Entry) :
    NewLog.setLog willing args lmcf llcf = .error 2 := by
  obtain ⟨v, hv⟩ : Fine (value args 1) := fine_value (by omega)
  have hnot : ¬ isText v "off" = true := (saysOff_iff hv).not.1 hoff
  have hread : value args 2 = .error 2 := by rw [value, List.getElem?_eq_none (by omega)]
  unfold NewLog.setLog
  rw [hv, Java.ok_bind, if_neg hnot, if_neg (by simp [willing]), if_neg (by simp [willing])]
  simp only [hlen, hread]
  rfl

/-- A format without a list of brokers, which is new. -/
theorem httpLog_setFormat_of_three {args : List Bytes} (hlen : args.length = 3) :
    HttpLog.setFormat willing args ⟨[], false⟩ = .error 3 := by
  obtain ⟨name, hname⟩ : Fine (value args 1) := fine_value (by omega)
  obtain ⟨topicName, htopicName⟩ : Fine (value args 2) := fine_value (by omega)
  have hread : value args 3 = .error 3 := by rw [value, List.getElem?_eq_none (by omega)]
  unfold HttpLog.setFormat
  rw [hname, Java.ok_bind, if_neg (by simp), if_neg (by simp [willing]), htopicName, Java.ok_bind,
    hread]
  rfl

end Config

end Nginx

end Xpod
