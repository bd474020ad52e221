import Mathlib.Data.List.TakeWhile
import Mathlib.Tactic
import Xpod.Common.Java
import Xpod.Nginx.Model.LogFormat
import Xpod.Nginx.LogFormat
/-!
# What a format means, and what its operations write

The meaning of a format is given here without operations: `Expands` reads a
format byte by byte and writes a text for each variable. `compile_format`
keeps this meaning: the operations it makes write the expansion, and the
handler counts enough room for it. It refuses a format just if some `$` has
no name behind it or the name is known to nobody.
-/

namespace Xpod

namespace Nginx

/-! ## The meaning of a format -/

/-- **The name behind a `$`**, plain or in braces, and what follows it. A
plain name goes as far as it can. -/
inductive Names : Bytes → VarName → Bytes → Prop
  | plain (v : VarName) {rest : Bytes} (h : rest.takeWhile isNameByte = []) :
      Names (v.bytes ++ rest) v rest
  | braced (v : VarName) (rest : Bytes) : Names (123 :: (v.bytes ++ 125 :: rest)) v rest

/-- The text for a variable: the log module's own, the value nginx has, or a
dash. -/
def variableText (r : Request) (name : Bytes) : Bytes :=
  match LogVar.table.lookup name with
  | some v => v.run r
  | none => (r.getIndexedVariable name).getD [45]

/-- **The expansion of a format for a request.** -/
inductive Expands (r : Request) : Bytes → Bytes → Prop
  | nil : Expands r [] []
  | text {ch : UInt8} {rest out : Bytes} (h : ch ≠ 36) (hrest : Expands r rest out) :
      Expands r (ch :: rest) (ch :: out)
  | dollar {after rest out : Bytes} {v : VarName} (h : Names after v rest)
      (hrest : Expands r rest out) : Expands r (36 :: after) (variableText r v.bytes ++ out)

/-- The variable can be compiled: it is one of the log module's own, or nginx
has an index for it. -/
def Conf.Knows (cf : Conf) (v : VarName) : Prop :=
  LogVar.table.lookup v.bytes ≠ none ∨ cf.getVariableIndex v.bytes ≠ none

/-- **The format has a `$` that cannot be compiled**: no name stands behind
it, or one that is unknown. -/
def Conf.Rejects (cf : Conf) (value : Bytes) : Prop :=
  ∃ before after, value = before ++ 36 :: after ∧
    ((¬ ∃ v rest, Names after v rest) ∨ ∃ v rest, Names after v rest ∧ ¬ cf.Knows v)

/-! ## Names -/

namespace Names

variable {after rest rest' : Bytes} {v v' : VarName}

/-- A name contains no `$`, nor do the braces around it. -/
theorem exists_front (h : Names after v rest) : ∃ front, after = front ++ rest ∧ 36 ∉ front := by
  have hname : (36 : UInt8) ∉ v.bytes := fun h => absurd (v.isName 36 h) (by decide)
  cases h with
  | plain => exact ⟨v.bytes, rfl, hname⟩
  | braced => exact ⟨123 :: (v.bytes ++ [125]), by simp, by simp [hname]⟩

theorem takeWhile_brace (v : VarName) (rest : Bytes) :
    (v.bytes ++ 125 :: rest).takeWhile isNameByte = v.bytes :=
  takeWhile_name v (List.takeWhile_cons_of_neg (by decide))

theorem dropWhile_brace (v : VarName) (rest : Bytes) :
    (v.bytes ++ 125 :: rest).dropWhile isNameByte = 125 :: rest :=
  dropWhile_name v (List.takeWhile_cons_of_neg (by decide))

/-- A name in braces is compiled like a plain one. -/
theorem compileVariable (h : Names after v rest) :
    Nginx.compileVariable after = .ok (v.op, rest) := by
  cases h with
  | plain _ hstop => exact compileVariable_name v hstop
  | braced =>
    have hne : (v.bytes ++ 125 :: rest) ≠ [] := by simp
    unfold Nginx.compileVariable
    split
    · contradiction
    · simp_all
    · rename_i heq
      obtain rfl := (List.cons.inj heq).2
      simp only [takeWhile_brace, dropWhile_brace]
      rw [if_neg (by simp [v.bytes_ne])]
      rfl
    · rename_i hno
      exact absurd rfl (hno _)

/-- The name as a scan finds it, behind an opening brace or without one. -/
theorem scan (h : Names after v rest) :
    (after.takeWhile isNameByte = v.bytes ∧ after.dropWhile isNameByte = rest) ∨
      (after.takeWhile isNameByte = [] ∧ after.tail.takeWhile isNameByte = v.bytes ∧
        after.tail.dropWhile isNameByte = 125 :: rest) := by
  cases h with
  | plain _ hstop => exact Or.inl ⟨takeWhile_name v hstop, dropWhile_name v hstop⟩
  | braced =>
    exact Or.inr ⟨List.takeWhile_cons_of_neg (by decide), takeWhile_brace v rest,
      dropWhile_brace v rest⟩

/-- There is one name behind a `$`. -/
theorem unique (h : Names after v rest) (h' : Names after v' rest') : v = v' ∧ rest = rest' := by
  have hext : ∀ {u w : VarName}, u.bytes = w.bytes → u = w := by
    rintro ⟨_, _, _⟩ ⟨_, _, _⟩ rfl
    rfl
  rcases h.scan with ⟨h1, h2⟩ | ⟨h1, h2, h3⟩ <;>
    rcases h'.scan with ⟨h1', h2'⟩ | ⟨h1', h2', h3'⟩
  · exact ⟨hext (h1.symm.trans h1'), h2.symm.trans h2'⟩
  · exact absurd (h1.symm.trans h1') v.bytes_ne
  · exact absurd (h1'.symm.trans h1) v'.bytes_ne
  · exact ⟨hext (h2.symm.trans h2'), (List.cons.inj (h3.symm.trans h3')).2⟩

end Names

theorem takeWhile_dropWhile (bs : Bytes) :
    (bs.dropWhile isNameByte).takeWhile isNameByte = [] := by
  induction bs with
  | nil => rfl
  | cons b bs ih =>
    rw [List.dropWhile_cons]
    split_ifs with hb
    · exact ih
    · exact List.takeWhile_cons_of_neg hb

/-- The name a scan finds. -/
def VarName.ofScan (bs : Bytes) (h : bs.takeWhile isNameByte ≠ []) : VarName where
  bytes := bs.takeWhile isNameByte
  bytes_ne := h
  isName := fun _ hch => List.mem_takeWhile_imp hch

/-- **What is compiled behind a `$` is a name**, and without a name nothing is
compiled. -/
theorem compileVariable_eq_ok {after rest : Bytes} {op : Op} :
    compileVariable after = .ok (op, rest) ↔ ∃ v, Names after v rest ∧ op = v.op := by
  constructor
  · intro h
    unfold compileVariable at h
    split at h
    · cases h
    · cases h
    · -- a name in braces
      split at h
      · rename_i bs _ _ rest hdrop
        dsimp only at h
        split_ifs at h with hempty
        obtain ⟨rfl, rfl⟩ := Prod.mk.inj (Except.ok.inj h)
        let v : VarName := .ofScan bs (by simpa using hempty)
        have hbs : bs = v.bytes ++ 125 :: rest := by
          rw [← hdrop]
          exact List.takeWhile_append_dropWhile.symm
        exact ⟨v, hbs ▸ .braced v rest, rfl⟩
      · cases h
    · -- a plain name
      dsimp only at h
      split_ifs at h with hempty
      obtain ⟨rfl, rfl⟩ := Prod.mk.inj (Except.ok.inj h)
      let v : VarName := .ofScan after (by simpa using hempty)
      have hafter : after = v.bytes ++ after.dropWhile isNameByte :=
        List.takeWhile_append_dropWhile.symm
      have hplain := Names.plain v (takeWhile_dropWhile after)
      exact ⟨v, by rwa [← hafter] at hplain, rfl⟩
  · rintro ⟨v, hv, rfl⟩
    exact hv.compileVariable

/-! ## Compiling within a configuration -/

namespace Conf

variable {cf : Conf}

theorem variableCompile_op (v : VarName) :
    cf.variableCompile v.op =
      if LogVar.table.lookup v.bytes = none ∧ cf.getVariableIndex v.bytes = none then
        .error (.unknownVariable v.bytes) else .ok v.op := by
  unfold VarName.op Op.ofName
  rcases LogVar.table.lookup v.bytes with - | l
  · unfold variableCompile
    rcases hindex : cf.getVariableIndex v.bytes with - | i <;> simp [hindex]
  · simp [variableCompile]

theorem not_knows {v : VarName} :
    ¬ cf.Knows v ↔ LogVar.table.lookup v.bytes = none ∧ cf.getVariableIndex v.bytes = none := by
  rw [Knows, not_or, not_not, not_not]

/-- **Behind a `$` a known name is compiled and nothing else.** -/
theorem compileVariable_eq_ok {after rest : Bytes} {op : Op} :
    cf.compileVariable after = .ok (op, rest) ↔
      ∃ v, Names after v rest ∧ cf.Knows v ∧ op = v.op := by
  unfold compileVariable
  constructor
  · intro h
    obtain ⟨⟨op', after'⟩, hread, h⟩ := Java.bind_eq_ok.1 h
    obtain ⟨v, hv, rfl⟩ := Nginx.compileVariable_eq_ok.1 hread
    obtain ⟨op'', hcompile, h⟩ := Java.bind_eq_ok.1 h
    obtain ⟨rfl, rfl⟩ := Prod.mk.inj (Except.ok.inj h)
    rw [variableCompile_op] at hcompile
    split_ifs at hcompile with hno
    exact ⟨v, hv, not_not.1 fun h => hno (not_knows.1 h), (Except.ok.inj hcompile).symm⟩
  · rintro ⟨v, hv, hknows, rfl⟩
    rw [hv.compileVariable]
    change (cf.variableCompile v.op >>= fun op => pure (op, rest)) = _
    rw [variableCompile_op, if_neg fun h => not_knows.2 h hknows]
    rfl

/-- A literal goes as far as the next `$`. -/
theorem compileLoop_text {ch : UInt8} (h : ch ≠ 36) (fuel : ℕ) (rest : Bytes) :
    cf.compileLoop (fuel + 1) (ch :: rest) =
      (cf.compileLoop fuel (rest.dropWhile (· ≠ 36)) >>= fun ops =>
        pure (Op.literal (ch :: rest.takeWhile (· ≠ 36)) :: ops)) := by
  rw [compileLoop]
  exact h

section Indexed

variable (h : ∀ name, cf.getVariableIndex name ≠ none)

include h

theorem variableCompile_eq (op : Op) : cf.variableCompile op = .ok op := by
  rcases op with - | - | - | name <;> try rfl
  unfold variableCompile
  rcases hindex : cf.getVariableIndex name with - | i
  · exact absurd hindex (h name)
  · simp only [hindex]

theorem compileVariable_eq (rest : Bytes) :
    cf.compileVariable rest = Nginx.compileVariable rest := by
  unfold compileVariable
  rcases Nginx.compileVariable rest with e | ⟨op, after⟩
  · rfl
  · change (cf.variableCompile op >>= fun op => pure (op, after)) = _
    rw [variableCompile_eq h]
    rfl

theorem compileLoop_eq (fuel : ℕ) (value : Bytes) :
    cf.compileLoop fuel value = Nginx.compileLoop fuel value := by
  induction fuel generalizing value with
  | zero => rfl
  | succ fuel ih =>
    rcases value with - | ⟨ch, rest⟩
    · rfl
    by_cases hch : ch = 36
    · subst hch
      rw [compileLoop, Nginx.compileLoop, compileVariable_eq h]
      simp only [ih]
    · rw [compileLoop_text hch, Nginx.compileLoop, ih]
      exact hch

/-- A configuration that has an index for every variable compiles as if
none were asked. -/
theorem compileFormat_eq (args : List Bytes) :
    cf.compileFormat args = Nginx.compileFormat args := by
  unfold compileFormat Nginx.compileFormat
  simp only [compileLoop_eq h]

end Indexed

/-! ## Which formats are refused -/

section Rejects

variable {front after rest value : Bytes} {v : VarName}

/-- A text without a `$` does not matter. -/
theorem rejects_append (h : 36 ∉ front) : cf.Rejects (front ++ rest) ↔ cf.Rejects rest := by
  constructor
  · rintro ⟨before, after, heq, hbad⟩
    rcases List.append_eq_append_iff.1 heq with ⟨bs, -, hrest⟩ | ⟨bs, hfront, hrest⟩
    · exact ⟨bs, after, hrest, hbad⟩
    · rcases bs with - | ⟨b, bs⟩
      · exact ⟨[], after, hrest.symm, hbad⟩
      · -- the text would contain the `$`
        obtain rfl := (List.cons.inj hrest).1
        exact absurd (hfront ▸ by simp) h
  · rintro ⟨before, after, rfl, hbad⟩
    exact ⟨front ++ before, after, by rw [List.append_assoc], hbad⟩

/-- Nor does a variable that is known. -/
theorem rejects_dollar (h : Names after v rest) (hknows : cf.Knows v) :
    cf.Rejects (36 :: after) ↔ cf.Rejects rest := by
  obtain ⟨front, hafter, hfront⟩ := h.exists_front
  constructor
  · rintro ⟨before, after', heq, hbad⟩
    rcases before with - | ⟨b, before⟩
    · obtain rfl := (List.cons.inj heq).2
      rcases hbad with hno | ⟨v', rest', h', hunknown⟩
      · exact absurd ⟨v, rest, h⟩ hno
      · exact absurd ((h.unique h').1 ▸ hknows) hunknown
    · rw [← rejects_append hfront, ← hafter]
      exact ⟨before, after', (List.cons.inj heq).2, hbad⟩
  · intro hrest
    obtain ⟨before, after', heq, hbad⟩ := (rejects_append hfront).2 hrest
    exact ⟨36 :: before, after', by rw [hafter, heq, List.cons_append], hbad⟩

theorem not_rejects_nil : ¬ cf.Rejects [] := by
  rintro ⟨before, after, heq, -⟩
  simp at heq

/-- A `$` that is not compiled is bad. -/
theorem rejects_of_error {e : FormatError} (h : cf.compileVariable after = .error e) :
    cf.Rejects (36 :: after) := by
  refine ⟨[], after, rfl, ?_⟩
  by_contra hgood
  push Not at hgood
  obtain ⟨⟨v, rest, hv⟩, hknows⟩ := hgood
  have hok := compileVariable_eq_ok.2 ⟨v, hv, hknows v rest hv, rfl⟩
  rw [h] at hok
  cases hok

end Rejects

end Conf

/-! ## The operations -/

/-- **What `compile_format` makes**: short literals fit into the machine
word, longer ones are copied, and no literal is empty. -/
def Op.WellFormed : Op → Prop
  | copyShort len data => 0 < len ∧ len ≤ 8 ∧ data < 2 ^ (8 * len)
  | copyLong p => 8 < p.length
  | _ => True

theorem pack_lt (bs : Bytes) : Op.pack bs < 2 ^ (8 * bs.length) := by
  induction bs with
  | nil => decide
  | cons b bs ih =>
    have hb := b.toNat_lt
    have hpow : 2 ^ (8 * (bs.length + 1)) = 2 ^ (8 * bs.length) * 2 ^ 8 := by
      rw [Nat.mul_succ, Nat.pow_add]
    rw [Op.pack, Nat.shiftLeft_eq, List.length_cons, hpow]
    omega

theorem wellFormed_literal {data : Bytes} (h : data ≠ []) : (Op.literal data).WellFormed := by
  unfold Op.literal
  split_ifs with hlen
  · exact ⟨List.length_pos_of_ne_nil h, hlen, pack_lt data⟩
  · exact not_le.1 hlen

theorem wellFormed_op (v : VarName) : v.op.WellFormed := by
  unfold VarName.op Op.ofName
  split <;> trivial

/-- The operation for a variable writes the variable's text. -/
theorem run_op (r : Request) (v : VarName) : v.op.run r = variableText r v.bytes := by
  unfold VarName.op Op.ofName variableText
  rcases LogVar.table.lookup v.bytes with - | l
  · change Op.variableValue r v.bytes = (r.getIndexedVariable v.bytes).getD [45]
    unfold Op.variableValue
    cases r.getIndexedVariable v.bytes <;> rfl
  · rfl

/-- A text without a `$` is expanded to itself. -/
theorem Expands.append {r : Request} {front rest out : Bytes} (h : 36 ∉ front)
    (hrest : Expands r rest out) : Expands r (front ++ rest) (front ++ out) := by
  induction front with
  | nil => exact hrest
  | cons ch front ih =>
    rw [List.mem_cons, not_or] at h
    exact .text (Ne.symm h.1) (ih h.2)

/-- A format has one expansion. -/
theorem Expands.unique {r : Request} {value out out' : Bytes} (h : Expands r value out)
    (h' : Expands r value out') : out = out' := by
  induction h generalizing out' with
  | nil =>
    cases h'
    rfl
  | text hch _ ih =>
    cases h' with
    | text _ hrest' => rw [ih hrest']
    | dollar => exact absurd rfl hch
  | dollar hv _ ih =>
    cases h' with
    | text hch => exact absurd rfl hch
    | dollar hv' hrest' =>
      obtain ⟨rfl, rfl⟩ := hv.unique hv'
      rw [ih hrest']

/-! ## The loop -/

/-- **An argument and its operations**: they are well formed and write its
expansion, and no `$` of it is bad. -/
structure Compiled (cf : Conf) (value : Bytes) (ops : List Op) : Prop where
  expands : ∀ r, Expands r value (runOps r ops)
  wellFormed : ∀ op ∈ ops, op.WellFormed
  not_rejects : ¬ cf.Rejects value

namespace Conf

variable {cf : Conf} {fuel : ℕ} {value : Bytes} {ops : List Op}

theorem notMem_takeWhile {ch : UInt8} (h : ch ≠ 36) (rest : Bytes) :
    36 ∉ ch :: rest.takeWhile (· ≠ 36) := by
  rw [List.mem_cons, not_or]
  refine ⟨Ne.symm h, fun hmem => ?_⟩
  simpa using List.mem_takeWhile_imp hmem

theorem text_append (ch : UInt8) (rest : Bytes) :
    ch :: rest = (ch :: rest.takeWhile (· ≠ 36)) ++ rest.dropWhile (· ≠ 36) := by
  rw [List.cons_append, List.takeWhile_append_dropWhile]

/-- **The loop compiles what it accepts.** -/
theorem compiled_of_compileLoop (hfuel : value.length ≤ fuel)
    (h : cf.compileLoop fuel value = .ok ops) : Compiled cf value ops := by
  -- every turn takes a literal or a variable off the front
  induction fuel generalizing value ops with
  | zero =>
    obtain rfl := List.length_eq_zero_iff.1 (Nat.le_zero.1 hfuel)
    obtain rfl := Except.ok.inj h
    exact ⟨fun _ => .nil, by simp, not_rejects_nil⟩
  | succ fuel ih =>
    rcases value with - | ⟨ch, rest⟩
    · obtain rfl := Except.ok.inj h
      exact ⟨fun _ => .nil, by simp, not_rejects_nil⟩
    have hlen : rest.length ≤ fuel := Nat.le_of_succ_le_succ hfuel
    by_cases hch : ch = 36
    · subst hch
      obtain ⟨⟨op, after⟩, hop, h⟩ := Java.bind_eq_ok.1 h
      obtain ⟨ops', hops, h⟩ := Java.bind_eq_ok.1 h
      obtain rfl := Except.ok.inj h
      obtain ⟨v, hv, hknows, rfl⟩ := compileVariable_eq_ok.1 hop
      obtain ⟨front, hfront, -⟩ := hv.exists_front
      have hmore := ih (by rw [hfront, List.length_append] at hlen; omega) hops
      refine ⟨fun r => ?_, ?_, fun hbad => hmore.not_rejects ((rejects_dollar hv hknows).1 hbad)⟩
      · rw [runOps, List.flatMap_cons, run_op]
        exact .dollar hv (hmore.expands r)
      · exact List.forall_mem_cons.2 ⟨wellFormed_op v, hmore.wellFormed⟩
    · rw [compileLoop_text hch] at h
      obtain ⟨ops', hops, h⟩ := Java.bind_eq_ok.1 h
      obtain rfl := Except.ok.inj h
      have hmore := ih ((List.length_dropWhile_le _ _).trans hlen) hops
      have hno := notMem_takeWhile hch rest
      refine ⟨fun r => ?_, ?_, ?_⟩
      · rw [runOps, List.flatMap_cons, run_literal, text_append]
        exact (hmore.expands r).append hno
      · exact List.forall_mem_cons.2 ⟨wellFormed_literal (by simp), hmore.wellFormed⟩
      · rw [text_append, rejects_append hno]
        exact hmore.not_rejects

/-- **What the loop refuses has a bad `$`.** -/
theorem rejects_of_compileLoop {e : FormatError} (h : cf.compileLoop fuel value = .error e) :
    cf.Rejects value := by
  induction fuel generalizing value with
  | zero => cases h
  | succ fuel ih =>
    rcases value with - | ⟨ch, rest⟩
    · cases h
    by_cases hch : ch = 36
    · subst hch
      rcases Java.bind_eq_error.1 h with hop | ⟨⟨op, after⟩, hop, h⟩
      · exact rejects_of_error hop
      · obtain ⟨v, hv, hknows, rfl⟩ := compileVariable_eq_ok.1 hop
        rcases Java.bind_eq_error.1 h with hops | ⟨ops, -, h⟩
        · exact (rejects_dollar hv hknows).2 (ih hops)
        · cases h
    · rw [compileLoop_text hch] at h
      rw [text_append, rejects_append (notMem_takeWhile hch rest)]
      rcases Java.bind_eq_error.1 h with hops | ⟨ops, -, h⟩
      · exact ih hops
      · cases h

end Conf

/-! ## The room for a line -/

/-- **The texts of the log variables fit** the lengths the table has for
them: the conversions of numbers and the cached times. -/
def Request.Fits (r : Request) : Prop := ∀ v : LogVar, (v.run r).length ≤ v.len

section Room

variable {r : Request} {op : Op} {ops : List Op}

/-- Only variables of nginx have length 0, and those have a `getlen`. -/
theorem Op.WellFormed.getlenFn_ne_none (h : op.WellFormed) (hlen : op.len = 0) :
    op.getlenFn ≠ none := by
  rcases op with ⟨len, data⟩ | p | v | name
  · exact absurd hlen h.1.ne'
  · exact absurd hlen (Nat.zero_lt_of_lt h).ne'
  · cases v <;> cases hlen
  · simp [Op.getlenFn]

/-- The handler's loop sums up the lengths of the operations. -/
theorem lenLoop_eq (h : ∀ op ∈ ops, op.WellFormed) (len : ℕ) :
    lenLoop r len ops = some (len + (ops.map (Op.getlen r)).sum) := by
  induction ops generalizing len with
  | nil => rfl
  | cons op ops ih =>
    obtain ⟨hop, hops⟩ := List.forall_mem_cons.1 h
    rw [lenLoop, List.map_cons, List.sum_cons, ← Nat.add_assoc]
    split_ifs with hlen
    · rcases op with ⟨l, data⟩ | p | v | name
      · exact absurd rfl (hop.getlenFn_ne_none hlen)
      · exact absurd rfl (hop.getlenFn_ne_none hlen)
      · exact absurd rfl (hop.getlenFn_ne_none hlen)
      · exact ih hops _
    · rcases op with ⟨l, data⟩ | p | v | name
      · exact ih hops _
      · exact ih hops _
      · exact ih hops _
      · exact absurd rfl hlen

theorem length_unpack (len data : ℕ) : (Op.unpack len data).length = len := by
  induction len generalizing data with
  | zero => rfl
  | succ len ih => rw [Op.unpack, List.length_cons, ih]

/-- No operation writes more than is counted for it. -/
theorem length_run_le (hr : r.Fits) : (op.run r).length ≤ op.getlen r := by
  rcases op with ⟨len, data⟩ | p | v | name
  · exact (length_unpack len data).le
  · exact le_rfl
  · exact hr v
  · simp only [Op.run, Op.variableValue, Op.getlen]
    cases r.getIndexedVariable name <;> exact le_rfl

theorem length_runOps_le (hr : r.Fits) (ops : List Op) :
    (runOps r ops).length ≤ (ops.map (Op.getlen r)).sum := by
  rw [runOps, List.length_flatMap]
  exact List.sum_le_sum fun op _ => length_run_le hr

end Room

/-! ## Formats -/

/-- The arguments of a directive are compiled one by one. -/
theorem Conf.compiled_of_mapM {cf : Conf} {args : List Bytes} {opss : List (List Op)}
    (h : (args.mapM fun value => cf.compileLoop value.length value) = .ok opss) :
    (∀ value ∈ args, ¬ cf.Rejects value) ∧ (∀ op ∈ opss.flatten, op.WellFormed) ∧
      ∀ r, List.Forall₂ (Expands r) args (opss.map (runOps r)) := by
  induction args generalizing opss with
  | nil =>
    obtain rfl := Except.ok.inj h
    exact ⟨by simp, by simp, fun r => .nil⟩
  | cons value args ih =>
    rw [List.mapM_cons] at h
    obtain ⟨ops, hops, h⟩ := Java.bind_eq_ok.1 h
    obtain ⟨opss', hopss, h⟩ := Java.bind_eq_ok.1 h
    obtain rfl := Except.ok.inj h
    have hvalue := compiled_of_compileLoop le_rfl hops
    obtain ⟨hgood, hwell, hexpand⟩ := ih hopss
    refine ⟨List.forall_mem_cons.2 ⟨hvalue.not_rejects, hgood⟩, ?_,
      fun r => .cons (hvalue.expands r) (hexpand r)⟩
    rw [List.flatten_cons, List.forall_mem_append]
    exact ⟨hvalue.wellFormed, hwell⟩

theorem Conf.rejects_of_mapM {cf : Conf} {args : List Bytes} {e : FormatError}
    (h : (args.mapM fun value => cf.compileLoop value.length value) = .error e) :
    ∃ value ∈ args, cf.Rejects value := by
  induction args with
  | nil => cases h
  | cons value args ih =>
    rw [List.mapM_cons] at h
    rcases Java.bind_eq_error.1 h with hvalue | ⟨ops, -, h⟩
    · exact ⟨value, List.mem_cons_self, rejects_of_compileLoop hvalue⟩
    rcases Java.bind_eq_error.1 h with hargs | ⟨opss, -, h⟩
    · obtain ⟨bad, hbad, hrejects⟩ := ih hargs
      exact ⟨bad, List.mem_cons_of_mem _ hbad, hrejects⟩
    · cases h

theorem runOps_flatten (r : Request) (opss : List (List Op)) :
    runOps r opss.flatten = (opss.map (runOps r)).flatten := by
  induction opss with
  | nil => rfl
  | cons ops opss ih =>
    rw [List.flatten_cons, List.map_cons, List.flatten_cons, ← ih]
    exact List.flatMap_append

/-- **Compiling keeps the meaning of a format.** The arguments are refused
just if one of them has a bad `$`. Otherwise the operations write the
expansions of the arguments one behind the other, short literals from the
machine word and longer ones from a copy; the handler's count meets no NULL
`getlen`, and the line with its linefeed is no longer than the count. -/
theorem compileFormat_keeps_meaning (cf : Conf) (args : List Bytes) :
    ((∃ e, cf.compileFormat args = .error e) ↔ ∃ value ∈ args, cf.Rejects value) ∧
      ∀ ops, cf.compileFormat args = .ok ops →
        (∀ op ∈ ops, op.WellFormed ∧ (op.len = 0 → op.getlenFn ≠ none)) ∧
        ∀ r, (∃ texts, List.Forall₂ (Expands r) args texts ∧ runOps r ops = texts.flatten) ∧
          ∃ len, handlerLen r ops = some len ∧ (r.Fits → (logLine r ops).length ≤ len) := by
  refine ⟨⟨?_, ?_⟩, ?_⟩
  · rintro ⟨e, h⟩
    rcases Java.bind_eq_error.1 h with h | ⟨opss, -, h⟩
    · exact Conf.rejects_of_mapM h
    · cases h
  · rintro ⟨value, hvalue, hbad⟩
    rcases h : cf.compileFormat args with e | ops
    · exact ⟨e, rfl⟩
    · obtain ⟨opss, hopss, -⟩ := Java.bind_eq_ok.1 h
      exact absurd hbad ((Conf.compiled_of_mapM hopss).1 value hvalue)
  · intro ops h
    obtain ⟨opss, hopss, h⟩ := Java.bind_eq_ok.1 h
    obtain rfl := Except.ok.inj h
    obtain ⟨-, hwell, hexpand⟩ := Conf.compiled_of_mapM hopss
    refine ⟨fun op hop => ⟨hwell op hop, (hwell op hop).getlenFn_ne_none⟩, fun r => ⟨?_, ?_⟩⟩
    · exact ⟨opss.map (runOps r), hexpand r, runOps_flatten r opss⟩
    · refine ⟨lineLen r opss.flatten, ?_, fun hr => ?_⟩
      · rw [handlerLen, lenLoop_eq hwell, Nat.zero_add]
        rfl
      · rw [logLine, List.length_append]
        exact Nat.add_le_add_right (length_runOps_le hr _) _

/-- A configuration that knows `$uri` only. -/
def uriConf : Conf where
  getVariableIndex name := if name = ascii "uri" then some 0 else none

/-- A request answered 200 for which nginx has no `$uri`. -/
def plainRequest : Request where
  getIndexedVariable := fun _ => none
  headersOutStatus := 200

theorem compileFormat_keeps_meaning_uri :
    plainRequest.Fits ∧ ∃ ops,
      uriConf.compileFormat [ascii "$\x7bstatus\x7d ", ascii "$uri"] = .ok ops ∧
        logLine plainRequest ops = ascii "200 -" ++ linefeed ∧
        ∃ len, handlerLen plainRequest ops = some len ∧
          (logLine plainRequest ops).length ≤ len := by
  have hfits : plainRequest.Fits := by
    intro v
    cases v <;> decide
  have hops : uriConf.compileFormat [ascii "$\x7bstatus\x7d ", ascii "$uri"] =
      .ok [.logVar .status, .copyShort 1 32, .indexed (ascii "uri")] := rfl
  obtain ⟨-, hrun⟩ := (compileFormat_keeps_meaning uriConf _).2 _ hops
  obtain ⟨-, len, hlen, hle⟩ := hrun plainRequest
  exact ⟨hfits, _, hops, by decide, len, hlen, hle hfits⟩

end Nginx

end Xpod
