import Mathlib.Data.List.Basic
import Mathlib.Tactic
import Xpod.Common.Fields
import Xpod.Nginx.Model.LogFormat
/-!
# Formats of variables with a delimiter between each two

The collector's formats are variables with a backtick between each two.
Such a format compiles, and what it writes for a request is the values
of its variables with a backtick between each two: nothing is escaped.
-/

namespace Xpod

namespace Nginx

/-- **A variable's name**, as `compile_format` reads one behind a `$`. -/
structure VarName where
  bytes : Bytes
  bytes_ne : bytes ≠ []
  isName : ∀ ch ∈ bytes, isNameByte ch = true
deriving DecidableEq

namespace VarName

/-- The operation `compile_format` makes for `$v`. -/
def op (v : VarName) : Op := Op.ofName v.bytes

/-- The value nginx has for `$v`: the text of a log variable, the bytes of
a variable of nginx, or a dash when there is none. -/
def value (r : Request) (v : VarName) : Bytes := v.op.run r

end VarName

/-- The bytes the collector puts between two variables. -/
def backtick : Bytes := [96]

/-- The format with a backtick between each two of the variables. -/
def tickFormat (vs : List VarName) : Bytes :=
  backtick.intercalate (vs.map fun v => 36 :: v.bytes)

/-- The operations of such a format. -/
def tickOps (vs : List VarName) : List Op :=
  (vs.map VarName.op).intersperse (Op.literal backtick)

/-! ## Compiling -/

theorem takeWhile_name (v : VarName) {rest : Bytes} (h : rest.takeWhile isNameByte = []) :
    (v.bytes ++ rest).takeWhile isNameByte = v.bytes := by
  rw [List.takeWhile_append_of_pos v.isName, h, List.append_nil]

theorem dropWhile_name (v : VarName) {rest : Bytes} (h : rest.takeWhile isNameByte = []) :
    (v.bytes ++ rest).dropWhile isNameByte = rest := by
  have hdrop : rest.dropWhile isNameByte = rest := by
    simpa [h] using List.takeWhile_append_dropWhile (p := isNameByte) (l := rest)
  rw [List.dropWhile_append_of_pos v.isName, hdrop]

/-- Without an opening brace the name is read where it stands. -/
theorem compileVariable_of_head {b : UInt8} {bs : Bytes} (h : b ≠ 123) :
    compileVariable (b :: bs) =
      if ((b :: bs).takeWhile isNameByte).isEmpty then .error (.invalidParameter (36 :: b :: bs))
      else .ok (Op.ofName ((b :: bs).takeWhile isNameByte), (b :: bs).dropWhile isNameByte) := by
  unfold compileVariable
  split
  · contradiction
  · exact absurd (List.cons.inj ‹_›).1 h
  · exact absurd (List.cons.inj ‹_›).1 h
  · rfl

/-- A name behind a `$` is read as far as it goes. -/
theorem compileVariable_name (v : VarName) {rest : Bytes}
    (h : rest.takeWhile isNameByte = []) :
    compileVariable (v.bytes ++ rest) = .ok (v.op, rest) := by
  have htake := takeWhile_name v h
  have hdrop := dropWhile_name v h
  obtain ⟨b, bs, hb⟩ := List.exists_cons_of_ne_nil v.bytes_ne
  have hbrace : b ≠ 123 := by
    rintro rfl
    have hname := v.isName 123 (by rw [hb]; exact List.mem_cons_self)
    exact absurd hname (by decide)
  rw [hb, List.cons_append] at htake hdrop ⊢
  rw [compileVariable_of_head hbrace, htake, hdrop, ← hb, if_neg (by simp [v.bytes_ne])]
  rfl

theorem tickFormat_singleton (v : VarName) : tickFormat [v] = 36 :: v.bytes := by
  simp [tickFormat]

theorem tickFormat_cons_cons (v u : VarName) (vs : List VarName) :
    tickFormat (v :: u :: vs) = 36 :: (v.bytes ++ 96 :: tickFormat (u :: vs)) := by
  simp only [tickFormat, backtick, List.map_cons, Fields.intercalate_cons_cons,
    List.cons_append]

/-- A format of variables begins with the `$` of its first one. -/
theorem exists_tickFormat_cons (v : VarName) (vs : List VarName) :
    ∃ rest, tickFormat (v :: vs) = 36 :: rest := by
  rcases vs with - | ⟨u, vs⟩
  · exact ⟨_, tickFormat_singleton v⟩
  · exact ⟨_, tickFormat_cons_cons v u vs⟩

/-- The backtick between two variables is a literal of its own. -/
theorem compileLoop_backtick (fuel : ℕ) (rest : Bytes) :
    compileLoop (fuel + 1) (96 :: 36 :: rest) =
      (compileLoop fuel (36 :: rest)).map (Op.literal backtick :: ·) := by
  rw [compileLoop]
  · rw [List.takeWhile_cons_of_neg (by decide), List.dropWhile_cons_of_neg (by decide)]
    cases compileLoop fuel (36 :: rest) <;> rfl
  · decide

/-- **The loop reads variable, backtick, variable, …** -/
theorem compileLoop_tickFormat {v : VarName} {vs : List VarName} {fuel : ℕ}
    (hfuel : (tickFormat (v :: vs)).length ≤ fuel) :
    compileLoop fuel (tickFormat (v :: vs)) = .ok (tickOps (v :: vs)) := by
  induction vs generalizing v fuel with
  | nil =>
    rw [tickFormat_singleton] at hfuel ⊢
    obtain ⟨fuel, rfl⟩ := Nat.exists_eq_add_of_le' (le_trans (by simp) hfuel : 1 ≤ fuel)
    have hvar : compileVariable (v.bytes ++ []) = .ok (v.op, []) := compileVariable_name v rfl
    rw [List.append_nil] at hvar
    rw [compileLoop, hvar]
    cases fuel <;> rfl
  | cons u vs ih =>
    rw [tickFormat_cons_cons] at hfuel ⊢
    simp only [List.length_cons, List.length_append] at hfuel
    obtain ⟨fuel, rfl⟩ := Nat.exists_eq_add_of_le' (by omega : 2 ≤ fuel)
    have hrest : compileLoop fuel (tickFormat (u :: vs)) = .ok (tickOps (u :: vs)) :=
      ih (by omega)
    obtain ⟨rest, hr⟩ := exists_tickFormat_cons u vs
    have hstop : (96 :: tickFormat (u :: vs)).takeWhile isNameByte = [] :=
      List.takeWhile_cons_of_neg (by decide)
    rw [compileLoop, compileVariable_name v hstop]
    change (compileLoop (fuel + 1) (96 :: tickFormat (u :: vs)) >>= fun ops => _) = _
    rw [hr, compileLoop_backtick, ← hr, hrest]
    rfl

/-- **A format of variables and backticks compiles** to its variables with
the backtick between each two. -/
theorem compileFormat_tickFormat (v : VarName) (vs : List VarName) :
    compileFormat [tickFormat (v :: vs)] = .ok (tickOps (v :: vs)) := by
  unfold compileFormat
  simp only [List.mapM_cons, List.mapM_nil, compileLoop_tickFormat le_rfl]
  change Except.ok _ = _
  simp

/-! ## Running -/

/-- The bytes of a short literal come out of `op->data` in order. -/
theorem unpack_pack (bs : Bytes) : Op.unpack bs.length (Op.pack bs) = bs := by
  induction bs with
  | nil => rfl
  | cons b bs ih =>
    have hb := b.toNat_lt
    have hlow : (b.toNat + Op.pack bs <<< 8) &&& 0xff = b.toNat := by
      rw [Nat.shiftLeft_eq, show (0xff : ℕ) = 2 ^ 8 - 1 from rfl, Nat.and_two_pow_sub_one_eq_mod]
      omega
    have hhigh : (b.toNat + Op.pack bs <<< 8) >>> 8 = Op.pack bs := by
      rw [Nat.shiftLeft_eq, Nat.shiftRight_eq_div_pow]
      omega
    rw [List.length_cons, Op.unpack, Op.pack, hlow, hhigh, ih]
    simp

/-- **A literal is written as it stands in the format.** -/
@[simp] theorem run_literal (r : Request) (data : Bytes) : (Op.literal data).run r = data := by
  unfold Op.literal
  split
  · exact unpack_pack data
  · rfl

/-- **The line of such a format** is the values as they are, with a
backtick between each two. -/
theorem runOps_tickOps (r : Request) (v : VarName) (vs : List VarName) :
    runOps r (tickOps (v :: vs)) = backtick.intercalate ((v :: vs).map (VarName.value r)) := by
  induction vs generalizing v with
  | nil => simp [runOps, tickOps, VarName.value]
  | cons u vs ih =>
    have hu := ih u
    have hops : tickOps (v :: u :: vs) = v.op :: Op.literal backtick :: tickOps (u :: vs) := rfl
    simp only [List.map_cons, backtick, Fields.intercalate_cons_cons] at hu ⊢
    rw [← hu, hops]
    simp [runOps, VarName.value, backtick]

end Nginx

end Xpod
