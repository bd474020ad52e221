import Mathlib.Data.Fintype.Card
import Mathlib.Logic.Relation
import Mathlib.Tactic
/-!
# Recursion on a bounded stack

The body of a recursive procedure is a `Prog`: it returns, throws, or calls
the procedure and goes on with what the call returns. `eval` runs it on a
stack of so many calls, and throws `overflow` when there is none left.

Some stack is enough exactly when no chain of calls goes on forever
(`exists_eval_ne_overflow_iff`). Where there are only finitely many
arguments this is to say that no call is made within itself
(`acc_iff_no_cycle`).
-/

namespace Xpod

namespace Recursion

open Relation

/-! ## Chains in a finite type -/

section Cycles

variable {α : Type*} {step : α → α → Prop} {a : α}

/-- **In a finite type, a chain goes on forever only through a cycle.** -/
theorem acc_iff_no_cycle [Finite α] :
    Acc (fun b a => step a b) a ↔ ∀ b, ReflTransGen step a b → ¬ TransGen step b b := by
  constructor
  · intro h
    induction h with
    | intro a _ ih =>
      intro b hab hcycle
      rcases hab.cases_head with rfl | ⟨c, hac, hcb⟩
      · obtain ⟨c, hac, hca⟩ := TransGen.head'_iff.1 hcycle
        exact ih c hac a hca hcycle
      · exact ih c hac b hcb hcycle
  · intro h
    -- what is reached from `a` is ordered by the chains
    let below : { b // ReflTransGen step a b } → { b // ReflTransGen step a b } → Prop :=
      fun c b => TransGen step b.1 c.1
    have htrans : IsTrans _ below := ⟨fun _ _ _ hxy hyz => hyz.trans hxy⟩
    have hirrefl : Std.Irrefl below := ⟨fun b => h b.1 b.2⟩
    have hacc : ∀ b : { b // ReflTransGen step a b }, Acc (fun c b => step b c) b.1 := by
      intro b
      induction b using (Finite.wellFounded_of_trans_of_irrefl below).induction with
      | _ b ih => exact ⟨_, fun c hbc => ih ⟨c, b.2.tail hbc⟩ (.single hbc)⟩
    exact hacc ⟨a, .refl⟩

end Cycles

/-! ## Programs -/

/-- **A program** that calls a procedure from `α` to `β`. -/
inductive Prog (α β ε ρ : Type)
  | ret (r : ρ)
  | throw (e : ε)
  | call (a : α) (k : β → Prog α β ε ρ)

namespace Prog

variable {α β ε ρ σ : Type}

/-- One program after the other. -/
def bind : Prog α β ε ρ → (ρ → Prog α β ε σ) → Prog α β ε σ
  | ret r, k => k r
  | throw e, _ => throw e
  | call a k', k => call a fun b => (k' b).bind k

/-- What the program does for a procedure that does this. -/
def run (f : α → Except ε β) : Prog α β ε ρ → Except ε ρ
  | ret r => .ok r
  | throw e => .error e
  | call a k => f a >>= fun b => (k b).run f

theorem run_bind (f : α → Except ε β) (p : Prog α β ε ρ) (k : ρ → Prog α β ε σ) :
    (p.bind k).run f = p.run f >>= fun r => (k r).run f := by
  induction p with
  | ret r => rfl
  | throw e => rfl
  | call a k' ih =>
    rw [bind, run, run]
    rcases f a with e | b
    · rfl
    · exact ih b

/-- All that a program throws of itself is of a kind. -/
def Throws (kind : ε → Prop) : Prog α β ε ρ → Prop
  | ret _ => True
  | throw e => kind e
  | call _ k => ∀ b, (k b).Throws kind

theorem Throws.imp {kind kind' : ε → Prop} (h : ∀ e, kind e → kind' e) {p : Prog α β ε ρ}
    (hp : p.Throws kind) : p.Throws kind' := by
  induction p with
  | ret r => trivial
  | throw e => exact h e hp
  | call a k ih => exact fun b => ih b (hp b)

theorem throws_bind {kind : ε → Prop} {p : Prog α β ε ρ} {k : ρ → Prog α β ε σ}
    (hp : p.Throws kind) (hk : ∀ r, (k r).Throws kind) : (p.bind k).Throws kind := by
  induction p with
  | ret r => exact hk r
  | throw e => exact hp
  | call a k' ih => exact fun b => ih b (hp b)

end Prog

/-! ## Running on a stack -/

section Eval

variable {α β ε : Type} (body : α → Prog α β ε β) (overflow : ε)

/-- **The procedure on a stack of so many calls.** -/
def eval : ℕ → α → Except ε β
  | 0, _ => .error overflow
  | stack + 1, a => (body a).run (eval stack)

/-- **What a program returns**, on whatever stack. -/
inductive Yields : Prog α β ε β → β → Prop
  /-- It returns of itself. -/
  | ret (r : β) : Yields (.ret r) r
  /-- A call returns, and the rest of the program does. -/
  | call {a : α} {b r : β} {k : β → Prog α β ε β} (hcall : Yields (body a) b)
      (hrest : Yields (k b) r) : Yields (.call a k) r

/-- **The calls a program makes itself.** -/
inductive Makes : Prog α β ε β → α → Prop
  /-- The first one. -/
  | first (a : α) (k : β → Prog α β ε β) : Makes (.call a k) a
  /-- One after the first has returned. -/
  | later {a a' : α} {b : β} {k : β → Prog α β ε β} (hcall : Yields body (body a) b)
      (hrest : Makes (k b) a') : Makes (.call a k) a'

/-- The call for one argument calls the procedure for another. -/
def Calls (a a' : α) : Prop := Makes body (body a) a'

variable {body overflow}

/-! ### More of a stack -/

/-- A procedure that overflows less often does not change what a program
does without an overflow. -/
theorem run_mono {ρ : Type} {f g : α → Except ε β}
    (hfg : ∀ a, f a ≠ .error overflow → g a = f a) {p : Prog α β ε ρ}
    (hp : p.run f ≠ .error overflow) : p.run g = p.run f := by
  induction p with
  | ret r => rfl
  | throw e => rfl
  | call a k ih =>
    have ha : f a ≠ .error overflow := by
      intro ha
      rw [Prog.run, ha] at hp
      exact hp rfl
    rw [Prog.run] at hp
    rw [Prog.run, Prog.run, hfg a ha]
    rcases hfa : f a with e | b
    · rfl
    · rw [hfa] at hp
      exact ih b hp

theorem eval_succ {stack : ℕ} {a : α} (h : eval body overflow stack a ≠ .error overflow) :
    eval body overflow (stack + 1) a = eval body overflow stack a := by
  induction stack generalizing a with
  | zero => exact absurd rfl h
  | succ stack ih => exact run_mono (fun a' ha' => ih ha') h

/-- **More of a stack changes nothing.** -/
theorem eval_mono {stack stack' : ℕ} (hle : stack ≤ stack') {a : α}
    (h : eval body overflow stack a ≠ .error overflow) :
    eval body overflow stack' a = eval body overflow stack a := by
  induction stack', hle using Nat.le_induction with
  | base => rfl
  | succ stack' _ ih => rw [eval_succ (by rwa [ih]), ih]

/-! ### What is returned -/

/-- What is returned on some stack is what the program returns. -/
theorem yields_of_run {stack : ℕ} {p : Prog α β ε β} {r : β}
    (h : p.run (eval body overflow stack) = .ok r) : Yields body p r := by
  -- on the stack for the calls, and within it on the program
  induction stack generalizing p r with
  | zero =>
    cases p with
    | ret r' =>
      obtain rfl := Except.ok.inj h
      exact .ret r'
    | throw e => exact nomatch h
    | call a k => exact nomatch h
  | succ stack ih =>
    induction p with
    | ret r' =>
      obtain rfl := Except.ok.inj h
      exact .ret r'
    | throw e => exact nomatch h
    | call a k ihk =>
      rw [Prog.run] at h
      rcases ha : eval body overflow (stack + 1) a with e | b
      · rw [ha] at h
        exact nomatch h
      · rw [ha] at h
        exact .call (ih ha) (ihk b h)

/-- A program returns what it returns on every stack that is enough. -/
theorem run_of_yields {p : Prog α β ε β} {r : β} (h : Yields body p r) {stack : ℕ}
    (hp : p.run (eval body overflow stack) ≠ .error overflow) :
    p.run (eval body overflow stack) = .ok r := by
  induction h generalizing stack with
  | ret r => rfl
  | @call a b r k hcall hrest ihcall ihrest =>
    rw [Prog.run] at hp ⊢
    cases stack with
    | zero => exact absurd rfl hp
    | succ stack =>
      -- had the call overflowed, so would the program
      have ha : eval body overflow (stack + 1) a = .ok b := by
        refine ihcall fun ha => ?_
        rw [eval, ha] at hp
        exact hp rfl
      rw [ha] at hp ⊢
      exact ihrest hp

theorem eval_of_yields {a : α} {b : β} (h : Yields body (body a) b) {stack : ℕ}
    (ha : eval body overflow stack a ≠ .error overflow) :
    eval body overflow stack a = .ok b := by
  cases stack with
  | zero => exact absurd rfl ha
  | succ stack => exact run_of_yields h ha

/-! ### Which calls are made -/

theorem eval_ne_of_run_call {ρ : Type} {a : α} {k : β → Prog α β ε ρ} {stack : ℕ}
    (h : (Prog.call a k).run (eval body overflow stack) ≠ .error overflow) :
    eval body overflow stack a ≠ .error overflow := by
  intro ha
  rw [Prog.run, ha] at h
  exact h rfl

/-- A program that does not overflow makes no call that does. -/
theorem eval_ne_of_makes {p : Prog α β ε β} {a : α} (h : Makes body p a) {stack : ℕ}
    (hp : p.run (eval body overflow stack) ≠ .error overflow) :
    eval body overflow stack a ≠ .error overflow := by
  induction h with
  | first a k => exact eval_ne_of_run_call hp
  | @later a a' b k hcall _ ih =>
    have ha := eval_of_yields hcall (eval_ne_of_run_call hp)
    rw [Prog.run, ha] at hp
    exact ih hp

/-- A program overflows on every stack only if a call does that it makes. -/
theorem exists_run_ne {p : Prog α β ε β} (hthrows : p.Throws (· ≠ overflow))
    (hcalls : ∀ a, Makes body p a → ∃ stack, eval body overflow stack a ≠ .error overflow) :
    ∃ stack, p.run (eval body overflow stack) ≠ .error overflow := by
  induction p with
  | ret r => exact ⟨0, nofun⟩
  | throw e => exact ⟨0, fun h => hthrows (Except.error.inj h)⟩
  | call a k ih =>
    obtain ⟨stack, ha⟩ := hcalls a (.first a k)
    rcases heval : eval body overflow stack a with e | b
    · refine ⟨stack, ?_⟩
      rw [Prog.run, heval]
      rwa [heval] at ha
    · have hyields : Yields body (body a) b := by
        cases stack with
        | zero => exact nomatch heval
        | succ stack => exact yields_of_run heval
      obtain ⟨stack', hrest⟩ := ih b (hthrows b) fun a' h => hcalls a' (.later hyields h)
      -- a stack that is enough for both
      refine ⟨max stack stack', ?_⟩
      have hrun := run_mono (fun a' ha' => eval_mono (le_max_right stack stack') ha') hrest
      rw [Prog.run, eval_mono (le_max_left stack stack') ha, heval]
      exact fun h => hrest (hrun.symm.trans h)

/-- **Some stack is enough exactly when no chain of calls goes on
forever.** -/
theorem exists_eval_ne_overflow_iff (hthrows : ∀ a, (body a).Throws (· ≠ overflow)) {a : α} :
    (∃ stack, eval body overflow stack a ≠ .error overflow) ↔
      Acc (fun a' a => Calls body a a') a := by
  constructor
  · rintro ⟨stack, h⟩
    induction stack generalizing a with
    | zero => exact absurd rfl h
    | succ stack ih => exact ⟨_, fun a' ha' => ih (eval_ne_of_makes ha' h)⟩
  · intro h
    induction h with
    | intro a _ ih =>
      obtain ⟨stack, hrun⟩ := exists_run_ne (hthrows a) ih
      exact ⟨stack + 1, hrun⟩

/-! ### What is thrown -/

theorem kind_of_run {ρ : Type} {kind : ε → Prop} {f : α → Except ε β}
    (hf : ∀ a e, f a = .error e → e = overflow ∨ kind e) {p : Prog α β ε ρ} (hp : p.Throws kind)
    {e : ε} (h : p.run f = .error e) : e = overflow ∨ kind e := by
  induction p with
  | ret r => exact nomatch h
  | throw e' =>
    obtain rfl := Except.error.inj h
    exact .inr hp
  | call a k ih =>
    rw [Prog.run] at h
    rcases hfa : f a with e' | b
    · rw [hfa] at h
      obtain rfl := Except.error.inj h
      exact hf a e' hfa
    · rw [hfa] at h
      exact ih b (hp b) h

/-- **All that is thrown but the overflow is thrown by the body.** -/
theorem kind_of_eval {kind : ε → Prop} (hthrows : ∀ a, (body a).Throws kind) {stack : ℕ}
    {a : α} {e : ε} (h : eval body overflow stack a = .error e) : e = overflow ∨ kind e := by
  induction stack generalizing a e with
  | zero => exact .inl (Except.error.inj h).symm
  | succ stack ih => exact kind_of_run (fun a e => ih) (hthrows a) h

end Eval

end Recursion

end Xpod
