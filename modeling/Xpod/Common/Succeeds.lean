import Mathlib.Data.Option.Basic
import Mathlib.Tactic
/-!
# Computations that succeed

A computation that may fail is specified by saying that it does not, and
what holds of its result, or by saying only what holds of its result. The
rules follow the program: one for each way to put computations together.
-/

namespace Xpod

/-- The computation does not fail and its result satisfies `P`. -/
def Succeeds {α : Type*} (x : Option α) (P : α → Prop) : Prop := ∃ a, x = some a ∧ P a

namespace Succeeds

universe u

variable {α β : Type u} {γ : Type*} {x : Option α} {P Q : α → Prop} {R : β → Prop}

theorem some {a : α} (h : P a) : Succeeds (Option.some a) P := ⟨a, rfl, h⟩

theorem mono (h : Succeeds x P) (hPQ : ∀ a, P a → Q a) : Succeeds x Q := by
  obtain ⟨a, hx, ha⟩ := h
  exact ⟨a, hx, hPQ a ha⟩

theorem bind {f : α → Option β} (h : Succeeds x P) (hf : ∀ a, P a → Succeeds (f a) R) :
    Succeeds (x >>= f) R := by
  obtain ⟨a, rfl, ha⟩ := h
  exact hf a ha

theorem of_eq {a : α} (hx : x = Option.some a) (h : P a) : Succeeds x P := ⟨a, hx, h⟩

theorem eq_some {a : α} (h : Succeeds x P) (hx : x = Option.some a) : P a := by
  obtain ⟨a', rfl, ha⟩ := h
  exact Option.some.inj hx ▸ ha

theorem and (hP : Succeeds x P) (hQ : Succeeds x Q) : Succeeds x fun a => P a ∧ Q a := by
  obtain ⟨a, hx, ha⟩ := hP
  exact ⟨a, hx, ha, hQ.eq_some hx⟩

theorem ite {c : Prop} [Decidable c] {y : Option α} (hx : c → Succeeds x P)
    (hy : ¬ c → Succeeds y P) : Succeeds (if c then x else y) P := by
  split
  case isTrue hc => exact hx hc
  case isFalse hc => exact hy hc

/-- **A loop over a list succeeds** when each round does, where `I` says
what holds with the rest of the list still to come. -/
theorem foldlM {f : β → γ → Option β} (I : List γ → β → Prop)
    (h : ∀ c l b, I (c :: l) b → Succeeds (f b c) (I l)) {l : List γ} {b : β} (hb : I l b) :
    Succeeds (l.foldlM f b) (I []) := by
  induction l generalizing b with
  | nil => exact Succeeds.some hb
  | cons c l ih =>
    rw [List.foldlM_cons]
    exact Succeeds.bind (h c l b hb) fun b' hb' => ih hb'

end Succeeds

/-- If the computation does not fail, its result satisfies `P`. -/
def Ensures {α : Type*} (x : Option α) (P : α → Prop) : Prop := ∀ a, x = some a → P a

namespace Ensures

universe u

variable {α β : Type u} {γ : Type*} {x : Option α} {P Q : α → Prop} {R : β → Prop}

theorem some {a : α} (h : P a) : Ensures (Option.some a) P := by
  rintro a' ⟨⟩
  exact h

theorem none : Ensures (Option.none : Option α) P := by
  rintro a ⟨⟩

theorem mono (h : Ensures x P) (hPQ : ∀ a, P a → Q a) : Ensures x Q :=
  fun a ha => hPQ a (h a ha)

theorem bind {f : α → Option β} (h : Ensures x P)
    (hf : ∀ a, x = Option.some a → P a → Ensures (f a) R) : Ensures (x >>= f) R := by
  intro b hb
  obtain ⟨a, ha, hfa⟩ := Option.bind_eq_some_iff.1 hb
  exact hf a ha (h a ha) b hfa

/-- The first computation only reads. -/
theorem bind_read {f : α → Option β} (hf : ∀ a, x = Option.some a → Ensures (f a) R) :
    Ensures (x >>= f) R :=
  bind (P := fun _ => True) (fun _ _ => trivial) fun a ha _ => hf a ha

theorem ite {c : Prop} [Decidable c] {y : Option α} (hx : c → Ensures x P)
    (hy : ¬ c → Ensures y P) : Ensures (if c then x else y) P := by
  split
  case isTrue hc => exact hx hc
  case isFalse hc => exact hy hc

/-- **A loop over a list keeps an invariant** that each round keeps. -/
theorem foldlM {f : β → γ → Option β} (I : β → Prop) {l : List γ}
    (h : ∀ c ∈ l, ∀ b, I b → Ensures (f b c) I) {b : β} (hb : I b) :
    Ensures (l.foldlM f b) I := by
  induction l generalizing b with
  | nil => exact Ensures.some hb
  | cons c l ih =>
    rw [List.foldlM_cons]
    exact (h c List.mem_cons_self b hb).bind fun b' _ hb' =>
      ih (fun c' hc' => h c' (List.mem_cons_of_mem _ hc')) hb'

end Ensures

end Xpod
