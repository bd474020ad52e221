import Mathlib.Data.List.Basic
import Mathlib.Tactic
/-!
# Runs with an output for each step

A machine steps over a list of inputs and gives an output for each.
-/

namespace Xpod

namespace Run

variable {σ ι ο κ : Type*}

/-- The last state and the outputs of a run over the inputs. -/
def run (step : σ → ι → σ × ο) : σ → List ι → σ × List ο
  | s, [] => (s, [])
  | s, i :: is =>
    ((run step (step s i).1 is).1, (step s i).2 :: (run step (step s i).1 is).2)

variable (step : σ → ι → σ × ο) (s : σ)

@[simp] theorem run_nil : run step s [] = (s, []) := rfl

@[simp] theorem run_cons (i : ι) (is : List ι) :
    run step s (i :: is) =
      ((run step (step s i).1 is).1, (step s i).2 :: (run step (step s i).1 is).2) := rfl

theorem run_append (is js : List ι) :
    run step s (is ++ js) =
      ((run step (run step s is).1 js).1,
        (run step s is).2 ++ (run step (run step s is).1 js).2) := by
  induction is generalizing s with
  | nil => rfl
  | cons i is ih => simp only [List.cons_append, run_cons, ih]

theorem run_map (f : κ → ι) (ks : List κ) :
    run step s (ks.map f) = run (fun s k => step s (f k)) s ks := by
  induction ks generalizing s with
  | nil => rfl
  | cons k ks ih => simp only [List.map_cons, run_cons, ih]

/-- **A loop in a loop is one loop** over the inner inputs of each outer
one, with the outputs in the same order. -/
theorem run_flatMap (inputs : κ → List ι) (ks : List κ) :
    run step s (ks.flatMap inputs) =
      ((run (fun s k => run step s (inputs k)) s ks).1,
        (run (fun s k => run step s (inputs k)) s ks).2.flatten) := by
  induction ks generalizing s with
  | nil => rfl
  | cons k ks ih => simp only [List.flatMap_cons, run_append, run_cons, List.flatten_cons, ih]

/-- **What every step keeps, every run keeps.** -/
theorem run_keeps (Inv : σ → Prop) (h : ∀ s i, Inv s → Inv (step s i).1) {s : σ} (hs : Inv s)
    (is : List ι) : Inv (run step s is).1 := by
  induction is generalizing s with
  | nil => exact hs
  | cons i is ih => exact ih (h s i hs)

/-- Two machines that agree where an invariant holds have the same runs
there. -/
theorem run_congr {step₁ step₂ : σ → ι → σ × ο} {Inv : σ → Prop}
    (hkeep : ∀ s i, Inv s → Inv (step₁ s i).1)
    (heq : ∀ s i, Inv s → step₁ s i = step₂ s i) {s : σ} (hs : Inv s) (is : List ι) :
    run step₁ s is = run step₂ s is := by
  induction is generalizing s with
  | nil => rfl
  | cons i is ih => rw [run_cons, run_cons, ih (hkeep s i hs), heq s i hs]

end Run

end Xpod
