import Mathlib.Algebra.BigOperators.Group.Finset.Basic
import Mathlib.Tactic
/-!
# Threads that take turns

A system of threads moves by events, one at a time: an interleaving is a
list of events. Each thread has a state of its own, and an event changes
the state of one of them.
-/

namespace Xpod

namespace Threads

section Run

variable {σ ε : Type*} {step : σ → ε → σ}

/-- The system after the events. -/
def run (step : σ → ε → σ) (s : σ) (events : List ε) : σ := events.foldl step s

@[simp] theorem run_nil (s : σ) : run step s [] = s := rfl

@[simp] theorem run_cons (s : σ) (e : ε) (events : List ε) :
    run step s (e :: events) = run step (step s e) events := rfl

theorem run_append (s : σ) (events events' : List ε) :
    run step s (events ++ events') = run step (run step s events) events' :=
  List.foldl_append

/-- **What every event keeps, every interleaving keeps.** -/
theorem run_keeps {Inv : σ → Prop} (h : ∀ s e, Inv s → Inv (step s e)) {s : σ} (hs : Inv s)
    (events : List ε) : Inv (run step s events) := by
  induction events generalizing s with
  | nil => exact hs
  | cons e events ih => exact ih (h s e hs)

end Run

/-- What a sum over the threads becomes when one of them moves. -/
theorem sum_update_add {ι τ M : Type*} [Fintype ι] [DecidableEq ι] [AddCommMonoid M]
    (threads : ι → τ) (i : ι) (t : τ) (f : τ → M) :
    (∑ j, f (Function.update threads i t j)) + f (threads i) = (∑ j, f (threads j)) + f t := by
  have hother : ∀ j ∈ Finset.univ.erase i, f (Function.update threads i t j) = f (threads j) := by
    intro j hj
    rw [Function.update_of_ne (Finset.ne_of_mem_erase hj)]
  rw [← Finset.add_sum_erase _ (fun j => f (Function.update threads i t j)) (Finset.mem_univ i),
    ← Finset.add_sum_erase _ (fun j => f (threads j)) (Finset.mem_univ i),
    Finset.sum_congr rfl hother, Function.update_self]
  ac_rfl

end Threads

end Xpod
