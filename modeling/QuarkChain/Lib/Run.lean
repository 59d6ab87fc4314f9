/-
# Guarded runs

A system takes steps labelled by events; `Reaches` collects the states of all runs whose every step
meets a guard on the state before the step and the event.
-/
import Mathlib.Logic.Basic

namespace QuarkChain.Run

variable {σ α : Type*}

/-- The states reached from `s₀` by steps that all meet the guard. -/
inductive Reaches (Step : σ → α → σ → Prop) (Guard : σ → α → Prop) (s₀ : σ) : σ → Prop
  | start : Reaches Step Guard s₀ s₀
  | step {s s' : σ} {a : α} (h : Reaches Step Guard s₀ s) (hg : Guard s a) (hs : Step s a s') :
      Reaches Step Guard s₀ s'

/-- **Induction over a run.** -/
theorem Reaches.induct_inv {Step : σ → α → σ → Prop} {Guard : σ → α → Prop} {s₀ s : σ}
    (h : Reaches Step Guard s₀ s) (Inv : σ → Prop) (hstart : Inv s₀)
    (hstep : ∀ s a s', Inv s → Guard s a → Step s a s' → Inv s') : Inv s := by
  induction h with
  | start => exact hstart
  | step _ hg hs ih => exact hstep _ _ _ ih hg hs

end QuarkChain.Run
