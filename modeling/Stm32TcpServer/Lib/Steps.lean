import Mathlib.Logic.Function.Iterate

/-! # Steps of a deterministic machine

The statements of a function, executed one after the other, are the iterates of a map `step`. A
state `y` is reached from `x` when some iterate leads there: `Reaches.trans` puts pieces of an
execution together, `Reaches.invariant` carries over what every step keeps. -/

namespace Stm32TcpServer.Lib.Steps

variable {σ : Type*} {step : σ → σ} {x y z : σ}

/-- Some steps lead from `x` to `y`. -/
def Reaches (step : σ → σ) (x y : σ) : Prop := ∃ n, step^[n] x = y

theorem Reaches.head (h : Reaches step (step x) y) : Reaches step x y := by
  obtain ⟨n, rfl⟩ := h
  exact ⟨n + 1, rfl⟩

theorem Reaches.trans (h : Reaches step x y) (h' : Reaches step y z) : Reaches step x z := by
  obtain ⟨m, rfl⟩ := h
  obtain ⟨n, rfl⟩ := h'
  exact ⟨n + m, Function.iterate_add_apply _ _ _ _⟩

theorem Reaches.invariant {P : σ → Prop} (hstep : ∀ x, P x → P (step x)) (hx : P x)
    (h : Reaches step x y) : P y := by
  obtain ⟨n, rfl⟩ := h
  induction n generalizing x with
  | zero => exact hx
  | succ n ih => exact ih (hstep x hx)

end Stm32TcpServer.Lib.Steps
