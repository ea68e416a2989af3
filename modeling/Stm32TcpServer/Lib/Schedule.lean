import Mathlib.Data.List.Basic

/-! # Fair schedules of a deterministic machine

Several parties act in turn, in an order that is not known: `ev n` is the party that acts at the
time `n`. A schedule is fair if every party acts again and again. `eventually` is the rule for what
happens in every fair schedule: a rank that no step raises, and that in each state one of the
parties lowers. -/

namespace Stm32TcpServer.Lib.Schedule

variable {σ ε : Type*} {step : σ → ε → σ} {s : σ} {ev : ℕ → ε}

/-- The state at the time `n`. -/
def stateAt (step : σ → ε → σ) (s : σ) (ev : ℕ → ε) : ℕ → σ
  | 0 => s
  | n + 1 => step (stateAt step s ev n) (ev n)

/-- **A fair schedule.** -/
def Fair (ev : ℕ → ε) : Prop := ∀ e n, ∃ m, n ≤ m ∧ ev m = e

/-- **The invariant rule**: what every step keeps holds at every time. -/
theorem always (Inv : σ → Prop) (hstep : ∀ s e, Inv s → Inv (step s e)) (hs : Inv s) (n : ℕ) :
    Inv (stateAt step s ev n) := by
  induction n with
  | zero => exact hs
  | succ n ih => exact hstep _ _ ih

/-- **The progress rule.** Every step ends the wait or lowers the rank or, if it is not the step of
the helpful party, leaves the rank and the helpful party as they are. -/
theorem eventually (Inv Done : σ → Prop) (rank : σ → ℕ) (helpful : σ → ε)
    (hinv : ∀ s e, Inv s → Inv (step s e))
    (hstep : ∀ s e, Inv s → ¬ Done s → rank (step s e) < rank s ∨
      rank (step s e) = rank s ∧ helpful (step s e) = helpful s ∧ e ≠ helpful s)
    (hfair : Fair ev) (hs : Inv s) : ∃ n, Done (stateAt step s ev n) := by
  suffices h : ∀ r n, rank (stateAt step s ev n) = r → ∃ m, Done (stateAt step s ev m) from
    h _ 0 rfl
  intro r
  induction r using Nat.strongRecOn with
  | ind r ih =>
    -- the helpful party acts after `d` more steps; inner induction on `d`
    suffices h : ∀ d n, rank (stateAt step s ev n) = r →
        ev (n + d) = helpful (stateAt step s ev n) → ∃ m, Done (stateAt step s ev m) by
      intro n hr
      obtain ⟨m, hm, he⟩ := hfair (helpful (stateAt step s ev n)) n
      refine h (m - n) n hr ?_
      rw [Nat.add_sub_cancel' hm]
      exact he
    intro d
    induction d with
    | zero =>
      intro n hr he
      by_cases hd : Done (stateAt step s ev n)
      · exact ⟨n, hd⟩
      rcases hstep _ (ev n) (always Inv hinv hs n) hd with hlt | ⟨-, -, hne⟩
      · exact ih _ (hr ▸ hlt) (n + 1) rfl
      · exact absurd he hne
    | succ d ihd =>
      intro n hr he
      by_cases hd : Done (stateAt step s ev n)
      · exact ⟨n, hd⟩
      rcases hstep _ (ev n) (always Inv hinv hs n) hd with hlt | ⟨heq, hhelp, -⟩
      · exact ih _ (hr ▸ hlt) (n + 1) rfl
      · refine ihd (n + 1) (heq.trans hr) ?_
        rw [show n + 1 + d = n + (d + 1) by omega, he]
        exact hhelp.symm

end Stm32TcpServer.Lib.Schedule
