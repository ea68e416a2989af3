import Mathlib.Data.List.Basic
import Mathlib.Data.Option.Basic

/-! # Runs of a system of events

A system is a function `step : σ → ε → Option σ`: in the state `s` the event `e` leads to the state
`step s e`, or cannot happen there (`none`). A *run* is a list of events, each possible where it is
due. A property of every reachable state is proved by an invariant that each step keeps
(`invariant`); when a step keeps it only under a condition `G` on the event and the state before it,
the property holds along every run whose steps all meet `G` (`Along`).

* `guard_eq_some`, `excluded_eq_some`: what a step under a condition has done.
* `run_append`: a run in two parts.
* `invariant`: the invariant rule for runs under a condition; `invariant'` without one.
* `always_iff_along`: a property that a step keeps exactly if it meets a condition holds in all
  states of a run exactly if all its steps do.
* `simulation`: a machine that behaves like the system in each step does so along every run.
* `twins`: what two runs in lock-step have in common.
* `count`: how many steps of a run do not meet a condition; `count_eq_zero_iff`. -/

namespace Stm32TcpServer.Lib.Runs

variable {σ ε : Type*} {step : σ → ε → Option σ} {G : σ → ε → Prop} {Inv : σ → Prop}

/-- The state a list of events leads to, if each of them can happen where it is due. -/
def run (step : σ → ε → Option σ) : σ → List ε → Option σ
  | s, [] => some s
  | s, e :: es => (step s e).bind fun s' => run step s' es

/-- **Every step of the run meets the condition `G`.** -/
def Along (step : σ → ε → Option σ) (G : σ → ε → Prop) : σ → List ε → Prop
  | _, [] => True
  | s, e :: es => G s e ∧ (step s e).elim True fun s' => Along step G s' es

@[simp] theorem run_nil (s : σ) : run step s [] = some s := rfl

@[simp] theorem along_nil (s : σ) : Along step G s [] := trivial

theorem run_cons (s : σ) (e : ε) (es : List ε) :
    run step s (e :: es) = (step s e).bind fun s' => run step s' es := rfl

theorem run_cons_some {s s' : σ} {e : ε} (h : step s e = some s') (es : List ε) :
    run step s (e :: es) = run step s' es := by
  rw [run_cons, h]; rfl

theorem run_cons_eq_some {s t : σ} {e : ε} {es : List ε} :
    run step s (e :: es) = some t ↔ ∃ s', step s e = some s' ∧ run step s' es = some t := by
  rw [run_cons, Option.bind_eq_some_iff]

theorem along_cons_some {s s' : σ} {e : ε} (h : step s e = some s') (es : List ε) :
    Along step G s (e :: es) ↔ G s e ∧ Along step G s' es := by
  rw [Along, h]; rfl

theorem guard_eq_some {p : Prop} [Decidable p] {x y : σ}
    (h : (if p then some x else none) = some y) : p ∧ y = x := by
  split_ifs at h with hp
  exact ⟨hp, (Option.some.inj h).symm⟩

theorem excluded_eq_some {p : Prop} [Decidable p] {x y : σ}
    (h : (if p then none else some x) = some y) : ¬ p ∧ y = x := by
  split_ifs at h with hp
  exact ⟨hp, (Option.some.inj h).symm⟩

theorem run_append : ∀ (s : σ) (es es' : List ε),
    run step s (es ++ es') = (run step s es).bind fun s' => run step s' es'
  | s, [], es' => rfl
  | s, e :: es, es' => by
    rw [List.cons_append, run_cons, run_cons]
    cases h : step s e with
    | none => rfl
    | some s' => exact run_append s' es es'

theorem Along.mono {G' : σ → ε → Prop} (h : ∀ s e, G s e → G' s e) {s : σ} {es : List ε}
    (hG : Along step G s es) : Along step G' s es := by
  induction es generalizing s with
  | nil => trivial
  | cons e es ih =>
    refine ⟨h s e hG.1, ?_⟩
    cases he : step s e with
    | none => trivial
    | some s' =>
      rw [along_cons_some he] at hG
      exact ih hG.2

variable (Inv) in
/-- **The invariant rule.** What every step that meets `G` keeps holds at the end of every run
whose steps all meet `G`. -/
theorem invariant (hstep : ∀ s e s', Inv s → G s e → step s e = some s' → Inv s') {s t : σ}
    {es : List ε} (hs : Inv s) (hG : Along step G s es) (hr : run step s es = some t) : Inv t := by
  induction es generalizing s with
  | nil => cases hr; exact hs
  | cons e es ih =>
    obtain ⟨s', he, hr'⟩ := run_cons_eq_some.mp hr
    rw [along_cons_some he] at hG
    exact ih (hstep s e s' hs hG.1 he) hG.2 hr'

variable (Inv) in
theorem invariant' (hstep : ∀ s e s', Inv s → step s e = some s' → Inv s') {s t : σ}
    {es : List ε} (hs : Inv s) (hr : run step s es = some t) : Inv t := by
  induction es generalizing s with
  | nil => cases hr; exact hs
  | cons e es ih =>
    obtain ⟨s', he, hr'⟩ := run_cons_eq_some.mp hr
    exact ih (hstep s e s' hs he) hr'

variable (Inv) in
/-- **A property that each step keeps exactly if it meets `G`** holds in all states of a run exactly
if all steps of the run meet `G`. -/
theorem always_iff_along {P : σ → Prop}
    (hinv : ∀ s e s', Inv s → P s → step s e = some s' → Inv s')
    (hstep : ∀ s e s', Inv s → P s → step s e = some s' → (P s' ↔ G s e)) {s t : σ} {es : List ε}
    (hs : Inv s) (hP : P s) (hr : run step s es = some t) :
    (∀ n u, run step s (es.take n) = some u → P u) ↔ Along step G s es := by
  induction es generalizing s with
  | nil =>
    refine ⟨fun _ => trivial, fun _ n u hu => ?_⟩
    rw [List.take_nil] at hu
    cases hu
    exact hP
  | cons e es ih =>
    obtain ⟨s', he, hr'⟩ := run_cons_eq_some.mp hr
    have hs' := hinv s e s' hs hP he
    have hiff := hstep s e s' hs hP he
    rw [along_cons_some he, ← hiff]
    constructor
    · intro h
      have hP' : P s' := h 1 s' (by rw [List.take_succ_cons, run_cons_some he]; rfl)
      refine ⟨hP', (ih hs' hP' hr').mp fun n u hu => h (n + 1) u ?_⟩
      rw [List.take_succ_cons, run_cons_some he]
      exact hu
    · rintro ⟨hP', hA⟩ n u hu
      cases n with
      | zero => cases hu; exact hP
      | succ n =>
        rw [List.take_succ_cons, run_cons_some he] at hu
        exact (ih hs' hP' hr').mpr hA n u hu

instance [∀ s e, Decidable (G s e)] : ∀ (s : σ) (es : List ε), Decidable (Along step G s es)
  | _, [] => instDecidableTrue
  | s, e :: es =>
    match h : step s e with
    | none => decidable_of_iff (G s e) (by rw [Along, h]; simp)
    | some s' =>
      have : Decidable (Along step G s' es) := instDecidableAlong s' es
      decidable_of_iff (G s e ∧ Along step G s' es) (along_cons_some h es).symm

/-- **The simulation rule.** What relates a machine `exec` to the system, and is kept by each event,
relates them at the end of every run. -/
theorem simulation {τ : Type*} (exec : τ → ε → τ) (R : τ → σ → Prop)
    (hstep : ∀ x s e s', R x s → step s e = some s' → R (exec x e) s') {x : τ} {s t : σ}
    {es : List ε} (h : R x s) (hr : run step s es = some t) : R (es.foldl exec x) t := by
  induction es generalizing x s with
  | nil => cases hr; exact h
  | cons e es ih =>
    obtain ⟨s', he, hr'⟩ := run_cons_eq_some.mp hr
    exact ih (hstep x s e s' h he) hr'

/-! ### Two runs side by side -/

/-- **Two runs in lock-step**: each event of the second one is related by `T` to that of the first
one, in the state of the first run. -/
def Twins (step : σ → ε → Option σ) (T : σ → ε → ε → Prop) : σ → List ε → List ε → Prop
  | _, [], [] => True
  | s, e :: es, e' :: es' => T s e e' ∧ (step s e).elim True fun s' => Twins step T s' es es'
  | _, _, _ => False

variable {T : σ → ε → ε → Prop}

theorem twins_cons_some {s s' : σ} {e : ε} (h : step s e = some s') (e' : ε) (es es' : List ε) :
    Twins step T s (e :: es) (e' :: es') ↔ T s e e' ∧ Twins step T s' es es' := by
  rw [Twins, h]; rfl

/-- **The rule for two runs.** What relates the states of two runs, and is kept by each pair of
related events that meet `G`, relates the states at their ends. -/
theorem twins (R : σ → σ → Prop)
    (hstep : ∀ s s' e e' t t', R s s' → T s e e' → G s e → G s' e' → step s e = some t →
      step s' e' = some t' → R t t') {s s' t t' : σ} {es es' : List ε} (h : R s s')
    (htw : Twins step T s es es') (hG : Along step G s es) (hG' : Along step G s' es')
    (hr : run step s es = some t) (hr' : run step s' es' = some t') : R t t' := by
  induction es generalizing s s' es' with
  | nil =>
    cases es' with
    | nil => cases hr; cases hr'; exact h
    | cons e' es' => exact htw.elim
  | cons e es ih =>
    cases es' with
    | nil => exact htw.elim
    | cons e' es' =>
      obtain ⟨u, he, hr⟩ := run_cons_eq_some.mp hr
      obtain ⟨u', he', hr'⟩ := run_cons_eq_some.mp hr'
      rw [twins_cons_some he] at htw
      rw [along_cons_some he] at hG
      rw [along_cons_some he'] at hG'
      exact ih (hstep s s' e e' u u' h htw.1 hG.1 hG'.1 he he') htw.2 hG.2 hG'.2 hr hr'

theorem twins_refl (hrefl : ∀ s e, T s e e) : ∀ (s : σ) (es : List ε), Twins step T s es es
  | _, [] => trivial
  | s, e :: es => by
    refine ⟨hrefl s e, ?_⟩
    cases step s e with
    | none => trivial
    | some s' => exact twins_refl hrefl s' es

theorem twins_append (hrefl : ∀ s e, T s e e) {s u : σ} {es es' : List ε} :
    ∀ {pre : List ε}, run step s pre = some u → Twins step T u es es' →
      Twins step T s (pre ++ es) (pre ++ es')
  | [], hr, h => by cases hr; exact h
  | e :: pre, hr, h => by
    obtain ⟨s', he, hr'⟩ := run_cons_eq_some.mp hr
    rw [List.cons_append, List.cons_append, twins_cons_some he]
    exact ⟨hrefl s e, twins_append hrefl hr' h⟩

/-! ### Counting the steps that do not meet a condition -/

/-- How many steps of the run do not meet the condition `G`. -/
def count (step : σ → ε → Option σ) (G : σ → ε → Prop) [∀ s e, Decidable (G s e)] :
    σ → List ε → ℕ
  | _, [] => 0
  | s, e :: es =>
    (if G s e then 0 else 1) + (step s e).elim 0 fun s' => count step G s' es

variable [∀ s e, Decidable (G s e)]

theorem count_cons_some {s s' : σ} {e : ε} (h : step s e = some s') (es : List ε) :
    count step G s (e :: es) = (if G s e then 0 else 1) + count step G s' es := by
  rw [count, h]; rfl

theorem count_eq_zero_iff {s t : σ} {es : List ε} (hr : run step s es = some t) :
    count step G s es = 0 ↔ Along step G s es := by
  induction es generalizing s with
  | nil => simp [count]
  | cons e es ih =>
    obtain ⟨s', he, hr'⟩ := run_cons_eq_some.mp hr
    rw [count_cons_some he, along_cons_some he, Nat.add_eq_zero_iff, ih hr']
    simp

variable (G) in
/-- A quantity that each step raises by one exactly when it does not meet `G` counts these
steps. -/
theorem count_invariant (f : σ → ℕ)
    (hstep : ∀ s e s', Inv s → step s e = some s' →
      Inv s' ∧ f s' = f s + if G s e then 0 else 1)
    {s t : σ} {es : List ε} (hs : Inv s) (hr : run step s es = some t) :
    f t = f s + count step G s es := by
  induction es generalizing s with
  | nil => cases hr; simp [count]
  | cons e es ih =>
    obtain ⟨s', he, hr'⟩ := run_cons_eq_some.mp hr
    obtain ⟨hi, hf⟩ := hstep s e s' hs he
    rw [ih hi hr', hf, count_cons_some he, Nat.add_assoc]

end Stm32TcpServer.Lib.Runs
