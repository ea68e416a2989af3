import Mathlib.Algebra.GroupWithZero.Nat
import Mathlib.Data.List.DropRight
import Mathlib.Data.List.Infix
import Mathlib.Logic.Function.Basic
import Stm32TcpServer.Lib.Runs

/-! # The periodic events (Timer3.c, dp83848.c)

`TIM3_IRQHandler` runs every 10 ms. It advances three time indices; the index that reaches its
period starts again at 0 and sets a flag. `HandleLwipPeriodicEvent`, called by the main loop, tests
the flags in turn, clears the one that is set and calls its handler. The interrupt may come between
any two of these statements.

`periodic`: after `n` interrupts each index is `10 * (n % P)`, with `P` interrupts to a period; there
have been at most `n / P` calls of the handler; and if between any two consecutive expirations the
flag has been tested and cleared, the calls that are missing are those for which the flag is set and
the one for which it has been cleared already. -/

namespace Stm32TcpServer.Lwip.Periodic

open Stm32TcpServer.Lib.Runs

/-! ### The code -/

/-- The three events: `tcp_tmr`, `etharp_tmr` and `CheckForConnection`. -/
inductive Which
  | tcp
  | arp
  | checkConn
  deriving DecidableEq

/-- The period in milliseconds: 250, `ARP_TMR_INTERVAL`, `CHECK_FOR_CONNECTION_PERIOD`. -/
def Which.period : Which → ℕ
  | .tcp => 250
  | .arp => 5000
  | .checkConn => 20000

/-- What has happened to an event: its index has reached the period, its flag has been tested and
was set or not, its flag has been cleared, its handler has been entered. -/
inductive Mark
  | expire
  | test (found : Bool)
  | clear
  | call
  deriving DecidableEq

/-- The index and the flag of an event, and what has happened to it so far. -/
structure Timer where
  timeIndex : ℕ
  periodFlag : Bool
  marks : List Mark

/-- The statement of `HandleLwipPeriodicEvent` that is due. -/
inductive Stmt
  /-- The main loop is not in `HandleLwipPeriodicEvent`. -/
  | outside
  /-- `if (getTcpPeriodFlag() == 1)` -/
  | test (k : Which)
  /-- `setTcpPeriodFlag(0);` -/
  | clear (k : Which)
  /-- `tcp_tmr();` -/
  | call (k : Which)
  deriving DecidableEq

/-- **The timers and the main loop.** -/
structure Sys where
  lwipTime : ℕ
  timer : Which → Timer
  pc : Stmt
  /-- How often `TIM3_IRQHandler` has run. -/
  ticks : ℕ

def Sys.init : Sys where
  lwipTime := 0
  timer _ := { timeIndex := 0, periodFlag := false, marks := [] }
  pc := .outside
  ticks := 0

/-- `addTcpTimeIndex(10); if (getTcpTimeIndex() >= 250) { setTcpTimeIndex(0); setTcpPeriodFlag(1); }`
for `tcp_tmr`, and the same for the other two events. -/
def Timer.tick (t : Timer) (period : ℕ) : Timer :=
  let timeIndex := (t.timeIndex + 10) % 2 ^ 32
  if period ≤ timeIndex then
    { timeIndex := 0, periodFlag := true, marks := t.marks ++ [.expire] }
  else { t with timeIndex := timeIndex }

/-- **`TIM3_IRQHandler`.** -/
def tim3IrqHandler (s : Sys) : Sys := { s with
  lwipTime := (s.lwipTime + 10) % 2 ^ 32
  timer := fun k => (s.timer k).tick k.period
  ticks := s.ticks + 1 }

/-- The statement behind the block of an event. -/
def Which.next : Which → Stmt
  | .tcp => .test .arp
  | .arp => .test .checkConn
  | .checkConn => .outside

/-- The mark `m` for the event `k`. -/
def Sys.mark (s : Sys) (k : Which) (m : Mark) : Sys := { s with
  timer := Function.update s.timer k
    { s.timer k with marks := (s.timer k).marks ++ [m] } }

/-- **One statement** of `HandleLwipPeriodicEvent`. -/
def stmt (s : Sys) : Sys :=
  match s.pc with
  | .outside => { s with pc := .test .tcp }
  | .test k => { s.mark k (.test (s.timer k).periodFlag) with
      pc := if (s.timer k).periodFlag then .clear k else k.next }
  | .clear k => { s with
      timer := Function.update s.timer k
        { s.timer k with periodFlag := false, marks := (s.timer k).marks ++ [.clear] }
      pc := .call k }
  | .call k => { s.mark k .call with pc := k.next }

/-- The interrupt, or a statement of the main loop. -/
inductive Event
  | tick
  | stmt
  deriving DecidableEq

def step (s : Sys) : Event → Option Sys
  | .tick => some (tim3IrqHandler s)
  | .stmt => some (stmt s)

/-! ### Expirations and calls -/

/-- The interrupts to a period. -/
def Which.ticks (k : Which) : ℕ := k.period / 10

/-- The calls of the handler. -/
def Timer.calls (t : Timer) : ℕ := t.marks.count .call

/-- What has happened since the last expiration. -/
def since (marks : List Mark) : List Mark := marks.rtakeWhile (· ≠ .expire)

/-- **Between any two consecutive expirations the flag has been tested and cleared.** -/
def Served (marks : List Mark) : Prop :=
  ∀ t, t ++ [.expire] <+: marks → .expire ∈ t → List.Sublist [.test true, .clear] (since t)

/-- The calls that are due: one if the flag is set, one if it has been cleared and the handler has
not been entered yet. -/
def Timer.due (t : Timer) (k : Which) (pc : Stmt) : ℕ :=
  (if t.periodFlag then 1 else 0) + if pc = .call k then 1 else 0

theorem calls_append (t : Timer) (f : Bool) (i : ℕ) {m : Mark} (hm : m ≠ .call) :
    ({ timeIndex := i, periodFlag := f, marks := t.marks ++ [m] } : Timer).calls = t.calls := by
  unfold Timer.calls
  rw [List.count_append, List.count_singleton, if_neg (by simpa using hm), Nat.add_zero]

theorem due_of_ne {t : Timer} {k : Which} {pc : Stmt} (h : pc ≠ .call k) :
    t.due k pc = if t.periodFlag then 1 else 0 := by
  unfold Timer.due
  rw [if_neg h, Nat.add_zero]

theorem served_of_append {marks : List Mark} {m : Mark} (h : Served (marks ++ [m])) :
    Served marks :=
  fun t ht hmem => h t (ht.trans (List.prefix_append _ _)) hmem

theorem since_append {marks : List Mark} {m : Mark} (hm : m ≠ .expire) :
    since (marks ++ [m]) = since marks ++ [m] :=
  List.rtakeWhile_concat_pos _ _ _ (decide_eq_true hm)

theorem since_expire (marks : List Mark) : since (marks ++ [.expire]) = [] :=
  List.rtakeWhile_concat_neg _ _ _ (by simp)

theorem sublist_since {marks : List Mark} {m : Mark} (hm : m ≠ .clear)
    (h : List.Sublist [.test true, .clear] (since marks ++ [m])) :
    List.Sublist [.test true, .clear] (since marks) := by
  rw [List.sublist_append_iff] at h
  obtain ⟨l₁, l₂, heq, h₁, h₂⟩ := h
  rcases List.sublist_singleton.mp h₂ with rfl | rfl
  · rw [List.append_nil] at heq
    rw [heq]
    exact h₁
  · have hlast := congrArg List.getLast? heq
    rw [List.getLast?_append] at hlast
    exact absurd (Option.some.inj hlast).symm hm

/-! ### The invariant of an event -/

/-- **What holds of an event after `n` interrupts.** -/
structure Inv (n : ℕ) (k : Which) (pc : Stmt) (t : Timer) : Prop where
  index : t.timeIndex = 10 * (n % k.ticks)
  le : t.calls + t.due k pc ≤ n / k.ticks
  eq : Served t.marks → t.calls + t.due k pc = n / k.ticks
  expired : 0 < n / k.ticks → .expire ∈ t.marks
  cleared : List.Sublist [.test true, .clear] (since t.marks) → t.periodFlag = false
  found : pc = .clear k → t.periodFlag = true

variable {n : ℕ} {k : Which} {pc : Stmt} {t : Timer}

theorem inv_init (k : Which) :
    Inv 0 k .outside { timeIndex := 0, periodFlag := false, marks := [] } where
  index := by rw [Nat.zero_mod]
  le := Nat.zero_le _
  eq _ := by rw [Nat.zero_div]; rfl
  expired h := by rw [Nat.zero_div] at h; exact absurd h (Nat.lt_irrefl 0)
  cleared _ := rfl
  found h := absurd h nofun

/-- One more interrupt ends a period or does not. -/
theorem tick_arith {P : ℕ} (hP : 0 < P) (n : ℕ) :
    n % P + 1 = P ∧ (n + 1) / P = n / P + 1 ∧ (n + 1) % P = 0 ∨
      n % P + 1 < P ∧ (n + 1) / P = n / P ∧ (n + 1) % P = n % P + 1 := by
  have hlt := Nat.mod_lt n hP
  have hdiv := Nat.mod_add_div n P
  rcases Nat.lt_or_eq_of_le (Nat.succ_le_of_lt hlt) with h | h
  · exact Or.inr ⟨h, (Nat.div_mod_unique hP).mpr ⟨by omega, h⟩⟩
  · refine Or.inl ⟨h, (Nat.div_mod_unique hP).mpr ⟨?_, hP⟩⟩
    rw [Nat.mul_add, Nat.mul_one]
    omega

theorem ticks_spec (k : Which) : 0 < k.ticks ∧ k.period = 10 * k.ticks ∧ k.ticks ≤ 2000 := by
  cases k <;> decide

/-- **The interrupt**: before the flag is set, all earlier calls have been made, if the event has
been served. -/
theorem inv_tick (h : Inv n k pc t) : Inv (n + 1) k pc (t.tick k.period) := by
  obtain ⟨hpos, hperiod, hle⟩ := ticks_spec k
  have hlt := Nat.mod_lt n hpos
  have hindex := h.index
  rcases tick_arith hpos n with ⟨hlast, hdiv, hmod⟩ | ⟨hlast, hdiv, hmod⟩
  · have htick : t.tick k.period =
        { timeIndex := 0, periodFlag := true, marks := t.marks ++ [.expire] } := by
      unfold Timer.tick
      rw [if_pos (by omega)]
    have hcalls := calls_append t true 0 (m := .expire) nofun
    have hbound := h.le
    rw [htick]
    refine ⟨by rw [hmod], ?_, fun hS => ?_, fun _ => by simp, fun hsub => ?_, fun _ => rfl⟩
    · rw [hcalls, hdiv]
      unfold Timer.due at hbound ⊢
      simp only [if_true]
      omega
    · -- an earlier expiration has been served, so the flag was not set any more
      have heq := h.eq (served_of_append hS)
      have hflag : t.periodFlag = false := by
        rcases Nat.eq_zero_or_pos (n / k.ticks) with h0 | hpos'
        · cases hf : t.periodFlag with
          | false => rfl
          | true =>
            unfold Timer.due at heq
            rw [h0, if_pos hf] at heq
            omega
        · exact h.cleared (hS t.marks List.prefix_rfl (h.expired hpos'))
      rw [hcalls, hdiv, ← heq]
      unfold Timer.due
      rw [hflag]
      simp only [if_true]
      rw [if_neg Bool.false_ne_true]
      omega
    · rw [since_expire] at hsub
      exact absurd hsub nofun
  · have htick : t.tick k.period = { t with timeIndex := t.timeIndex + 10 } := by
      unfold Timer.tick
      rw [Nat.mod_eq_of_lt (by omega), if_neg (by omega)]
    rw [htick]
    refine ⟨?_, ?_, ?_, ?_, h.cleared, h.found⟩
    · show t.timeIndex + 10 = _
      omega
    · rw [hdiv]
      exact h.le
    · rw [hdiv]
      exact h.eq
    · rw [hdiv]
      exact h.expired

theorem inv_other (h : Inv n k pc t) {pc' : Stmt} (hcall : pc ≠ .call k) (hcall' : pc' ≠ .call k)
    (hclear' : pc' ≠ .clear k) : Inv n k pc' t := by
  have hdue : t.due k pc' = t.due k pc := by rw [due_of_ne hcall, due_of_ne hcall']
  refine ⟨h.index, ?_, ?_, h.expired, h.cleared, fun hpc => absurd hpc hclear'⟩
  · rw [hdue]
    exact h.le
  · rw [hdue]
    exact h.eq

/-- A mark other than an expiration and a clear is set. -/
theorem inv_mark (h : Inv n k pc t) {m : Mark} {pc' : Stmt} (hexp : m ≠ .expire) (hm : m ≠ .clear)
    (hdue : ({ t with marks := t.marks ++ [m] } : Timer).calls + t.due k pc' =
      t.calls + t.due k pc) (hfound : pc' = .clear k → t.periodFlag = true) :
    Inv n k pc' { t with marks := t.marks ++ [m] } := by
  refine ⟨h.index, ?_, fun hS => ?_, fun hpos => ?_, fun hsub => ?_, hfound⟩
  · exact hdue.trans_le h.le
  · exact hdue.trans (h.eq (served_of_append hS))
  · exact List.mem_append_left _ (h.expired hpos)
  · rw [since_append hexp] at hsub
    exact h.cleared (sublist_since hm hsub)

/-- **The flag is cleared**: the call is due all the same. -/
theorem inv_clear (h : Inv n k (.clear k) t) :
    Inv n k (.call k) { t with periodFlag := false, marks := t.marks ++ [.clear] } := by
  have hflag := h.found rfl
  have hcalls := calls_append t false t.timeIndex (m := .clear) nofun
  have hdue : ({ t with periodFlag := false, marks := t.marks ++ [.clear] } : Timer).due k
      (.call k) = t.due k (.clear k) := by
    unfold Timer.due
    rw [hflag]
    simp
  refine ⟨h.index, ?_, fun hS => ?_, fun hpos => ?_, fun _ => rfl, fun hpc => absurd hpc nofun⟩
  · rw [hcalls, hdue]
    exact h.le
  · rw [hcalls, hdue]
    exact h.eq (served_of_append hS)
  · exact List.mem_append_left _ (h.expired hpos)

/-! ### The system -/

theorem next_ne (j k : Which) : j.next ≠ .call k ∧ j.next ≠ .clear k := by
  cases j <;> exact ⟨nofun, nofun⟩

/-- The invariant of all three events. -/
def SysInv (s : Sys) : Prop :=
  s.lwipTime = 10 * s.ticks % 2 ^ 32 ∧ ∀ k, Inv s.ticks k s.pc (s.timer k)

theorem sysInv_init : SysInv Sys.init := ⟨rfl, inv_init⟩

theorem sysInv_update {s : Sys} (h : SysInv s) {j : Which} {pc' : Stmt} {t' : Timer}
    (hj : Inv s.ticks j pc' t')
    (hother : ∀ k, k ≠ j → s.pc ≠ .call k ∧ pc' ≠ .call k ∧ pc' ≠ .clear k) :
    SysInv { s with timer := Function.update s.timer j t', pc := pc' } := by
  refine ⟨h.1, fun k => ?_⟩
  by_cases hk : k = j
  · subst hk
    show Inv s.ticks k pc' (Function.update s.timer k t' k)
    rw [Function.update_self]
    exact hj
  · show Inv s.ticks k pc' (Function.update s.timer j t' k)
    rw [Function.update_of_ne hk]
    obtain ⟨hcall, hcall', hclear'⟩ := hother k hk
    exact inv_other (h.2 k) hcall hcall' hclear'

/-- **A statement** of the main loop. -/
theorem sysInv_stmt {s : Sys} (h : SysInv s) : SysInv (stmt s) := by
  unfold stmt
  cases hpc : s.pc with
  | outside =>
    refine ⟨h.1, fun k => inv_other (h.2 k) ?_ nofun nofun⟩
    rw [hpc]
    exact nofun
  | test j =>
    have hj := h.2 j
    rw [hpc] at hj
    have hne : ∀ k, (if (s.timer j).periodFlag then Stmt.clear j else j.next) ≠ .call k := by
      intro k
      split_ifs
      · exact nofun
      · exact (next_ne j k).1
    refine sysInv_update h (inv_mark hj nofun nofun ?_ fun hclear => ?_) fun k hk => ?_
    · have hcalls := calls_append (s.timer j) (s.timer j).periodFlag (s.timer j).timeIndex
        (m := .test (s.timer j).periodFlag) nofun
      have hdue : (s.timer j).due j (.test j) = _ := due_of_ne nofun
      rw [hcalls, due_of_ne (hne j), hdue]
    · split_ifs at hclear with hflag
      · exact hflag
      · exact absurd hclear (next_ne j j).2
    · rw [hpc]
      refine ⟨nofun, hne k, ?_⟩
      split_ifs
      · exact fun heq => hk (Stmt.clear.inj heq).symm
      · exact (next_ne j k).2
  | clear j =>
    have hj := h.2 j
    rw [hpc] at hj
    refine sysInv_update h (inv_clear hj) fun k hk => ?_
    rw [hpc]
    exact ⟨nofun, fun heq => hk (Stmt.call.inj heq).symm, nofun⟩
  | call j =>
    have hj := h.2 j
    rw [hpc] at hj
    refine sysInv_update h (inv_mark hj nofun nofun ?_ fun hclear => ?_) fun k hk => ?_
    · rw [due_of_ne (next_ne j j).1]
      unfold Timer.calls Timer.due
      rw [List.count_append, if_pos rfl, List.count_singleton_self]
      omega
    · exact absurd hclear (next_ne j j).2
    · rw [hpc]
      exact ⟨fun heq => hk (Stmt.call.inj heq).symm, next_ne j k⟩

theorem sysInv_step {s s' : Sys} {e : Event} (h : SysInv s) (hs : step s e = some s') :
    SysInv s' := by
  cases e with
  | tick =>
    obtain rfl := Option.some.inj hs
    refine ⟨?_, fun k => inv_tick (h.2 k)⟩
    show (s.lwipTime + 10) % 2 ^ 32 = 10 * (s.ticks + 1) % 2 ^ 32
    rw [h.1, Nat.mod_add_mod, Nat.mul_add, Nat.mul_one]
  | stmt =>
    obtain rfl := Option.some.inj hs
    exact sysInv_stmt h

/-- **Periodic events are neither lost nor duplicated.** -/
theorem periodic {s : Sys} {es : List Event} (hr : run step Sys.init es = some s) (k : Which) :
    s.lwipTime = 10 * s.ticks % 2 ^ 32 ∧ (s.timer k).timeIndex = 10 * (s.ticks % k.ticks) ∧
      (s.timer k).calls ≤ s.ticks / k.ticks ∧
      (Served (s.timer k).marks →
        (s.timer k).calls + (if (s.timer k).periodFlag then 1 else 0) +
          (if s.pc = .call k then 1 else 0) = s.ticks / k.ticks) := by
  obtain ⟨htime, hinv⟩ := invariant' SysInv (fun _ _ _ h hs => sysInv_step h hs) sysInv_init hr
  have hle := (hinv k).le
  refine ⟨htime, (hinv k).index, by omega, fun hS => ?_⟩
  rw [Nat.add_assoc]
  exact (hinv k).eq hS

/-- The flag of `tcp_tmr` is cleared, and set again before the handler is entered. -/
def twoPeriods : List Event :=
  List.replicate 25 .tick ++ List.replicate 3 .stmt ++ List.replicate 25 .tick

theorem served_twoPeriods : Served [.expire, .test true, .clear, .expire] := by
  have hall : ∀ t ∈ [Mark.expire, .test true, .clear, .expire].inits,
      t ++ [.expire] <+: [.expire, .test true, .clear, .expire] → .expire ∈ t →
        List.Sublist [.test true, .clear] (since t) := by decide
  intro t ht hmem
  exact hall t ((List.mem_inits _ _).mpr ((List.prefix_append _ _).trans ht)) ht hmem

theorem periodic_twoPeriods : ∃ s, run step Sys.init twoPeriods = some s ∧
    Served (s.timer .tcp).marks ∧ s.lwipTime = 10 * s.ticks % 2 ^ 32 ∧
      (s.timer .tcp).timeIndex = 10 * (s.ticks % 25) ∧ (s.timer .tcp).calls ≤ s.ticks / 25 ∧
      (Served (s.timer .tcp).marks →
        (s.timer .tcp).calls + (if (s.timer .tcp).periodFlag then 1 else 0) +
          (if s.pc = .call .tcp then 1 else 0) = s.ticks / 25) := by
  obtain ⟨s, hr, hmarks⟩ := Option.map_eq_some_iff.mp
    (show (run step Sys.init twoPeriods).map (fun s => (s.timer .tcp).marks) =
      some [.expire, .test true, .clear, .expire] by decide +kernel)
  refine ⟨s, hr, ?_, periodic hr .tcp⟩
  rw [hmarks]
  exact served_twoPeriods

/-- **Both at once.** The flag is set and the handler is due for the period before: no call has been
made in two periods, though the event has been served. -/
theorem two_calls_due : ∃ s, run step Sys.init twoPeriods = some s ∧
    Served (s.timer .tcp).marks ∧ (s.timer .tcp).calls ≠ s.ticks / 25 -
      if (s.timer .tcp).periodFlag ∨ s.pc = .call .tcp then 1 else 0 := by
  obtain ⟨s, hr, hs⟩ := Option.map_eq_some_iff.mp
    (show (run step Sys.init twoPeriods).map
        (fun s => ((s.timer .tcp).marks, (s.timer .tcp).periodFlag, s.ticks)) =
      some ([.expire, .test true, .clear, .expire], true, 50) by decide +kernel)
  obtain ⟨hmarks, hrest⟩ := Prod.mk.inj hs
  obtain ⟨hflag, hticks⟩ := Prod.mk.inj hrest
  refine ⟨s, hr, ?_, ?_⟩
  · rw [hmarks]
    exact served_twoPeriods
  · unfold Timer.calls
    rw [hmarks, if_pos (Or.inl hflag), hticks]
    decide

end Stm32TcpServer.Lwip.Periodic
