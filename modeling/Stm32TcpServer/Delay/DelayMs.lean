import Mathlib.Algebra.BigOperators.Group.List.Basic
import Mathlib.Algebra.GroupWithZero.Nat
import Stm32TcpServer.Lib.Schedule

/-! # Waiting with SysTick (delay.c)

SysTick counts down from `LOAD`, 9000 counts to a millisecond, and sets `COUNTFLAG` when it comes
to 0. `delay_ms` splits what it has to wait for into chunks of 1800 ms, since `LOAD` has 24 bits,
and a rest; each wait polls `CTRL` until the flag is set. The clock ticks at any moment between two
statements.

`delays_iff`: the call ends in every fair schedule, having loaded 9000 counts for each millisecond,
if and only if `ms` is not a multiple of 1800. For a multiple the rest is 0, the counter never comes
to 0 from above, and the last wait goes on forever (`never_done`). -/

namespace Stm32TcpServer.Delay.DelayMs

open Stm32TcpServer.Lib.Schedule

/-! ### SysTick -/

/-- `u32`. -/
abbrev U32 := BitVec 32

/-- **SysTick**: the bits of `CTRL` that the code uses, `LOAD` and `VAL`. -/
structure SysTick where
  enable : Bool
  countflag : Bool
  load : BitVec 24
  val : BitVec 24
  deriving DecidableEq

/-- `SysTick_CTRL_ENABLE_Msk`. -/
def sysTickCtrlEnableMsk : U32 := 1 <<< 0
/-- `SysTick_CTRL_COUNTFLAG_Msk`. -/
def sysTickCtrlCountflagMsk : U32 := 1 <<< 16

/-- The value of `CTRL`. -/
def SysTick.ctrl (t : SysTick) : U32 :=
  (if t.enable then sysTickCtrlEnableMsk else 0) |||
    if t.countflag then sysTickCtrlCountflagMsk else 0

/-- A read of `CTRL` clears `COUNTFLAG`. -/
def SysTick.read (t : SysTick) : SysTick := { t with countflag := false }

/-- A write to `VAL` clears it, and `COUNTFLAG` with it. -/
def SysTick.clear (t : SysTick) : SysTick := { t with val := 0, countflag := false }

/-- **One count.** From 0 the counter is reloaded; the flag is set when it comes to 0 from 1. -/
def SysTick.clock (t : SysTick) : SysTick :=
  if t.enable then
    if t.val = 0 then { t with val := t.load }
    else { t with val := t.val - 1, countflag := t.countflag || decide (t.val = 1) }
  else t

/-! ### The code -/

/-- The three places where `delay_ms` waits: for less than 1800 ms, for a chunk of 1800 ms, and for
the rest. -/
inductive Wait
  | once
  | chunk
  | rest
  deriving DecidableEq

/-- The statements of a wait. -/
inductive Phase
  /-- `SysTick->LOAD = ...;` -/
  | load
  /-- `SysTick->VAL = 0x00;` -/
  | clear
  /-- `SysTick->CTRL |= SysTick_CTRL_ENABLE_Msk;` -/
  | enable
  /-- `temp = SysTick->CTRL;` -/
  | read
  /-- `while((temp&0x01)&&!(temp&(1<<16)));` -/
  | poll
  /-- `SysTick->CTRL &= ~SysTick_CTRL_ENABLE_Msk;` -/
  | disable
  /-- `SysTick->VAL = 0X00;` -/
  | reset
  deriving DecidableEq

/-- The statement of `delay_ms` that is due. -/
inductive Stmt
  /-- `if(ms<1800)`, and `i=0` of the loop. -/
  | choose
  /-- `i<(ms/1800)` -/
  | loop
  | wait (w : Wait) (p : Phase)
  /-- `delay_ms` has returned. -/
  | done
  deriving DecidableEq

/-- **A call of `delay_ms`**, with its local variables and SysTick. -/
structure Call where
  ms : U32
  i : U32
  temp : U32
  sysTick : SysTick
  stmt : Stmt
  /-- The values written to `LOAD` so far. -/
  loads : List U32

/-- The value that is written to `LOAD`. -/
def loadValue (ms : U32) : Wait → U32
  | .once => ms * 9 * 1000
  | .chunk => 1800 * 9 * 1000
  | .rest => ms % 1800 * 9 * 1000

/-- What comes behind a wait. -/
def Call.next (s : Call) : Wait → Call
  | .chunk => { s with i := s.i + 1, stmt := .loop }
  | _ => { s with stmt := .done }

/-- **One statement** of the wait `w`. -/
def execWait (s : Call) (w : Wait) : Phase → Call
  | .load => { s with
      sysTick := { s.sysTick with load := (loadValue s.ms w).setWidth 24 }
      loads := s.loads ++ [loadValue s.ms w]
      stmt := .wait w .clear }
  | .clear => { s with sysTick := s.sysTick.clear, stmt := .wait w .enable }
  | .enable => { s with
      sysTick := { s.sysTick.read with enable := true }
      stmt := .wait w .read }
  | .read => { s with
      temp := s.sysTick.ctrl
      sysTick := s.sysTick.read
      stmt := .wait w .poll }
  | .poll =>
    if s.temp &&& 0x01 ≠ 0 ∧ ¬ s.temp &&& (1 : U32) <<< 16 ≠ 0 then { s with stmt := .wait w .read }
    else { s with stmt := .wait w .disable }
  | .disable => { s with
      sysTick := { s.sysTick.read with enable := false }
      stmt := .wait w .reset }
  | .reset => { s with sysTick := s.sysTick.clear }.next w

/-- **One statement** of `delay_ms`. -/
def exec (s : Call) : Call :=
  match s.stmt with
  | .choose =>
    if s.ms < 1800 then { s with stmt := .wait .once .load } else { s with i := 0, stmt := .loop }
  | .loop =>
    if s.i < s.ms / 1800 then { s with stmt := .wait .chunk .load }
    else { s with stmt := .wait .rest .load }
  | .wait w p => execWait s w p
  | .done => s

/-- The processor executes a statement, or SysTick counts. -/
inductive Event
  | cpu
  | clock
  deriving DecidableEq

/-- **One step.** -/
def step (s : Call) : Event → Call
  | .cpu => exec s
  | .clock => { s with sysTick := s.sysTick.clock }

/-- `delay_ms(ms)` is called; its variables are not initialised, and SysTick is in any state. -/
def delayMs (ms i temp : U32) (sysTick : SysTick) : Call :=
  { ms := ms, i := i, temp := temp, sysTick := sysTick, stmt := .choose, loads := [] }

/-- **`delay_ms(ms)` waits for `ms` milliseconds**: every value written to `LOAD` is at least 1 and
has at most 24 bits, the call ends in every fair schedule, and by then 9000 counts for each
millisecond have been loaded. -/
def Delays (ms : U32) : Prop :=
  ∀ (i temp : U32) (sysTick : SysTick) (ev : ℕ → Event),
    (∀ n, ∀ v ∈ (stateAt step (delayMs ms i temp sysTick) ev n).loads,
      1 ≤ v.toNat ∧ v.toNat ≤ 2 ^ 24 - 1) ∧
    (Fair ev → ∃ n, (stateAt step (delayMs ms i temp sysTick) ev n).stmt = .done ∧
      ((stateAt step (delayMs ms i temp sysTick) ev n).loads.map BitVec.toNat).sum =
        9000 * ms.toNat)

/-! ### The registers -/

theorem ctrl_enable (t : SysTick) : t.ctrl &&& 0x01 ≠ 0 ↔ t.enable = true := by
  unfold SysTick.ctrl
  cases t.enable <;> cases t.countflag <;> decide

theorem ctrl_countflag (t : SysTick) : t.ctrl &&& (1 : U32) <<< 16 ≠ 0 ↔ t.countflag = true := by
  unfold SysTick.ctrl
  cases t.enable <;> cases t.countflag <;> decide

@[simp] theorem clock_enable (t : SysTick) : t.clock.enable = t.enable := by
  unfold SysTick.clock
  split_ifs <;> rfl

@[simp] theorem clock_load (t : SysTick) : t.clock.load = t.load := by
  unfold SysTick.clock
  split_ifs <;> rfl

/-! ### The values of `LOAD` -/

theorem loadValue_once {ms : U32} (h : ms.toNat < 1800) :
    (loadValue ms .once).toNat = 9000 * ms.toNat := by
  show ms.toNat * 9 % 2 ^ 32 * 1000 % 2 ^ 32 = 9000 * ms.toNat
  omega

theorem loadValue_chunk (ms : U32) : (loadValue ms .chunk).toNat = 9000 * 1800 := rfl

theorem loadValue_rest (ms : U32) :
    (loadValue ms .rest).toNat = 9000 * (ms.toNat % 1800) := by
  show (ms % 1800).toNat * 9 % 2 ^ 32 * 1000 % 2 ^ 32 = 9000 * (ms.toNat % 1800)
  have hmod : (ms % 1800).toNat = ms.toNat % 1800 := BitVec.toNat_umod
  omega

/-! ### What holds before each statement -/

/-- The condition under which the wait `w` is entered. -/
def Entered (s : Call) : Wait → Prop
  | .once => s.ms.toNat < 1800
  | .chunk => s.i.toNat < s.ms.toNat / 1800
  | .rest => 1800 ≤ s.ms.toNat ∧ s.i.toNat = s.ms.toNat / 1800

/-- What has been loaded before the wait `w`. -/
def before (s : Call) : Wait → List U32
  | .once => []
  | .chunk | .rest => List.replicate s.i.toNat (loadValue s.ms .chunk)

/-- The wait `w` has been entered, and its value is the last one loaded. -/
def Loaded (s : Call) (w : Wait) : Prop :=
  Entered s w ∧ s.loads = before s w ++ [loadValue s.ms w]

/-- **What holds before each statement.** -/
def At (s : Call) : Stmt → Prop
  | .choose => s.loads = []
  | .loop => 1800 ≤ s.ms.toNat ∧ s.i.toNat ≤ s.ms.toNat / 1800 ∧ s.loads = before s .chunk
  | .wait w .load => Entered s w ∧ s.loads = before s w
  | .wait w .clear | .wait w .enable =>
    Loaded s w ∧ s.sysTick.load = (loadValue s.ms w).setWidth 24
  | .wait w .read =>
    Loaded s w ∧ s.sysTick.load = (loadValue s.ms w).setWidth 24 ∧ s.sysTick.enable = true
  | .wait w .poll =>
    Loaded s w ∧ s.sysTick.load = (loadValue s.ms w).setWidth 24 ∧ s.sysTick.enable = true ∧
      s.temp &&& 0x01 ≠ 0
  | .wait w .disable | .wait w .reset => Loaded s w
  | .done => ∃ w, w ≠ .chunk ∧ Loaded s w

/-- **The invariant** of a call for `ms` milliseconds. -/
def Inv (ms : U32) (s : Call) : Prop := s.ms = ms ∧ At s s.stmt

theorem At.clock {s : Call} {stmt : Stmt} (h : At s stmt) :
    At { s with sysTick := s.sysTick.clock } stmt := by
  match stmt, h with
  | .choose, h | .loop, h | .done, h => exact h
  | .wait w .load, h | .wait w .disable, h | .wait w .reset, h => exact h
  | .wait w .clear, ⟨hl, hload⟩ | .wait w .enable, ⟨hl, hload⟩ =>
    exact ⟨hl, (clock_load _).trans hload⟩
  | .wait w .read, ⟨hl, hload, hen⟩ =>
    exact ⟨hl, (clock_load _).trans hload, (clock_enable _).trans hen⟩
  | .wait w .poll, ⟨hl, hload, hen, htemp⟩ =>
    exact ⟨hl, (clock_load _).trans hload, (clock_enable _).trans hen, htemp⟩

theorem inv_execWait {s : Call} {w : Wait} {p : Phase} (h : At s (.wait w p)) :
    (execWait s w p).ms = s.ms ∧ At (execWait s w p) (execWait s w p).stmt := by
  cases p with
  | load => exact ⟨rfl, ⟨h.1, congrArg (· ++ [loadValue s.ms w]) h.2⟩, rfl⟩
  | clear => exact ⟨rfl, h.1, h.2⟩
  | enable => exact ⟨rfl, h.1, h.2, rfl⟩
  | read => exact ⟨rfl, h.1, h.2.1, h.2.2, (ctrl_enable s.sysTick).mpr h.2.2⟩
  | poll =>
    unfold execWait
    split_ifs
    · exact ⟨rfl, h.1, h.2.1, h.2.2.1⟩
    · exact ⟨rfl, h.1⟩
  | disable => exact ⟨rfl, h⟩
  | reset =>
    obtain ⟨hen, hloads⟩ := h
    cases w with
    | once => exact ⟨rfl, .once, Wait.noConfusion, hen, hloads⟩
    | rest => exact ⟨rfl, .rest, Wait.noConfusion, hen, hloads⟩
    | chunk =>
      have hlt : s.i.toNat < s.ms.toNat / 1800 := hen
      have hms := s.ms.isLt
      have hi : (s.i + 1).toNat = s.i.toNat + 1 := by
        rw [BitVec.toNat_add]
        exact Nat.mod_eq_of_lt (show s.i.toNat + 1 < 2 ^ 32 by omega)
      refine ⟨rfl, ?_, ?_, ?_⟩
      · show 1800 ≤ s.ms.toNat
        omega
      · show (s.i + 1).toNat ≤ s.ms.toNat / 1800
        omega
      · show s.loads = List.replicate (s.i + 1).toNat (loadValue s.ms .chunk)
        rw [hi, List.replicate_succ', hloads]
        rfl

/-- **The step lemma.** -/
theorem inv_step {ms : U32} (s : Call) (e : Event) (h : Inv ms s) : Inv ms (step s e) := by
  obtain ⟨rfl, hat⟩ := h
  cases e with
  | clock => exact ⟨rfl, hat.clock⟩
  | cpu =>
    unfold step exec
    match hstmt : s.stmt with
    | .choose =>
      rw [hstmt] at hat
      have h1800 : s.ms < 1800 ↔ s.ms.toNat < 1800 := BitVec.lt_def
      simp only
      split_ifs with hlt
      · exact ⟨rfl, h1800.mp hlt, hat⟩
      · exact ⟨rfl, Nat.not_lt.mp (mt h1800.mpr hlt), Nat.zero_le _, hat⟩
    | .loop =>
      rw [hstmt] at hat
      obtain ⟨hle, hi, hloads⟩ := hat
      have hdiv : (s.ms / 1800).toNat = s.ms.toNat / 1800 := BitVec.toNat_udiv
      have hlt : s.i < s.ms / 1800 ↔ s.i.toNat < s.ms.toNat / 1800 := by
        rw [BitVec.lt_def, hdiv]
      simp only
      split_ifs with h
      · exact ⟨rfl, hlt.mp h, hloads⟩
      · exact ⟨rfl, ⟨hle, Nat.le_antisymm hi (Nat.not_lt.mp (mt hlt.mpr h))⟩, hloads⟩
    | .wait w p =>
      rw [hstmt] at hat
      exact inv_execWait hat
    | .done => exact ⟨rfl, hat⟩

/-! ### What has been loaded -/

/-- The value of a wait that is entered fits `LOAD`, and is not 0 if `ms` is not a multiple of
1800. -/
theorem Entered.value {s : Call} {w : Wait} (h : Entered s w) (hms : s.ms.toNat % 1800 ≠ 0) :
    1 ≤ (loadValue s.ms w).toNat ∧ (loadValue s.ms w).toNat ≤ 2 ^ 24 - 1 := by
  cases w with
  | once =>
    have hlt : s.ms.toNat < 1800 := h
    rw [loadValue_once hlt]
    omega
  | chunk =>
    rw [loadValue_chunk]
    omega
  | rest =>
    rw [loadValue_rest]
    omega

/-- **The values fit `LOAD`**: in each state of a call whose `ms` is not a multiple of 1800. -/
theorem At.value {s : Call} (h : At s s.stmt) (hms : s.ms.toNat % 1800 ≠ 0) {v : U32}
    (hv : v ∈ s.loads) : 1 ≤ v.toNat ∧ v.toNat ≤ 2 ^ 24 - 1 := by
  have hbefore : ∀ w, v ∈ before s w → 1 ≤ v.toNat ∧ v.toNat ≤ 2 ^ 24 - 1 := by
    intro w hmem
    have hc : v = loadValue s.ms .chunk := by
      cases w with
      | once => exact absurd hmem List.not_mem_nil
      | chunk | rest => exact List.eq_of_mem_replicate hmem
    rw [hc, loadValue_chunk]
    omega
  have hloaded : ∀ w, Loaded s w → 1 ≤ v.toNat ∧ v.toNat ≤ 2 ^ 24 - 1 := by
    rintro w ⟨hen, hloads⟩
    rw [hloads, List.mem_append, List.mem_singleton] at hv
    rcases hv with hv | rfl
    · exact hbefore w hv
    · exact hen.value hms
  match hstmt : s.stmt with
  | .choose =>
    rw [hstmt] at h
    rw [show s.loads = [] from h] at hv
    exact absurd hv List.not_mem_nil
  | .loop =>
    rw [hstmt] at h
    rw [h.2.2] at hv
    exact hbefore _ hv
  | .wait w .load =>
    rw [hstmt] at h
    rw [h.2] at hv
    exact hbefore _ hv
  | .wait w .clear | .wait w .enable | .wait w .read | .wait w .poll =>
    rw [hstmt] at h
    exact hloaded w h.1
  | .wait w .disable | .wait w .reset =>
    rw [hstmt] at h
    exact hloaded w h
  | .done =>
    rw [hstmt] at h
    obtain ⟨w, -, hl⟩ := h
    exact hloaded w hl

/-- **9000 counts for each millisecond** have been loaded when the last wait is over. -/
theorem Loaded.sum {s : Call} {w : Wait} (h : Loaded s w) (hw : w ≠ .chunk) :
    (s.loads.map BitVec.toNat).sum = 9000 * s.ms.toNat := by
  obtain ⟨hen, hloads⟩ := h
  rw [hloads, List.map_append, List.sum_append, List.map_singleton, List.sum_singleton]
  cases w with
  | once =>
    rw [loadValue_once hen]
    exact Nat.zero_add _
  | chunk => exact absurd rfl hw
  | rest =>
    have hi : s.i.toNat = s.ms.toNat / 1800 := hen.2
    rw [before, List.map_replicate, List.sum_replicate, loadValue_chunk, loadValue_rest, hi]
    show s.ms.toNat / 1800 * (9000 * 1800) + 9000 * (s.ms.toNat % 1800) = 9000 * s.ms.toNat
    omega

/-! ### Progress -/

/-- The counts until `COUNTFLAG` is set. -/
def left (t : SysTick) : ℕ := if t.val = 0 then t.load.toNat + 1 else t.val.toNat

theorem left_le (t : SysTick) : left t ≤ 2 ^ 24 := by
  have hload := t.load.isLt
  have hval := t.val.isLt
  unfold left
  split_ifs <;> omega

/-- **A count** sets the flag or brings it nearer, if `LOAD` is not 0. -/
theorem left_clock {t : SysTick} (hen : t.enable = true) (hload : t.load ≠ 0) :
    t.clock.countflag = true ∨ left t.clock < left t := by
  unfold SysTick.clock
  rw [if_pos hen]
  by_cases h0 : t.val = 0
  · right
    rw [if_pos h0]
    simp only [left]
    rw [if_neg hload, if_pos h0]
    omega
  rw [if_neg h0]
  by_cases h1 : t.val = 1
  · left
    simp [h1]
  · right
    have hv0 : t.val.toNat ≠ 0 := fun h => h0 (BitVec.eq_of_toNat_eq h)
    have hv1 : t.val.toNat ≠ 1 := fun h => h1 (BitVec.eq_of_toNat_eq h)
    have hv := t.val.isLt
    have hsub : (t.val - 1).toNat = t.val.toNat - 1 := by
      rw [BitVec.toNat_sub]
      show (2 ^ 24 - 1 + t.val.toNat) % 2 ^ 24 = t.val.toNat - 1
      omega
    have hne : t.val - 1 ≠ 0 := fun h => by
      rw [h] at hsub
      have h00 : (0 : BitVec 24).toNat = 0 := rfl
      omega
    simp only [left]
    rw [if_neg hne, if_neg h0, hsub]
    omega

theorem countflag_clock {t : SysTick} (h : t.countflag = true) : t.clock.countflag = true := by
  unfold SysTick.clock
  split_ifs <;> simp [h]

/-- What is left to do of a wait. Between `read` and `poll` it goes by the flag: not set, set in
`CTRL` behind the last read, set in `CTRL` before it, read. -/
def work (t : SysTick) (temp : U32) : Phase → ℕ
  | .load => 2 ^ 24 + 9
  | .clear => 2 ^ 24 + 8
  | .enable => 2 ^ 24 + 7
  | .read => if t.countflag then 4 else 6 + left t
  | .poll =>
    if temp &&& (1 : U32) <<< 16 ≠ 0 then 3 else if t.countflag then 5 else 6 + left t
  | .disable => 2
  | .reset => 1

/-- A wait depends on the clock as long as the flag has not been set. -/
def dueAt (t : SysTick) (temp : U32) : Phase → Event
  | .read => if t.countflag then .cpu else .clock
  | .poll => if temp &&& (1 : U32) <<< 16 ≠ 0 then .cpu else if t.countflag then .cpu else .clock
  | _ => .cpu

/-- The waits to come, from the wait `w` on. -/
def waits (s : Call) : Wait → ℕ
  | .chunk => s.ms.toNat / 1800 - s.i.toNat + 1
  | .once | .rest => 1

/-- **What is left to do of a call.** -/
def rank (s : Call) : ℕ :=
  match s.stmt with
  | .choose => (s.ms.toNat / 1800 + 3) * 2 ^ 25
  | .loop => (s.ms.toNat / 1800 - s.i.toNat + 2) * 2 ^ 25
  | .wait w p => waits s w * 2 ^ 25 + work s.sysTick s.temp p
  | .done => 0

/-- Which step brings the call on. -/
def due (s : Call) : Event :=
  match s.stmt with
  | .wait _ p => dueAt s.sysTick s.temp p
  | _ => .cpu

theorem work_lt (t : SysTick) (temp : U32) (p : Phase) : work t temp p < 2 ^ 25 := by
  have hleft := left_le t
  cases p <;> simp only [work] <;> (try split_ifs) <;> omega

theorem work_pos (t : SysTick) (temp : U32) (p : Phase) : 0 < work t temp p := by
  cases p <;> simp only [work] <;> (try split_ifs) <;> omega

/-- **A count** brings a wait on if the flag has not been set. -/
theorem work_clock {t : SysTick} {p : Phase} (temp : U32)
    (h : p = .read ∨ p = .poll → t.enable = true ∧ t.load ≠ 0) :
    work t.clock temp p < work t temp p ∨ work t.clock temp p = work t temp p ∧
      dueAt t.clock temp p = dueAt t temp p ∧ .clock ≠ dueAt t temp p := by
  cases p with
  | load | clear | enable | disable | reset => exact Or.inr ⟨rfl, rfl, nofun⟩
  | read =>
    obtain ⟨hen, hload⟩ := h (Or.inl rfl)
    simp only [work, dueAt]
    by_cases hc : t.countflag = true
    · right
      simp [hc, countflag_clock hc]
    · left
      rw [if_neg hc]
      rcases left_clock hen hload with hset | hlt
      · rw [if_pos hset]
        omega
      · split_ifs <;> omega
  | poll =>
    obtain ⟨hen, hload⟩ := h (Or.inr rfl)
    simp only [work, dueAt]
    by_cases ht : temp &&& (1 : U32) <<< 16 ≠ 0
    · right
      rw [if_pos ht, if_pos ht, if_pos ht, if_pos ht]
      exact ⟨rfl, rfl, nofun⟩
    rw [if_neg ht, if_neg ht, if_neg ht, if_neg ht]
    by_cases hc : t.countflag = true
    · right
      simp [hc, countflag_clock hc]
    · left
      rw [if_neg hc]
      rcases left_clock hen hload with hset | hlt
      · rw [if_pos hset]
        omega
      · split_ifs <;> omega

theorem work_read (t : SysTick) (temp : U32) :
    work t.read t.ctrl .poll < work t temp .read ∨
      work t.read t.ctrl .poll = work t temp .read ∧
        dueAt t.read t.ctrl .poll = dueAt t temp .read ∧ .cpu ≠ dueAt t temp .read := by
  have hflag := ctrl_countflag t
  simp only [work, dueAt]
  by_cases hc : t.countflag = true
  · left
    rw [if_pos (hflag.mpr hc), if_pos hc]
    omega
  · right
    rw [if_neg (mt hflag.mp hc), if_neg (mt hflag.mp hc), if_neg hc, if_neg hc]
    exact ⟨rfl, rfl, nofun⟩

theorem work_poll (t : SysTick) {temp : U32} (ht : ¬ temp &&& (1 : U32) <<< 16 ≠ 0) :
    work t temp .read < work t temp .poll ∨ work t temp .read = work t temp .poll ∧
      dueAt t temp .read = dueAt t temp .poll ∧ .cpu ≠ dueAt t temp .poll := by
  simp only [work, dueAt]
  rw [if_neg ht, if_neg ht]
  by_cases hc : t.countflag = true
  · left
    rw [if_pos hc, if_pos hc]
    omega
  · right
    rw [if_neg hc, if_neg hc, if_neg hc]
    exact ⟨rfl, rfl, nofun⟩

/-- **A statement** of a wait, the last one apart, brings it on unless the flag has not been set. -/
theorem work_execWait {s : Call} {w : Wait} {p : Phase} (h : At s (.wait w p)) (hp : p ≠ .reset) :
    ∃ p', (execWait s w p).stmt = .wait w p' ∧ waits (execWait s w p) w = waits s w ∧
      (work (execWait s w p).sysTick (execWait s w p).temp p' < work s.sysTick s.temp p ∨
        work (execWait s w p).sysTick (execWait s w p).temp p' = work s.sysTick s.temp p ∧
        dueAt (execWait s w p).sysTick (execWait s w p).temp p' = dueAt s.sysTick s.temp p ∧
        .cpu ≠ dueAt s.sysTick s.temp p) := by
  cases p with
  | load => exact ⟨.clear, rfl, by cases w <;> rfl, Or.inl (by simp only [work]; omega)⟩
  | clear => exact ⟨.enable, rfl, by cases w <;> rfl, Or.inl (by simp only [work]; omega)⟩
  | enable =>
    refine ⟨.read, rfl, by cases w <;> rfl, Or.inl ?_⟩
    have hleft := left_le { s.sysTick.read with enable := true }
    show 6 + left { s.sysTick.read with enable := true } < 2 ^ 24 + 7
    omega
  | read => exact ⟨.poll, rfl, by cases w <;> rfl, work_read s.sysTick s.temp⟩
  | poll =>
    obtain ⟨-, -, -, hen⟩ := h
    unfold execWait
    simp only
    by_cases ht : s.temp &&& (1 : U32) <<< 16 ≠ 0
    · rw [if_neg fun h => h.2 ht]
      refine ⟨.disable, rfl, by cases w <;> rfl, Or.inl ?_⟩
      simp only [work]
      rw [if_pos ht]
      omega
    · rw [if_pos ⟨hen, ht⟩]
      exact ⟨.read, rfl, by cases w <;> rfl, work_poll s.sysTick ht⟩
  | disable => exact ⟨.reset, rfl, by cases w <;> rfl, Or.inl (by simp only [work]; omega)⟩
  | reset => exact absurd rfl hp

theorem Loaded.ne_zero {s : Call} {w : Wait} (h : Loaded s w) (hms : s.ms.toNat % 1800 ≠ 0)
    (hload : s.sysTick.load = (loadValue s.ms w).setWidth 24) : s.sysTick.load ≠ 0 := by
  intro h0
  have hv := h.1.value hms
  have hzero : s.sysTick.load.toNat = 0 := congrArg BitVec.toNat h0
  rw [hload, BitVec.toNat_setWidth] at hzero
  omega

/-- **A count** in a call. -/
theorem rank_clock {s : Call} (hat : At s s.stmt) (hms : s.ms.toNat % 1800 ≠ 0) :
    rank (step s .clock) < rank s ∨
      rank (step s .clock) = rank s ∧ due (step s .clock) = due s ∧ .clock ≠ due s := by
  obtain ⟨ms, i, temp, t, stmt, loads⟩ := s
  cases stmt with
  | choose | loop | done => exact Or.inr ⟨rfl, rfl, nofun⟩
  | wait w p =>
    have hp : p = .read ∨ p = .poll → t.enable = true ∧ t.load ≠ 0 := by
      rintro (rfl | rfl)
      · exact ⟨hat.2.2, hat.1.ne_zero hms hat.2.1⟩
      · exact ⟨hat.2.2.1, hat.1.ne_zero hms hat.2.1⟩
    rcases work_clock temp hp with hlt | ⟨heq, hdue, hne⟩
    · exact Or.inl (Nat.add_lt_add_left hlt _)
    · exact Or.inr ⟨congrArg (_ + ·) heq, hdue, hne⟩

/-- **The end of a wait.** -/
theorem rank_reset {s : Call} {w : Wait} (hstmt : s.stmt = .wait w .reset) (hen : Entered s w) :
    rank (execWait s w .reset) < rank s := by
  have hpos : 0 < work s.sysTick s.temp .reset := work_pos _ _ _
  cases w with
  | once | rest =>
    simp only [rank, hstmt]
    show 0 < _
    omega
  | chunk =>
    have hlt : s.i.toNat < s.ms.toNat / 1800 := hen
    have hms := s.ms.isLt
    have hi : (s.i + 1).toNat = s.i.toNat + 1 := by
      rw [BitVec.toNat_add]
      exact Nat.mod_eq_of_lt (show s.i.toNat + 1 < 2 ^ 32 by omega)
    simp only [rank, hstmt]
    show (s.ms.toNat / 1800 - (s.i + 1).toNat + 2) * 2 ^ 25 <
      (s.ms.toNat / 1800 - s.i.toNat + 1) * 2 ^ 25 + _
    rw [hi]
    omega

/-- **A statement** of a call. -/
theorem rank_cpu {s : Call} (hat : At s s.stmt) (hdone : s.stmt ≠ .done) :
    rank (step s .cpu) < rank s ∨
      rank (step s .cpu) = rank s ∧ due (step s .cpu) = due s ∧ .cpu ≠ due s := by
  unfold step exec
  match hstmt : s.stmt with
  | .choose =>
    left
    simp only [rank, hstmt]
    split_ifs
    · have hw := work_lt s.sysTick s.temp .load
      show 1 * 2 ^ 25 + work s.sysTick s.temp .load < _
      omega
    · show (s.ms.toNat / 1800 - 0 + 2) * 2 ^ 25 < _
      omega
  | .loop =>
    left
    rw [hstmt] at hat
    have hw := work_lt s.sysTick s.temp .load
    simp only [rank, hstmt]
    split_ifs
    · show (s.ms.toNat / 1800 - s.i.toNat + 1) * 2 ^ 25 + work s.sysTick s.temp .load < _
      omega
    · show 1 * 2 ^ 25 + work s.sysTick s.temp .load < _
      omega
  | .wait w p =>
    rw [hstmt] at hat
    by_cases hp : p = .reset
    · subst hp
      exact Or.inl (rank_reset hstmt hat.1)
    · obtain ⟨p', hstmt', hwaits, hwork⟩ := work_execWait hat hp
      simp only [rank, due, hstmt, hstmt', hwaits]
      rcases hwork with hlt | ⟨heq, hdue, hne⟩
      · exact Or.inl (Nat.add_lt_add_left hlt _)
      · exact Or.inr ⟨congrArg (_ + ·) heq, hdue, hne⟩
  | .done => exact absurd hstmt hdone

theorem inv_delayMs (ms i temp : U32) (t : SysTick) : Inv ms (delayMs ms i temp t) := ⟨rfl, rfl⟩

/-- **The call ends** in every fair schedule, if `ms` is not a multiple of 1800. -/
theorem ends {ms : U32} (hms : ms.toNat % 1800 ≠ 0) (i temp : U32) (t : SysTick) {ev : ℕ → Event}
    (hfair : Fair ev) : ∃ n, (stateAt step (delayMs ms i temp t) ev n).stmt = .done := by
  refine eventually (Inv ms) (fun s => s.stmt = .done) rank due inv_step ?_ hfair
    (inv_delayMs ms i temp t)
  rintro s e ⟨rfl, hat⟩ hdone
  cases e with
  | cpu => exact rank_cpu hat hdone
  | clock => exact rank_clock hat hms

/-! ### A multiple of 1800 -/

/-- **What holds before each statement** of a call that never ends: 0 is loaded, the counter stays
at 0 and the flag is not set. -/
def Hung (s : Call) : Stmt → Prop
  | .wait .chunk _ => True
  | .wait _ .clear => s.sysTick.load = 0
  | .wait _ .enable => s.sysTick.load = 0 ∧ s.sysTick.val = 0 ∧ s.sysTick.countflag = false
  | .wait _ .read => s.sysTick.load = 0 ∧ s.sysTick.val = 0 ∧ s.sysTick.countflag = false ∧
      s.sysTick.enable = true
  | .wait _ .poll => s.sysTick.load = 0 ∧ s.sysTick.val = 0 ∧ s.sysTick.countflag = false ∧
      s.sysTick.enable = true ∧ s.temp = sysTickCtrlEnableMsk
  | .wait _ .disable | .wait _ .reset | .done => False
  | _ => True

theorem clock_zero {t : SysTick} (hload : t.load = 0) (hval : t.val = 0) : t.clock = t := by
  obtain ⟨enable, countflag, load, val⟩ := t
  subst hload hval
  cases enable <;> rfl

theorem Entered.zero {s : Call} {w : Wait} (h : Entered s w) (hw : w ≠ .chunk)
    (hms : s.ms.toNat % 1800 = 0) : loadValue s.ms w = 0 := by
  apply BitVec.eq_of_toNat_eq
  show (loadValue s.ms w).toNat = 0
  cases w with
  | once =>
    have hlt : s.ms.toNat < 1800 := h
    rw [loadValue_once hlt]
    omega
  | chunk => exact absurd rfl hw
  | rest => rw [loadValue_rest, hms]

/-- The last wait is the one for less than 1800 ms or the one for the rest. -/
theorem hung_last {w : Wait} (hw : w ≠ .chunk) {s : Call} {p : Phase} :
    Hung s (.wait w p) ↔ Hung s (.wait .rest p) := by
  cases w with
  | chunk => exact absurd rfl hw
  | once | rest => cases p <;> exact Iff.rfl

theorem hung_execWait {s : Call} {w : Wait} {p : Phase} (hat : At s (.wait w p))
    (hms : s.ms.toNat % 1800 = 0) (h : Hung s (.wait w p)) :
    Hung (execWait s w p) (execWait s w p).stmt := by
  by_cases hw : w = .chunk
  · subst hw
    cases p with
    | poll =>
      unfold execWait
      split_ifs <;> trivial
    | _ => trivial
  rw [hung_last hw] at h
  cases p with
  | load =>
    show Hung _ (.wait w .clear)
    rw [hung_last hw]
    show (loadValue s.ms w).setWidth 24 = 0
    rw [hat.1.zero hw hms]
    rfl
  | clear =>
    show Hung _ (.wait w .enable)
    rw [hung_last hw]
    exact ⟨h, rfl, rfl⟩
  | enable =>
    show Hung _ (.wait w .read)
    rw [hung_last hw]
    exact ⟨h.1, h.2.1, rfl, rfl⟩
  | read =>
    obtain ⟨hload, hval, hflag, hen⟩ := h
    show Hung _ (.wait w .poll)
    rw [hung_last hw]
    refine ⟨hload, hval, rfl, hen, ?_⟩
    show s.sysTick.ctrl = sysTickCtrlEnableMsk
    unfold SysTick.ctrl
    rw [hen, hflag]
    rfl
  | poll =>
    obtain ⟨hload, hval, hflag, hen, htemp⟩ := h
    unfold execWait
    rw [htemp, if_pos (by decide)]
    show Hung _ (.wait w .read)
    rw [hung_last hw]
    exact ⟨hload, hval, hflag, hen⟩
  | disable | reset => exact h.elim

/-- **The step lemma** of a call that never ends. -/
theorem hung_step {ms : U32} (hms : ms.toNat % 1800 = 0) (s : Call) (e : Event)
    (h : Inv ms s ∧ Hung s s.stmt) : Inv ms (step s e) ∧ Hung (step s e) (step s e).stmt := by
  obtain ⟨hinv, hung⟩ := h
  refine ⟨inv_step s e hinv, ?_⟩
  obtain ⟨rfl, hat⟩ := hinv
  cases e with
  | clock =>
    show Hung { s with sysTick := s.sysTick.clock } s.stmt
    match hstmt : s.stmt with
    | .choose | .loop => trivial
    | .done =>
      rw [hstmt] at hung
      exact hung
    | .wait .chunk p => trivial
    | .wait .once .load | .wait .rest .load => trivial
    | .wait .once .clear | .wait .rest .clear =>
      rw [hstmt] at hung
      exact (clock_load _).trans hung
    | .wait .once .enable | .wait .rest .enable | .wait .once .read | .wait .rest .read
    | .wait .once .poll | .wait .rest .poll =>
      rw [hstmt] at hung
      rw [clock_zero hung.1 hung.2.1]
      exact hung
    | .wait .once .disable | .wait .rest .disable | .wait .once .reset | .wait .rest .reset =>
      rw [hstmt] at hung
      exact hung
  | cpu =>
    unfold step exec
    match hstmt : s.stmt with
    | .choose | .loop =>
      simp only
      split_ifs <;> trivial
    | .wait w p =>
      rw [hstmt] at hat hung
      exact hung_execWait hat hms hung
    | .done =>
      rw [hstmt] at hung
      exact hung.elim

/-- **The call never ends** if `ms` is a multiple of 1800, whatever the schedule. -/
theorem never_done {ms : U32} (hms : ms.toNat % 1800 = 0) (i temp : U32) (t : SysTick)
    (ev : ℕ → Event) (n : ℕ) : (stateAt step (delayMs ms i temp t) ev n).stmt ≠ .done := by
  intro hdone
  obtain ⟨-, hung⟩ := always (fun s => Inv ms s ∧ Hung s s.stmt) (hung_step hms)
    ⟨inv_delayMs ms i temp t, trivial⟩ n
  rw [hdone] at hung
  exact hung

/-! ### The result -/

/-- The processor and the clock by turns. -/
def byTurns (n : ℕ) : Event := if n % 2 = 0 then .cpu else .clock

theorem fair_byTurns : Fair byTurns := by
  intro e n
  cases e with
  | cpu => exact ⟨2 * n, by omega, if_pos (by omega)⟩
  | clock => exact ⟨2 * n + 1, by omega, if_neg (by omega)⟩

theorem not_delays {ms : U32} (hms : ms.toNat % 1800 = 0) : ¬ Delays ms := by
  intro h
  obtain ⟨n, hdone, -⟩ := (h 0 0 ⟨false, false, 0, 0⟩ byTurns).2 fair_byTurns
  exact never_done hms 0 0 _ byTurns n hdone

/-- **`delay_ms` waits** if and only if `ms` is not a multiple of 1800. -/
theorem delays_iff (ms : U32) : Delays ms ↔ ms.toNat % 1800 ≠ 0 := by
  refine ⟨fun h hms => not_delays hms h, fun hms i temp t ev => ?_⟩
  have hinv : ∀ n, Inv ms (stateAt step (delayMs ms i temp t) ev n) :=
    always (Inv ms) inv_step (inv_delayMs ms i temp t)
  refine ⟨fun n v hv => ?_, fun hfair => ?_⟩
  · obtain ⟨heq, hat⟩ := hinv n
    rw [← heq] at hms
    exact hat.value hms hv
  · obtain ⟨n, hdone⟩ := ends hms i temp t hfair
    obtain ⟨heq, hat⟩ := hinv n
    rw [hdone] at hat
    obtain ⟨w, hw, hl⟩ := hat
    refine ⟨n, hdone, ?_⟩
    rw [hl.sum hw, heq]

/-- **`delay_ms(0)`**: 0 is loaded, and the call never ends. -/
theorem delay_zero_hangs :
    (stateAt step (delayMs 0 0 0 ⟨false, false, 0, 0⟩) (fun _ => .cpu) 2).loads = [0] ∧
    (∀ ev n, (stateAt step (delayMs 0 0 0 ⟨false, false, 0, 0⟩) ev n).stmt ≠ .done) ∧
    ¬ Delays 0 :=
  ⟨by decide, fun ev n => never_done rfl 0 0 _ ev n, not_delays rfl⟩

end Stm32TcpServer.Delay.DelayMs
