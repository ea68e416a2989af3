import Stm32TcpServer.Uart.TxNested

/-! # The length of a forwarded payload (tcpserver.c, Uart.c)

`OnTcpReceiveData` passes the length of the payload, a `u16`, to `SendUartData` and that one to
`SendCom2Data`, where it is a `u8`. The calls queue the first `min n (100 - r)` of the `n` bytes
behind the `r` bytes pending exactly if the length survives the conversion, or what is left of it
fills the buffer all the same (`queues_iff`).

* `sendCom2Data_sent`: what a call of `SendCom2Data` returns, whatever the state.
* `bounded_step`, `bounded_sendCom2Data`: `CNDTR` never exceeds the size of the buffer.
* `queued_sendCom2Data`: what a call queues. -/

namespace Stm32TcpServer.Uart.SendUart

open Stm32TcpServer.Lib.Runs Stm32TcpServer.Lib.Window
open Stm32TcpServer.Uart.Dma Stm32TcpServer.Uart.Com2Tx Stm32TcpServer.Uart.TxQueue
open Stm32TcpServer.Uart.TxCall Stm32TcpServer.Uart.TxStream Stm32TcpServer.Uart.TxNested

/-- `UART_PORT_COM2`. -/
abbrev uartPortCom2 : ℕ := 0

/-- **`SendUartData(port, pBuf, len)`**, with the value it returns. -/
def sendUartData (t : Tx) (port : ℕ) (pBuf : List UInt8) (len : ℕ) : Tx × ℕ :=
  if port = uartPortCom2 then sendCom2Data t pBuf len else (t, 0)

/-- **`OnTcpReceiveData(recvData, len)`**, as far as COM2 is concerned, with the value that
`SendUartData` reports; its parameter `len` is a `u8`. -/
def onTcpReceiveData (t : Tx) (recvData : List UInt8) (len : ℕ) : Tx × ℕ :=
  sendUartData t uartPortCom2 recvData (u8 len)

/-- The bytes pending: accepted and not yet sent. Without the flag the window of the channel holds
none, at most some of the initial zero bytes. -/
def queued (t : Tx) : List UInt8 := if t.sCom2SendFlag = 1 then t.inWindow else []

/-! ### What a call returns -/

theorem forUp_inv {σ : Type} (P : σ → Prop) (body : ℕ → σ → σ) (h : ∀ i s, P s → P (body i s)) :
    ∀ n i s, P s → P (forUp body i n s)
  | 0, _, _, hs => hs
  | n + 1, i, s, hs => forUp_inv P body h n (i + 1) _ (h i s hs)

/-- What a loop of a call leaves alone. -/
def SameStream (t t' : Tx) : Prop := t'.wire = t.wire ∧ t'.zeros = t.zeros ∧ t'.calls = t.calls

theorem sameStream_shift (cnt n : ℕ) (t : Tx) :
    SameStream t (forUp (fun i t => t.shift i cnt) 0 n t) :=
  forUp_inv (SameStream t) (fun i t => t.shift i cnt) (fun _ _ h => h) n 0 t ⟨rfl, rfl, rfl⟩

theorem sameStream_store (k : ℕ → ℕ) (pBuf : List UInt8) (n : ℕ) (t : Tx) :
    SameStream t (forUp (fun i t => t.store (k i) (pBuf.getD i 0)) 0 n t) :=
  forUp_inv (SameStream t) (fun i t => t.store (k i) (pBuf.getD i 0)) (fun _ _ h => h) n 0 t
    ⟨rfl, rfl, rfl⟩

/-- The bytes that a call finds unsent in the buffer, by the flag and by `CNDTR`. -/
def found (t : Tx) : ℕ := if t.sCom2SendFlag = 1 then u8 t.channel7.cndtr else 0

/-- **What a call of `SendCom2Data` returns and leaves alone**, with the result `r`. -/
structure Sent (t : Tx) (pBuf : List UInt8) (len : ℕ) (r : Tx × ℕ) : Prop where
  ret : r.2 = if uartSendBuf < len + found t then u8Sub uartSendBuf (found t) else len
  wire : r.1.wire = t.wire
  zeros : r.1.zeros = t.stop.zeros
  flag : r.1.sCom2SendFlag = 1
  calls : ∃ q, r.1.calls = t.calls ++ [{ pBuf, len, q, ret := r.2 }]

theorem sendCom2Data_sent (t : Tx) (pBuf : List UInt8) (len : ℕ) :
    Sent t pBuf len (sendCom2Data t pBuf len) := by
  unfold sendCom2Data
  by_cases hflag : t.sCom2SendFlag = 1
  · have hfound : found t = u8 t.channel7.cndtr := if_pos hflag
    have hshift := sameStream_shift
      (u8Sub t.stop.sCom2SendLen (u8 t.stop.channel7.cndtr)) (u8 t.stop.channel7.cndtr) t.stop
    have hcopy := sameStream_store (· + u8 t.stop.channel7.cndtr) pBuf
    rw [if_pos hflag]
    refine ⟨?_, (hcopy _ _).1.trans hshift.1, (hcopy _ _).2.1.trans hshift.2.1, rfl, t.stop.unsent,
      congrArg (· ++ _) ((hcopy _ _).2.2.trans hshift.2.2)⟩
    rw [hfound]
    rfl
  · have hfound : found t = 0 := if_neg hflag
    have hcopy := sameStream_store id pBuf (if uartSendBuf < len then uartSendBuf else len) t.stop
    rw [if_neg hflag]
    refine ⟨?_, hcopy.1, hcopy.2.1, rfl, t.stop.unsent, congrArg (· ++ _) hcopy.2.2⟩
    rw [hfound]
    rfl

theorem Sent.ret_eq_min {t : Tx} {pBuf : List UInt8} {len : ℕ} {r : Tx × ℕ}
    (h : Sent t pBuf len r) (hle : t.channel7.cndtr ≤ uartSendBuf) :
    r.2 = min len (uartSendBuf - found t) := by
  have hfound : found t ≤ uartSendBuf := by
    unfold found
    split_ifs
    · rw [u8_of_lt (Nat.lt_of_le_of_lt hle (by decide))]
      exact hle
    · exact Nat.zero_le _
  rw [h.ret]
  split_ifs with hc
  · rw [u8Sub_of_le (by decide) hfound]
    omega
  · omega

variable {bs : List (List UInt8)} {t : Tx}

/-! ### The bound of `CNDTR`

It holds at every statement of a call of the main loop, whatever calls of the handler preempt it. -/

/-- The locals of a call leave no more to `CNDTR` than the buffer holds. -/
def Clamped (f : Frame) : Prop :=
  match f.pc with
  | .busyCnt | .busyShift | .busyClamp => f.tmp ≤ uartSendBuf
  | .busyCopy | .busyRet | .busyLen | .busyCndtr => f.len + f.tmp ≤ uartSendBuf
  | .idleCopy | .idleRet | .idleLen | .idleCndtr => f.len ≤ uartSendBuf
  | _ => True

/-- `CNDTR` and the call in progress. -/
structure Bounded (s : Sys) : Prop where
  cndtr : s.tx.channel7.cndtr ≤ uartSendBuf
  frame : ∀ f, s.frame = some f → Clamped f

theorem setCndtr_le {c : Channel} {n : ℕ} (hc : c.cndtr ≤ uartSendBuf) (hn : n ≤ uartSendBuf) :
    (c.setCndtr n).cndtr ≤ uartSendBuf := by
  unfold Channel.setCndtr
  split_ifs
  · exact hc
  · exact hn

theorem stmt_clamped {f : Frame} (ht : t.channel7.cndtr ≤ uartSendBuf) (hf : Clamped f) :
    (stmt t f).1.channel7.cndtr ≤ uartSendBuf ∧ Clamped (stmt t f).2 := by
  have hsb : uartSendBuf = 100 := rfl
  have hu8 : u8 t.channel7.cndtr ≤ t.channel7.cndtr := Nat.mod_le _ _
  cases hpc : f.pc <;> simp only [Clamped, stmt, hpc] at hf ⊢
  case test => split_ifs <;> exact ⟨ht, trivial⟩
  case busyStop | idleStop => exact ⟨ht, trivial⟩
  case busyTmp => exact ⟨ht, Nat.le_trans hu8 ht⟩
  case busyShift => split_ifs <;> exact ⟨ht, by simpa only [hpc] using hf⟩
  case busyClamp =>
    refine ⟨ht, ?_⟩
    split_ifs with hc
    · rw [u8Sub_of_le (by decide) hf]
      omega
    · omega
  case busyCopy | idleCopy => split_ifs <;> exact ⟨ht, by simpa only [hpc] using hf⟩
  case busyCndtr | idleCndtr => exact ⟨setCndtr_le ht hf, trivial⟩
  case busyStart | idleStart =>
    have hcn := Channel.enable_cndtr t.channel7
    exact ⟨Nat.le_trans (Nat.le_of_eq hcn) ht, trivial⟩
  case idleClamp =>
    refine ⟨ht, ?_⟩
    split_ifs <;> omega
  case ret => exact ⟨ht, by simp only⟩
  all_goals exact ⟨ht, hf⟩

theorem bounded_init : Bounded Sys.init := ⟨Nat.le_refl _, fun _ h => nomatch h⟩

theorem bounded_step {s s' : Sys} {e : Event} (h : Bounded s) (hs : step s e = some s') :
    Bounded s' := by
  cases e with
  | call pBuf len =>
    obtain ⟨-, rfl⟩ := guard_eq_some hs
    refine ⟨h.cndtr, fun f hf => ?_⟩
    obtain rfl := Option.some.inj hf
    trivial
  | stmt =>
    obtain ⟨f, hf, rfl⟩ := Option.map_eq_some_iff.mp hs
    split_ifs
    · exact ⟨h.cndtr, fun _ hf => nomatch hf⟩
    · have hstmt := stmt_clamped h.cndtr (h.frame f hf)
      refine ⟨hstmt.1, fun f' hf' => ?_⟩
      obtain rfl := Option.some.inj hf'
      exact hstmt.2
  | dma =>
    obtain ⟨t, ht, rfl⟩ := Option.map_eq_some_iff.mp hs
    refine ⟨?_, h.frame⟩
    unfold Tx.beat at ht
    obtain ⟨-, rfl⟩ := guard_eq_some ht
    have hle := h.cndtr
    unfold Tx.dma1Channel7IrqHandler
    split_ifs
    all_goals simp only [Channel.disable_cndtr, Channel.clearTc, Channel.beat_cndtr]; omega

/-- **A call of the handler.** -/
theorem bounded_sendCom2Data {s : Sys} (h : Bounded s) (pBuf : List UInt8) (len : ℕ) :
    Bounded { s with tx := (sendCom2Data s.tx pBuf len).1 } := by
  obtain ⟨t', f', hr, -, -, heq⟩ := reaches_sendCom2Data s.tx pBuf len
  have henter : Clamped (enter pBuf len) := trivial
  have hinv : t'.channel7.cndtr ≤ uartSendBuf ∧ Clamped f' :=
    hr.invariant (P := fun x => x.1.channel7.cndtr ≤ uartSendBuf ∧ Clamped x.2)
      (fun _ hx => stmt_clamped hx.1 hx.2) ⟨h.cndtr, henter⟩
  refine ⟨?_, h.frame⟩
  rw [heq]
  exact hinv.1

/-! ### What a call queues -/

theorem length_queued (h : Steady bs t) :
    t.channel7.cndtr ≤ uartSendBuf ∧ (queued t).length = found t := by
  obtain ⟨⟨hok, ⟨hz, -⟩ | ⟨hq, -⟩⟩, hen⟩ := h
  · have hflag : t.sCom2SendFlag ≠ 1 := by
      rw [hz.flag]
      exact Nat.zero_ne_one
    exact ⟨hz.le, by rw [queued, found, if_neg hflag, if_neg hflag, List.length_nil]⟩
  · have hle := hq.le
    have hsl := hq.sendLen
    have hcn : t.channel7.cndtr ≤ uartSendBuf := Nat.le_trans hle hsl
    refine ⟨hcn, ?_⟩
    unfold queued found
    split_ifs
    · rw [u8_of_lt (Nat.lt_of_le_of_lt hcn (by decide)), Tx.inWindow]
      rcases Nat.eq_zero_or_pos t.channel7.cndtr with h0 | hpos
      · simp [h0]
      · have hen' : t.channel7.en = true := hen.resolve_right (by omega)
        have hini := hq.initial hpos
        rw [if_pos hen'] at hini
        rw [if_pos hen', Channel.next, hini, List.length_take, List.length_drop, hok.bufLen]
        omega
    · rfl

/-- The bytes sent and the bytes pending, with the initial zero bytes that are over once the channel
is stopped. -/
theorem wire_queued (h : Steady bs t) :
    t.wire ++ queued t = List.replicate (lead t.stop) 0 ++ bs.flatten := by
  have hwin := h.inWindow
  obtain ⟨⟨hok, hq⟩, -⟩ := h
  unfold queued
  split_ifs with hflag
  · rcases hq with ⟨hz, -⟩ | ⟨hq, -⟩
    · rw [hz.flag] at hflag
      exact absurd hflag Nat.zero_ne_one
    · have hstop : t.wire ++ pending t = List.replicate (lead t.stop) 0 ++ bs.flatten :=
        (stop_queued hok hq).wire
      have hwire := hwin.trans hq.wire.symm
      exact hwire.trans hstop
  · have hidle : Zeros t ∧ bs = [] ∨ Queued bs t ∧ t.channel7.cndtr = 0 :=
      hq.imp_right fun hq => ⟨hq.1, hq.2.resolve_left hflag⟩
    have hwire := (stop_idle hok hidle).wire
    rw [List.take_zero] at hwire
    exact hwire

/-- **A call queues the bytes it accepts** behind the bytes pending. -/
theorem queued_sendCom2Data (h : Steady bs t) {pBuf : List UInt8} {len : ℕ} (hlt : len < 256)
    (hbuf : len ≤ pBuf.length) :
    queued (sendCom2Data t pBuf len).1 = queued t ++ pBuf.take (sendCom2Data t pBuf len).2 := by
  have hs := sendCom2Data_sent t pBuf len
  obtain ⟨c, hcalls, hst⟩ := sendCom2Data_entry h.entry hlt hbuf
  obtain ⟨q, hq⟩ := hs.calls
  have hc : c.accepted = pBuf.take (sendCom2Data t pBuf len).2 := by
    have := List.append_cancel_left (hcalls.symm.trans hq)
    rw [List.singleton_inj.mp this]
    rfl
  have hlead : lead (sendCom2Data t pBuf len).1 = lead t.stop := lead_eq hs.zeros
  have hwin := hst.inWindow
  rw [hs.wire, hlead, List.flatten_append, ← List.append_assoc, ← wire_queued h,
    List.append_assoc] at hwin
  rw [queued, if_pos hs.flag, List.append_cancel_left hwin, List.flatten_singleton, hc]

/-! ### The length -/

/-- **The first `min n (100 - r)` bytes of the payload are queued** behind the `r` bytes pending,
and their number is reported. -/
structure Queues (t : Tx) (p : List UInt8) : Prop where
  bytes : queued (onTcpReceiveData t p p.length).1 =
    queued t ++ p.take (min p.length (uartSendBuf - (queued t).length))
  wire : (onTcpReceiveData t p p.length).1.wire = t.wire
  count : (onTcpReceiveData t p p.length).2 = min p.length (uartSendBuf - (queued t).length)

theorem onTcpReceiveData_steady (h : Steady bs t) (p : List UInt8) :
    (onTcpReceiveData t p p.length).2 = min (u8 p.length) (uartSendBuf - (queued t).length) ∧
      queued (onTcpReceiveData t p p.length).1 =
        queued t ++ p.take (min (u8 p.length) (uartSendBuf - (queued t).length)) := by
  obtain ⟨hcn, hlen⟩ := length_queued h
  have hlt : u8 p.length < 256 := Nat.mod_lt _ (by decide)
  have hle : u8 p.length ≤ p.length := Nat.mod_le _ _
  have hret : (sendCom2Data t p (u8 p.length)).2 =
      min (u8 p.length) (uartSendBuf - (queued t).length) := by
    rw [hlen]
    exact (sendCom2Data_sent t p (u8 p.length)).ret_eq_min hcn
  have hq := queued_sendCom2Data h hlt hle
  rw [hret] at hq
  exact ⟨hret, hq⟩

/-- **The payload of a segment.** Between two calls the chain of calls queues the first
`min n (100 - r)` bytes of a payload of `n` bytes if and only if `n` fits a `u8`, or the rest that
the conversion leaves of it fills the buffer. -/
theorem queues_iff {es : List Event} {s : Sys} (hr : run step Sys.init es = some s)
    (hf : s.frame = none) (p : List UInt8) (hp : p.length < 65536) :
    Queues s.tx p ↔ p.length < 256 ∨ uartSendBuf - (queued s.tx).length ≤ p.length % 256 := by
  have hinv := invariant' TxStream.Inv TxStream.inv_step inv_init hr
  have hst : Steady (blocks s) s.tx := hinv.holds.idle hf
  obtain ⟨hcount, hqueued⟩ := onTcpReceiveData_steady hst p
  have hu8 : u8 p.length = p.length % 256 := rfl
  have hwire : (onTcpReceiveData s.tx p p.length).1.wire = s.tx.wire :=
    (sendCom2Data_sent s.tx p (u8 p.length)).wire
  constructor
  · intro h
    have hmin := hcount.symm.trans h.count
    omega
  · intro h
    have hmin : min (u8 p.length) (uartSendBuf - (queued s.tx).length) =
        min p.length (uartSendBuf - (queued s.tx).length) := by omega
    rw [hmin] at hcount hqueued
    exact ⟨hqueued, hwire, hcount⟩

/-- Two bytes are queued behind `bc`. -/
theorem queues_abc : ∃ s, run step Sys.init runAbc = some s ∧ queued s.tx = [98, 99] ∧
    Queues s.tx [100, 101] := by
  obtain ⟨s, hs, he⟩ := Option.map_eq_some_iff.mp
    (show (run step Sys.init runAbc).map (fun s => (s.frame, queued s.tx)) =
      some (none, [98, 99]) by decide)
  obtain ⟨hf, hq⟩ := Prod.mk.inj he
  exact ⟨s, hs, hq, (queues_iff hs hf [100, 101] (by decide)).mpr (Or.inl (by decide))⟩

/-- The channel has sent the zero bytes it was started with. -/
def runIdle : List Event := List.replicate 100 .dma

/-- **A payload of 256 bytes is dropped**, though the buffer is empty; of one byte less the buffer
takes 100. -/
theorem dropped_payload : ∃ s, run step Sys.init runIdle = some s ∧ s.frame = none ∧
    queued s.tx = [] ∧ queued (onTcpReceiveData s.tx (List.replicate 256 7) 256).1 = [] ∧
    (onTcpReceiveData s.tx (List.replicate 256 7) 256).2 = 0 ∧
    (onTcpReceiveData s.tx (List.replicate 255 7) 255).2 = 100 ∧
    ¬ Queues s.tx (List.replicate 256 7) := by
  obtain ⟨s, hs, he⟩ := Option.map_eq_some_iff.mp
    (show (run step Sys.init runIdle).map (fun s => (s.frame, queued s.tx,
        queued (onTcpReceiveData s.tx (List.replicate 256 7) 256).1,
        (onTcpReceiveData s.tx (List.replicate 256 7) 256).2,
        (onTcpReceiveData s.tx (List.replicate 255 7) 255).2)) = some (none, [], [], 0, 100) by
      decide +kernel)
  simp only [Prod.mk.injEq] at he
  obtain ⟨hf, hq, hq', hret, hret'⟩ := he
  refine ⟨s, hs, hf, hq, hq', hret, hret', fun h => ?_⟩
  have hcount := h.count
  rw [hq, List.length_replicate, hret] at hcount
  exact absurd hcount (by decide)

end Stm32TcpServer.Uart.SendUart
