import Stm32TcpServer.Tcp.Receive
import Stm32TcpServer.Uart.SendUart

/-! # The window credit and COM2

`OnTcpServerRecv` first gives the peer credit for all of the payload (`tcp_recved`), then passes the
payload on to COM2, and nobody looks at how much of it COM2 has accepted. A connection has never
been given credit for more than COM2 has accepted of its data exactly if each payload finds enough
room in the transmit buffer (`credit_iff`).

The server and the transmit side of COM2 run side by side: between two steps of the server the DMA
moves any number of bytes, and calls of `SendCom2Data` of the main loop go on, which
`ETH_IRQHandler` preempts at any statement. -/

namespace Stm32TcpServer.Tcp.Credit

open Stm32TcpServer.Lib.Runs
open Stm32TcpServer.Lwip.TcpPcb Stm32TcpServer.Tcp.TcpServer Stm32TcpServer.Tcp.Receive
open Stm32TcpServer.Uart.Com2Tx Stm32TcpServer.Uart.SendUart

/-- **The server and the transmit side of COM2.** -/
structure Bridge where
  server : Server
  uart : Uart.TxStream.Sys
  /-- The bytes of each connection that `SendCom2Data` has accepted. -/
  accepted : Ptr → ℕ

/-- The state after `InitTcpServer` and `InitUartCon`. -/
def Bridge.init : Bridge where
  server := Server.init
  uart := Uart.TxStream.Sys.init
  accepted := fun _ => 0

/-- A step of the server, or of the transmit side: a statement of the main loop or a transfer. -/
inductive Event
  | net (e : TcpServer.Event)
  | uart (e : Uart.TxStream.Event)

/-- `OnTcpReceiveData` passes the data of a connection on to COM2. -/
def Bridge.forward (b : Bridge) (pcb : Ptr) (data : List UInt8) : Bridge :=
  let r := onTcpReceiveData b.uart.tx data data.length
  { b with
    uart := { b.uart with tx := r.1 }
    accepted := Function.update b.accepted pcb (b.accepted pcb + r.2) }

/-- **One step.** -/
def step (b : Bridge) : Event → Option Bridge
  | .net e => (TcpServer.step b.server e).map fun s =>
    (delivered b.server e).elim { b with server := s } fun d =>
      { b with server := s }.forward d.1 d.2
  | .uart e => (Uart.TxStream.step b.uart e).map fun u => { b with uart := u }

/-- The credit that `tcp_recved` has been called with for the connection. -/
def credited (pcb : Ptr) (log : List Effect) : ℕ :=
  (log.map fun
    | .tcpRecved p len => if p = pcb then len else 0
    | _ => 0).sum

/-- **The credit of every connection is covered** by what COM2 has accepted. -/
def Covered (b : Bridge) : Prop := ∀ pcb, credited pcb b.server.log ≤ b.accepted pcb

/-- The room in the transmit buffer. -/
def room (t : Tx) : ℕ := uartSendBuf - found t

/-- A payload that the step passes on finds room in the transmit buffer. -/
def Fits (b : Bridge) : Event → Prop
  | .net e => (delivered b.server e).elim True fun d => d.2.length ≤ room b.uart.tx
  | .uart _ => True

instance (b : Bridge) (e : Event) : Decidable (Fits b e) := by
  unfold Fits
  cases e with
  | net e =>
    dsimp only
    cases delivered b.server e with
    | none => exact instDecidableTrue
    | some d => exact Nat.decLe _ _
  | uart e => exact instDecidableTrue

/-! ### The credit -/

variable {s s' : Server} {b b' : Bridge} {pcb p : Ptr} {data : List UInt8}

theorem credited_append (pcb : Ptr) (log log' : List Effect) :
    credited pcb (log ++ log') = credited pcb log + credited pcb log' := by
  simp only [credited, List.map_append, List.sum_append]

theorem credited_eq_zero {log : List Effect} (h : ∀ x ∈ log, FromRecv x = false) :
    credited pcb log = 0 := by
  refine List.sum_eq_zero_iff_forall_eq_nat.mpr fun n hn => ?_
  obtain ⟨x, hx, rfl⟩ := List.mem_map.mp hn
  have hrecv := h x hx
  cases x with
  | tcpRecved p len => exact absurd hrecv (by simp [FromRecv])
  | tcpWrite _ _ _ => rfl
  | sendUartData _ => rfl
  | closeTcp _ _ => rfl
  | store _ _ _ => rfl

theorem credited_recvEffects (m : Server) :
    credited p (recvEffects m pcb data) = if pcb = p then data.length else 0 := by
  unfold recvEffects credited
  cases m.connectFlag <;> simp

/-- **The credit for a payload** is its length. -/
theorem credited_delivered {e : TcpServer.Event} (hd : delivered s e = some (pcb, data)) (p : Ptr) :
    credited p (next s e).log = credited p s.log + if pcb = p then data.length else 0 := by
  obtain ⟨m, hlog, -⟩ := log_delivered hd
  rw [hlog, credited_append, credited_recvEffects]

theorem credited_undelivered {e : TcpServer.Event} (hd : delivered s e = none) (p : Ptr) :
    credited p (next s e).log = credited p s.log := by
  obtain ⟨log, hlog, hrecv⟩ := log_undelivered hd
  rw [hlog, credited_append, credited_eq_zero hrecv, Nat.add_zero]

/-! ### The two totals -/

/-- COM2 never accepts more than a connection has been given credit for. -/
structure Inv (b : Bridge) : Prop where
  bounded : Bounded b.uart
  accepted : ∀ pcb, b.accepted pcb ≤ credited pcb b.server.log

theorem inv_init : Inv Bridge.init := ⟨bounded_init, fun _ => Nat.zero_le _⟩

theorem covered_init : Covered Bridge.init := fun _ => Nat.zero_le _

theorem accepted_le (h : Bounded b.uart) (data : List UInt8) :
    (onTcpReceiveData b.uart.tx data data.length).2 ≤ data.length ∧
      (data.length ≤ (onTcpReceiveData b.uart.tx data data.length).2 ↔
        data.length ≤ room b.uart.tx) := by
  have hret : (onTcpReceiveData b.uart.tx data data.length).2 =
      min (Uart.Dma.u8 data.length) (room b.uart.tx) :=
    (sendCom2Data_sent b.uart.tx data _).ret_eq_min h.cndtr
  have hroom : room b.uart.tx ≤ 100 := Nat.sub_le _ _
  unfold Uart.Dma.u8 at hret
  omega

theorem accepted_forward (b : Bridge) (pcb p : Ptr) (data : List UInt8) :
    (b.forward pcb data).accepted p = b.accepted p +
      if pcb = p then (onTcpReceiveData b.uart.tx data data.length).2 else 0 := by
  unfold Bridge.forward
  dsimp only
  by_cases hp : pcb = p
  · subst hp
    rw [Function.update_self, if_pos rfl]
  · rw [Function.update_of_ne (Ne.symm hp), if_neg hp, Nat.add_zero]

/-- **A payload is passed on**, after which the server is in the state `s`. -/
theorem covered_forward (h : Inv b) (hP : Covered b)
    (hcred : ∀ p, credited p s.log =
      credited p b.server.log + if pcb = p then data.length else 0) :
    Inv ({ b with server := s }.forward pcb data) ∧
      (Covered ({ b with server := s }.forward pcb data) ↔ data.length ≤ room b.uart.tx) := by
  obtain ⟨hle, hiff⟩ := accepted_le h.bounded data
  have hacc := accepted_forward { b with server := s } pcb
  have hserver : ({ b with server := s }.forward pcb data).server = s := rfl
  refine ⟨⟨bounded_sendCom2Data h.bounded _ _, fun p => ?_⟩, ?_⟩
  · have hp := h.accepted p
    rw [hacc, hserver, hcred]
    dsimp only
    split_ifs <;> omega
  rw [← hiff]
  constructor
  · intro hcov
    have hpcb := hcov pcb
    have hold := h.accepted pcb
    rw [hacc, hserver, hcred, if_pos rfl, if_pos rfl] at hpcb
    dsimp only at hpcb
    omega
  · intro hlen p
    have hp := hP p
    rw [hacc, hserver, hcred]
    dsimp only
    split_ifs <;> omega

/-- **The step lemma.** -/
theorem covered_step {e : Event} (h : Inv b) (hP : Covered b) (hs : step b e = some b') :
    Inv b' ∧ (Covered b' ↔ Fits b e) := by
  cases e with
  | uart e =>
    obtain ⟨u, hu, rfl⟩ := Option.map_eq_some_iff.mp hs
    exact ⟨⟨bounded_step h.bounded hu, h.accepted⟩, iff_of_true hP trivial⟩
  | net e =>
    obtain ⟨s, hs, hb⟩ := Option.map_eq_some_iff.mp hs
    obtain ⟨-, rfl⟩ := excluded_eq_some hs
    have hfits : Fits b (.net e) ↔
        (delivered b.server e).elim True fun d => d.2.length ≤ room b.uart.tx := Iff.rfl
    rw [hfits]
    cases hd : delivered b.server e with
    | none =>
      rw [hd, Option.elim_none] at hb
      subst hb
      have hcred := credited_undelivered hd
      refine ⟨⟨h.bounded, fun p => ?_⟩, iff_of_true (fun p => ?_) trivial⟩
      · rw [hcred]
        exact h.accepted p
      · rw [hcred]
        exact hP p
    | some d =>
      obtain ⟨pcb, data⟩ := d
      rw [hd, Option.elim_some] at hb
      subst hb
      exact covered_forward h hP (credited_delivered hd)

/-- **The window credit.** In a run from the start, no connection has in any state been given credit
for more of its data than COM2 has accepted, if and only if every payload finds enough room in the
transmit buffer. -/
theorem credit_iff {es : List Event} {c : Bridge} (hr : run step Bridge.init es = some c) :
    (∀ n b, run step Bridge.init (es.take n) = some b → Covered b) ↔
      Along step Fits Bridge.init es :=
  always_iff_along Inv (fun _ _ _ h hP hs => (covered_step h hP hs).1)
    (fun _ _ _ h hP hs => (covered_step h hP hs).2) inv_init covered_init hr

/-- A client connects and sends `abc`, then `de` while COM2 has sent one byte. -/
def runCovered : List Event :=
  (handshake 1025).map .net ++ [.net (TcpServer.data 1025 [97, 98, 99]), .uart .dma,
    .net (TcpServer.data 1025 [100, 101])]

theorem credit_covered : ∃ c, run step Bridge.init runCovered = some c ∧
    credited ⟨9, 1⟩ c.server.log = 5 ∧
    ∀ n b, run step Bridge.init (runCovered.take n) = some b → Covered b := by
  obtain ⟨c, hr, hcred⟩ := Option.map_eq_some_iff.mp
    (show (run step Bridge.init runCovered).map (fun c => credited ⟨9, 1⟩ c.server.log) = some 5 by
      decide +kernel)
  exact ⟨c, hr, hcred, (credit_iff hr).mpr (by decide +kernel)⟩

/-- A client connects and sends 150 bytes. -/
def runOverrun : List Event :=
  (handshake 1025).map .net ++ [.net (TcpServer.data 1025 (List.replicate 150 97))]

/-- **Data that has been credited is dropped**: COM2 takes 100 of the 150 bytes. -/
theorem credit_overrun : ∃ c, run step Bridge.init runOverrun = some c ∧
    credited ⟨9, 1⟩ c.server.log = 150 ∧ c.accepted ⟨9, 1⟩ = 100 ∧ ¬ Covered c := by
  obtain ⟨c, hr, heq⟩ := Option.map_eq_some_iff.mp
    (show (run step Bridge.init runOverrun).map
        (fun c => (credited ⟨9, 1⟩ c.server.log, c.accepted ⟨9, 1⟩)) = some (150, 100) by
      decide +kernel)
  obtain ⟨hcred, hacc⟩ := Prod.mk.inj heq
  refine ⟨c, hr, hcred, hacc, fun h => ?_⟩
  have hle := h ⟨9, 1⟩
  rw [hcred, hacc] at hle
  exact absurd hle (by decide)

end Stm32TcpServer.Tcp.Credit
