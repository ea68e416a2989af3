import Stm32TcpServer.Lib.Runs
import Stm32TcpServer.Lwip.Pbuf
import Stm32TcpServer.Lwip.TcpPcb

/-! # The TCP server (tcpserver.c, tcp_in.c)

The callbacks of the server, `CheckForConnection` and `CloseTcp`, and the functions of lwIP that
call them: `tcp_input` with `tcp_process`, and `tcp_slowtmr`. The steps are a segment that arrives,
a run of the slow timer, a call of `SendTcpDataToClient` by the main loop, and the check.

A pcb gets its receive callback in `OnTcpServerAccept`, before it can have received data; the
callbacks for sent data, errors and polling are never set, so lwIP deletes a pcb without telling the
server.

* `deleted`: the pcbs that lwIP deletes in a step.
* `stepped`: what a step other than the check does to the lists of lwIP, the variables of the server
  and the log; `checkForConnection_cases` for the check. -/

namespace Stm32TcpServer.Tcp.TcpServer

open Stm32TcpServer.Lib.Runs
open Stm32TcpServer.Lwip.Pbuf Stm32TcpServer.Lwip.TcpPcb

/-- `tcpLocalPort` of dp83848.c. -/
abbrev tcpLocalPort : ℕ := 5000
/-- `serverPort` of dp83848.c. -/
abbrev serverPort : ℕ := 8080

/-- The functions by which `CloseTcp` writes to a pcb. -/
inductive Setter
  | tcpArg
  | tcpRecv
  | tcpSent
  | tcpErr
  | tcpPoll
  deriving DecidableEq, Repr

/-- **What the server does**; `live` tells whether the pcb is still that of the connection for which
the server has been given the pointer. -/
inductive Effect
  | tcpWrite (pcb : Option Ptr) (live : Bool) (data : List UInt8)
  | tcpRecved (pcb : Ptr) (len : ℕ)
  | sendUartData (data : List UInt8)
  | closeTcp (pcb : Option Ptr) (live : Bool)
  | store (setter : Setter) (pcb : Ptr) (live : Bool)
  deriving DecidableEq, Repr

/-- **The state of the server and of lwIP.** -/
structure Server where
  tcp : Tcp
  tcpClientPcb : Option Ptr
  connectFlag : Bool
  log : List Effect
  /-- `tcp_abort` has been called with NULL or a pcb that is not allocated. -/
  fault : Bool

/-- The state after `InitTcpServer`. -/
def Server.init : Server where
  tcp := Tcp.init
  tcpClientPcb := none
  connectFlag := false
  log := []
  fault := false

/-- The pointer is to a linked pcb, and not to one that has been deleted since. -/
def Server.live (s : Server) (pcb : Option Ptr) : Bool := pcb.any fun p => p ∈ s.tcp.active

/-- The pointer is to an allocated pcb, be it that of a later connection. -/
def Server.allocated (s : Server) (pcb : Option Ptr) : Bool :=
  pcb.any fun p => s.tcp.active.any fun q => q.addr = p.addr

def Server.emit (s : Server) (e : Effect) : Server := { s with log := s.log ++ [e] }

/-! ### The server -/

/-- `tcp_setprio(pcb, prio)`. -/
def tcpSetprio (t : Tcp) (pcb : Ptr) (prio : ℕ) : Tcp :=
  t.write pcb.addr { t.pcb pcb.addr with prio := prio }

/-- **`OnTcpServerAccept(arg, pcb, err)`.** -/
def onTcpServerAccept (s : Server) (pcb : Ptr) : Server :=
  { s with connectFlag := true, tcpClientPcb := some pcb, tcp := tcpSetprio s.tcp pcb tcpPrioMin }

/-- **`SendTcpDataToClient(buff, length)`**, where `tcp_write` returns `written`. -/
def sendTcpDataToClient (s : Server) (buff : List UInt8) (written : Err) : Server × Err :=
  if s.connectFlag then
    (s.emit (.tcpWrite s.tcpClientPcb (s.live s.tcpClientPcb) buff), written)
  else (s, .errConn)

/-- **`OnTcpReceiveData(recvData, len)`.** -/
def onTcpReceiveData (s : Server) (recvData : List UInt8) (written : Err) : Server :=
  (sendTcpDataToClient s recvData written).1.emit (.sendUartData recvData)

/-- **`OnTcpServerRecv(arg, pcb, p, err)`**, where `p` is given by the `tot_len` bytes from its
payload on. -/
def onTcpServerRecv (s : Server) (pcb : Ptr) (p : Option (List UInt8)) (written : Err) : Server :=
  match p with
  | some p => onTcpReceiveData (s.emit (.tcpRecved pcb p.length)) p written
  | none => s

/-- **`CloseTcp(pcb)`.** `tcp_abort` looks at nothing but the address; a pcb that is not allocated
is a fault, and nothing is said about what the code does then. -/
def closeTcp (s : Server) (pcb : Option Ptr) : Server :=
  let s := s.emit (.closeTcp pcb (s.live pcb))
  match pcb with
  | none => { s with fault := true }
  | some p =>
    if s.allocated (some p) then
      let s := { s with tcp := tcpAbandon s.tcp p }
      [Setter.tcpArg, .tcpRecv, .tcpSent, .tcpErr, .tcpPoll].foldl
        (fun s setter => s.emit (.store setter p (s.live (some p)))) s
    else { s with fault := true }

/-- The loop of `CheckForConnection` finds a pcb with the two ports. -/
def Server.found (s : Server) : Bool :=
  s.tcp.active.any fun cpcb =>
    (s.tcp.pcb cpcb.addr).localPort = tcpLocalPort && (s.tcp.pcb cpcb.addr).remotePort = serverPort

/-- **`CheckForConnection()`.** -/
def checkForConnection (s : Server) : Server :=
  let s := { s with connectFlag := s.found }
  if s.connectFlag then s else closeTcp s s.tcpClientPcb

/-! ### lwIP -/

/-- `recv_flags` and `recv_data`. -/
structure Received where
  reset : Bool
  gotFin : Bool
  recvData : Option (List UInt8)

/-- `recv_flags = 0; recv_data = NULL;` -/
def Received.none : Received := { reset := false, gotFin := false, recvData := Option.none }

/-- `tcp_receive(pcb)`, and `pcb->state = CLOSE_WAIT` if it has got a FIN. -/
def tcpReceive (s : Server) (pcb : Ptr) (seg : Segment) : Server × Received :=
  let t := s.tcp
  ({ s with
      tcp := if seg.gotFin then t.write pcb.addr { t.pcb pcb.addr with state := .closeWait } else t },
    { reset := false, gotFin := seg.gotFin, recvData := seg.recvData })

/-- **`tcp_process(pcb)`.** -/
def tcpProcess (s : Server) (pcb : Ptr) (seg : Segment) : Server × Received :=
  let c := s.tcp.pcb pcb.addr
  if seg.rst then (s, { Received.none with reset := seg.acceptable })
  else if seg.syn && c.state ≠ .synRcvd then (s, Received.none)
  else
    let c := { c with tmr := s.tcp.tcpTicks }
    match c.state with
    | .synRcvd =>
      if seg.ack && seg.expectedAck then
        let s := { s with tcp := s.tcp.write pcb.addr { c with state := .established } }
        tcpReceive (onTcpServerAccept s pcb) pcb seg
      else ({ s with tcp := s.tcp.write pcb.addr c }, Received.none)
    | .established | .closeWait =>
      tcpReceive { s with tcp := s.tcp.write pcb.addr c } pcb seg
    | .closed => (s, Received.none)

/-- The end of `tcp_input`: the pcb is deleted, or the receive callback is called. -/
def tcpEvents (s : Server) (pcb : Ptr) (r : Received) (written : Err) : Server :=
  if r.reset then { s with tcp := s.tcp.remove pcb }
  else
    let s := r.recvData.elim s fun data => onTcpServerRecv s pcb (some data) written
    if r.gotFin then onTcpServerRecv s pcb none written else s

/-- The active pcb that a segment is for. -/
def lookup (t : Tcp) (seg : Segment) : Option Ptr :=
  t.active.find? fun p => seg.isFor (t.pcb p.addr)

/-- **`tcp_input(p, inp)`.** -/
def tcpInput (s : Server) (seg : Segment) (written : Err) : Server :=
  match lookup s.tcp seg with
  | some pcb =>
    let r := tcpProcess { s with tcp := moveToFront s.tcp pcb } pcb seg
    tcpEvents r.1 pcb r.2 written
  | none =>
    if seg.dest = tcpLocalPort then { s with tcp := tcpListenInput s.tcp tcpLocalPort seg } else s

/-! ### Runs -/

/-- A segment arrives; `tcp_slowtmr` runs; the main loop calls `SendTcpDataToClient` or
`CheckForConnection`. -/
inductive Event
  | segment (seg : Segment) (written : Err)
  | slowtmr (maxRtx : Addr → Bool)
  | send (buff : List UInt8) (written : Err)
  | check

/-- The state after a step. -/
def next (s : Server) : Event → Server
  | .segment seg written => tcpInput s seg written
  | .slowtmr maxRtx => { s with tcp := tcpSlowtmr s.tcp maxRtx }
  | .send buff written => (sendTcpDataToClient s buff written).1
  | .check => checkForConnection s

/-- **One step.** A run ends with a fault. -/
def step (s : Server) (e : Event) : Option Server := if s.fault then none else some (next s e)

/-- **The pcbs that lwIP deletes** in a step: by an acceptable RST, by `tcp_kill_prio`, or in
`tcp_slowtmr`. -/
def deleted (s : Server) : Event → List Ptr
  | .segment seg _ =>
    match lookup s.tcp seg with
    | some pcb => if seg.rst && seg.acceptable then [pcb] else []
    | none =>
      if seg.dest = tcpLocalPort && seg.opens then (victim s.tcp tcpPrioNormal).toList else []
  | .slowtmr maxRtx =>
    s.tcp.active.filter fun p => expired { s.tcp with tcpTicks := s.tcp.tcpTicks + 1 } maxRtx p
  | .send _ _ => []
  | .check => []

/-! ### What a step does -/

variable {s s' : Server} {t : Tcp} {pcb p q : Ptr}

theorem live_eq_true {p : Option Ptr} : s.live p = true ↔ ∃ q, p = some q ∧ q ∈ s.tcp.active := by
  cases p <;> simp [Server.live]

/-- An entry of the log that comes from `SendTcpDataToClient`, or is not about the pcb of the
client. -/
def Effect.FromSend (s : Server) : Effect → Prop
  | .tcpWrite pcb live _ =>
    s.connectFlag = true ∧ pcb = s.tcpClientPcb ∧ live = s.live s.tcpClientPcb
  | .tcpRecved _ _ => True
  | .sendUartData _ => True
  | .closeTcp _ _ => False
  | .store _ _ _ => False

/-- **`SendTcpDataToClient`** adds to the log only. -/
theorem sendTcpDataToClient_spec (s : Server) (buff : List UInt8) (written : Err) :
    ∃ log, (sendTcpDataToClient s buff written).1 = { s with log := s.log ++ log } ∧
      ∀ x ∈ log, x.FromSend s := by
  unfold sendTcpDataToClient
  split_ifs with hflag
  · refine ⟨_, rfl, fun x hx => ?_⟩
    rw [List.mem_singleton.mp hx]
    exact ⟨hflag, rfl, rfl⟩
  · exact ⟨[], by rw [List.append_nil], List.forall_mem_nil _⟩

/-- **`OnTcpServerRecv`** adds to the log only. -/
theorem onTcpServerRecv_spec (s : Server) (pcb : Ptr) (p : Option (List UInt8)) (written : Err) :
    ∃ log, onTcpServerRecv s pcb p written = { s with log := s.log ++ log } ∧
      ∀ x ∈ log, x.FromSend s := by
  cases p with
  | none => exact ⟨[], by rw [List.append_nil]; rfl, List.forall_mem_nil _⟩
  | some p =>
    obtain ⟨log, heq, hlog⟩ := sendTcpDataToClient_spec (s.emit (.tcpRecved pcb p.length)) p written
    refine ⟨.tcpRecved pcb p.length :: log ++ [.sendUartData p], ?_, fun x hx => ?_⟩
    · rw [onTcpServerRecv, onTcpReceiveData, heq]
      simp [Server.emit]
    · rw [List.mem_append, List.mem_cons, List.mem_singleton] at hx
      rcases hx with (rfl | hx) | rfl
      · trivial
      · exact hlog x hx
      · trivial

theorem tcpEvents_spec (s : Server) (pcb : Ptr) (r : Received) (written : Err)
    (hr : r.reset = false) :
    ∃ log, tcpEvents s pcb r written = { s with log := s.log ++ log } ∧
      ∀ x ∈ log, x.FromSend s := by
  obtain ⟨log, heq, hlog⟩ : ∃ log, (r.recvData.elim s fun data =>
      onTcpServerRecv s pcb (some data) written) = { s with log := s.log ++ log } ∧
        ∀ x ∈ log, x.FromSend s := by
    cases r.recvData with
    | none => exact ⟨[], by rw [List.append_nil]; rfl, List.forall_mem_nil _⟩
    | some data => exact onTcpServerRecv_spec s pcb (some data) written
  refine ⟨log, ?_, hlog⟩
  -- the callback for a FIN does nothing
  have hfin : ∀ s : Server, onTcpServerRecv s pcb none written = s := fun _ => rfl
  rw [tcpEvents, hr, heq]
  simp only [hfin, Bool.false_eq_true, if_false, ite_self]

/-- **What `tcp_process` has done**, with the result `r`. -/
structure Processed (s : Server) (pcb : Ptr) (seg : Segment) (r : Server × Received) : Prop where
  lists : SameLists s.tcp r.1.tcp
  log : r.1.log = s.log
  fault : r.1.fault = s.fault
  reset : r.2.reset = (seg.rst && seg.acceptable)
  client : (r.1.connectFlag = s.connectFlag ∧ r.1.tcpClientPcb = s.tcpClientPcb) ∨
    (r.1.connectFlag = true ∧ r.1.tcpClientPcb = some pcb ∧ seg.rst = false)

theorem processed_tcpReceive {m : Server} {seg : Segment} (hl : SameLists s.tcp m.tcp)
    (hlog : m.log = s.log) (hfault : m.fault = s.fault) (hrst : seg.rst = false)
    (hclient : (m.connectFlag = s.connectFlag ∧ m.tcpClientPcb = s.tcpClientPcb) ∨
      (m.connectFlag = true ∧ m.tcpClientPcb = some pcb ∧ seg.rst = false)) :
    Processed s pcb seg (tcpReceive m pcb seg) := by
  refine ⟨hl.trans ?_, hlog, hfault, by simp [tcpReceive, hrst], hclient⟩
  rw [tcpReceive]
  dsimp only
  split_ifs
  · exact sameLists_write _ _ _
  · exact SameLists.refl _

theorem tcpProcess_spec (s : Server) (pcb : Ptr) (seg : Segment) :
    Processed s pcb seg (tcpProcess s pcb seg) := by
  have hwrite := sameLists_write s.tcp pcb.addr
  unfold tcpProcess
  dsimp only
  by_cases hrst : seg.rst
  · rw [if_pos hrst]
    exact ⟨SameLists.refl _, rfl, rfl, by simp [hrst], Or.inl ⟨rfl, rfl⟩⟩
  rw [if_neg hrst]
  rw [Bool.not_eq_true] at hrst
  have hreset : Received.none.reset = (seg.rst && seg.acceptable) := by simp [hrst, Received.none]
  split_ifs with hsyn hack
  · exact ⟨SameLists.refl _, rfl, rfl, hreset, Or.inl ⟨rfl, rfl⟩⟩
  · cases hstate : (s.tcp.pcb pcb.addr).state with
    | synRcvd =>
      refine processed_tcpReceive ?_ rfl rfl hrst (Or.inr ⟨rfl, rfl, hrst⟩)
      exact (hwrite _).trans (sameLists_write _ _ _)
    | established => exact processed_tcpReceive (hwrite _) rfl rfl hrst (Or.inl ⟨rfl, rfl⟩)
    | closeWait => exact processed_tcpReceive (hwrite _) rfl rfl hrst (Or.inl ⟨rfl, rfl⟩)
    | closed => exact ⟨SameLists.refl _, rfl, rfl, hreset, Or.inl ⟨rfl, rfl⟩⟩
  · cases hstate : (s.tcp.pcb pcb.addr).state with
    | synRcvd => exact ⟨hwrite _, rfl, rfl, hreset, Or.inl ⟨rfl, rfl⟩⟩
    | established => exact processed_tcpReceive (hwrite _) rfl rfl hrst (Or.inl ⟨rfl, rfl⟩)
    | closeWait => exact processed_tcpReceive (hwrite _) rfl rfl hrst (Or.inl ⟨rfl, rfl⟩)
    | closed => exact ⟨SameLists.refl _, rfl, rfl, hreset, Or.inl ⟨rfl, rfl⟩⟩

/-- **What a step other than the check has done.** -/
structure Stepped (s s' : Server) (e : Event) : Prop where
  wf : Wf s'.tcp
  once : Once s.tcp → Once s'.tcp
  mem : ∀ q ∈ s.tcp.active, q ∈ s'.tcp.active ↔ q ∉ deleted s e
  fault : s'.fault = s.fault
  client : (s'.connectFlag = s.connectFlag ∧ s'.tcpClientPcb = s.tcpClientPcb) ∨
    (s'.connectFlag = true ∧ s'.live s'.tcpClientPcb ∧ deleted s e = [])
  log : ∃ log, s'.log = s.log ++ log ∧ ∀ x ∈ log, x.FromSend s'

theorem stepped_connection {seg : Segment} (written : Err) (h : Wf s.tcp)
    (hl : lookup s.tcp seg = some pcb) :
    Stepped s (tcpInput s seg written) (.segment seg written) := by
  have hp : pcb ∈ s.tcp.active := List.mem_of_find?_eq_some hl
  have hdel : deleted s (.segment seg written) = if seg.rst && seg.acceptable then [pcb] else [] := by
    rw [deleted, hl]
  have hin : tcpInput s seg written =
      let r := tcpProcess { s with tcp := moveToFront s.tcp pcb } pcb seg
      tcpEvents r.1 pcb r.2 written := by rw [tcpInput, hl]
  rw [hin]
  have hpr := tcpProcess_spec { s with tcp := moveToFront s.tcp pcb } pcb seg
  revert hpr
  generalize tcpProcess { s with tcp := moveToFront s.tcp pcb } pcb seg = r
  intro hpr
  have hwf : Wf r.1.tcp := hpr.lists.wf (h.moveToFront hp)
  have honce : Once s.tcp → Once r.1.tcp := fun ho => hpr.lists.once (ho.moveToFront h hp)
  have hmem : ∀ q, q ∈ r.1.tcp.active ↔ q ∈ s.tcp.active := fun q => by
    rw [hpr.lists.active]
    exact mem_moveToFront h hp
  have hp' : pcb ∈ r.1.tcp.active := (hmem pcb).mpr hp
  dsimp only
  cases hreset : seg.rst && seg.acceptable with
  | true =>
    have hev : tcpEvents r.1 pcb r.2 written = { r.1 with tcp := r.1.tcp.remove pcb } := by
      rw [tcpEvents, hpr.reset, hreset, if_pos rfl]
    rw [hev]
    rw [hreset, if_pos rfl] at hdel
    refine ⟨hwf.remove ⟨pcb, hp', rfl⟩, fun ho => ⟨(honce ho).nodup, fun q hq hact => ?_,
      (honce ho).stamp⟩, fun q hq => ?_, hpr.fault, ?_, [], ?_, List.forall_mem_nil _⟩
    · exact (honce ho).gone q hq (mem_remove.mp hact).1
    · rw [hwf.mem_remove hp', hmem, hdel, List.mem_singleton]
      exact and_iff_right hq
    · rcases hpr.client with hc | ⟨-, -, hrst⟩
      · exact Or.inl hc
      · rw [hrst] at hreset
        exact absurd hreset (by simp)
    · rw [List.append_nil]
      exact hpr.log
  | false =>
    obtain ⟨log, heq, hlog⟩ := tcpEvents_spec r.1 pcb r.2 written (hpr.reset.trans hreset)
    rw [heq]
    rw [hreset, if_neg Bool.false_ne_true] at hdel
    refine ⟨hwf, honce, fun q hq => ?_, hpr.fault, ?_, log, by rw [← hpr.log], fun x hx => ?_⟩
    · rw [hdel]
      exact iff_of_true ((hmem q).mpr hq) List.not_mem_nil
    · rcases hpr.client with hc | ⟨hflag, hclient, -⟩
      · exact Or.inl hc
      · exact Or.inr ⟨hflag, live_eq_true.mpr ⟨pcb, hclient, hp'⟩, hdel⟩
    · exact hlog x hx

/-- **The step lemma**, for all steps but the check. -/
theorem stepped {e : Event} (h : Wf s.tcp) (he : e ≠ .check) : Stepped s (next s e) e := by
  cases e with
  | segment seg written =>
    cases hl : lookup s.tcp seg with
    | some pcb => exact stepped_connection written h hl
    | none =>
      obtain ⟨hwf, honce, hmem⟩ := tcpListenInput_spec tcpLocalPort seg h
      have hin : next s (.segment seg written) = if seg.dest = tcpLocalPort then
          { s with tcp := tcpListenInput s.tcp tcpLocalPort seg } else s := by
        rw [next, tcpInput, hl]
      have hdel : deleted s (.segment seg written) = if seg.dest = tcpLocalPort && seg.opens then
          (victim s.tcp tcpPrioNormal).toList else [] := by
        rw [deleted, hl]
      by_cases hdest : seg.dest = tcpLocalPort
      · rw [if_pos hdest] at hin
        rw [hin]
        refine ⟨hwf, honce, fun q hq => (hmem q hq).trans ?_, rfl, Or.inl ⟨rfl, rfl⟩,
          [], (List.append_nil _).symm, List.forall_mem_nil _⟩
        rw [hdel, hdest]
        cases seg.opens <;> simp
      · rw [if_neg hdest] at hin
        rw [hin]
        refine ⟨h, id, fun q hq => iff_of_true hq ?_, rfl, Or.inl ⟨rfl, rfl⟩,
          [], (List.append_nil _).symm, List.forall_mem_nil _⟩
        rw [hdel]
        simp [hdest]
  | slowtmr maxRtx =>
    obtain ⟨hwf, honce, hmem⟩ := tcpSlowtmr_spec maxRtx h
    refine ⟨hwf, honce, fun q hq => (hmem q hq).trans (not_congr ?_), rfl, Or.inl ⟨rfl, rfl⟩,
      [], (List.append_nil _).symm, List.forall_mem_nil _⟩
    rw [deleted, List.mem_filter]
    exact (and_iff_right hq).symm
  | send buff written =>
    obtain ⟨log, heq, hlog⟩ := sendTcpDataToClient_spec s buff written
    rw [next, heq]
    exact ⟨h, id, fun q hq => iff_of_true hq List.not_mem_nil, rfl, Or.inl ⟨rfl, rfl⟩, log, rfl, hlog⟩
  | check => exact absurd rfl he

/-! ### What the check does -/

@[simp] theorem allocated_emit (s : Server) (e : Effect) (pcb : Option Ptr) :
    (s.emit e).allocated pcb = s.allocated pcb := rfl

theorem allocated_eq_true : s.allocated (some p) = true ↔ ∃ q ∈ s.tcp.active, q.addr = p.addr := by
  simp [Server.allocated]

theorem not_live_tcpAbandon {s : Server} (hs : s.tcp = tcpAbandon t p) : s.live (some p) = false := by
  rw [← Bool.not_eq_true, live_eq_true]
  rintro ⟨q, heq, hq⟩
  rw [hs, ← Option.some.inj heq] at hq
  exact (mem_remove.mp (show p ∈ (t.remove p).active from hq)).2 rfl

/-- **`CloseTcp`** of an allocated pcb writes to it after it has been given back. -/
theorem closeTcp_allocated {pcb : Option Ptr} (h : s.allocated pcb = true) :
    ∃ p, pcb = some p ∧ (∃ q ∈ s.tcp.active, q.addr = p.addr) ∧ closeTcp s pcb = { s with
      tcp := tcpAbandon s.tcp p
      log := s.log ++ [.closeTcp (some p) (s.live (some p)), .store .tcpArg p false,
        .store .tcpRecv p false, .store .tcpSent p false, .store .tcpErr p false,
        .store .tcpPoll p false] } := by
  cases pcb with
  | none => exact absurd h Bool.false_ne_true
  | some p =>
  refine ⟨p, rfl, allocated_eq_true.mp h, ?_⟩
  have hdead : ∀ log, Server.live { s with tcp := tcpAbandon s.tcp p, log := log } (some p) = false :=
    fun _ => not_live_tcpAbandon rfl
  simp only [closeTcp, allocated_emit, h, if_true, List.foldl_cons, List.foldl_nil]
  simp [Server.emit, hdead]

theorem closeTcp_fault {pcb : Option Ptr} (h : s.allocated pcb = false) :
    closeTcp s pcb =
      { s with log := s.log ++ [.closeTcp pcb (s.live pcb)], fault := true } := by
  cases pcb with
  | none => rfl
  | some p =>
    simp only [closeTcp, allocated_emit, h, Bool.false_eq_true, if_false]
    rfl

theorem checkForConnection_found (h : s.found = true) :
    checkForConnection s = { s with connectFlag := true } := by
  rw [checkForConnection, h]
  rfl

theorem checkForConnection_lost (h : s.found = false) :
    checkForConnection s = closeTcp { s with connectFlag := false } s.tcpClientPcb := by
  rw [checkForConnection, h]
  rfl

/-- **What the check does**: it finds a pcb; or the pointer is to no allocated pcb; or `CloseTcp`
aborts a pcb and writes to it then. -/
theorem checkForConnection_cases (s : Server) :
    (s.found = true ∧ checkForConnection s = { s with connectFlag := true }) ∨
    (s.found = false ∧ s.allocated s.tcpClientPcb = false ∧ checkForConnection s = { s with
      connectFlag := false
      log := s.log ++ [.closeTcp s.tcpClientPcb (s.live s.tcpClientPcb)]
      fault := true }) ∨
    (s.found = false ∧ ∃ p, s.tcpClientPcb = some p ∧ (∃ q ∈ s.tcp.active, q.addr = p.addr) ∧
      checkForConnection s = { s with
        connectFlag := false
        tcp := tcpAbandon s.tcp p
        log := s.log ++ [.closeTcp (some p) (s.live (some p)), .store .tcpArg p false,
          .store .tcpRecv p false, .store .tcpSent p false, .store .tcpErr p false,
          .store .tcpPoll p false] }) := by
  cases hf : s.found with
  | true => exact Or.inl ⟨rfl, checkForConnection_found hf⟩
  | false =>
    have hlost := checkForConnection_lost hf
    cases ha : s.allocated s.tcpClientPcb with
    | false =>
      rw [closeTcp_fault (s := { s with connectFlag := false }) ha] at hlost
      exact Or.inr (Or.inl ⟨rfl, rfl, hlost⟩)
    | true =>
      obtain ⟨p, hp, hq, heq⟩ := closeTcp_allocated (s := { s with connectFlag := false }) ha
      exact Or.inr (Or.inr ⟨rfl, p, hp, hq, hlost.trans heq⟩)

theorem wf_checkForConnection (h : Wf s.tcp) : Wf (checkForConnection s).tcp := by
  rcases checkForConnection_cases s with ⟨-, heq⟩ | ⟨-, -, heq⟩ | ⟨-, p, -, hq, heq⟩
  · rw [heq]
    exact h
  · rw [heq]
    exact h
  · rw [heq]
    exact h.tcpAbandon hq

/-- **Every step keeps the lists well-formed.** -/
theorem wf_step {e : Event} (h : Wf s.tcp) (hs : step s e = some s') : Wf s'.tcp := by
  obtain ⟨-, rfl⟩ := excluded_eq_some hs
  by_cases he : e = .check
  · rw [he]
    exact wf_checkForConnection h
  · exact (stepped h he).wf

/-! ### Segments of a client -/

/-- An acknowledgement from the port `src` of a client, to the port of the server. -/
def ackFrom (src : ℕ) : Segment where
  srcIp := 0xC0A8003C#32
  src := src
  dest := tcpLocalPort
  syn := false
  ack := true
  rst := false
  acceptable := true
  expectedAck := true
  recvData := none
  gotFin := false
  enqueued := true

/-- The segments by which a client connects. -/
def handshake (src : ℕ) : List Event :=
  [.segment { ackFrom src with syn := true, ack := false } .errOk, .segment (ackFrom src) .errOk]

/-- A connected client resets its connection. -/
def reset (src : ℕ) : Event := .segment { ackFrom src with rst := true } .errOk

/-- A connected client sends data. -/
def data (src : ℕ) (bytes : List UInt8) : Event :=
  .segment { ackFrom src with recvData := some bytes } .errOk

end Stm32TcpServer.Tcp.TcpServer
