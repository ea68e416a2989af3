import Stm32TcpServer.Tcp.TcpServer

/-! # What a segment does

`tcp_process` passes the data and the FIN of a segment on only if the segment is one that the
connection `receives`. Then `tcp_input` calls `OnTcpServerRecv`, with the data (`delivered`) and with
NULL for the FIN (`ended`).

* `tcpProcess_handled`: what `tcp_process` does with a segment for a connection.
* `log_delivered`, `log_undelivered`: what a step adds to the log. -/

namespace Stm32TcpServer.Tcp.Receive

open Stm32TcpServer.Lib.Runs
open Stm32TcpServer.Lwip.Pbuf Stm32TcpServer.Lwip.TcpPcb Stm32TcpServer.Tcp.TcpServer

/-- The segment gets as far as `tcp_receive`. -/
def receives (c : Pcb) (seg : Segment) : Bool :=
  !seg.rst && match c.state with
    | .synRcvd => seg.ack && seg.expectedAck
    | .established | .closeWait => !seg.syn
    | .closed => false

/-- The connection that a step passes data of to `OnTcpServerRecv`, with the data. -/
def delivered (s : Server) : Event → Option (Ptr × List UInt8)
  | .segment seg _ => (lookup s.tcp seg).bind fun pcb =>
    if receives (s.tcp.pcb pcb.addr) seg then seg.recvData.map (pcb, ·) else none
  | _ => none

/-- The connection whose end of stream a step reports to `OnTcpServerRecv`. -/
def ended (s : Server) : Event → Option Ptr
  | .segment seg _ => (lookup s.tcp seg).bind fun pcb =>
    if receives (s.tcp.pcb pcb.addr) seg && seg.gotFin then some pcb else none
  | _ => none

variable {s s' : Server} {t t' : Tcp} {pcb p q : Ptr} {seg : Segment}

/-- The two pcbs are of one connection. -/
structure SamePeer (c c' : Pcb) : Prop where
  localPort : c'.localPort = c.localPort
  remoteIp : c'.remoteIp = c.remoteIp
  remotePort : c'.remotePort = c.remotePort

theorem SamePeer.refl (c : Pcb) : SamePeer c c := ⟨rfl, rfl, rfl⟩

/-- The segment completes the handshake. -/
def accepts (c : Pcb) (seg : Segment) : Bool := receives c seg && c.state = .synRcvd

/-- **What `tcp_process` does** with a segment for the connection `c`. -/
structure Handled (s : Server) (pcb : Ptr) (seg : Segment) (c : Pcb) (r : Server × Received) :
    Prop where
  recvData : r.2.recvData = if receives c seg then seg.recvData else none
  gotFin : r.2.gotFin = (receives c seg && seg.gotFin)
  connectFlag : r.1.connectFlag = (s.connectFlag || accepts c seg)
  tcpClientPcb : r.1.tcpClientPcb = if accepts c seg then some pcb else s.tcpClientPcb
  state : (r.1.tcp.pcb pcb.addr).state = if receives c seg && seg.gotFin then .closeWait
    else if accepts c seg then .established else c.state
  peer : SamePeer c (r.1.tcp.pcb pcb.addr)
  other : ∀ a, a ≠ pcb.addr → r.1.tcp.pcb a = s.tcp.pcb a

theorem handled_tcpReceive {m : Server} {c : Pcb} (hrec : receives c seg = true)
    (hflag : m.connectFlag = (s.connectFlag || accepts c seg))
    (hclient : m.tcpClientPcb = if accepts c seg then some pcb else s.tcpClientPcb)
    (hstate : (m.tcp.pcb pcb.addr).state = if accepts c seg then .established else c.state)
    (hpeer : SamePeer c (m.tcp.pcb pcb.addr))
    (hother : ∀ a, a ≠ pcb.addr → m.tcp.pcb a = s.tcp.pcb a) :
    Handled s pcb seg c (tcpReceive m pcb seg) := by
  unfold tcpReceive
  cases hfin : seg.gotFin with
  | false =>
    refine ⟨by simp [hrec], by simp [hfin], hflag, hclient, ?_, hpeer, hother⟩
    simpa [hfin] using hstate
  | true =>
    refine ⟨by simp [hrec], by simp [hrec, hfin], hflag, hclient, ?_, ?_, fun a ha => ?_⟩
    · simp [hrec, hfin, Tcp.write]
    · simp only [if_true, Tcp.write, Function.update_self]
      exact ⟨hpeer.localPort, hpeer.remoteIp, hpeer.remotePort⟩
    · simp only [if_true, Tcp.write, Function.update_of_ne ha]
      exact hother a ha

theorem handled_none {m : Server} {c : Pcb} {r : Bool} (hrec : receives c seg = false)
    (hflag : m.connectFlag = s.connectFlag) (hclient : m.tcpClientPcb = s.tcpClientPcb)
    (hstate : (m.tcp.pcb pcb.addr).state = c.state) (hpeer : SamePeer c (m.tcp.pcb pcb.addr))
    (hother : ∀ a, a ≠ pcb.addr → m.tcp.pcb a = s.tcp.pcb a) :
    Handled s pcb seg c (m, { Received.none with reset := r }) := by
  have hacc : accepts c seg = false := by simp [accepts, hrec]
  refine ⟨?_, ?_, ?_, ?_, ?_, hpeer, hother⟩
  · simp [hrec, Received.none]
  · simp [hrec, Received.none]
  · simp [hacc, hflag]
  · simp [hacc, hclient]
  · simp [hrec, hacc, hstate]

theorem tcpProcess_handled (s : Server) (pcb : Ptr) (seg : Segment) :
    Handled s pcb seg (s.tcp.pcb pcb.addr) (tcpProcess s pcb seg) := by
  have hkeep : ∀ c' : Pcb, ∀ a, a ≠ pcb.addr → (s.tcp.write pcb.addr c').pcb a = s.tcp.pcb a :=
    fun _ _ ha => Function.update_of_ne ha _ _
  unfold tcpProcess
  dsimp only
  by_cases hrst : seg.rst
  · rw [if_pos hrst]
    exact handled_none (by simp [receives, hrst]) rfl rfl rfl (SamePeer.refl _) fun _ _ => rfl
  rw [if_neg hrst]
  rw [Bool.not_eq_true] at hrst
  have hwrite : ∀ c' : Pcb, (s.tcp.write pcb.addr c').pcb pcb.addr = c' := fun c' =>
    Function.update_self _ _ _
  cases hstate : (s.tcp.pcb pcb.addr).state with
  | synRcvd =>
    simp only [ne_eq, not_true, decide_false, Bool.and_false, Bool.false_eq_true, if_false]
    cases hack : seg.ack && seg.expectedAck with
    | true =>
      have hrec : receives (s.tcp.pcb pcb.addr) seg = true := by simp [receives, hrst, hstate, hack]
      have hacc : accepts (s.tcp.pcb pcb.addr) seg = true := by simp [accepts, hrec, hstate]
      rw [if_pos rfl]
      refine handled_tcpReceive hrec (by simp [onTcpServerAccept, hacc])
        (by simp [onTcpServerAccept, hacc]) ?_ ?_ fun a ha => ?_
      · simp [onTcpServerAccept, tcpSetprio, Tcp.write, hacc]
      · simp only [onTcpServerAccept, tcpSetprio, Tcp.write, Function.update_self]
        exact ⟨rfl, rfl, rfl⟩
      · simp only [onTcpServerAccept, tcpSetprio, Tcp.write, Function.update_of_ne ha]
    | false =>
      have hrec : receives (s.tcp.pcb pcb.addr) seg = false := by
        simp [receives, hrst, hstate, hack]
      rw [if_neg Bool.false_ne_true]
      refine handled_none (r := false) hrec rfl rfl ?_ ?_ (hkeep _)
      · simp only [hwrite, hstate]
      · simp only [hwrite]
        exact ⟨rfl, rfl, rfl⟩
  | established | closeWait =>
    have hacc : accepts (s.tcp.pcb pcb.addr) seg = false := by simp [accepts, hstate]
    cases hsyn : seg.syn with
    | true =>
      have hrec : receives (s.tcp.pcb pcb.addr) seg = false := by
        simp [receives, hrst, hstate, hsyn]
      exact handled_none (r := false) hrec rfl rfl rfl (SamePeer.refl _) fun _ _ => rfl
    | false =>
      have hrec : receives (s.tcp.pcb pcb.addr) seg = true := by
        simp [receives, hrst, hstate, hsyn]
      refine handled_tcpReceive hrec (by simp [hacc]) (by simp [hacc]) ?_ ?_ (hkeep _)
      · simp only [hwrite, hstate, hacc, Bool.false_eq_true, if_false]
      · simp only [hwrite]
        exact ⟨rfl, rfl, rfl⟩
  | closed =>
    have hrec : receives (s.tcp.pcb pcb.addr) seg = false := by simp [receives, hrst, hstate]
    split_ifs
    all_goals exact handled_none (r := false) hrec rfl rfl rfl (SamePeer.refl _) fun _ _ => rfl

/-! ### The log -/

/-- The entries of the log for the data `data` of the connection `pcb`, in the state `s` in which
`OnTcpServerRecv` is called. -/
def recvEffects (s : Server) (pcb : Ptr) (data : List UInt8) : List Effect :=
  .tcpRecved pcb data.length ::
    (if s.connectFlag then [.tcpWrite s.tcpClientPcb (s.live s.tcpClientPcb) data] else []) ++
      [.sendUartData data]

theorem onTcpServerRecv_data (s : Server) (pcb : Ptr) (data : List UInt8) (written : Err) :
    onTcpServerRecv s pcb (some data) written =
      { s with log := s.log ++ recvEffects s pcb data } := by
  unfold onTcpServerRecv onTcpReceiveData sendTcpDataToClient recvEffects Server.emit
  cases s.connectFlag <;> simp [Server.live]

/-- The callbacks of `tcp_input`: data is passed on, the end of the stream is not acted on. -/
theorem tcpEvents_log (s : Server) (pcb : Ptr) (r : Received) (written : Err) :
    tcpEvents s pcb r written = if r.reset then { s with tcp := s.tcp.remove pcb } else
      { s with log := s.log ++ r.recvData.elim [] (recvEffects s pcb) } := by
  unfold tcpEvents
  cases hreset : r.reset with
  | true => rfl
  | false =>
    have hfin : ∀ s : Server, onTcpServerRecv s pcb none written = s := fun _ => rfl
    simp only [Bool.false_eq_true, if_false, hfin, ite_self]
    cases hdata : r.recvData with
    | none => simp
    | some data => exact onTcpServerRecv_data s pcb data written

/-- The state in which `tcp_input` makes its callbacks. -/
def processed (s : Server) (pcb : Ptr) (seg : Segment) : Server × Received :=
  tcpProcess { s with tcp := moveToFront s.tcp pcb } pcb seg

theorem processed_handled (s : Server) (pcb : Ptr) (seg : Segment) :
    Handled s pcb seg (s.tcp.pcb pcb.addr) (processed s pcb seg) := by
  obtain ⟨h1, h2, h3, h4, h5, h6, h7⟩ :=
    tcpProcess_handled { s with tcp := moveToFront s.tcp pcb } pcb seg
  exact ⟨h1, h2, h3, h4, h5, h6, h7⟩

theorem processed_log (s : Server) (pcb : Ptr) (seg : Segment) :
    (processed s pcb seg).1.log = s.log :=
  (tcpProcess_spec { s with tcp := moveToFront s.tcp pcb } pcb seg).log

theorem delivered_found (hl : lookup s.tcp seg = some pcb) (written : Err) :
    delivered s (.segment seg written) = (processed s pcb seg).2.recvData.map (pcb, ·) := by
  rw [(processed_handled s pcb seg).recvData]
  simp only [delivered, hl, Option.bind_some]
  split_ifs <;> rfl

/-- **A segment for a connection.** -/
theorem next_found (hl : lookup s.tcp seg = some pcb) (written : Err) :
    next s (.segment seg written) = if seg.rst && seg.acceptable then
        { (processed s pcb seg).1 with tcp := (processed s pcb seg).1.tcp.remove pcb }
      else { (processed s pcb seg).1 with
        log := (processed s pcb seg).1.log ++
          (delivered s (.segment seg written)).elim [] fun d =>
            recvEffects (processed s pcb seg).1 d.1 d.2 } := by
  have hreset : (processed s pcb seg).2.reset = (seg.rst && seg.acceptable) :=
    (tcpProcess_spec { s with tcp := moveToFront s.tcp pcb } pcb seg).reset
  have hin : next s (.segment seg written) =
      tcpEvents (processed s pcb seg).1 pcb (processed s pcb seg).2 written := by
    rw [next, tcpInput, hl]
    rfl
  rw [hin, tcpEvents_log, hreset, delivered_found hl]
  cases (processed s pcb seg).2.recvData <;> rfl

theorem delivered_eq_some {e : Event} {data : List UInt8} (hd : delivered s e = some (pcb, data)) :
    ∃ seg written, e = .segment seg written ∧ lookup s.tcp seg = some pcb ∧
      receives (s.tcp.pcb pcb.addr) seg = true ∧ seg.recvData = some data := by
  cases e with
  | segment seg written =>
    obtain ⟨p, hl, hd⟩ := Option.bind_eq_some_iff.mp hd
    split_ifs at hd with hrec
    obtain ⟨data', hdata, heq⟩ := Option.map_eq_some_iff.mp hd
    obtain ⟨rfl, rfl⟩ := Prod.mk.inj heq
    exact ⟨seg, written, rfl, hl, hrec, hdata⟩
  | slowtmr maxRtx => exact nomatch hd
  | send buff written => exact nomatch hd
  | check => exact nomatch hd

/-- **A step that passes data on**: the entries of the log are made in a state `m` in which the
connection has been accepted, if the segment has completed its handshake. -/
theorem log_delivered {e : Event} {data : List UInt8} (hd : delivered s e = some (pcb, data)) :
    ∃ m : Server, (next s e).log = s.log ++ recvEffects m pcb data ∧
      if (s.tcp.pcb pcb.addr).state = .synRcvd then m.connectFlag = true ∧ m.tcpClientPcb = some pcb
      else m.connectFlag = s.connectFlag ∧ m.tcpClientPcb = s.tcpClientPcb := by
  obtain ⟨seg, written, rfl, hl, hrec, -⟩ := delivered_eq_some hd
  have hh := processed_handled s pcb seg
  have hrst : seg.rst = false := by
    cases hrst : seg.rst with
    | false => rfl
    | true => simp [receives, hrst] at hrec
  refine ⟨(processed s pcb seg).1, ?_, ?_⟩
  · rw [next_found hl, hrst, Bool.false_and, if_neg Bool.false_ne_true, hd, processed_log]
    rfl
  · rw [hh.connectFlag, hh.tcpClientPcb, accepts, hrec, Bool.true_and]
    by_cases hstate : (s.tcp.pcb pcb.addr).state = .synRcvd
    · simp [hstate]
    · simp [hstate]

/-- An entry of the log that only `OnTcpServerRecv` makes. -/
def FromRecv : Effect → Bool
  | .tcpRecved _ _ | .sendUartData _ => true
  | .tcpWrite _ _ _ | .closeTcp _ _ | .store _ _ _ => false

/-- **A step that passes no data on.** -/
theorem log_undelivered {e : Event} (hd : delivered s e = none) :
    ∃ log, (next s e).log = s.log ++ log ∧ ∀ x ∈ log, FromRecv x = false := by
  have hnone : ∀ s' : Server, s'.log = s.log → ∃ log, s'.log = s.log ++ log ∧
      ∀ x ∈ log, FromRecv x = false := by
    intro s' hs'
    exact ⟨[], by rw [hs', List.append_nil], List.forall_mem_nil _⟩
  cases e with
  | segment seg written =>
    cases hl : lookup s.tcp seg with
    | some pcb =>
      have hnext := next_found hl written
      rw [hd] at hnext
      rw [hnext]
      split_ifs
      · exact hnone _ (processed_log s pcb seg)
      · exact hnone _ ((List.append_nil _).trans (processed_log s pcb seg))
    | none =>
      rw [next, tcpInput, hl]
      dsimp only
      split_ifs
      · exact hnone _ rfl
      · exact hnone _ rfl
  | slowtmr maxRtx => exact hnone _ rfl
  | send buff written =>
    rw [next, sendTcpDataToClient]
    split_ifs
    · refine ⟨_, rfl, fun x hx => ?_⟩
      rw [List.mem_singleton.mp hx]
      rfl
    · exact hnone _ rfl
  | check =>
    rw [next]
    rcases checkForConnection_cases s with ⟨-, heq⟩ | ⟨-, -, heq⟩ | ⟨-, p, -, -, heq⟩
    · rw [heq]
      exact hnone _ rfl
    · rw [heq]
      exact ⟨_, rfl, by simp [FromRecv]⟩
    · rw [heq]
      exact ⟨_, rfl, by simp [FromRecv]⟩

end Stm32TcpServer.Tcp.Receive
