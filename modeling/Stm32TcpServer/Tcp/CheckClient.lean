import Stm32TcpServer.Tcp.Linked

/-! # The connection check and the client

`CheckForConnection` takes the connection for lost unless it finds a pcb with the local port of the
server and the remote port `getServerPort()`. All pcbs have that local port (`localPort_run`), but a
client chooses its own port: the check spares the client exactly if some linked pcb has the remote
port 8080 (`spares_iff`). -/

namespace Stm32TcpServer.Tcp.CheckClient

open Stm32TcpServer.Lib.Runs
open Stm32TcpServer.Lwip.Pbuf Stm32TcpServer.Lwip.TcpPcb Stm32TcpServer.Tcp.TcpServer
open Stm32TcpServer.Tcp.Receive Stm32TcpServer.Tcp.Linked

variable {s s' : Server} {p : Ptr}

/-- Every linked pcb has been accepted on `getTcpLocalPort()`. -/
structure Ports (s : Server) : Prop where
  wf : Wf s.tcp
  localPort : ∀ q ∈ s.tcp.active, (s.tcp.pcb q.addr).localPort = tcpLocalPort

theorem ports_init : Ports Server.init := ⟨wf_init, fun _ h => absurd h List.not_mem_nil⟩

theorem ports_step {e : Event} (h : Ports s) (hs : step s e = some s') : Ports s' := by
  have hwf := wf_step h.wf hs
  obtain ⟨-, rfl⟩ := excluded_eq_some hs
  refine ⟨hwf, fun q hq => ?_⟩
  rcases active_next h.wf hq with hkept | ⟨-, hnew, -⟩
  · exact hkept.peer.localPort.trans (h.localPort q hkept.mem)
  · exact hnew

theorem localPort_run {es : List Event} (hr : run step Server.init es = some s) : Ports s :=
  invariant' Ports (fun _ _ _ h hs => ports_step h hs) ports_init hr

/-- The check finds a pcb if one has the remote port that it looks for. -/
theorem found_iff (h : Ports s) :
    s.found = true ↔ ∃ q ∈ s.tcp.active, (s.tcp.pcb q.addr).remotePort = serverPort := by
  unfold Server.found
  rw [List.any_eq_true]
  constructor
  · rintro ⟨q, hq, hports⟩
    rw [Bool.and_eq_true] at hports
    exact ⟨q, hq, of_decide_eq_true hports.2⟩
  · rintro ⟨q, hq, hport⟩
    exact ⟨q, hq, by rw [h.localPort q hq, hport]; rfl⟩

/-- **The check spares the client**: `connectFlag` is 1 after it, the pcb of the client is still
linked, and nothing has been aborted. -/
structure Spares (s : Server) (p : Ptr) : Prop where
  flag : (checkForConnection s).connectFlag = true
  active : p ∈ (checkForConnection s).tcp.active
  aborted : (checkForConnection s).tcp.aborted = s.tcp.aborted

/-- **A connected client.** In every reachable state in which a pcb is linked, such as that of the
client, the check spares it if and only if some linked pcb, this one or another, has the remote port
8080. -/
theorem spares_iff {es : List Event} (hr : run step Server.init es = some s)
    (hp : p ∈ s.tcp.active) :
    Spares s p ↔ ∃ q ∈ s.tcp.active, (s.tcp.pcb q.addr).remotePort = serverPort := by
  rw [← found_iff (localPort_run hr)]
  rcases checkForConnection_cases s with ⟨hf, heq⟩ | ⟨hf, -, heq⟩ | ⟨hf, q, -, -, heq⟩
  · refine iff_of_true ⟨?_, ?_, ?_⟩ hf
    all_goals rw [heq]
    exact hp
  all_goals
    rw [hf]
    refine iff_of_false (fun h => ?_) Bool.false_ne_true
    have hflag := h.flag
    rw [heq] at hflag
    exact Bool.false_ne_true hflag

theorem connected_client (src : ℕ) (hsrc : src = 1025 ∨ src = serverPort) :
    ∃ s p, run step Server.init (handshake src) = some s ∧ s.tcpClientPcb = some p ∧
      s.tcp.active = [p] ∧ (s.tcp.pcb p.addr).state = .established ∧
      (s.tcp.pcb p.addr).remotePort = src := by
  obtain ⟨s, hr, heq⟩ := Option.map_eq_some_iff.mp (show (run step Server.init (handshake src)).map
      (fun s => (s.tcpClientPcb, s.tcp.active, (s.tcp.pcb 9).state, (s.tcp.pcb 9).remotePort)) =
        some (some ⟨9, 1⟩, [⟨9, 1⟩], .established, src) by
    rcases hsrc with rfl | rfl <;> decide +kernel)
  simp only [Prod.mk.injEq] at heq
  obtain ⟨hclient, hact, hstate, hport⟩ := heq
  exact ⟨s, ⟨9, 1⟩, hr, hclient, hact, hstate, hport⟩

/-- A client with the port 8080 is spared. -/
theorem spares_serverPort : ∃ s p, run step Server.init (handshake serverPort) = some s ∧
    s.tcpClientPcb = some p ∧ p ∈ s.tcp.active ∧ Spares s p := by
  obtain ⟨s, p, hr, hclient, hact, -, hport⟩ := connected_client serverPort (Or.inr rfl)
  have hp : p ∈ s.tcp.active := by
    rw [hact]
    exact List.mem_singleton_self p
  exact ⟨s, p, hr, hclient, hp, (spares_iff hr hp).mpr ⟨p, hp, hport⟩⟩

/-- **A healthy client is dropped.** A client has connected from port 1025; the check clears
`connectFlag` and aborts its pcb. -/
theorem dropped_client : ∃ s p, run step Server.init (handshake 1025) = some s ∧
    s.tcpClientPcb = some p ∧ p ∈ s.tcp.active ∧ (s.tcp.pcb p.addr).state = .established ∧
    (checkForConnection s).connectFlag = false ∧ p ∈ (checkForConnection s).tcp.aborted ∧
    ¬ Spares s p := by
  obtain ⟨s, p, hr, hclient, hact, hstate, hport⟩ := connected_client 1025 (Or.inl rfl)
  have hp : p ∈ s.tcp.active := by
    rw [hact]
    exact List.mem_singleton_self p
  have hf : s.found = false := by
    simp [Server.found, hact, hport, serverPort]
  have hal : Server.allocated { s with connectFlag := false } s.tcpClientPcb = true := by
    rw [hclient]
    exact allocated_eq_true.mpr ⟨p, hp, rfl⟩
  obtain ⟨r, hr', -, heq⟩ := closeTcp_allocated hal
  obtain rfl := Option.some.inj (hclient.symm.trans hr')
  have hcheck := (checkForConnection_lost hf).trans heq
  have hflag : (checkForConnection s).connectFlag = false := by rw [hcheck]
  refine ⟨s, p, hr, hclient, hp, hstate, hflag, ?_, fun h => ?_⟩
  · rw [hcheck]
    exact List.mem_append_right _ (List.mem_singleton_self p)
  · rw [h.flag] at hflag
    exact absurd hflag.symm Bool.false_ne_true

end Stm32TcpServer.Tcp.CheckClient
