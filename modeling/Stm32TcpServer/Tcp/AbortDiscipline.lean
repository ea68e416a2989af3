import Stm32TcpServer.Tcp.TcpServer

/-! # Aborting the connection

`CheckForConnection` calls `CloseTcp(tcp_client_pcb)` when it finds no pcb with the ports of the
server. A run is `Disciplined` if `CloseTcp` is only given linked pcbs, nothing is aborted twice,
and nothing is written to a pcb that has been given back. `CloseTcp` itself writes to its pcb after
`tcp_abort`, so no call of it is disciplined: `disciplined_iff` says that a run is so if and only if
every check finds such a pcb. -/

namespace Stm32TcpServer.Tcp.AbortDiscipline

open Stm32TcpServer.Lib.Runs
open Stm32TcpServer.Lwip.Pbuf Stm32TcpServer.Lwip.TcpPcb Stm32TcpServer.Tcp.TcpServer

/-- **The discipline**: `CloseTcp` has been called with live pcbs only, no pcb has been aborted
twice, and `CloseTcp` has not written to a pcb that was not live. -/
structure Disciplined (s : Server) : Prop where
  closed : ∀ pcb live, .closeTcp pcb live ∈ s.log → pcb ≠ none ∧ live = true
  once : Once s.tcp
  stored : ∀ setter pcb live, .store setter pcb live ∈ s.log → live = true

/-- **The condition on a step**: a check finds a pcb with the two ports. -/
def Finds (s : Server) : Event → Prop
  | .check => s.found = true
  | _ => True

instance (s : Server) : ∀ e, Decidable (Finds s e)
  | .check => inferInstanceAs (Decidable (s.found = true))
  | .segment _ _ => instDecidableTrue
  | .slowtmr _ => instDecidableTrue
  | .send _ _ => instDecidableTrue

variable {s s' t : Server} {e : Event}

theorem disciplined_init : Disciplined Server.init :=
  ⟨fun _ _ h => absurd h List.not_mem_nil, once_init, fun _ _ _ h => absurd h List.not_mem_nil⟩

/-- **A check.** -/
theorem disciplined_check (h : Disciplined s) :
    Disciplined (checkForConnection s) ↔ s.found = true := by
  rcases checkForConnection_cases s with ⟨hf, heq⟩ | ⟨hf, ha, heq⟩ | ⟨hf, p, -, -, heq⟩
  · rw [heq, hf]
    exact iff_of_true ⟨h.closed, h.once, h.stored⟩ rfl
  · rw [heq, hf]
    refine iff_of_false (fun h' => ?_) Bool.false_ne_true
    have hmem := List.mem_append_right s.log
      (List.mem_singleton_self (Effect.closeTcp s.tcpClientPcb (s.live s.tcpClientPcb)))
    obtain ⟨hne, hlive⟩ := h'.closed s.tcpClientPcb _ hmem
    obtain ⟨p, hp, hact⟩ := live_eq_true.mp hlive
    have hal : s.allocated (some p) = true := allocated_eq_true.mpr ⟨p, hact, rfl⟩
    rw [hp, hal] at ha
    exact Bool.false_ne_true ha.symm
  · rw [heq, hf]
    refine iff_of_false (fun h' => ?_) Bool.false_ne_true
    -- the first write of `CloseTcp` after `tcp_abort`
    have hstore := h'.stored .tcpArg p false
    simp at hstore

/-- **The step lemma.** -/
theorem disciplined_step (hwf : Wf s.tcp) (h : Disciplined s) (hs : step s e = some s') :
    Disciplined s' ↔ Finds s e := by
  obtain ⟨-, rfl⟩ := excluded_eq_some hs
  by_cases he : e = .check
  · rw [he]
    exact disciplined_check h
  have hst := stepped hwf he
  obtain ⟨log, hlog, hsend⟩ := hst.log
  refine iff_of_true ⟨fun pcb live hmem => ?_, hst.once h.once, fun setter pcb live hmem => ?_⟩ ?_
  · rw [hlog, List.mem_append] at hmem
    exact hmem.elim (h.closed pcb live) fun hnew => (hsend _ hnew).elim
  · rw [hlog, List.mem_append] at hmem
    exact hmem.elim (h.stored setter pcb live) fun hnew => (hsend _ hnew).elim
  · cases e with
    | check => exact absurd rfl he
    | segment | slowtmr | send => trivial

/-- **The abort discipline.** A run from `InitTcpServer` is disciplined in every state if and only
if every check finds an active pcb with the local port and the port of the peer that it looks for. -/
theorem disciplined_iff {es : List Event} (hr : run step Server.init es = some t) :
    (∀ n u, run step Server.init (es.take n) = some u → Disciplined u) ↔
      Along step Finds Server.init es :=
  always_iff_along (fun s => Wf s.tcp) (fun _ _ _ h _ hs => wf_step h hs)
    (fun _ _ _ h hP hs => disciplined_step h hP hs) wf_init disciplined_init hr

/-- A client with the port that the check looks for, and two checks. -/
theorem disciplined_two_checks : ∃ t, run step Server.init
      (handshake serverPort ++ [Event.check, .send [1] .errOk, .check]) = some t ∧
    ∀ n u, run step Server.init
      ((handshake serverPort ++ [Event.check, .send [1] .errOk, .check]).take n) = some u →
      Disciplined u := by
  obtain ⟨t, hr, -⟩ := Option.map_eq_some_iff.mp (show (run step Server.init
      (handshake serverPort ++ [Event.check, .send [1] .errOk, .check])).map
      (fun t => t.connectFlag) = some true by decide +kernel)
  exact ⟨t, hr, (disciplined_iff hr).mpr (by decide +kernel)⟩

/-- **A client that has connected from port 1025.** The first check aborts its pcb and then writes
to it five times, the second one aborts it again. -/
theorem aborted_client_written :
    ∃ t p, run step Server.init (handshake 1025 ++ [.check, .check]) = some t ∧ t.fault = true ∧
      t.log = [.closeTcp (some p) true, .store .tcpArg p false, .store .tcpRecv p false,
        .store .tcpSent p false, .store .tcpErr p false, .store .tcpPoll p false,
        .closeTcp (some p) false] := by
  obtain ⟨t, hr, heq⟩ := Option.map_eq_some_iff.mp (show (run step Server.init
      (handshake 1025 ++ [.check, .check])).map (fun t => (t.fault, t.log)) =
        some (true, [.closeTcp (some ⟨9, 1⟩) true, .store .tcpArg ⟨9, 1⟩ false,
          .store .tcpRecv ⟨9, 1⟩ false, .store .tcpSent ⟨9, 1⟩ false, .store .tcpErr ⟨9, 1⟩ false,
          .store .tcpPoll ⟨9, 1⟩ false, .closeTcp (some ⟨9, 1⟩) false]) by
    decide +kernel)
  exact ⟨t, ⟨9, 1⟩, hr, (Prod.mk.inj heq).1, (Prod.mk.inj heq).2⟩

end Stm32TcpServer.Tcp.AbortDiscipline
