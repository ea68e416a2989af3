import Stm32TcpServer.Tcp.TcpServer

/-! # The connection flag

`connectFlag` is to say that `tcp_client_pcb` is a pcb in `tcp_active_pcbs` (`Connected`). A step
keeps this exactly if it meets `Keeps`: lwIP does not delete the pcb of the client while the flag is
set, and the check is not made with a pointer that has lost its pcb. So the flag is right in all
states of a run if and only if all its steps meet `Keeps` (`connected_iff`); `reset_client_written`
is a run in which the client resets its connection. -/

namespace Stm32TcpServer.Tcp.ConnFlag

open Stm32TcpServer.Lib.Runs
open Stm32TcpServer.Lwip.Pbuf Stm32TcpServer.Lwip.TcpPcb Stm32TcpServer.Tcp.TcpServer

/-- **The flag is right**: it is set only if `tcp_client_pcb` is still linked, and `tcp_write` has
only been called with such a pcb. -/
structure Connected (s : Server) : Prop where
  fault : s.fault = false
  flag : s.connectFlag = true → s.live s.tcpClientPcb = true
  written : ∀ pcb live data, .tcpWrite pcb live data ∈ s.log → live = true

/-- **The condition on a step.** -/
def Keeps (s : Server) : Event → Prop
  | .check =>
    if s.found then s.live s.tcpClientPcb = true else s.allocated s.tcpClientPcb = true
  | e => s.connectFlag = true → ∀ p ∈ s.tcpClientPcb.toList, p ∉ deleted s e

instance (s : Server) : ∀ e, Decidable (Keeps s e)
  | .check => inferInstanceAs (Decidable
      (if s.found then s.live s.tcpClientPcb = true else s.allocated s.tcpClientPcb = true))
  | .segment seg written => inferInstanceAs (Decidable (s.connectFlag = true →
      ∀ p ∈ s.tcpClientPcb.toList, p ∉ deleted s (.segment seg written)))
  | .slowtmr maxRtx => inferInstanceAs (Decidable (s.connectFlag = true →
      ∀ p ∈ s.tcpClientPcb.toList, p ∉ deleted s (.slowtmr maxRtx)))
  | .send buff written => inferInstanceAs (Decidable (s.connectFlag = true →
      ∀ p ∈ s.tcpClientPcb.toList, p ∉ deleted s (.send buff written)))

variable {s s' t : Server} {e : Event}

theorem connected_init : Connected Server.init :=
  ⟨rfl, fun h => absurd h Bool.false_ne_true, fun _ _ _ h => absurd h List.not_mem_nil⟩

theorem keeps_of_ne (he : e ≠ .check) :
    Keeps s e ↔ (s.connectFlag = true → ∀ p, s.tcpClientPcb = some p → p ∉ deleted s e) := by
  cases e with
  | check => exact absurd rfl he
  | segment | slowtmr | send => simp [Keeps, Option.mem_toList]

/-- **A check.** -/
theorem connected_check (h : Connected s) :
    Connected (checkForConnection s) ↔ Keeps s .check := by
  rw [Keeps]
  rcases checkForConnection_cases s with ⟨hf, heq⟩ | ⟨hf, ha, heq⟩ | ⟨hf, p, hp, hq, heq⟩
  · rw [heq, hf, if_pos rfl]
    exact ⟨fun h' => h'.flag rfl, fun hl => ⟨h.fault, fun _ => hl, h.written⟩⟩
  · rw [heq, hf, if_neg Bool.false_ne_true, ha]
    exact iff_of_false (fun h' => absurd h'.fault (by simp)) Bool.false_ne_true
  · have ha : s.allocated s.tcpClientPcb = true := by
      rw [hp]
      exact allocated_eq_true.mpr hq
    rw [heq, hf, if_neg Bool.false_ne_true]
    refine iff_of_true ⟨h.fault, fun hflag => absurd hflag Bool.false_ne_true, ?_⟩ ha
    intro pcb live data hmem
    rcases List.mem_append.mp hmem with hmem | hmem
    · exact h.written pcb live data hmem
    · simp at hmem

/-- **The step lemma.** -/
theorem connected_step (hwf : Wf s.tcp) (h : Connected s) (hs : step s e = some s') :
    Connected s' ↔ Keeps s e := by
  obtain ⟨-, rfl⟩ := excluded_eq_some hs
  by_cases he : e = .check
  · rw [he]
    exact connected_check h
  have hst := stepped hwf he
  obtain ⟨log, hlog, hsend⟩ := hst.log
  -- what is written in the step is written to the pcb that the server has after it
  have hwritten : (next s e).live (next s e).tcpClientPcb = true ∨ (next s e).connectFlag = false →
      ∀ pcb live data, .tcpWrite pcb live data ∈ (next s e).log → live = true := by
    intro hlive pcb live data hmem
    rw [hlog, List.mem_append] at hmem
    rcases hmem with hmem | hmem
    · exact h.written pcb live data hmem
    · obtain ⟨hflag, -, hl⟩ := hsend _ hmem
      rcases hlive with hlive | hfalse
      · rw [hl]
        exact hlive
      · rw [hflag] at hfalse
        exact absurd hfalse (by simp)
  rw [keeps_of_ne he]
  rcases hst.client with ⟨hflag, hclient⟩ | ⟨hflag, hlive, hdel⟩
  · cases hset : s.connectFlag with
    | false =>
      have hfalse := hflag.trans hset
      refine iff_of_true ⟨hst.fault.trans h.fault, fun hf => ?_, hwritten (Or.inr hfalse)⟩
        fun hf => absurd hf Bool.false_ne_true
      rw [hfalse] at hf
      exact absurd hf Bool.false_ne_true
    | true =>
      obtain ⟨p, hp, hact⟩ := live_eq_true.mp (h.flag hset)
      have hiff : (next s e).live (next s e).tcpClientPcb = true ↔ p ∉ deleted s e := by
        rw [hclient, hp, live_eq_true, ← hst.mem p hact]
        simp
      constructor
      · intro h' _ q hq
        rw [hp] at hq
        rw [← Option.some.inj hq]
        exact hiff.mp (h'.flag (hflag.trans hset))
      · intro hkeep
        have hlive := hiff.mpr (hkeep rfl p hp)
        exact ⟨hst.fault.trans h.fault, fun _ => hlive, hwritten (Or.inl hlive)⟩
  · have hconn : Connected (next s e) :=
      ⟨hst.fault.trans h.fault, fun _ => hlive, hwritten (Or.inl hlive)⟩
    refine iff_of_true hconn fun _ p _ => ?_
    rw [hdel]
    exact List.not_mem_nil

/-- **The connection flag.** In a run from `InitTcpServer` the flag is right in every state if and
only if no step deletes the pcb of the client while the flag is set, and no check is made after the
pointer has lost its pcb. -/
theorem connected_iff {es : List Event} (hr : run step Server.init es = some t) :
    (∀ n u, run step Server.init (es.take n) = some u → Connected u) ↔
      Along step Keeps Server.init es :=
  always_iff_along (fun s => Wf s.tcp) (fun _ _ _ h _ hs => wf_step h hs)
    (fun _ _ _ h hP hs => connected_step h hP hs) wf_init connected_init hr

/-- A client with the port that the check looks for, and a second one that comes and goes. -/
theorem connected_two_clients : ∃ t, run step Server.init
      (handshake serverPort ++ [data serverPort [1, 2], Event.check, .send [3] .errOk] ++
        (handshake 1025).take 1 ++ [reset 1025, .slowtmr fun _ => false, Event.check]) = some t ∧
    ∀ n u, run step Server.init
      ((handshake serverPort ++ [data serverPort [1, 2], Event.check, .send [3] .errOk] ++
        (handshake 1025).take 1 ++ [reset 1025, .slowtmr fun _ => false, Event.check]).take n) =
        some u → Connected u := by
  obtain ⟨t, hr, -⟩ := Option.map_eq_some_iff.mp (show (run step Server.init
      (handshake serverPort ++ [data serverPort [1, 2], Event.check, .send [3] .errOk] ++
        (handshake 1025).take 1 ++ [reset 1025, .slowtmr fun _ => false, Event.check])).map
      (fun t => t.connectFlag) = some true by decide +kernel)
  exact ⟨t, hr, (connected_iff hr).mpr (by decide +kernel)⟩

/-- **The client resets its connection.** lwIP deletes its pcb, `connectFlag` stays set, and the
next `SendTcpDataToClient` passes the pcb to `tcp_write`, although it is back in the pool. -/
theorem reset_client_written : ∃ t p, run step Server.init
      (handshake serverPort ++ [reset serverPort, .send [104, 105] .errOk]) = some t ∧
    t.connectFlag = true ∧ t.tcpClientPcb = some p ∧ p ∉ t.tcp.active ∧ p.addr ∈ t.tcp.free ∧
    .tcpWrite (some p) false [104, 105] ∈ t.log := by
  obtain ⟨t, hr, heq⟩ := Option.map_eq_some_iff.mp (show (run step Server.init
      (handshake serverPort ++ [reset serverPort, .send [104, 105] .errOk])).map
      (fun t => ((t.connectFlag, t.tcpClientPcb), (t.tcp.active, t.tcp.free.head?), t.log)) =
        some ((true, some ⟨9, 1⟩), ([], some 9), [.tcpWrite (some ⟨9, 1⟩) false [104, 105]]) by
    decide +kernel)
  simp only [Prod.mk.injEq] at heq
  obtain ⟨⟨hflag, hclient⟩, ⟨hact, hfree⟩, hlog⟩ := heq
  refine ⟨t, ⟨9, 1⟩, hr, hflag, hclient, ?_, List.mem_of_mem_head? hfree, ?_⟩
  · rw [hact]
    exact List.not_mem_nil
  · rw [hlog]
    exact List.mem_singleton_self _

end Stm32TcpServer.Tcp.ConnFlag
