import Stm32TcpServer.Tcp.Linked

/-! # Clients that disconnect

When the FIN of a client arrives, lwIP puts its pcb in `CLOSE_WAIT` and calls `OnTcpServerRecv` with
NULL, for the server to close the connection. `OnTcpServerRecv` does nothing then: the pcb stays
linked, and `connectFlag` stays set (`ended_kept`). So no pcb is left in `CLOSE_WAIT` exactly in the
runs in which no client closes its connection (`released_iff`). -/

namespace Stm32TcpServer.Tcp.CloseWait

open Stm32TcpServer.Lib.Runs
open Stm32TcpServer.Lwip.Pbuf Stm32TcpServer.Lwip.TcpPcb Stm32TcpServer.Tcp.TcpServer
open Stm32TcpServer.Tcp.Receive Stm32TcpServer.Tcp.Linked

/-- A linked pcb is in `CLOSE_WAIT`. -/
def InCloseWait (s : Server) (q : Ptr) : Prop :=
  q ∈ s.tcp.active ∧ (s.tcp.pcb q.addr).state = .closeWait

/-- **No pcb stays in `CLOSE_WAIT`.** -/
def NoneWaits (s : Server) : Prop := ∀ q, ¬ InCloseWait s q

/-- **The end of a stream is acted on**: after the step the pcb has been closed or aborted, and
`connectFlag` is not set for it any more. -/
def EndHandled (s : Server) (e : Event) : Prop :=
  ∀ q, ended s e = some q → ¬ InCloseWait (next s e) q ∧
    ((next s e).tcpClientPcb = some q → (next s e).connectFlag = false)

/-- No client closes its connection in the step. -/
def NoFin (s : Server) (e : Event) : Prop := ended s e = none

instance (s : Server) (e : Event) : Decidable (NoFin s e) := by unfold NoFin; infer_instance

variable {s s' : Server} {e : Event} {q : Ptr}

/-- **The end of a stream**: the pcb stays linked, in `CLOSE_WAIT`, and the server changes nothing
unless the segment has completed the handshake. -/
theorem ended_kept (h : Wf s.tcp) (he : ended s e = some q) :
    InCloseWait (next s e) q ∧
      ((next s e).tcpClientPcb = s.tcpClientPcb ∧ (next s e).connectFlag = s.connectFlag ∨
        (next s e).tcpClientPcb = some q ∧ (next s e).connectFlag = true) := by
  cases e with
  | slowtmr | send | check => exact absurd he nofun
  | segment seg written =>
    obtain ⟨pcb, hl, hif⟩ := Option.bind_eq_some_iff.mp he
    split_ifs at hif with hrec
    obtain rfl := Option.some.inj hif
    have hp : pcb ∈ s.tcp.active := List.mem_of_find?_eq_some hl
    have hrst : seg.rst = false := by
      have hrec' := (Bool.and_eq_true_iff.mp hrec).1
      unfold receives at hrec'
      simpa using (Bool.and_eq_true_iff.mp hrec').1
    have hst := stepped (e := .segment seg written) h nofun
    have hin : pcb ∈ (next s (.segment seg written)).tcp.active := by
      rw [hst.mem pcb hp, deleted, hl]
      simp [hrst]
    have hkept := kept_found h hl written hin
    refine ⟨⟨hin, hkept.closeWait.mpr (Or.inr he)⟩, ?_⟩
    have hh := processed_handled s pcb seg
    have hnext := next_found hl written
    rw [hrst, Bool.false_and, if_neg Bool.false_ne_true] at hnext
    rw [hnext]
    simp only [hh.connectFlag, hh.tcpClientPcb]
    cases accepts (s.tcp.pcb pcb.addr) seg with
    | true => exact Or.inr ⟨rfl, by simp⟩
    | false => exact Or.inl ⟨rfl, by simp⟩

/-- **The step lemma.** -/
theorem noneWaits_step (h : Wf s.tcp) (hP : NoneWaits s) (hs : step s e = some s') :
    NoneWaits s' ↔ NoFin s e := by
  obtain ⟨-, rfl⟩ := excluded_eq_some hs
  constructor
  · intro hP'
    unfold NoFin
    cases he : ended s e with
    | none => rfl
    | some q => exact absurd (ended_kept h he).1 (hP' q)
  · intro hfin q hq
    rcases active_next h hq.1 with hkept | ⟨-, -, hnew⟩
    · rcases hkept.closeWait.mp hq.2 with hwait | hend
      · exact hP q ⟨hkept.mem, hwait⟩
      · rw [hfin] at hend
        exact absurd hend nofun
    · rw [hq.2] at hnew
      exact absurd hnew nofun

theorem noneWaits_init : NoneWaits Server.init := fun _ h => absurd h.1 List.not_mem_nil

/-- **Disconnected clients.** In a run from `InitTcpServer` no pcb is in `CLOSE_WAIT` in any state,
and every end of a stream is acted on, if and only if no client closes its connection. -/
theorem released_iff {t : Server} {es : List Event} (hr : run step Server.init es = some t) :
    ((∀ n u, run step Server.init (es.take n) = some u → NoneWaits u) ∧
      Along step EndHandled Server.init es) ↔ Along step NoFin Server.init es := by
  have hiff := always_iff_along (fun s => Wf s.tcp) (fun _ _ _ h _ hs => wf_step h hs)
    (fun _ _ _ h hP hs => noneWaits_step h hP hs) wf_init noneWaits_init hr
  constructor
  · rintro ⟨hall, -⟩
    exact hiff.mp hall
  · intro hfin
    refine ⟨hiff.mpr hfin, hfin.mono fun s e hnone q he => ?_⟩
    rw [hnone] at he
    exact absurd he nofun

/-- A connected client closes its connection. -/
def fin (src : ℕ) : Event := .segment { ackFrom src with gotFin := true } .errOk

/-- Two clients that connect, send data and are reset. -/
theorem released_two_clients : ∃ t, run step Server.init
      (handshake serverPort ++ [data serverPort [1, 2]] ++ handshake 1025 ++
        [reset serverPort, data 1025 [3], reset 1025]) = some t ∧
    ∀ n u, run step Server.init
      ((handshake serverPort ++ [data serverPort [1, 2]] ++ handshake 1025 ++
        [reset serverPort, data 1025 [3], reset 1025]).take n) = some u → NoneWaits u := by
  obtain ⟨t, hr, -⟩ := Option.map_eq_some_iff.mp (show (run step Server.init
      (handshake serverPort ++ [data serverPort [1, 2]] ++ handshake 1025 ++
        [reset serverPort, data 1025 [3], reset 1025])).map (fun t => t.connectFlag) = some true by
    decide +kernel)
  exact ⟨t, hr, ((released_iff hr).mpr (by decide +kernel)).1⟩

/-- Ten clients connect and close their connections, one after the other. -/
def tenClients : List Event :=
  (List.range 10).flatMap fun i => handshake (1024 + i) ++ [fin (1024 + i)]

/-- **Dead connections fill the pool.** Ten clients have come and gone: all pcbs are in `CLOSE_WAIT`,
none is free, and `connectFlag` is set for the last client. -/
theorem dead_connections : ∃ t q, run step Server.init tenClients = some t ∧ t.tcp.free = [] ∧
    t.tcp.active.length = 10 ∧ (∀ p ∈ t.tcp.active, InCloseWait t p) ∧
    q ∈ t.tcp.active ∧ t.tcpClientPcb = some q ∧ t.connectFlag = true := by
  obtain ⟨t, hr, heq⟩ := Option.map_eq_some_iff.mp (show (run step Server.init tenClients).map
      (fun t => ((t.tcp.free, t.tcp.active.head?), (t.tcp.active.length, t.tcpClientPcb),
        (t.connectFlag, t.tcp.active.all fun p => (t.tcp.pcb p.addr).state = .closeWait))) =
        some (([], some ⟨0, 10⟩), (10, some ⟨0, 10⟩), (true, true)) by decide +kernel)
  simp only [Prod.mk.injEq] at heq
  obtain ⟨⟨hfree, hhead⟩, ⟨hlen, hclient⟩, hflag, hall⟩ := heq
  refine ⟨t, ⟨0, 10⟩, hr, hfree, hlen, fun p hp => ⟨hp, ?_⟩, List.mem_of_mem_head? hhead, hclient,
    hflag⟩
  simpa using List.all_eq_true.mp hall p hp

end Stm32TcpServer.Tcp.CloseWait
