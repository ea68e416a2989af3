import Stm32TcpServer.Tcp.Receive

/-! # Where received data is echoed to

`OnTcpServerRecv` echoes the data of a connection by `tcp_write` to `tcp_client_pcb`, which is the
connection accepted last. An echo goes to the connection its data came from exactly as long as data
arrives for this connection only (`Own`), or the flag is not set; then what one client receives as
echo does not depend on the data of the others (`echo_iff`).

* `echoes_next`: the echo that a step adds to the log.
* `sameControl_next`: the data of a segment decides about nothing but the log. -/

namespace Stm32TcpServer.Tcp.Replies

open Stm32TcpServer.Lib.Runs
open Stm32TcpServer.Lwip.Pbuf Stm32TcpServer.Lwip.TcpPcb Stm32TcpServer.Tcp.TcpServer
open Stm32TcpServer.Tcp.Receive

/-- The data of the connection `source` is written to the pcb `target`. -/
structure Echo where
  source : Ptr
  target : Option Ptr
  data : List UInt8
  deriving DecidableEq, Repr

/-- **The echoes in the log**: the calls of `tcp_write` that `OnTcpServerRecv` makes, each right
after it has called `tcp_recved`. -/
def echoes : List Effect → List Echo
  | .tcpRecved pcb _ :: .tcpWrite target _ data :: log => ⟨pcb, target, data⟩ :: echoes log
  | _ :: log => echoes log
  | [] => []

/-- What is written to the connection `c` as echo. -/
def echoed (c : Ptr) (log : List Effect) : List (List UInt8) :=
  ((echoes log).filter fun x => x.target = some c).map Echo.data

/-- Every echo goes to the connection that its data came from. -/
def ToSource (s : Server) : Prop := ∀ x ∈ echoes s.log, x.target = some x.source

/-- **Data arrives for the client only**: the connection that a step passes data of to the server is
`tcp_client_pcb`, or is just being accepted, or the flag is not set. -/
def Own (s : Server) (e : Event) : Prop :=
  (delivered s e).elim True fun d => (s.tcp.pcb d.1.addr).state = .synRcvd ∨
    s.connectFlag = false ∨ s.tcpClientPcb = some d.1

instance (s : Server) (e : Event) : Decidable (Own s e) := by
  unfold Own
  cases delivered s e with
  | none => exact instDecidableTrue
  | some d => exact instDecidableOr

/-- The two events differ at most in the data of a segment for another connection than `c`. -/
def SameBut (c : Ptr) (s : Server) (e e' : Event) : Prop :=
  e' = e ∨ ∃ seg written data written', e = .segment seg written ∧
    e' = .segment { seg with recvData := data } written' ∧ lookup s.tcp seg ≠ some c

/-! ### The echo of a step -/

variable {s s' t t' : Server} {c pcb : Ptr} {e e' : Event} {seg : Segment} {written : Err}

/-- The log does not end within `OnTcpServerRecv`. -/
def Complete (log : List Effect) : Prop := ∀ pcb len, log.getLast? ≠ some (.tcpRecved pcb len)

theorem echoes_append {log : List Effect} (h : Complete log) (log' : List Effect) :
    echoes (log ++ log') = echoes log ++ echoes log' := by
  induction log using echoes.induct with
  | case1 pcb len target live data log ih =>
    have hlog : Complete log := by
      intro pcb len hlast
      cases log with
      | nil => exact nomatch hlast
      | cons x log => exact h pcb len hlast
    simp only [List.cons_append, echoes, ih hlog]
  | case2 x log hx ih =>
    cases log with
    | nil =>
      cases x with
      | tcpRecved pcb len => exact absurd rfl (h pcb len)
      | tcpWrite _ _ _ => rfl
      | sendUartData _ => rfl
      | closeTcp _ _ => rfl
      | store _ _ _ => rfl
    | cons y log =>
      have hlog : Complete (y :: log) := fun pcb len hlast => h pcb len hlast
      have hcons : ∀ log'', (∀ pcb len target live data log', x = .tcpRecved pcb len →
          log'' = .tcpWrite target live data :: log' → False) →
          echoes (x :: log'') = echoes log'' := fun log'' h => echoes.eq_2 x log'' h
      rw [List.cons_append, hcons _ hx, hcons, ih hlog]
      intro pcb len target live data log'' hx' heq
      rw [List.cons_append] at heq
      exact hx pcb len target live data log hx' (by rw [(List.cons.inj heq).1])
  | case3 => rfl

theorem echoes_eq_nil {log : List Effect} (h : ∀ x ∈ log, FromRecv x = false) :
    echoes log = [] := by
  induction log using echoes.induct with
  | case1 pcb len target live data log ih =>
    exact absurd (h _ List.mem_cons_self) (by simp [FromRecv])
  | case2 x log hx ih =>
    rw [echoes.eq_2 x log hx]
    exact ih fun y hy => h y (List.mem_cons_of_mem x hy)
  | case3 => rfl

theorem echoes_recvEffects (m : Server) (pcb : Ptr) (data : List UInt8) :
    echoes (recvEffects m pcb data) =
      if m.connectFlag then [⟨pcb, m.tcpClientPcb, data⟩] else [] := by
  unfold recvEffects
  cases m.connectFlag <;> rfl

/-- The echo of a step. -/
def echo (s : Server) (e : Event) : List Echo :=
  (delivered s e).elim [] fun d =>
    if (s.tcp.pcb d.1.addr).state = .synRcvd then [⟨d.1, some d.1, d.2⟩]
    else if s.connectFlag then [⟨d.1, s.tcpClientPcb, d.2⟩] else []

/-- **What a step adds to the echoes.** -/
theorem echoes_next (h : Complete s.log) (e : Event) :
    Complete (next s e).log ∧ echoes (next s e).log = echoes s.log ++ echo s e := by
  unfold echo
  cases hd : delivered s e with
  | none =>
    obtain ⟨log, hlog, hrecv⟩ := log_undelivered hd
    rw [hlog, echoes_append h, echoes_eq_nil hrecv]
    refine ⟨fun pcb len hlast => ?_, rfl⟩
    rcases List.eq_nil_or_concat' log with rfl | ⟨log', x, rfl⟩
    · rw [List.append_nil] at hlast
      exact h pcb len hlast
    · rw [← List.append_assoc, List.getLast?_concat] at hlast
      have hx := hrecv x (List.mem_append_right _ (List.mem_singleton_self x))
      rw [Option.some.inj hlast] at hx
      exact Bool.noConfusion hx
  | some d =>
    obtain ⟨pcb, data⟩ := d
    obtain ⟨m, hlog, hm⟩ := log_delivered hd
    rw [hlog, echoes_append h, echoes_recvEffects, Option.elim_some]
    refine ⟨fun pcb len hlast => ?_, ?_⟩
    · rw [recvEffects, ← List.append_assoc, List.getLast?_concat] at hlast
      exact nomatch hlast
    · split_ifs at hm with hstate
      · rw [hm.1, hm.2, if_pos rfl, if_pos hstate]
      · rw [hm.1, hm.2, if_neg hstate]

theorem own_iff (s : Server) (e : Event) :
    (∀ x ∈ echo s e, x.target = some x.source) ↔ Own s e := by
  unfold echo Own
  cases delivered s e with
  | none => simp
  | some d =>
    simp only [Option.elim_some]
    by_cases hstate : (s.tcp.pcb d.1.addr).state = .synRcvd
    · simp [hstate]
    · cases hflag : s.connectFlag <;> simp [hstate]

/-- **The step lemma** for the targets of the echoes. -/
theorem toSource_step (h : Complete s.log) (hP : ToSource s) (hs : step s e = some s') :
    Complete s'.log ∧ (ToSource s' ↔ Own s e) := by
  obtain ⟨-, rfl⟩ := excluded_eq_some hs
  obtain ⟨hlog, heq⟩ := echoes_next h e
  refine ⟨hlog, ?_⟩
  rw [← own_iff, ToSource, heq]
  constructor
  · intro h x hx
    exact h x (List.mem_append_right _ hx)
  · intro h x hx
    rcases List.mem_append.mp hx with hx | hx
    · exact hP x hx
    · exact h x hx

/-! ### Two runs -/

/-- The states differ in the log only. -/
def SameControl (s s' : Server) : Prop := ∃ log, s' = { s with log := log }

/-- The data of a segment and the log decide about nothing in `tcp_process`. -/
theorem tcpProcess_data (s : Server) (pcb : Ptr) (seg : Segment) (log : List Effect)
    (data : Option (List UInt8)) :
    (tcpProcess { s with log := log } pcb { seg with recvData := data }).1 =
      { (tcpProcess s pcb seg).1 with log := log } := by
  unfold tcpProcess
  dsimp only
  split_ifs
  · rfl
  · rfl
  all_goals cases (s.tcp.pcb pcb.addr).state <;> rfl

/-- **The data of a segment** decides about nothing but the log. -/
theorem sameControl_segment (h : SameControl s s') (seg : Segment) (written written' : Err)
    (data : Option (List UInt8)) : SameControl (next s (.segment seg written))
      (next s' (.segment { seg with recvData := data } written')) := by
  obtain ⟨log, rfl⟩ := h
  have hlookup : lookup s.tcp { seg with recvData := data } = lookup s.tcp seg := rfl
  cases hl : lookup s.tcp seg with
  | some pcb =>
    have hproc : (processed { s with log := log } pcb { seg with recvData := data }).1 =
        { (processed s pcb seg).1 with log := log } :=
      tcpProcess_data { s with tcp := moveToFront s.tcp pcb } pcb seg log data
    rw [next_found hl, next_found (s := { s with log := log }) (hlookup.trans hl), hproc]
    dsimp only
    split_ifs
    · exact ⟨_, rfl⟩
    · exact ⟨_, rfl⟩
  | none =>
    have hin : ∀ (s : Server) (seg : Segment) (written : Err), lookup s.tcp seg = none →
        next s (.segment seg written) = if seg.dest = tcpLocalPort then
          { s with tcp := tcpListenInput s.tcp tcpLocalPort seg } else s := by
      intro s seg written hl
      rw [next, tcpInput, hl]
    rw [hin s seg written hl, hin { s with log := log } _ written' (hlookup.trans hl)]
    dsimp only
    split_ifs
    · exact ⟨_, rfl⟩
    · exact ⟨_, rfl⟩

/-- **The log** decides about nothing. -/
theorem sameControl_next (h : SameControl s s') (e : Event) :
    SameControl (next s e) (next s' e) := by
  cases e with
  | segment seg written => exact sameControl_segment h seg written written seg.recvData
  | slowtmr maxRtx =>
    obtain ⟨log, rfl⟩ := h
    exact ⟨log, rfl⟩
  | send buff written =>
    obtain ⟨log, rfl⟩ := h
    simp only [next, sendTcpDataToClient]
    split_ifs
    · exact ⟨_, rfl⟩
    · exact ⟨_, rfl⟩
  | check =>
    obtain ⟨log, rfl⟩ := h
    have hfound : Server.found { s with log := log } = s.found := rfl
    rw [next, next]
    cases hf : s.found with
    | true =>
      rw [checkForConnection_found hf, checkForConnection_found (hfound.trans hf)]
      exact ⟨log, rfl⟩
    | false =>
      rw [checkForConnection_lost hf, checkForConnection_lost (hfound.trans hf)]
      cases ha : Server.allocated { s with connectFlag := false } s.tcpClientPcb with
      | false =>
        rw [closeTcp_fault ha, closeTcp_fault (s := { s with log := log, connectFlag := false }) ha]
        exact ⟨_, rfl⟩
      | true =>
        obtain ⟨p, hp, -, heq⟩ := closeTcp_allocated ha
        obtain ⟨p', hp', -, heq'⟩ :=
          closeTcp_allocated (s := { s with log := log, connectFlag := false }) ha
        obtain rfl := Option.some.inj (hp.symm.trans hp')
        rw [heq, heq']
        exact ⟨_, rfl⟩

theorem echoed_next (h : Complete s.log) (e : Event) :
    echoed c (next s e).log = echoed c s.log ++
      ((echo s e).filter fun x => x.target = some c).map Echo.data := by
  unfold echoed
  rw [(echoes_next h e).2, List.filter_append, List.map_append]

theorem filter_echo_eq_nil (hown : Own s (.segment seg written)) (hl : lookup s.tcp seg ≠ some c) :
    (echo s (.segment seg written)).filter (fun x => x.target = some c) = [] := by
  rw [List.filter_eq_nil_iff]
  intro x hx htarget
  have hsource := (own_iff s _).mpr hown x hx
  have hx' : delivered s (.segment seg written) = some (x.source, x.data) := by
    unfold echo at hx
    cases hd : delivered s (.segment seg written) with
    | none => simp [hd] at hx
    | some d =>
      rw [hd, Option.elim_some] at hx
      split_ifs at hx <;> simp at hx <;> simp [hx]
  obtain ⟨seg', written', heq, hl', -⟩ := delivered_eq_some hx'
  obtain ⟨rfl, rfl⟩ := Event.segment.inj heq
  rw [hsource] at htarget
  exact hl (hl'.trans (by simpa using htarget))

/-- What the states of two runs have in common that differ in the data for other connections than
`c` only. -/
structure Alike (c : Ptr) (s s' : Server) : Prop where
  control : SameControl s s'
  complete : Complete s.log
  complete' : Complete s'.log
  echoed : echoed c s'.log = echoed c s.log

/-- **The step lemma** for two runs. -/
theorem alike_step (h : Alike c s s') (hsame : SameBut c s e e') (hown : Own s e)
    (hown' : Own s' e') (hs : step s e = some t) (hs' : step s' e' = some t') : Alike c t t' := by
  obtain ⟨-, rfl⟩ := excluded_eq_some hs
  obtain ⟨-, rfl⟩ := excluded_eq_some hs'
  have hcontrol := h.control
  obtain ⟨log, heq⟩ := h.control
  refine ⟨?_, (echoes_next h.complete e).1, (echoes_next h.complete' e').1, ?_⟩
  · rcases hsame with rfl | ⟨seg, written, data, written', rfl, rfl, -⟩
    · exact sameControl_next hcontrol _
    · exact sameControl_segment hcontrol seg written written' data
  · rw [echoed_next h.complete, echoed_next h.complete', h.echoed]
    congr 2
    rcases hsame with rfl | ⟨seg, written, data, written', rfl, rfl, hl⟩
    · rw [heq]
      rfl
    · have hl' : lookup s'.tcp { seg with recvData := data } ≠ some c := by
        rw [heq]
        exact hl
      rw [filter_echo_eq_nil hown hl, filter_echo_eq_nil hown' hl']

/-- **Echoes.** In a run from `InitTcpServer` every echo, in every state, goes to the connection its
data came from if and only if data arrives for the client only. What is echoed to a connection in
such a run is then also echoed to it in every other such run that differs in the data for other
connections only. -/
theorem echo_iff {es : List Event} {t : Server} (hr : run step Server.init es = some t) :
    ((∀ n u, run step Server.init (es.take n) = some u → ToSource u) ↔
      Along step Own Server.init es) ∧
    (Along step Own Server.init es → ∀ c es' t', run step Server.init es' = some t' →
      Twins step (SameBut c) Server.init es es' → Along step Own Server.init es' →
        echoed c t'.log = echoed c t.log) := by
  have hinit : Complete Server.init.log := fun _ _ h => nomatch h
  constructor
  · have hsource : ToSource Server.init := fun _ h => nomatch h
    exact always_iff_along (fun s => Complete s.log)
      (fun _ _ _ h hP hs => (toSource_step h hP hs).1)
      (fun _ _ _ h hP hs => (toSource_step h hP hs).2) hinit hsource hr
  · intro hown c es' t' hr' htw hown'
    have halike : Alike c Server.init Server.init := ⟨⟨[], rfl⟩, hinit, hinit, rfl⟩
    have hstep : ∀ s s' e e' t t', Alike c s s' → SameBut c s e e' → Own s e → Own s' e' →
        step s e = some t → step s' e' = some t' → Alike c t t' :=
      fun _ _ _ _ _ _ => alike_step
    exact (twins (Alike c) hstep halike htw hown hown' hr hr').echoed

theorem twins_data {u : Server} {before after : List Event} {src : ℕ} {bytes bytes' : List UInt8}
    (hr : run step Server.init before = some u) (hl : lookup u.tcp (ackFrom src) ≠ some c) :
    Twins step (SameBut c) Server.init (before ++ data src bytes :: after)
      (before ++ data src bytes' :: after) := by
  have hrefl : ∀ s e, SameBut c s e e := fun _ _ => Or.inl rfl
  refine twins_append hrefl hr ⟨Or.inr ⟨_, _, some bytes', .errOk, rfl, rfl, hl⟩, ?_⟩
  cases step u (data src bytes) with
  | none => trivial
  | some s => exact twins_refl hrefl s after

/-- A client connects, sends `bytes` and is reset; then another one connects and sends `c`. -/
def runOwn (bytes : List UInt8) : List Event :=
  handshake 1025 ++ data 1025 bytes :: reset 1025 :: handshake 1026 ++ [data 1026 [99]]

theorem echo_own : ∃ t t', run step Server.init (runOwn [97, 98]) = some t ∧
    run step Server.init (runOwn [100]) = some t' ∧
    (∀ n u, run step Server.init ((runOwn [97, 98]).take n) = some u → ToSource u) ∧
    echoed ⟨9, 2⟩ t.log = [[99]] ∧ echoed ⟨9, 2⟩ t'.log = echoed ⟨9, 2⟩ t.log := by
  obtain ⟨u, hu, hl⟩ := Option.map_eq_some_iff.mp
    (show (run step Server.init (handshake 1025)).map (fun u => lookup u.tcp (ackFrom 1025)) =
      some (some ⟨9, 1⟩) by decide +kernel)
  obtain ⟨t, hr, hecho⟩ := Option.map_eq_some_iff.mp
    (show (run step Server.init (runOwn [97, 98])).map (fun t => echoed ⟨9, 2⟩ t.log) =
      some [[99]] by decide +kernel)
  obtain ⟨t', hr', -⟩ := Option.map_eq_some_iff.mp
    (show (run step Server.init (runOwn [100])).map (fun t => t.connectFlag) = some true by
      decide +kernel)
  have hown : Along step Own Server.init (runOwn [97, 98]) := by decide +kernel
  have hown' : Along step Own Server.init (runOwn [100]) := by decide +kernel
  have htw : Twins step (SameBut ⟨9, 2⟩) Server.init (runOwn [97, 98]) (runOwn [100]) :=
    twins_data hu (by rw [hl]; decide)
  obtain ⟨hsource, htwin⟩ := echo_iff hr
  exact ⟨t, t', hr, hr', hsource.mpr hown, hecho, htwin hown _ _ t' hr' htw hown'⟩

/-- Two clients connect, and the first one sends `bytes`. -/
def runCrossed (bytes : List UInt8) : List Event :=
  handshake 1025 ++ handshake 1026 ++ [data 1025 bytes]

/-- **One client receives the data of another**: the second client gets what the first one sends,
whatever that is. -/
theorem echo_crossed : ∃ t t', run step Server.init (runCrossed [97, 98]) = some t ∧
    run step Server.init (runCrossed [99]) = some t' ∧ ¬ ToSource t ∧
    Twins step (SameBut ⟨8, 2⟩) Server.init (runCrossed [97, 98]) (runCrossed [99]) ∧
    echoed ⟨8, 2⟩ t.log = [[97, 98]] ∧ echoed ⟨8, 2⟩ t'.log = [[99]] := by
  obtain ⟨u, hu, hl⟩ := Option.map_eq_some_iff.mp
    (show (run step Server.init (handshake 1025 ++ handshake 1026)).map
      (fun u => lookup u.tcp (ackFrom 1025)) = some (some ⟨9, 1⟩) by decide +kernel)
  obtain ⟨t, hr, hecho⟩ := Option.map_eq_some_iff.mp
    (show (run step Server.init (runCrossed [97, 98])).map (fun t => echoes t.log) =
      some [⟨⟨9, 1⟩, some ⟨8, 2⟩, [97, 98]⟩] by decide +kernel)
  obtain ⟨t', hr', hecho'⟩ := Option.map_eq_some_iff.mp
    (show (run step Server.init (runCrossed [99])).map (fun t => echoed ⟨8, 2⟩ t.log) =
      some [[99]] by decide +kernel)
  refine ⟨t, t', hr, hr', fun hsource => ?_, twins_data hu (by rw [hl]; decide), ?_, hecho'⟩
  · have htarget := hsource ⟨⟨9, 1⟩, some ⟨8, 2⟩, [97, 98]⟩ (by simp [hecho])
    exact absurd htarget (by decide)
  · rw [echoed, hecho]
    decide

end Stm32TcpServer.Tcp.Replies
