import Stm32TcpServer.Tcp.Receive

/-! # Where the linked pcbs come from

A pcb that is linked after a step was linked before, and is that of the same connection, or it is new
and in `SYN_RCVD` (`active_next`). A pcb comes into `CLOSE_WAIT` by the end of its stream only. -/

namespace Stm32TcpServer.Tcp.Linked

open Stm32TcpServer.Lwip.Pbuf Stm32TcpServer.Lwip.TcpPcb Stm32TcpServer.Tcp.TcpServer
open Stm32TcpServer.Tcp.Receive

variable {s : Server} {t t' : Tcp} {pcb p q : Ptr} {seg : Segment}

theorem tcpAlloc_pcb {prio : ℕ} (ha : tcpAlloc t prio = some (t', p)) :
    ∀ a, a ≠ p.addr → t'.pcb a = t.pcb a := by
  intro a hne
  rw [tcpAlloc] at ha
  cases hfree : t.free with
  | cons b free =>
    rw [mempMalloc, hfree] at ha
    obtain ⟨rfl, rfl⟩ := Prod.mk.inj (Option.some.inj ha)
    exact Function.update_of_ne hne _ _
  | nil =>
    rw [show mempMalloc t = none by rw [mempMalloc, hfree], Option.none_or, tcpKillPrio] at ha
    cases hk : killed t prio with
    | none =>
      rw [hk, Option.elim_none, mempMalloc, hfree] at ha
      exact absurd ha.symm (Option.some_ne_none _)
    | some r =>
      -- the memory of the pcb that has been killed is taken at once
      rw [hk, Option.elim_some] at ha
      obtain ⟨rfl, rfl⟩ := Prod.mk.inj (Option.some.inj ha)
      have hne' : a ≠ r.addr := hne
      simp [tcpAbandon, Tcp.remove, Tcp.write, Function.update_of_ne hne']

/-- **`tcp_listen_input`** leaves the linked pcbs alone and links one in `SYN_RCVD`. -/
theorem tcpListenInput_active (h : Wf t) {localPort : ℕ}
    (hq : q ∈ (tcpListenInput t localPort seg).active) :
    (q ∈ t.active ∧ (tcpListenInput t localPort seg).pcb q.addr = t.pcb q.addr) ∨
      (q ∉ t.active ∧ ((tcpListenInput t localPort seg).pcb q.addr).localPort = localPort ∧
        ((tcpListenInput t localPort seg).pcb q.addr).state = .synRcvd) := by
  revert hq
  unfold tcpListenInput
  cases hopens : seg.opens with
  | false => exact fun hq => Or.inl ⟨hq, rfl⟩
  | true =>
    simp only [if_true]
    cases ha : tcpAlloc t tcpPrioNormal with
    | none => exact fun hq => Or.inl ⟨hq, rfl⟩
    | some r =>
      obtain ⟨t', p⟩ := r
      have hal := tcpAlloc_spec h ha
      have hpcb := tcpAlloc_pcb ha
      dsimp only
      split_ifs
      · intro hq
        rcases List.mem_cons.mp hq with rfl | hq
        · refine Or.inr ⟨fun hold => ?_, by simp [tcpRegActive, Tcp.write]⟩
          -- the stamp of the new pcb is that of no linked one
          have hlt := h.stamp q hold
          rw [hal.stamp] at hlt
          exact Nat.lt_irrefl _ hlt
        · have hne := hal.unlinked q hq
          refine Or.inl ⟨((hal.mem q).mp hq).1, ?_⟩
          simp only [tcpRegActive, Tcp.write, Function.update_of_ne hne]
          exact hpcb q.addr hne
      · intro hq
        obtain ⟨hq, hne⟩ := mem_remove.mp hq
        rcases List.mem_cons.mp hq with rfl | hq
        · exact absurd rfl hne
        · refine Or.inl ⟨((hal.mem q).mp hq).1, ?_⟩
          simp only [tcpAbandon, Tcp.remove, tcpRegActive, Tcp.write, Function.update_of_ne hne]
          exact hpcb q.addr hne

/-- **Where a linked pcb comes from**: it was linked before the step, and is in `CLOSE_WAIT` only if
it was so before or its stream has ended in the step; only a segment for it changes it. -/
structure Kept (s : Server) (e : Event) (q : Ptr) : Prop where
  mem : q ∈ s.tcp.active
  peer : SamePeer (s.tcp.pcb q.addr) ((next s e).tcp.pcb q.addr)
  closeWait : ((next s e).tcp.pcb q.addr).state = .closeWait ↔
    (s.tcp.pcb q.addr).state = .closeWait ∨ ended s e = some q
  other : (∀ seg written, e = .segment seg written → lookup s.tcp seg ≠ some q) →
    (next s e).tcp.pcb q.addr = s.tcp.pcb q.addr

theorem kept_of_eq {e : Event} (hq : q ∈ s.tcp.active)
    (hpcb : (next s e).tcp.pcb q.addr = s.tcp.pcb q.addr) (hend : ended s e ≠ some q) :
    Kept s e q := by
  refine ⟨hq, ?_, ?_, fun _ => hpcb⟩
  · rw [hpcb]
    exact SamePeer.refl _
  · rw [hpcb]
    exact (or_iff_left hend).symm

/-- A new pcb. -/
def Opened (s : Server) (e : Event) (q : Ptr) : Prop :=
  ((next s e).tcp.pcb q.addr).localPort = tcpLocalPort ∧
    ((next s e).tcp.pcb q.addr).state = .synRcvd

theorem kept_found (h : Wf s.tcp) (hl : lookup s.tcp seg = some pcb) (written : Err)
    (hq : q ∈ (next s (.segment seg written)).tcp.active) : Kept s (.segment seg written) q := by
  have hp : pcb ∈ s.tcp.active := List.mem_of_find?_eq_some hl
  have hh := processed_handled s pcb seg
  have hlists : (processed s pcb seg).1.tcp.active = (moveToFront s.tcp pcb).active :=
    (tcpProcess_spec { s with tcp := moveToFront s.tcp pcb } pcb seg).lists.active
  have hend : ∀ r, ended s (.segment seg written) = some r ↔
      r = pcb ∧ (receives (s.tcp.pcb pcb.addr) seg && seg.gotFin) = true := by
    intro r
    simp only [ended, hl, Option.bind_some]
    split_ifs with hif
    · simp [hif, eq_comm]
    · simp [hif]
  have hmem : q ∈ (processed s pcb seg).1.tcp.active → q ∈ s.tcp.active := fun hq => by
    rw [hlists] at hq
    exact (mem_moveToFront h hp).mp hq
  have hnext := next_found hl written
  cases hreset : seg.rst && seg.acceptable with
  | true =>
    rw [hreset, if_pos rfl] at hnext
    rw [hnext] at hq
    obtain ⟨hq, hne⟩ := mem_remove.mp hq
    refine kept_of_eq (hmem hq) ?_ fun he => hne (by rw [((hend q).mp he).1])
    rw [hnext]
    simp only [Tcp.remove, Tcp.write, Function.update_of_ne hne]
    exact hh.other q.addr hne
  | false =>
    rw [hreset, if_neg Bool.false_ne_true] at hnext
    rw [hnext] at hq
    by_cases heq : q = pcb
    · subst heq
      refine ⟨hp, by rw [hnext]; exact hh.peer, ?_, fun hc => absurd hl (hc seg written rfl)⟩
      rw [hend, hnext]
      simp only [hh.state]
      cases hfin : receives (s.tcp.pcb q.addr) seg && seg.gotFin with
      | true => simp
      | false =>
        cases hacc : accepts (s.tcp.pcb q.addr) seg with
        | false => simp
        | true =>
          have hstate : (s.tcp.pcb q.addr).state = .synRcvd := by
            simpa using (Bool.and_eq_true_iff.mp hacc).2
          simp [hstate]
    · have hne : q.addr ≠ pcb.addr := fun ha => heq (h.inj (hmem hq) hp ha)
      refine kept_of_eq (hmem hq) ?_ fun he => heq ((hend q).mp he).1
      rw [hnext]
      exact hh.other q.addr hne

/-- **Every linked pcb** has been there before the step or is new. -/
theorem active_next {e : Event} (h : Wf s.tcp) (hq : q ∈ (next s e).tcp.active) :
    Kept s e q ∨ (q ∉ s.tcp.active ∧ Opened s e q) := by
  cases e with
  | segment seg written =>
    cases hl : lookup s.tcp seg with
    | some pcb => exact Or.inl (kept_found h hl written hq)
    | none =>
      have hin : next s (.segment seg written) = if seg.dest = tcpLocalPort then
          { s with tcp := tcpListenInput s.tcp tcpLocalPort seg } else s := by
        rw [next, tcpInput, hl]
      have hend : ended s (.segment seg written) ≠ some q := by simp [ended, hl]
      split_ifs at hin with hdest
      · rw [hin] at hq
        rcases tcpListenInput_active h hq with ⟨hmem, hpcb⟩ | ⟨hold, hnew⟩
        · refine Or.inl (kept_of_eq hmem ?_ hend)
          rw [hin]
          exact hpcb
        · refine Or.inr ⟨hold, ?_⟩
          unfold Opened
          rw [hin]
          exact hnew
      · rw [hin] at hq
        exact Or.inl (kept_of_eq hq (by rw [hin]) hend)
  | slowtmr maxRtx =>
    exact Or.inl (kept_of_eq (List.mem_filter.mp hq).1 rfl (Option.some_ne_none q).symm)
  | send buff written =>
    obtain ⟨log, heq, -⟩ := sendTcpDataToClient_spec s buff written
    rw [next, heq] at hq
    exact Or.inl (kept_of_eq hq (by rw [next, heq]) (Option.some_ne_none q).symm)
  | check =>
    have hend : ended s .check ≠ some q := (Option.some_ne_none q).symm
    rw [next] at hq
    rcases checkForConnection_cases s with ⟨-, heq⟩ | ⟨-, -, heq⟩ | ⟨-, p, -, -, heq⟩
    · rw [heq] at hq
      exact Or.inl (kept_of_eq hq (by rw [next, heq]) hend)
    · rw [heq] at hq
      exact Or.inl (kept_of_eq hq (by rw [next, heq]) hend)
    · rw [heq] at hq
      obtain ⟨hq, hne⟩ := mem_remove.mp hq
      refine Or.inl (kept_of_eq hq ?_ hend)
      rw [next, heq]
      simp [tcpAbandon, Tcp.remove, Tcp.write, Function.update_of_ne hne]

end Stm32TcpServer.Tcp.Linked
