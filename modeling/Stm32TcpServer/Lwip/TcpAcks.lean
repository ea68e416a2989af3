import Stm32TcpServer.Lwip.TcpConn

/-! # Delayed acknowledgments (tcp_in.c, tcp_out.c, tcp.c)

`tcp_receive` answers by a flag, `TF_ACK_DELAY` or `TF_ACK_NOW`, that the next segment going out
takes away. `tcp_fasttmr` takes both away without looking whether `tcp_output` has sent anything: it
has not if there is no pbuf for the ACK, or if the Nagle algorithm holds the data back that would
carry it.

* `ack_kept`: apart from that, an acknowledgment that is due is not forgotten. -/

namespace Stm32TcpServer.Lwip.TcpIn

open Stm32TcpServer.Lib.Runs
open Stm32TcpServer.Lwip.Pbuf Stm32TcpServer.Lwip.TcpPcb

section
variable {irs : U32} {stream bytes : List UInt8} {pcb : Pcb} {seg : Segment} {mem : Bool}
  {c c' : Conn} {r : Input}

/-- The last segment that has gone out acknowledges all that has been received. -/
def Conn.UpToDate (c : Conn) : Prop := ∃ a, c.sent.getLast? = some a ∧ a.ackno = c.pcb.rcvNxt

/-- **An acknowledgment that is due is not forgotten**: a flag asks for it. -/
def Conn.Asked (c : Conn) : Prop := c.pcb.ackDelay = true ∨ c.pcb.ackNow = true ∨ c.UpToDate

/-- `tcp_fasttmr` takes the flags away; if nothing goes out then, it must not have been due. -/
def GetsOut (c : Conn) : Event → Prop
  | .fasttmr out _ _ => c.pcb.ackDelay = true → out = true ∨ c.UpToDate
  | _ => True

theorem upToDate_announce {c' : Conn} (hnxt : c'.pcb.rcvNxt = c.pcb.rcvNxt)
    (hsent : c'.sent = c.sent ++ [(announce c.pcb).2]) : c'.UpToDate := by
  refine ⟨(announce c.pcb).2, ?_, ?_⟩
  · rw [hsent, List.getLast?_concat]
  · rw [hnxt]
    rfl

theorem Conn.Asked.of_eq (h : c.Asked) {c' : Conn} (hnxt : c'.pcb.rcvNxt = c.pcb.rcvNxt)
    (hdelay : c'.pcb.ackDelay = c.pcb.ackDelay) (hnow : c.pcb.ackNow = true → c'.pcb.ackNow = true)
    (hsent : c'.sent = c.sent) : c'.Asked := by
  rcases h with h | h | ⟨a, ha, hack⟩
  · exact Or.inl (hdelay.trans h)
  · exact Or.inr (Or.inl (hnow h))
  · exact Or.inr (Or.inr ⟨a, by rw [hsent, ha], by rw [hnxt, hack]⟩)

theorem tcpUpdateRcvAnnWnd_flags (pcb : Pcb) :
    (tcpUpdateRcvAnnWnd pcb).1.ackDelay = pcb.ackDelay ∧
      (tcpUpdateRcvAnnWnd pcb).1.ackNow = pcb.ackNow := by
  unfold tcpUpdateRcvAnnWnd
  dsimp only
  split_ifs <;> exact ⟨rfl, rfl⟩

theorem Conn.Asked.act (h : c.Asked) (a : Act) : (c.act a).Asked := by
  cases a with
  | output => exact Or.inr (Or.inr (upToDate_announce (c := c) rfl rfl))
  | recved len =>
    obtain ⟨hdelay, hnow⟩ := tcpUpdateRcvAnnWnd_flags { c.pcb with
      rcvWnd := min ((c.pcb.rcvWnd + len) % 65536) tcpWnd }
    unfold Conn.act tcpRecved
    dsimp only
    split_ifs
    · exact Or.inr (Or.inl rfl)
    · exact h.of_eq (by simp) hdelay (fun hs => hnow.trans hs) rfl

theorem Conn.Asked.foldl (h : c.Asked) (acts : List Act) : (acts.foldl Conn.act c).Asked := by
  induction acts generalizing c with
  | nil => exact h
  | cons a acts ih => exact ih (h.act a)

theorem Conn.Asked.recv (h : c.Asked) (p : Chain) (fin : Bool) (a : Answer) :
    (c.recv p fin a).Asked := by
  have h' := h.foldl a.acts
  unfold Conn.recv Conn.store Conn.settle
  split_ifs <;> exact h'.of_eq rfl rfl id rfl

theorem Conn.Asked.closed (h : c.Asked) (acts : List Act) : (c.closed acts).Asked := by
  refine (Conn.Asked.foldl (c := { c with
    pcb := { c.pcb with rcvWnd := if c.pcb.rcvWnd ≠ tcpWnd then c.pcb.rcvWnd + 1 else c.pcb.rcvWnd }
    eof := true }) (h.of_eq rfl rfl id rfl) acts).of_eq rfl rfl id rfl

theorem Conn.Asked.refusedData (h : c.Asked) (a : Answer) (closing : List Act) :
    (tcpProcessRefusedData c a closing).Asked := by
  unfold tcpProcessRefusedData
  split
  · exact h
  · have hrecv := Conn.Asked.recv (c := { c with refused := none }) (h.of_eq rfl rfl id rfl)
    dsimp only
    split_ifs
    · exact (hrecv _ _ a).closed closing
    · exact hrecv _ _ a

/-- The pcb and the segments of the step, for a connection that asks for an acknowledgment. -/
def Conn.after (c : Conn) (r : Input) : Conn := { c with pcb := r.pcb, sent := c.sent ++ r.sent }

/-- `tcp_send_empty_ack` takes the flags away only if it sends. -/
theorem Conn.Asked.sendEmptyAck (h : c.Asked) {pcb' : Pcb} (hp : pcb' = c.pcb ∨ pcb' = tcpAckNow c.pcb)
    (d : Option Chain) (f : Bool) :
    (c.after ⟨(tcpSendEmptyAck mem pcb').1, d, f, (tcpSendEmptyAck mem pcb').2⟩).Asked := by
  unfold tcpSendEmptyAck
  split_ifs
  · rcases hp with rfl | rfl <;> exact Or.inr (Or.inr (upToDate_announce (c := c) rfl rfl))
  · rcases hp with rfl | rfl
    · exact h.of_eq rfl rfl id (by simp [Conn.after])
    · exact Or.inr (Or.inl rfl)

/-- **`tcp_process`** asks for an acknowledgment of what it receives, whatever the segment is. -/
theorem Conn.Asked.process (h : c.Asked) (hr : tcpProcess mem c.pcb seg = some r) :
    (c.after r).Asked := by
  have hsame : (c.after ⟨c.pcb, none, false, []⟩).Asked :=
    h.of_eq rfl rfl id (by simp [Conn.after])
  have hask : ∀ pcb' d f, (c.after ⟨tcpAckNow pcb', d, f, []⟩).Asked := fun _ _ _ =>
    Or.inr (Or.inl rfl)
  unfold tcpProcess at hr
  split_ifs at hr
  · obtain rfl := Option.some.inj hr
    exact hsame
  · obtain rfl := Option.some.inj hr
    exact hask _ _ _
  dsimp only at hr
  have hreceive : (c.after (tcpReceive mem c.pcb seg)).Asked := by
    unfold tcpReceive
    split_ifs
    · have htrim : (trimFirstEdge c.pcb seg seg.tcplen).1 = c.pcb ∨
          (trimFirstEdge c.pcb seg seg.tcplen).1 = tcpAckNow c.pcb := by
        unfold trimFirstEdge
        dsimp only
        split_ifs
        · exact Or.inl rfl
        · exact Or.inr rfl
        · exact Or.inl rfl
      dsimp only
      split_ifs
      · have hflag : ∀ q : Pcb, (tcpAck q).ackDelay = true ∨ (tcpAck q).ackNow = true := by
          intro q
          unfold tcpAck
          split_ifs
          · exact Or.inr rfl
          · exact Or.inl rfl
        unfold inSequence Conn.after Conn.Asked
        dsimp only
        rcases hflag (tcpUpdateRcvAnnWnd _).1 with hf | hf
        · exact Or.inl hf
        · exact Or.inr (Or.inl hf)
      · exact h.sendEmptyAck htrim none false
    · exact hsame
    · exact hask _ _ _
  obtain rfl := Option.some.inj hr
  split_ifs
  · exact Or.inr (Or.inl rfl)
  · exact hreceive

/-- **One step** forgets no acknowledgment, unless the timer finds one and nothing goes out. -/
theorem step_asked (c : Conn) (e : Event) (c' : Conn) (h : c.Asked) (hg : GetsOut c e)
    (he : step c e = some c') : c'.Asked := by
  cases e with
  | segment seg mem again a closing =>
    simp only [step, tcpInput] at he
    have h₁ := h.refusedData again closing
    split_ifs at he with hdrop
    · obtain rfl := Option.some.inj he
      exact h₁
    · obtain ⟨r, hr, rfl⟩ := Option.map_eq_some_iff.mp he
      have h₂ := h₁.process hr
      unfold Conn.after at h₂
      unfold Conn.pass
      have h₃ : (r.recvData.elim { tcpProcessRefusedData c again closing with
          pcb := r.pcb, sent := (tcpProcessRefusedData c again closing).sent ++ r.sent } fun p =>
          Conn.recv { tcpProcessRefusedData c again closing with pcb := r.pcb, sent :=
            (tcpProcessRefusedData c again closing).sent ++ r.sent } p false a).Asked := by
        cases r.recvData with
        | none => exact h₂
        | some p => exact h₂.recv p false a
      dsimp only
      split_ifs
      · split
        · exact h₃.of_eq rfl rfl id rfl
        · exact h₃.closed closing
      · exact h₃
  | fasttmr out again closing =>
    obtain rfl := Option.some.inj he
    refine Conn.Asked.refusedData ?_ again closing
    dsimp only
    split_ifs with hdelay hout
    · exact Or.inr (Or.inr (upToDate_announce (c := c) rfl rfl))
    · rcases hg hdelay with ho | ⟨a, ha, hack⟩
      · exact absurd ho hout
      · exact Or.inr (Or.inr ⟨a, ha, hack⟩)
    · exact h
  | act a =>
    obtain rfl := Option.some.inj he
    exact (h.act a).of_eq rfl rfl id rfl

/-- **Whatever has been received is acknowledged by the last segment, or a flag asks for it**, over
every run of any segments in which the fast timer gets a segment out when it finds a delayed
acknowledgment. -/
theorem ack_kept (irs : U32) (mss : ℕ) {es : List Event}
    (hg : Along step GetsOut (Conn.init irs mss) es)
    (hr : run step (Conn.init irs mss) es = some c) : c.Asked :=
  invariant Conn.Asked step_asked (Or.inr (Or.inr ⟨_, rfl, rfl⟩)) hg hr

theorem ack_kept_overtaken :
    ∃ c, run step (Conn.init 4294967294 1460) overtaken = some c ∧ c.Asked := by
  have hout : Along step GetsOut (Conn.init 4294967294 1460) overtaken :=
    ⟨trivial, trivial, fun _ => Or.inl rfl, trivial, trivial, trivial⟩
  exact ⟨_, rfl, ack_kept 4294967294 1460 hout rfl⟩

end

end Stm32TcpServer.Lwip.TcpIn
