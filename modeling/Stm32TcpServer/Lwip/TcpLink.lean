import Stm32TcpServer.Lwip.TcpConn
import Stm32TcpServer.Lwip.TcpOutRuns

/-! # Two connections and a network

What one party writes goes to the other one through a network that loses segments and
acknowledgments, repeats them and puts them in another order. Both parties run the code of lwIP; each
takes its steps when it likes.

* `delivered`: what the application of the receiver has taken is a prefix of what that of the sender
  has written, and what the sender has put off its queues has been received: every byte that has been
  written is received or still queued. -/

namespace Stm32TcpServer.Lwip.TcpIn

open Stm32TcpServer.Lib.Runs Stm32TcpServer.Lib.SeqNo
open Stm32TcpServer.Lwip.Pbuf Stm32TcpServer.Lwip.TcpPcb

/-! ### What a step of the receiver sends -/

section
variable {irs : U32} {stream bytes : List UInt8} {pcb : Pcb} {seg : Segment} {mem : Bool}
  {c c' c'' : Conn} {r : Input}

/-- Nothing is received, and what is sent acknowledges what has been received. -/
structure Still (c c' : Conn) : Prop where
  rcvNxt : c'.pcb.rcvNxt = c.pcb.rcvNxt
  state : c'.pcb.state = c.pcb.state
  received : c'.received = c.received
  sent : ∃ new, c'.sent = c.sent ++ new ∧ ∀ a ∈ new, a.ackno = c.pcb.rcvNxt

theorem Still.of_eq (hnxt : c'.pcb.rcvNxt = c.pcb.rcvNxt) (hstate : c'.pcb.state = c.pcb.state)
    (hrec : c'.received = c.received) (hsent : c'.sent = c.sent) : Still c c' :=
  ⟨hnxt, hstate, hrec, [], by rw [hsent, List.append_nil], fun a ha => by cases ha⟩

theorem Still.refl (c : Conn) : Still c c := Still.of_eq rfl rfl rfl rfl

theorem Still.trans (h : Still c c') (h' : Still c' c'') : Still c c'' := by
  obtain ⟨new, hsent, hnew⟩ := h.sent
  obtain ⟨new', hsent', hnew'⟩ := h'.sent
  refine ⟨h'.rcvNxt.trans h.rcvNxt, h'.state.trans h.state, h'.received.trans h.received,
    new ++ new', ?_, fun a ha => ?_⟩
  · rw [hsent', hsent, List.append_assoc]
  · rcases List.mem_append.mp ha with hm | hm
    · exact hnew a hm
    · rw [hnew' a hm, h.rcvNxt]

theorem still_output (c : Conn) : Still c c.output :=
  ⟨rfl, rfl, rfl, [(announce c.pcb).2], rfl, fun a ha => by rw [List.mem_singleton.mp ha]; rfl⟩

theorem still_act (c : Conn) (a : Act) : Still c (c.act a) := by
  cases a with
  | recved len =>
    obtain ⟨hstate, hnxt, -⟩ := tcpRecved_keep c.pcb len
    exact Still.of_eq hnxt hstate rfl rfl
  | output => exact still_output c

theorem still_foldl (c : Conn) (acts : List Act) : Still c (acts.foldl Conn.act c) := by
  induction acts generalizing c with
  | nil => exact Still.refl c
  | cons a acts ih => exact (still_act c a).trans (ih (c.act a))

theorem still_closed (c : Conn) (acts : List Act) : Still c (c.closed acts) := by
  unfold Conn.closed
  generalize hc : ({ c with
    pcb := { c.pcb with rcvWnd := if c.pcb.rcvWnd ≠ tcpWnd then c.pcb.rcvWnd + 1 else c.pcb.rcvWnd }
    eof := true } : Conn) = c₁
  have h₁ : Still c c₁ := by
    subst hc
    exact Still.of_eq rfl rfl rfl rfl
  exact (h₁.trans (still_foldl c₁ acts)).trans (Still.of_eq rfl rfl rfl rfl)

theorem recv_spec (hnone : c.refused = none) (p : Chain) (fin : Bool) (a : Answer) :
    (c.recv p fin a).pcb.rcvNxt = c.pcb.rcvNxt ∧ (c.recv p fin a).pcb.state = c.pcb.state ∧
      (c.recv p fin a).received = c.received ++ p.flatten ∧
      ∃ new, (c.recv p fin a).sent = c.sent ++ new ∧ ∀ b ∈ new, b.ackno = c.pcb.rcvNxt := by
  have ho := offered_recv hnone p fin a
  have hgot : c.received = c.got := by simp [Conn.received, hnone]
  refine ⟨ho.rcvNxt, ho.state, by rw [ho.received, hgot], ?_⟩
  obtain ⟨new, hsent, hnew⟩ := (still_foldl c a.acts).sent
  refine ⟨new, ?_, hnew⟩
  rw [← hsent]
  unfold Conn.recv Conn.settle Conn.store
  dsimp only
  split_ifs <;> rfl

/-- Data that have been refused have been received before. -/
theorem still_refused (c : Conn) (a : Answer) (closing : List Act) :
    Still c (tcpProcessRefusedData c a closing) := by
  unfold tcpProcessRefusedData
  cases hr : c.refused with
  | none => exact Still.refl c
  | some d =>
    obtain ⟨p, fin⟩ := d
    dsimp only
    obtain ⟨hnxt, hstate, hrec, hsent⟩ := recv_spec (c := { c with refused := none }) rfl p fin a
    have h₁ : Still c (Conn.recv { c with refused := none } p fin a) := by
      refine ⟨hnxt, hstate, ?_, hsent⟩
      rw [hrec]
      simp [Conn.received, hr]
    split_ifs
    · exact h₁.trans (still_closed _ closing)
    · exact h₁

theorem tcpReceive_fin (h : (tcpReceive mem pcb seg).gotFin = true) : seg.fin = true := by
  have htrim : (trimFirstEdge pcb seg seg.tcplen).2.fin = seg.fin := by
    unfold trimFirstEdge
    dsimp only
    split_ifs <;> rfl
  unfold tcpReceive at h
  dsimp only at h
  split_ifs at h
  · unfold inSequence at h
    dsimp only at h
    split_ifs at h
    exact htrim.symm.trans h

/-- **What a step of the receiver does.** -/
structure Stepped (c c' : Conn) : Prop where
  state : c'.pcb.state = c.pcb.state
  received : ∃ d, c'.received = c.received ++ d ∧ d.length ≤ tcpWnd
  sent : ∃ new, c'.sent = c.sent ++ new ∧
    ∀ a ∈ new, a.ackno = c.pcb.rcvNxt ∨ a.ackno = c'.pcb.rcvNxt

theorem Still.stepped (h : Still c c') : Stepped c c' := by
  obtain ⟨new, hsent, hnew⟩ := h.sent
  exact ⟨h.state, ⟨[], by rw [h.received, List.append_nil], Nat.zero_le _⟩, new, hsent,
    fun a ha => Or.inl (hnew a ha)⟩

theorem Still.trans_stepped (h : Still c c') (h' : Stepped c' c'') : Stepped c c'' := by
  obtain ⟨new, hsent, hnew⟩ := h.sent
  obtain ⟨new', hsent', hnew'⟩ := h'.sent
  obtain ⟨d, hrec, hd⟩ := h'.received
  refine ⟨h'.state.trans h.state, ⟨d, by rw [hrec, h.received], hd⟩, new ++ new', ?_, fun a ha => ?_⟩
  · rw [hsent', hsent, List.append_assoc]
  · rcases List.mem_append.mp ha with hm | hm
    · exact Or.inl (hnew a hm)
    · rw [← h.rcvNxt]
      exact hnew' a hm

theorem pass_stepped (ht : Taken irs stream c) (hnone : c.refused = none) {n : ℕ}
    (hg : Gain stream c.pcb c.received r n) (hfin : r.gotFin = false) (a : Answer)
    (closing : List Act) : Stepped c (c.pass r a closing) := by
  have hlen : r.data.length ≤ tcpWnd := by
    have hroom := hg.room
    have hcount := hg.count
    have hwnd := ht.reached.wnd
    omega
  have hstate : r.pcb.state = c.pcb.state := by
    rw [hg.pcb_eq, hfin]
    unfold afterData
    dsimp only
    rw [if_neg Bool.false_ne_true, tcpAck_state, tcpUpdateRcvAnnWnd_state]
  unfold Conn.pass
  rw [hfin]
  dsimp only
  rw [if_neg Bool.false_ne_true]
  cases hd : r.recvData with
  | none =>
    refine ⟨hstate, ⟨[], by rw [List.append_nil]; rfl, Nat.zero_le _⟩, [], ?_, fun a ha => by cases ha⟩
    rw [hg.sent, List.append_nil, Option.elim_none]
  | some p =>
    rw [Option.elim_some]
    obtain ⟨hnxt, hst, hrec, new, hsent, hnew⟩ :=
      recv_spec (c := { c with pcb := r.pcb, sent := c.sent ++ r.sent }) hnone p false a
    refine ⟨hst.trans hstate, ⟨p.flatten, hrec, ?_⟩, new, ?_, fun b hb => Or.inr ?_⟩
    · rw [Input.data, hd] at hlen
      exact hlen
    · rw [hsent, hg.sent, List.append_nil]
    · rw [hnew b hb, hnxt]

theorem pass_still (hn : Nothing c.pcb r) (a : Answer) (closing : List Act) :
    Still c (c.pass r a closing) := by
  unfold Conn.pass
  rw [hn.recvData, hn.gotFin]
  refine ⟨hn.quiet.rcvNxt, hn.quiet.state, rfl, r.sent, rfl, ?_⟩
  rcases hn.quiet.edge with ⟨hs, -⟩ | ⟨hs, -⟩
  · rw [hs]
    intro b hb
    cases hb
  · rw [hs]
    intro b hb
    rw [List.mem_singleton.mp hb]
    rfl

/-- **One step of the receiver**, to whom no FIN comes. -/
theorem step_stepped (h : Taken irs stream c) {e : Event} (hg : Genuine irs stream c e)
    (hfin : ∀ seg mem again a closing, e = .segment seg mem again a closing → seg.fin = false)
    (he : step c e = some c') : Stepped c c' := by
  cases e with
  | segment seg mem again a closing =>
    simp only [step, tcpInput] at he
    obtain ⟨ht, hrec, hstate⟩ := tcpProcessRefusedData_taken h again closing
    have hstill := still_refused c again closing
    have hnext : (tcpProcessRefusedData c again closing).pcb.next
        (tcpProcessRefusedData c again closing).received = c.pcb.next c.received := by
      rw [hrec]
      unfold Pcb.next Pcb.ended
      rw [hstate]
    generalize tcpProcessRefusedData c again closing = c₁ at *
    split_ifs at he with hdrop
    · obtain rfl := Option.some.inj he
      exact hstill.stepped
    · obtain ⟨r, hr, rfl⟩ := Option.map_eq_some_iff.mp he
      refine hstill.trans_stepped ?_
      rcases tcpProcess_cases ht.reached (by rw [hnext]; exact hg) hr with hn | ⟨hlen, n, hgain⟩
      · exact (pass_still hn a closing).stepped
      · refine pass_stepped ht ?_ hgain ?_ a closing
        · by_contra hsome
          exact hdrop ⟨Option.isSome_iff_ne_none.mpr hsome, hlen⟩
        · -- the segment has no FIN
          by_contra hgot
          rw [Bool.not_eq_false] at hgot
          have hno := hfin seg mem again a closing rfl
          have hyes : seg.fin = true := by
            unfold tcpProcess at hr
            split_ifs at hr
            · obtain rfl := Option.some.inj hr
              cases hgot
            · obtain rfl := Option.some.inj hr
              cases hgot
            · dsimp only at hr
              obtain rfl := Option.some.inj hr
              split_ifs at hgot with hf
              · exact tcpReceive_fin hf
              · exact absurd hgot hf
          rw [hno] at hyes
          cases hyes
  | fasttmr out again closing =>
    obtain rfl := Option.some.inj he
    refine Still.stepped (Still.trans ?_ (still_refused _ again closing))
    split_ifs
    · exact (still_output c).trans (Still.of_eq rfl rfl rfl rfl)
    · exact Still.of_eq rfl rfl rfl rfl
    · exact Still.refl c
  | act a =>
    obtain rfl := Option.some.inj he
    have hsettle : Still (c.act a) (c.act a).settle := Still.of_eq rfl rfl rfl rfl
    exact ((still_act c a).trans hsettle).stepped

end

end Stm32TcpServer.Lwip.TcpIn

namespace Stm32TcpServer.Lwip.TcpLink

open Stm32TcpServer.Lib.Runs Stm32TcpServer.Lib.SeqNo Stm32TcpServer.Lib.Window
open Stm32TcpServer.Lwip.Pbuf

/-- A number of 32 bits. -/
abbrev U32 := BitVec 32

/-- **The two parties**: `a` has sent `a.wire`, `b` has sent `b.sent`. -/
structure Link where
  a : TcpOut.Conn
  b : TcpIn.Conn
  /-- How many bytes `b` had received when the segments of `b.sent` went out, each at the end of its
  step; not in the memory. -/
  stamps : List ℕ

/-- What happens: a party takes a step on its own, or a segment that one party has sent, the `i`-th
one, arrives at the other one; the segment with data in some pbufs, the acknowledgment in a segment
with some number and length. -/
inductive Event
  | sender (e : TcpOut.Event)
  | deliver (i : ℕ) (p : Chain) (mem : Bool) (again a : TcpIn.Answer) (closing : List TcpIn.Act)
  | receiver (e : TcpIn.Event)
  | ack (i : ℕ) (seqno : U32) (tcplen : ℕ)

/-- A step of the sender. -/
def Link.send (k : Link) (e : TcpOut.Event) : Option Link :=
  (TcpOut.step k.a e).map fun a => { k with a := a }

/-- A step of the receiver. -/
def Link.receive (k : Link) (e : TcpIn.Event) : Option Link :=
  (TcpIn.step k.b e).map fun b =>
    { k with
      b := b
      stamps := k.stamps ++ List.replicate (b.sent.length - k.b.sent.length) b.received.length }

/-- **One step.** Nothing arrives that has not been sent. -/
def step (k : Link) : Event → Option Link
  | .sender (.receive _) => none
  | .sender e => k.send e
  | .deliver i p mem again a closing =>
    k.a.wire[i]?.bind fun w =>
      if p.flatten = w.data then
        k.receive (.segment ⟨w.seqno, false, false, false, p⟩ mem again a closing)
      else none
  | .receiver (.segment ..) => none
  | .receiver e => k.receive e
  | .ack i seqno tcplen =>
    k.b.sent[i]?.bind fun x => k.send (.receive ⟨seqno, x.ackno, x.wnd, tcplen⟩)

/-- The network does not keep anything until half a billion bytes more have been received, and the
sender writes, and its timer runs out, only while no segment of a fast retransmit is held back. -/
def Timely (k : Link) : Event → Prop
  | .sender e => TcpOut.Timely k.a e
  | .deliver i .. => ∀ w ∈ k.a.wire[i]?, k.b.received.length ≤ w.pos + 2 ^ 29
  | .receiver _ => True
  | .ack i .. => ∀ n ∈ k.stamps[i]?, k.b.received.length ≤ n + 2 ^ 29

instance (k : Link) : ∀ e : Event, Decidable (Timely k e)
  | .sender e => inferInstanceAs (Decidable (TcpOut.Timely k.a e))
  | .deliver i .. =>
    inferInstanceAs (Decidable (∀ w ∈ k.a.wire[i]?, k.b.received.length ≤ w.pos + 2 ^ 29))
  | .receiver _ => instDecidableTrue
  | .ack i .. => inferInstanceAs (Decidable (∀ n ∈ k.stamps[i]?, k.b.received.length ≤ n + 2 ^ 29))

/-- After the handshake. -/
def Link.init (pcb : TcpOut.Pcb) (iss : U32) (mss : ℕ) : Link :=
  ⟨⟨pcb, []⟩, TcpIn.Conn.init iss mss, [0]⟩

/-- A segment that `b` has sent, stamped with `n`, acknowledges what had been received shortly
before. -/
def Stamped (iss : U32) (x : TcpIn.Ack) (n : ℕ) : Prop :=
  ∃ y : ℕ, x.ackno = seq iss (1 + y) ∧ y ≤ n ∧ n ≤ y + TcpIn.tcpWnd

/-- **What the parties know of each other.** -/
structure Joint (iss : U32) (m : ℕ) (k : Link) : Prop where
  queues : ∃ l s, TcpOut.Inv iss l s k.a.pcb ∧ TcpOut.Holds l k.a.pcb ∧ l ≤ k.b.received.length
  tidy : TcpOut.Tidy k.a.pcb
  mss : k.a.pcb.mss = m
  mss_le : m ≤ TcpOut.tcpMss
  wire : ∀ w ∈ k.a.wire, TcpOut.Genuine iss m k.a.pcb.written w
  taken : TcpIn.Taken iss k.a.pcb.written k.b
  running : k.b.pcb.ended = false
  stamped : List.Forall₂ (Stamped iss) k.b.sent k.stamps
  past : ∀ n ∈ k.stamps, n ≤ k.b.received.length

section
variable {iss : U32} {m : ℕ} {k k' : Link} {stream : List UInt8} {b b' : TcpIn.Conn}

/-- The receiver does not mind that the sender writes more. -/
theorem taken_mono (h : TcpIn.Taken iss stream b) (hrun : b.pcb.ended = false)
    {stream' : List UInt8} (hle : stream <+: stream') : TcpIn.Taken iss stream' b :=
  ⟨⟨h.reached.isPrefix.trans hle, fun hc => absurd hc (by rw [hrun]; exact Bool.false_ne_true),
    h.reached.rcvNxt, h.reached.wnd⟩, h.flag, h.eof⟩

theorem taken_rcvNxt (h : TcpIn.Taken iss stream b) (hrun : b.pcb.ended = false) :
    b.pcb.rcvNxt = seq iss (1 + b.received.length) := by
  have hnxt := h.reached.rcvNxt
  unfold TcpIn.Pcb.next at hnxt
  rw [hrun] at hnxt
  simpa using hnxt

/-- **A step of the sender** on its own. -/
theorem Joint.send (h : Joint iss m k) (e : TcpOut.Event) (ho : TcpOut.Orderly k.a e)
    (hnot : ∀ seg, e ≠ .receive seg) (hs : k.send e = some k') : Joint iss m k' := by
  obtain ⟨a, ha, rfl⟩ := Option.map_eq_some_iff.mp hs
  obtain ⟨l, s, hi, hh, hle⟩ := h.queues
  obtain ⟨l', s', hled, hack, hmore⟩ := TcpOut.step_spec hi h.tidy (ho.timely k.a e) ha
  obtain ⟨hh', hwire⟩ := hmore ho hh
  have hl : l' = l := by
    rcases hack with hl | ⟨seg, he, -⟩
    · exact hl
    · exact absurd he (hnot seg)
  refine ⟨⟨l', s', hled.inv, hh', by rw [hl]; exact hle⟩, hled.tidy, hled.mss.trans h.mss, h.mss_le,
    fun w hw => ?_, taken_mono h.taken h.running hled.written, h.running, h.stamped, h.past⟩
  rcases hwire w hw with hw | hw
  · exact (h.wire w hw).mono le_rfl hled.written
  · rw [h.mss] at hw
    exact hw.mono le_rfl hled.written

/-- **A step of the receiver.** -/
theorem Joint.receive (h : Joint iss m k) (e : TcpIn.Event)
    (hg : TcpIn.Genuine iss k.a.pcb.written k.b e)
    (hfin : ∀ seg mem again a closing, e = .segment seg mem again a closing → seg.fin = false)
    (hs : k.receive e = some k') : Joint iss m k' := by
  obtain ⟨b, hb, rfl⟩ := Option.map_eq_some_iff.mp hs
  have ht := TcpIn.step_taken k.b e b h.taken hg hb
  obtain ⟨hstate, ⟨d, hrec, hd⟩, new, hsent, hnew⟩ := TcpIn.step_stepped h.taken hg hfin hb
  have hrun : b.pcb.ended = false := by
    have hr := h.running
    unfold TcpIn.Pcb.ended at hr ⊢
    rw [hstate]
    exact hr
  have hlen : b.received.length = k.b.received.length + d.length := by
    rw [hrec, List.length_append]
  obtain ⟨l, s, hi, hh, hle⟩ := h.queues
  refine ⟨⟨l, s, hi, hh, by dsimp only; omega⟩, h.tidy, h.mss, h.mss_le, h.wire, ht, hrun, ?_, ?_⟩
  · have hcount : b.sent.length - k.b.sent.length = new.length := by
      rw [hsent, List.length_append]
      omega
    dsimp only
    rw [hcount, hsent]
    have hstamp : ∀ x ∈ new, Stamped iss x b.received.length := by
      intro x hx
      rcases hnew x hx with hack | hack
      · exact ⟨k.b.received.length, hack.trans (taken_rcvNxt h.taken h.running), by omega, by omega⟩
      · exact ⟨b.received.length, hack.trans (taken_rcvNxt ht hrun), le_rfl, Nat.le_add_right _ _⟩
    refine List.rel_append h.stamped (List.forall₂_iff_get.mpr ⟨by simp, fun i hi _ => ?_⟩)
    simp only [List.get_eq_getElem, List.getElem_replicate]
    exact hstamp _ (List.getElem_mem _)
  · intro n hn
    rcases List.mem_append.mp hn with hm | hm
    · have := h.past n hm
      dsimp only
      omega
    · rw [List.eq_of_mem_replicate hm]

/-- **An acknowledgment arrives.** -/
theorem Joint.ack (h : Joint iss m k) {i n : ℕ} {x : TcpIn.Ack} {seqno : U32} {tcplen : ℕ}
    (hx : k.b.sent[i]? = some x) (hn : k.stamps[i]? = some n)
    (hnear : k.b.received.length ≤ n + 2 ^ 29)
    (hs : k.send (.receive ⟨seqno, x.ackno, x.wnd, tcplen⟩) = some k') : Joint iss m k' := by
  obtain ⟨a, ha, rfl⟩ := Option.map_eq_some_iff.mp hs
  obtain ⟨l, s, hi, hh, hle⟩ := h.queues
  have hpast := h.past n (List.mem_of_getElem? hn)
  obtain ⟨y, hy, hyn, hny⟩ : Stamped iss x n := by
    obtain ⟨hlen, hget⟩ := List.forall₂_iff_get.mp h.stamped
    obtain ⟨hi₁, rfl⟩ := List.getElem?_eq_some_iff.mp hx
    obtain ⟨hi₂, rfl⟩ := List.getElem?_eq_some_iff.mp hn
    exact hget i hi₁ hi₂
  have hls := hi.acked_le
  have hsn := hi.sent_le
  have hbuf := hi.sndBuf
  have hrecv := h.taken.reached.isPrefix.length_le
  unfold TcpOut.tcpSndBuf at hbuf
  unfold TcpIn.tcpWnd at hny
  have hsane : TcpOut.Sane k.a.pcb x.ackno := by
    unfold TcpOut.Sane
    rw [hy, hi.lastack, toInt_seq_sub (by decide) (by omega) (by omega)]
    omega
  have ho : TcpOut.Orderly k.a (.receive ⟨seqno, x.ackno, x.wnd, tcplen⟩) := hsane
  obtain ⟨l', s', hled, hack, hmore⟩ := TcpOut.step_spec hi h.tidy (ho.timely _ _) ha
  obtain ⟨hh', hwire⟩ := hmore ho hh
  have hl : l' ≤ k.b.received.length := by
    rcases hack with rfl | ⟨seg, he, hseg⟩
    · exact hle
    · obtain rfl := TcpOut.Event.receive.inj he
      dsimp only at hseg
      have hls' := hled.inv.acked_le
      have hsn' := hled.inv.sent_le
      have hforward := hled.forward
      have hwritten : a.pcb.written.length = k.a.pcb.written.length := by
        obtain rfl := Option.some.inj ha
        obtain ⟨-, -, -, -, hw, -, -, -⟩ := TcpOut.tcpReceive_spec hi h.tidy
          ⟨seqno, x.ackno, x.wnd, tcplen⟩
        dsimp only
        rw [hw]
      rw [hy, seq_inj (by decide) (by omega) (by omega)] at hseg
      omega
  refine ⟨⟨l', s', hled.inv, hh', hl⟩, hled.tidy, hled.mss.trans h.mss, h.mss_le, fun w hw => ?_,
    taken_mono h.taken h.running hled.written, h.running, h.stamped, h.past⟩
  rcases hwire w hw with hw | hw
  · exact (h.wire w hw).mono le_rfl hled.written
  · rw [h.mss] at hw
    exact hw.mono le_rfl hled.written

theorem joint_init {pcb : TcpOut.Pcb} (h : TcpOut.Fresh iss pcb) (mss : ℕ) :
    Joint iss pcb.mss (Link.init pcb iss mss) := by
  obtain ⟨hi, ht, hh⟩ := h.inv
  refine ⟨⟨0, 0, hi, hh, Nat.zero_le _⟩, ht, rfl, h.mss, fun w hw => absurd hw List.not_mem_nil,
    TcpIn.taken_init iss _ mss, rfl, ?_, fun n hn => ?_⟩
  · exact List.Forall₂.cons ⟨0, rfl, le_rfl, Nat.zero_le _⟩ List.Forall₂.nil
  · rw [List.mem_singleton.mp hn]
    exact Nat.zero_le _

/-- **One step.** -/
theorem joint_step (k : Link) (e : Event) (k' : Link) (h : Joint iss m k) (hG : Timely k e)
    (hs : step k e = some k') : Joint iss m k' := by
  cases e with
  | sender e =>
    cases e with
    | receive seg => cases hs
    | write mem arg => exact h.send (.write mem arg) hG (fun _ hc => by cases hc) hs
    | output ackNow => exact h.send (.output ackNow) hG (fun _ hc => by cases hc) hs
    | rexmit ackNow => exact h.send (.rexmit ackNow) hG (fun _ hc => by cases hc) hs
    | persist => exact h.send .persist hG (fun _ hc => by cases hc) hs
  | deliver i p mem again a closing =>
    obtain ⟨w, hw, hif⟩ := Option.bind_eq_some_iff.mp hs
    split_ifs at hif with hp
    obtain ⟨hseqno, hle, hdata, hlen⟩ := h.wire w (List.mem_of_getElem? hw)
    have hnear := hG w hw
    obtain ⟨l, s, hi, -, hl⟩ := h.queues
    have hbuf := hi.sndBuf
    have hmss := h.mss_le
    have htot : TcpIn.totLen p = w.data.length := by rw [TcpIn.totLen, hp]
    unfold TcpOut.tcpSndBuf at hbuf
    unfold TcpOut.tcpMss at hmss
    refine h.receive (.segment ⟨w.seqno, false, false, false, p⟩ mem again a closing)
      (fun _ _ _ => ⟨by dsimp only; omega, w.pos, hseqno, ?_, ?_, ?_, ?_, ?_⟩) ?_ hif
    · dsimp only
      omega
    · dsimp only
      rw [htot, hp]
      exact hdata
    · intro hc
      cases hc
    · unfold TcpIn.Pcb.next
      rw [h.running, if_neg Bool.false_ne_true]
      omega
    · unfold TcpIn.Pcb.next
      rw [h.running, if_neg Bool.false_ne_true]
      omega
    · intro seg mem' again' a' closing' hc
      rw [TcpIn.Event.segment.injEq] at hc
      rw [← hc.1]
  | receiver e =>
    cases e with
    | segment seg mem again a closing => cases hs
    | fasttmr out again closing =>
      exact h.receive (.fasttmr out again closing) trivial (fun _ _ _ _ _ hc => by cases hc) hs
    | act a => exact h.receive (.act a) trivial (fun _ _ _ _ _ hc => by cases hc) hs
  | ack i seqno tcplen =>
    obtain ⟨x, hx, hsend⟩ := Option.bind_eq_some_iff.mp hs
    obtain ⟨n, hn⟩ : ∃ n, k.stamps[i]? = some n := by
      have hi := (List.getElem?_eq_some_iff.mp hx).1
      rw [h.stamped.length_eq] at hi
      exact ⟨_, List.getElem?_eq_getElem hi⟩
    exact h.ack hx hn (hG n hn) hsend

/-- **What is written is delivered**: the application of the receiver has taken a prefix of what that
of the sender has written, and every byte that has been written has been received or is still on a
queue of the sender, in a segment with the right number for it. -/
theorem delivered (iss : U32) (mss : ℕ) {pcb : TcpOut.Pcb} {es : List Event} {k : Link}
    (h : TcpOut.Fresh iss pcb) (hG : Along step Timely (Link.init pcb iss mss) es)
    (hr : run step (Link.init pcb iss mss) es = some k) :
    k.b.got <+: k.b.received ∧ k.b.received <+: k.a.pcb.written ∧
      ∀ x < k.a.pcb.written.length, x < k.b.received.length ∨
        ∃ seg ∈ k.a.pcb.unacked ++ k.a.pcb.unsent, ∃ i < seg.len,
          seg.seqno + BitVec.ofNat 32 i = seq iss (1 + x) ∧
          seg.p.flatten[i]? = k.a.pcb.written[x]? := by
  have hj := invariant (Joint iss pcb.mss) joint_step (joint_init h mss) hG hr
  obtain ⟨l, s, hi, hh, hle⟩ := hj.queues
  refine ⟨List.prefix_append _ _, hj.taken.reached.isPrefix, fun x hx => ?_⟩
  rcases Nat.lt_or_ge x k.b.received.length with hlt | hge
  · exact Or.inl hlt
  · exact Or.inr (hh.byte hi (hle.trans hge) hx)

/-- The first segment arrives twice, goes out again before its acknowledgment arrives, and then comes a
third time, behind the second one, which the application refuses. The numbers of the bytes wrap. -/
def exchanged : List Event :=
  [.sender (.write true [1, 2, 3, 4, 5, 6]), .sender (.output false),
    .deliver 0 [[1], [2, 3, 4]] true ⟨[], true⟩ ⟨[.recved 4], true⟩ [], .receiver (.act .output),
    .deliver 0 [[1, 2, 3, 4]] true ⟨[], true⟩ ⟨[], true⟩ [], .sender (.rexmit false),
    .ack 1 100 0, .sender (.output false), .deliver 2 [[5, 6]] true ⟨[], true⟩ ⟨[], false⟩ [],
    .deliver 1 [[1, 2, 3, 4]] true ⟨[], false⟩ ⟨[], true⟩ [], .ack 0 100 0]

theorem exchanged_timely :
    Along step Timely (Link.init (TcpOut.Pcb.init 4294967294 4 40) 4294967294 1460) exchanged := by
  decide

theorem delivered_exchanged :
    ∃ k, run step (Link.init (TcpOut.Pcb.init 4294967294 4 40) 4294967294 1460) exchanged = some k ∧
      k.b.got <+: k.b.received ∧ k.b.received <+: k.a.pcb.written ∧
      ∀ x < k.a.pcb.written.length, x < k.b.received.length ∨
        ∃ seg ∈ k.a.pcb.unacked ++ k.a.pcb.unsent, ∃ i < seg.len,
          seg.seqno + BitVec.ofNat 32 i = seq 4294967294 (1 + x) ∧
          seg.p.flatten[i]? = k.a.pcb.written[x]? :=
  ⟨_, rfl, delivered 4294967294 1460 (TcpOut.fresh_init _ _ (by decide : 0 < 4) (by decide))
    exchanged_timely rfl⟩

end

end Stm32TcpServer.Lwip.TcpLink
