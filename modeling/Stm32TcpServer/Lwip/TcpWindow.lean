import Mathlib.Data.List.Chain
import Stm32TcpServer.Lwip.TcpConn

/-! # The window of a connection (tcp_in.c, tcp.c)

`rcv_wnd` is the room that is left, `rcv_ann_wnd` what is announced of it: `tcp_update_rcv_ann_wnd`
keeps small gains back. An application that calls `tcp_recved` for more than it has taken would
overdraw the window; the results are about runs in which it does not.

* `acks_forward`: acknowledgments and the announced edge of the window never move backwards.
* `window_kept`: no more is announced than there is room for, what has been announced stays, and no
  room is lost. -/

namespace Stm32TcpServer.Lwip.TcpIn

open Stm32TcpServer.Lib.Runs Stm32TcpServer.Lib.SeqNo
open Stm32TcpServer.Lwip.Pbuf Stm32TcpServer.Lwip.TcpPcb

section
variable {irs : U32} {stream bytes : List UInt8} {pcb : Pcb} {seg : Segment} {mem : Bool}
  {c c' : Conn} {r : Input}

/-- The second segment acknowledges at least as much as the first one, and announces an edge that is
not before the one of the first. -/
def Forward (a b : Ack) : Prop :=
  leq a.ackno b.ackno = true ∧
    leq (a.ackno + BitVec.ofNat 32 a.wnd) (b.ackno + BitVec.ofNat 32 b.wnd) = true

/-- **The window of a connection** that has received `x` positions. `b` positions take room, unless
`tcp_recved` has been called for them; the announced edge is at most `d` positions behind `x`. -/
structure Win (irs : U32) (x b d : ℕ) (c : Conn) : Prop where
  rcvNxt : c.pcb.rcvNxt = seq irs x
  room : c.pcb.rcvWnd + b = tcpWnd + c.credited
  credit : c.credited ≤ b
  ann : c.pcb.rcvAnnWnd ≤ c.pcb.rcvWnd
  small : d ≤ 2 ^ 30 + tcpWnd
  forward : c.sent.IsChain Forward
  edge : ∃ (e : ℤ) (a : Ack), c.pcb.rcvAnnRightEdge = seq irs e ∧ e ≤ x + c.pcb.rcvAnnWnd ∧
    x - e ≤ d ∧ c.sent.getLast? = some a ∧ a.ackno = seq irs (e - a.wnd) ∧ a.wnd ≤ tcpWnd ∧
    e - a.wnd ≤ x

variable {x b d : ℕ}

theorem Win.rcvWnd_le (h : Win irs x b d c) : c.pcb.rcvWnd ≤ tcpWnd := by
  have hroom := h.room
  have hcredit := h.credit
  omega

/-- **`tcp_update_rcv_ann_wnd`**: the announced edge does not move back, and there is room up to
it. -/
theorem tcpUpdateRcvAnnWnd_spec {e : ℤ} (hx : pcb.rcvNxt = seq irs x)
    (he : pcb.rcvAnnRightEdge = seq irs e) (hwnd : pcb.rcvWnd ≤ tcpWnd) (hle : e ≤ x + pcb.rcvWnd)
    (hnear : x - e ≤ 2 ^ 30 + 65536) :
    (tcpUpdateRcvAnnWnd pcb).1.rcvAnnWnd ≤ pcb.rcvWnd ∧
      e ≤ x + (tcpUpdateRcvAnnWnd pcb).1.rcvAnnWnd := by
  unfold tcpWnd at hwnd
  unfold tcpUpdateRcvAnnWnd
  dsimp only
  rw [hx, he, seq_add_nat, seq_add_nat]
  have hgt : gt (seq irs x) (seq irs e) = true ↔ e < x :=
    gt_seq (by decide) (by omega) (by omega)
  split_ifs with hge hover
  · exact ⟨le_rfl, hle⟩
  · have := hgt.mp hover
    exact ⟨Nat.zero_le _, by dsimp only; omega⟩
  · have hxe : (x : ℤ) ≤ e := by
      by_contra hlt
      exact hover (hgt.mpr (by omega))
    have hsub := toNat_seq_sub (s := irs) (x := e) (y := x) (by omega) (by omega)
    dsimp only
    omega

theorem Win.announce (h : Win irs x b d c) {c' : Conn} (hc : c'.pcb.rcvNxt = c.pcb.rcvNxt)
    (hwnd : c'.pcb.rcvWnd = c.pcb.rcvWnd) (hann : c'.pcb.rcvAnnWnd = c.pcb.rcvAnnWnd)
    (hcred : c'.credited = c.credited)
    (hedge : c'.pcb.rcvAnnRightEdge = (announce c.pcb).1.rcvAnnRightEdge)
    (hsent : c'.sent = c.sent ++ [(announce c.pcb).2]) : Win irs x b d c' := by
  have hle := h.rcvWnd_le
  have hsmall := h.small
  have hannle := h.ann
  unfold tcpWnd at hle hsmall
  obtain ⟨e, a, he, hex, hnear, hlast, hack, hawnd, hax⟩ := h.edge
  unfold tcpWnd at hawnd
  unfold Lwip.TcpIn.announce at hedge hsent
  dsimp only at hedge hsent
  rw [h.rcvNxt] at hsent
  rw [h.rcvNxt, seq_add_nat] at hedge
  refine ⟨by rw [hc, h.rcvNxt], by rw [hwnd, hcred]; exact h.room, by rw [hcred]; exact h.credit,
    by rw [hann, hwnd]; exact h.ann, h.small, ?_, ?_⟩
  · rw [hsent, List.isChain_append]
    refine ⟨h.forward, List.isChain_singleton _, ?_⟩
    rintro a' ha' y hy
    obtain rfl : a = a' := Option.some.inj (hlast.symm.trans ha')
    obtain rfl := Option.some.inj hy
    unfold Forward
    dsimp only
    rw [hack, seq_add_nat, seq_add_nat]
    exact ⟨(leq_seq (by decide) (by omega) (by omega)).mpr hax,
      (leq_seq (by decide) (by omega) (by omega)).mpr (by omega)⟩
  · refine ⟨x + c.pcb.rcvAnnWnd, ⟨seq irs x, c.pcb.rcvAnnWnd⟩, hedge, by rw [hann], by omega, ?_, ?_,
      ?_, ?_⟩
    · rw [hsent]
      exact List.getLast?_concat
    · rw [add_sub_cancel_right]
    · exact hannle.trans h.rcvWnd_le
    · dsimp only
      omega

theorem Win.of_eq (h : Win irs x b d c) {c' : Conn} (hp : SameWindow c.pcb c'.pcb)
    (hcred : c'.credited = c.credited) (hsent : c'.sent = c.sent) : Win irs x b d c' :=
  ⟨hp.rcvNxt.trans h.rcvNxt, by rw [hp.rcvWnd, hcred]; exact h.room, by rw [hcred]; exact h.credit,
    by rw [hp.rcvAnnWnd, hp.rcvWnd]; exact h.ann, h.small, by rw [hsent]; exact h.forward,
    by rw [hp.edge, hp.rcvAnnWnd, hsent]; exact h.edge⟩

theorem Win.update (pcb : Pcb) {e : ℤ} {a : Ack} (hx : pcb.rcvNxt = seq irs x)
    (hroom : pcb.rcvWnd + b = tcpWnd + c.credited) (hcredit : c.credited ≤ b)
    (hsmall : d ≤ 2 ^ 30 + tcpWnd) (hforward : c.sent.IsChain Forward)
    (he : pcb.rcvAnnRightEdge = seq irs e) (hle : e ≤ x + pcb.rcvWnd) (hnear : x - e ≤ d)
    (hlast : c.sent.getLast? = some a) (hack : a.ackno = seq irs (e - a.wnd))
    (hawnd : a.wnd ≤ tcpWnd) (hax : e - a.wnd ≤ x)
    (hp : SameWindow (tcpUpdateRcvAnnWnd pcb).1 c.pcb) : Win irs x b d c := by
  have hwnd : pcb.rcvWnd ≤ tcpWnd := by omega
  have hsmall' := hsmall
  unfold tcpWnd at hsmall'
  obtain ⟨hann, hle'⟩ := tcpUpdateRcvAnnWnd_spec hx he hwnd hle (by omega)
  have hrcv : c.pcb.rcvWnd = pcb.rcvWnd := by rw [hp.rcvWnd, tcpUpdateRcvAnnWnd_rcvWnd]
  refine ⟨?_, ?_, hcredit, ?_, hsmall, hforward, e, a, ?_, ?_, hnear, hlast, hack, hawnd, hax⟩
  · rw [hp.rcvNxt, tcpUpdateRcvAnnWnd_rcvNxt, hx]
  · rw [hrcv, hroom]
  · rw [hp.rcvAnnWnd, hrcv]
    exact hann
  · rw [hp.edge, tcpUpdateRcvAnnWnd_edge, he]
  · rw [hp.rcvAnnWnd]
    exact hle'

theorem Win.act (h : Win irs x b d c) (a : Act) (hcred : (c.act a).credited ≤ b) :
    Win irs x b d (c.act a) := by
  cases a with
  | output => exact h.announce rfl rfl rfl rfl rfl rfl
  | recved len =>
    obtain ⟨e, a, he, hex, hnear, hlast, hack, hawnd, hax⟩ := h.edge
    have hroom := h.room
    have hann := h.ann
    have hcred' : c.credited + len ≤ b := hcred
    have hmin : min ((c.pcb.rcvWnd + len) % 65536) tcpWnd = c.pcb.rcvWnd + len := by
      unfold tcpWnd at *
      omega
    refine Win.update { c.pcb with
      rcvWnd := min ((c.pcb.rcvWnd + len) % 65536) tcpWnd } h.rcvNxt ?_ hcred' h.small h.forward
      he ?_ hnear hlast hack hawnd hax ?_
    · dsimp only
      rw [hmin]
      unfold Conn.act
      dsimp only
      omega
    · dsimp only
      rw [hmin]
      push_cast
      omega
    · unfold Conn.act tcpRecved
      dsimp only
      split_ifs <;> exact ⟨rfl, rfl, rfl, rfl⟩

theorem act_credited (c : Conn) (a : Act) : c.credited ≤ (c.act a).credited := by
  cases a with
  | recved len => exact Nat.le_add_right _ _
  | output => exact le_rfl

theorem foldl_credited (c : Conn) (acts : List Act) :
    c.credited ≤ (acts.foldl Conn.act c).credited := by
  induction acts generalizing c with
  | nil => exact le_rfl
  | cons a acts ih => exact (act_credited c a).trans (ih (c.act a))

theorem Win.foldl (h : Win irs x b d c) (acts : List Act)
    (hcred : (acts.foldl Conn.act c).credited ≤ b) : Win irs x b d (acts.foldl Conn.act c) := by
  induction acts generalizing c with
  | nil => exact h
  | cons a acts ih =>
    exact ih (h.act a ((foldl_credited (c.act a) acts).trans hcred)) hcred

theorem settle_overdrawn (h : c.settle.overdrawn = false) :
    c.overdrawn = false ∧ c.credited ≤ c.got.length := by
  unfold Conn.settle at h
  simpa using h

theorem store_got (c : Conn) (p : Chain) (fin ok : Bool) :
    (c.store p fin ok).got.length ≤ c.got.length + totLen p := by
  unfold Conn.store totLen
  split_ifs <;> simp

theorem store_credited (c : Conn) (p : Chain) (fin ok : Bool) :
    (c.store p fin ok).credited = c.credited := by
  unfold Conn.store
  split_ifs <;> rfl

theorem Win.recv (h : Win irs x b d c) {p : Chain} {fin : Bool} {a : Answer}
    (hle : c.got.length + totLen p ≤ b) (hok : (c.recv p fin a).overdrawn = false) :
    Win irs x b d (c.recv p fin a) ∧
      (c.recv p fin a).credited ≤ (c.recv p fin a).got.length := by
  have hcred := (settle_overdrawn hok).2
  have hgot := store_got (a.acts.foldl Conn.act c) p fin a.ok
  rw [(acted_foldl c a.acts).got] at hgot
  have hwin := h.foldl a.acts (by
    rw [← store_credited _ p fin a.ok]
    exact hcred.trans (hgot.trans hle))
  refine ⟨hwin.of_eq ?_ ?_ ?_, hcred⟩
  all_goals
    unfold Conn.recv Conn.settle Conn.store
    dsimp only
    split_ifs <;> first | rfl | exact ⟨rfl, rfl, rfl, rfl⟩

theorem foldl_overdrawn (c : Conn) (acts : List Act) :
    (acts.foldl Conn.act c).overdrawn = c.overdrawn := by
  induction acts generalizing c with
  | nil => rfl
  | cons a acts ih =>
    rw [List.foldl_cons, ih]
    cases a <;> rfl

theorem recv_overdrawn {p : Chain} {fin : Bool} {a : Answer}
    (hok : (c.recv p fin a).overdrawn = false) : c.overdrawn = false := by
  rw [← foldl_overdrawn c a.acts, ← (settle_overdrawn hok).1]
  unfold Conn.store
  split_ifs <;> rfl

theorem closed_overdrawn {acts : List Act} (hok : (c.closed acts).overdrawn = false) :
    c.overdrawn = false := by
  have h := (settle_overdrawn hok).1
  rwa [foldl_overdrawn] at h

theorem passData_overdrawn {a : Answer} (hok : (c.passData r a).overdrawn = false) :
    c.overdrawn = false := by
  unfold Conn.passData at hok
  cases hd : r.recvData with
  | none =>
    rw [hd] at hok
    exact hok
  | some p =>
    rw [hd] at hok
    exact recv_overdrawn (c := { c with pcb := r.pcb, sent := c.sent ++ r.sent }) hok

theorem passFin_overdrawn {closing : List Act} (hok : (c.passFin closing).overdrawn = false) :
    c.overdrawn = false := by
  unfold Conn.passFin at hok
  split at hok
  · exact hok
  · exact closed_overdrawn hok

theorem pass_overdrawn {a : Answer} {closing : List Act}
    (hok : (c.pass r a closing).overdrawn = false) : c.overdrawn = false := by
  rw [pass_eq] at hok
  split_ifs at hok
  · exact passData_overdrawn (passFin_overdrawn hok)
  · exact passData_overdrawn hok

theorem tcpProcessRefusedData_overdrawn {a : Answer} {closing : List Act}
    (hok : (tcpProcessRefusedData c a closing).overdrawn = false) : c.overdrawn = false := by
  unfold tcpProcessRefusedData at hok
  split at hok
  · exact hok
  · dsimp only at hok
    split_ifs at hok
    · exact recv_overdrawn (c := { c with refused := none }) (closed_overdrawn hok)
    · exact recv_overdrawn (c := { c with refused := none }) hok

theorem step_overdrawn {e : Event} (he : step c e = some c') (hok : c'.overdrawn = false) :
    c.overdrawn = false := by
  cases e with
  | segment seg mem again a closing =>
    simp only [step, tcpInput] at he
    split_ifs at he with hdrop
    · obtain rfl := Option.some.inj he
      exact tcpProcessRefusedData_overdrawn hok
    · obtain ⟨r, -, rfl⟩ := Option.map_eq_some_iff.mp he
      exact tcpProcessRefusedData_overdrawn (pass_overdrawn hok)
  | fasttmr out again closing =>
    obtain rfl := Option.some.inj he
    have h := tcpProcessRefusedData_overdrawn hok
    dsimp only at h
    split_ifs at h <;> exact h
  | act a =>
    obtain rfl := Option.some.inj he
    have h := (settle_overdrawn hok).1
    cases a <;> exact h

/-- The end of the stream is reported: the room of the FIN is free again. -/
theorem Win.closed (h : Win irs x (b + 1) d c) {acts : List Act} (hle : c.got.length ≤ b)
    (hok : (c.closed acts).overdrawn = false) :
    Win irs x b d (c.closed acts) ∧ (c.closed acts).credited ≤ (c.closed acts).got.length := by
  have hcred := (settle_overdrawn hok).2
  rw [(acted_foldl _ acts).got] at hcred
  dsimp only at hcred
  have hmono := foldl_credited ({ c with
    pcb := { c.pcb with rcvWnd := if c.pcb.rcvWnd ≠ tcpWnd then c.pcb.rcvWnd + 1 else c.pcb.rcvWnd }
    eof := true }) acts
  have hroom := h.room
  have hann := h.ann
  dsimp only at hmono
  have hne : c.pcb.rcvWnd ≠ tcpWnd := by omega
  have hone : Win irs x b d { c with
      pcb := { c.pcb with
        rcvWnd := if c.pcb.rcvWnd ≠ tcpWnd then c.pcb.rcvWnd + 1 else c.pcb.rcvWnd }
      eof := true } := by
    rw [if_pos hne]
    exact ⟨h.rcvNxt, by dsimp only; omega, by dsimp only; omega, by dsimp only; omega, h.small,
      h.forward, h.edge⟩
  refine ⟨(hone.foldl acts (hcred.trans hle)).of_eq ⟨rfl, rfl, rfl, rfl⟩ rfl rfl, ?_⟩
  exact (settle_overdrawn hok).2

theorem Win.gain (h : Win irs x b d c) {n : ℕ} (hg : Gain stream c.pcb bytes r n)
    (hd : d ≤ 2 ^ 30) :
    Win irs (x + n) (b + n) (d + tcpWnd) { c with pcb := r.pcb, sent := c.sent ++ r.sent } := by
  obtain ⟨e, a, he, hex, hnear, hlast, hack, hawnd, hax⟩ := h.edge
  have hroom := h.room
  have hann := h.ann
  have hle := h.rcvWnd_le
  have hn := hg.room
  unfold tcpWnd at hle
  rw [hg.sent, List.append_nil]
  refine Win.update { c.pcb with
    rcvNxt := c.pcb.rcvNxt + BitVec.ofNat 32 n, rcvWnd := c.pcb.rcvWnd - n } ?_ ?_
    (h.credit.trans (Nat.le_add_right _ _)) (by omega) h.forward he ?_ ?_ hlast hack hawnd ?_ ?_
  · dsimp only
    rw [h.rcvNxt, seq_add_nat, Nat.cast_add]
  · dsimp only
    omega
  · dsimp only
    omega
  · push_cast
    omega
  · push_cast
    omega
  · rw [hg.pcb_eq]
    have hs := sameWindow_tcpAck (tcpUpdateRcvAnnWnd { c.pcb with
      rcvNxt := c.pcb.rcvNxt + BitVec.ofNat 32 n, rcvWnd := c.pcb.rcvWnd - n }).1
    unfold afterData
    dsimp only
    split_ifs
    · exact ⟨hs.rcvNxt, hs.rcvWnd, hs.rcvAnnWnd, hs.edge⟩
    · exact hs

theorem Win.nothing (h : Win irs x b d c) (hn : Nothing c.pcb r) :
    Win irs x b d { c with pcb := r.pcb, sent := c.sent ++ r.sent } := by
  obtain ⟨-, hnxt, hwnd, hann, -, hedge⟩ := hn.quiet
  rcases hedge with ⟨hsent, hedge⟩ | ⟨hsent, hedge⟩
  · exact h.of_eq ⟨hnxt, hwnd, hann, hedge⟩ rfl (by rw [hsent, List.append_nil])
  · exact h.announce hnxt hwnd hann rfl hedge (by rw [hsent])

/-- The position of the FIN, as long as the application has not been told of it. -/
def Conn.pending (c : Conn) : ℕ := if c.pcb.ended && !c.eof then 1 else 0

/-- **The window between two steps.** -/
def Windowed (irs : U32) (d : ℕ) (c : Conn) : Prop :=
  Win irs (c.pcb.next c.received) (c.received.length + c.pending) d c ∧ c.credited ≤ c.got.length

theorem windowed_init (irs : U32) (mss : ℕ) :
    Windowed irs (2 ^ 30 + tcpWnd) (Conn.init irs mss) := by
  refine ⟨⟨rfl, rfl, le_rfl, le_rfl, le_rfl, List.isChain_singleton _, 1 + tcpWnd,
    ⟨seq irs 1, tcpWnd⟩, rfl, ?_, ?_, rfl, ?_, le_rfl, ?_⟩, le_rfl⟩
  · simp [Conn.init, Conn.received, Pcb.next, Pcb.ended]
  · simp [Conn.init, Conn.received, Pcb.next, Pcb.ended]
  · simp
  · simp [Conn.init, Conn.received, Pcb.next, Pcb.ended]

/-- The announced edge is near in truth if the numbers say so. -/
theorem Windowed.near (h : Windowed irs (2 ^ 30 + tcpWnd) c)
    (hnear : (c.pcb.rcvNxt - c.pcb.rcvAnnRightEdge).toInt ≤ 2 ^ 30) :
    Windowed irs (2 ^ 30) c := by
  obtain ⟨hw, hcred⟩ := h
  have hle := hw.rcvWnd_le
  have hann := hw.ann
  obtain ⟨e, a, he, hex, hd, hlast⟩ := hw.edge
  unfold tcpWnd at hle
  push_cast at hd
  rw [hw.rcvNxt, he, toInt_seq_sub (by decide) (by omega) (by omega)] at hnear
  exact ⟨⟨hw.rcvNxt, hw.room, hw.credit, hw.ann, by omega, hw.forward, e, a, he, hex, hnear, hlast⟩,
    hcred⟩

theorem Windowed.mono {d' : ℕ} (h : Windowed irs d c) (hle : d ≤ d')
    (hsmall : d' ≤ 2 ^ 30 + tcpWnd) : Windowed irs d' c := by
  obtain ⟨hw, hcred⟩ := h
  obtain ⟨e, a, he, hex, hd, hlast⟩ := hw.edge
  exact ⟨⟨hw.rcvNxt, hw.room, hw.credit, hw.ann, hsmall, hw.forward, e, a, he, hex, by omega, hlast⟩,
    hcred⟩

theorem windowed_of_eq (hrec : c'.received = c.received) (hended : c'.pcb.ended = c.pcb.ended)
    (heof : c'.eof = c.eof)
    (hw : Win irs (c.pcb.next c.received) (c.received.length + c.pending) d c')
    (hcred : c'.credited ≤ c'.got.length) : Windowed irs d c' := by
  refine ⟨?_, hcred⟩
  unfold Conn.pending Pcb.next at *
  rw [hrec, hended, heof]
  exact hw

theorem windowed_of_win (ha : Acted c c')
    (hw : Win irs (c.pcb.next c.received) (c.received.length + c.pending) d c')
    (hcred : c'.credited ≤ c'.got.length) : Windowed irs d c' := by
  refine windowed_of_eq ?_ ?_ ha.eof hw hcred
  · unfold Conn.received
    rw [ha.got, ha.refused]
  · unfold Pcb.ended
    rw [ha.state]

/-- The end of the stream is reported to an application that has taken all of it. -/
theorem Windowed.closed (h : Windowed irs d c) (href : c.refused = none)
    (hended : c.pcb.ended = true) (heof : c.eof = false) {acts : List Act}
    (hok : (c.closed acts).overdrawn = false) : Windowed irs d (c.closed acts) := by
  have hgot : c.received = c.got := by simp [Conn.received, href]
  have hpend : c.pending = 1 := by
    unfold Conn.pending
    rw [hended, heof]
    rfl
  have hw := h.1
  rw [hpend] at hw
  obtain ⟨hw', hcred⟩ := hw.closed (by rw [hgot]) hok
  obtain ⟨hgot', href', heof', hstate, -, -⟩ := closed_spec c acts
  have hrec : (c.closed acts).received = c.received := by
    unfold Conn.received
    rw [hgot', href']
  have hnext : (c.closed acts).pcb.next (c.closed acts).received = c.pcb.next c.received := by
    rw [hrec]
    unfold Pcb.next Pcb.ended
    rw [hstate]
  have hpend' : (c.closed acts).pending = 0 := by
    unfold Conn.pending
    rw [heof']
    simp
  refine ⟨?_, hcred⟩
  rw [hnext, hrec, hpend', Nat.add_zero]
  exact hw'

/-- **`tcp_process_refused_data`** keeps the window. -/
theorem tcpProcessRefusedData_windowed (ht : Taken irs stream c) (h : Windowed irs d c)
    {a : Answer} {closing : List Act}
    (hok : (tcpProcessRefusedData c a closing).overdrawn = false) :
    Windowed irs d (tcpProcessRefusedData c a closing) := by
  unfold tcpProcessRefusedData at hok ⊢
  cases hr : c.refused with
  | none => exact h
  | some t =>
    obtain ⟨p, fin⟩ := t
    simp only [hr] at hok
    dsimp only
    have hfin := ht.flag p fin hr
    have heof : c.eof = false := by
      rw [ht.eof, hr]
      simp
    have ho := offered_recv (c := { c with refused := none }) rfl p fin a
    have hlen : c.received.length = c.got.length + totLen p := by
      simp [Conn.received, hr, totLen]
    have hrecv : Win irs (c.pcb.next c.received) (c.received.length + c.pending) d
        { c with refused := none } := h.1.of_eq ⟨rfl, rfl, rfl, rfl⟩ rfl rfl
    have hok' : (Conn.recv { c with refused := none } p fin a).overdrawn = false := by
      split_ifs at hok
      · exact closed_overdrawn hok
      · exact hok
    obtain ⟨hw₁, hcred₁⟩ := hrecv.recv (by dsimp only; omega) hok'
    generalize Conn.recv { c with refused := none } p fin a = c₁ at ho hok hw₁ hcred₁ ⊢
    have hrec : c₁.received = c.received := by
      rw [ho.received]
      simp [Conn.received, hr]
    have hended : c₁.pcb.ended = c.pcb.ended := by
      unfold Pcb.ended
      rw [ho.state]
    have h₁ : Windowed irs d c₁ := windowed_of_eq hrec hended ho.eof hw₁ hcred₁
    by_cases hclose : a.ok = true ∧ fin = true
    · rw [if_pos hclose] at hok ⊢
      refine h₁.closed ?_ ?_ (ho.eof.trans heof) hok
      · rw [ho.refused, hclose.1]
        rfl
      · rw [hended, ← hfin, hclose.2]
    · rw [if_neg hclose]
      exact h₁

theorem pass_nothing_windowed (h : Windowed irs d c) (hn : Nothing c.pcb r) (a : Answer)
    (closing : List Act) : Windowed irs d (c.pass r a closing) := by
  obtain ⟨hw, hcred⟩ := h
  unfold Conn.pass
  simp only [hn.recvData, hn.gotFin, Option.elim_none, Bool.false_eq_true, if_false]
  refine windowed_of_eq (c := c) rfl ?_ rfl (hw.nothing hn) hcred
  unfold Pcb.ended
  rw [hn.quiet.state]

theorem Win.passData (h : Win irs x b d { c with pcb := r.pcb, sent := c.sent ++ r.sent })
    (hcred : c.credited ≤ c.got.length) (hle : c.got.length + r.data.length ≤ b) {a : Answer}
    (hok : (c.passData r a).overdrawn = false) :
    Win irs x b d (c.passData r a) ∧ (c.passData r a).credited ≤ (c.passData r a).got.length := by
  unfold Conn.passData at hok ⊢
  cases hdata : r.recvData with
  | none => exact ⟨h, hcred⟩
  | some p =>
    rw [hdata] at hok
    refine h.recv ?_ hok
    rw [Input.data, hdata] at hle
    exact hle

/-- The data of a segment, and the position of its FIN, take room. -/
theorem Windowed.passData (h : Windowed irs d c) (hat : c.pcb.At irs stream c.received)
    (hnone : c.refused = none) (heof : c.eof = false) (hd : d ≤ 2 ^ 30) {n : ℕ}
    (hg : Gain stream c.pcb c.received r n) {a : Answer}
    (hok : (c.passData r a).overdrawn = false) : Windowed irs (d + tcpWnd) (c.passData r a) := by
  have hgot : c.received = c.got := by simp [Conn.received, hnone]
  have hp := passed_passData hnone r a
  have hended : (c.passData r a).pcb.ended = r.gotFin := hp.ended.trans (hg.reached hat).2
  have hcount := hg.count
  have hpend : c.pending = 0 := by
    unfold Conn.pending
    rw [hg.running]
    rfl
  have hnext : c.pcb.next c.received + n =
      (c.passData r a).pcb.next (c.passData r a).received := by
    unfold Pcb.next
    rw [hg.running, hended, hp.received, hcount, hgot, List.length_append]
    simp only [Bool.false_eq_true, if_false]
    omega
  have hroom : c.received.length + c.pending + n =
      (c.passData r a).received.length + (c.passData r a).pending := by
    unfold Conn.pending at hpend ⊢
    rw [hpend, hended, hp.received, hp.eof, heof, hcount, hgot, List.length_append]
    simp only [Bool.not_false, Bool.and_true]
    omega
  have hle : c.got.length + r.data.length ≤ c.received.length + c.pending + n := by
    rw [hgot]
    omega
  obtain ⟨hw, hcred⟩ := (h.1.gain hg hd).passData h.2 hle hok
  rw [hnext, hroom] at hw
  exact ⟨hw, hcred⟩

theorem Windowed.passFin (h : Windowed irs d c) (hended : c.pcb.ended = true)
    (heof : c.eof = false) {closing : List Act} (hok : (c.passFin closing).overdrawn = false) :
    Windowed irs d (c.passFin closing) := by
  unfold Conn.passFin at hok ⊢
  cases hs : c.refused with
  | none =>
    rw [hs] at hok
    exact h.closed hs hended heof hok
  | some t =>
    refine windowed_of_eq (c := c) ?_ rfl rfl (h.1.of_eq ⟨rfl, rfl, rfl, rfl⟩ rfl rfl) h.2
    simp [Conn.received, hs]

theorem pass_gain_windowed (ht : Taken irs stream c) (hnone : c.refused = none)
    (h : Windowed irs d c) (hd : d ≤ 2 ^ 30) {n : ℕ} (hg : Gain stream c.pcb c.received r n)
    {a : Answer} {closing : List Act} (hok : (c.pass r a closing).overdrawn = false) :
    Windowed irs (d + tcpWnd) (c.pass r a closing) := by
  have heof : c.eof = false := by
    rw [ht.eof, hg.running]
    rfl
  have hp := passed_passData hnone r a
  rw [pass_eq] at hok ⊢
  cases hfin : r.gotFin with
  | false =>
    rw [hfin, if_neg Bool.false_ne_true] at hok
    exact h.passData ht.reached hnone heof hd hg hok
  | true =>
    rw [hfin, if_pos rfl] at hok
    have hended := hp.ended.trans (hg.reached ht.reached).2
    exact (h.passData ht.reached hnone heof hd hg (passFin_overdrawn hok)).passFin
      (hended.trans hfin) (hp.eof.trans heof) hok

/-- **One step keeps the window.** -/
theorem step_windowed (ht : Taken irs stream c) (h : Windowed irs (2 ^ 30 + tcpWnd) c) {e : Event}
    (hg : Orderly irs stream c e) (he : step c e = some c') (hok : c'.overdrawn = false) :
    Windowed irs (2 ^ 30 + tcpWnd) c' := by
  have hd : (2 : ℕ) ^ 30 ≤ 2 ^ 30 + tcpWnd := Nat.le_add_right _ _
  have hnear := h.near hg.near
  cases e with
  | segment seg mem again a closing =>
    simp only [step, tcpInput] at he
    obtain ⟨ht₁, hrec, hstate⟩ := tcpProcessRefusedData_taken ht again closing
    have hw₁ := @tcpProcessRefusedData_windowed _ _ _ _ ht hnear again closing
    have hnext : (tcpProcessRefusedData c again closing).pcb.next
        (tcpProcessRefusedData c again closing).received = c.pcb.next c.received := by
      rw [hrec]
      unfold Pcb.next Pcb.ended
      rw [hstate]
    generalize tcpProcessRefusedData c again closing = c₁ at he ht₁ hw₁ hnext
    split_ifs at he with hdrop
    · obtain rfl := Option.some.inj he
      exact (hw₁ hok).mono hd le_rfl
    · obtain ⟨r, hr, rfl⟩ := Option.map_eq_some_iff.mp he
      have hw₁ := hw₁ (pass_overdrawn hok)
      rcases tcpProcess_cases ht₁.reached (by rw [hnext]; exact hg.genuine) hr with
        hn | ⟨hlen, n, hgain⟩
      · exact (pass_nothing_windowed hw₁ hn a closing).mono hd le_rfl
      · refine pass_gain_windowed ht₁ ?_ hw₁ le_rfl hgain hok
        by_contra hsome
        exact hdrop ⟨Option.isSome_iff_ne_none.mpr hsome, hlen⟩
  | fasttmr out again closing =>
    obtain rfl := Option.some.inj he
    refine (tcpProcessRefusedData_windowed (ht.of_acted ?_) (windowed_of_win (c := c) ?_ ?_ ?_)
      hok).mono hd le_rfl
    · split_ifs <;> exact ⟨rfl, rfl, rfl, rfl, rfl, id⟩
    · split_ifs <;> exact ⟨rfl, rfl, rfl, rfl, rfl, id⟩
    · split_ifs
      · exact hnear.1.announce rfl rfl rfl rfl rfl rfl
      · exact hnear.1.of_eq ⟨rfl, rfl, rfl, rfl⟩ rfl rfl
      · exact hnear.1
    · split_ifs <;> exact hnear.2
  | act a =>
    obtain rfl := Option.some.inj he
    have hcred : (c.act a).credited ≤ (c.act a).got.length := (settle_overdrawn hok).2
    have ha := acted_act c a
    have hle : (c.act a).credited ≤ c.received.length + c.pending := by
      rw [ha.got] at hcred
      have hgot : c.got.length ≤ c.received.length := by simp [Conn.received]
      omega
    have hacted : Acted c (c.act a).settle :=
      ⟨ha.got, ha.refused, ha.eof, ha.state, ha.rcvNxt, ha.wnd⟩
    exact (windowed_of_win hacted ((hnear.1.act a hle).of_eq ⟨rfl, rfl, rfl, rfl⟩ rfl rfl)
      hcred).mono hd le_rfl

theorem run_windowed (irs : U32) (stream : List UInt8) (mss : ℕ) {es : List Event}
    (hg : Along step (Orderly irs stream) (Conn.init irs mss) es)
    (hr : run step (Conn.init irs mss) es = some c) (hok : c.overdrawn = false) :
    Windowed irs (2 ^ 30 + tcpWnd) c := by
  have h := invariant (fun c => Taken irs stream c ∧
    (c.overdrawn = false → Windowed irs (2 ^ 30 + tcpWnd) c)) (fun s e s' hs he hstep =>
      ⟨step_taken s e s' hs.1 he.genuine hstep, fun hok' =>
        step_windowed hs.1 (hs.2 (step_overdrawn hstep hok')) he hstep hok'⟩)
    ⟨taken_init irs stream mss, fun _ => windowed_init irs mss⟩ hg hr
  exact h.2 hok

/-- **Acknowledgments and the announced edge of the window never move backwards** from one segment
that goes out to the next. -/
theorem acks_forward (irs : U32) (stream : List UInt8) (mss : ℕ) {es : List Event}
    (hg : Along step (Orderly irs stream) (Conn.init irs mss) es)
    (hr : run step (Conn.init irs mss) es = some c) (hok : c.overdrawn = false) :
    c.sent.IsChain Forward :=
  (run_windowed irs stream mss hg hr hok).1.forward

theorem acks_forward_overtaken :
    ∃ c, run step (Conn.init 4294967294 1460) overtaken = some c ∧ c.sent.IsChain Forward :=
  ⟨_, rfl, acks_forward 4294967294 [1, 2, 3] 1460 overtaken_orderly rfl rfl⟩

/-- **The window**: what has been announced has room, and what has been received and not yet
credited together with the window is never more than `TCP_WND`; nothing of it is lost, and with all
of it credited the window is open again. -/
theorem window_kept (irs : U32) (stream : List UInt8) (mss : ℕ) {es : List Event}
    (hg : Along step (Orderly irs stream) (Conn.init irs mss) es)
    (hr : run step (Conn.init irs mss) es = some c) (hok : c.overdrawn = false) :
    (c.pcb.rcvAnnRightEdge - c.pcb.rcvNxt).toInt ≤ c.pcb.rcvWnd ∧
      c.pcb.rcvAnnWnd ≤ c.pcb.rcvWnd ∧
      c.pcb.rcvWnd + (c.received.length - c.credited) + c.pending = tcpWnd := by
  obtain ⟨hw, hcred⟩ := run_windowed irs stream mss hg hr hok
  obtain ⟨e, -, he, hle, hnear, -⟩ := hw.edge
  have hann := hw.ann
  have hroom := hw.room
  have hwnd := hw.rcvWnd_le
  have hgot : c.got.length ≤ c.received.length := by simp [Conn.received]
  unfold tcpWnd at *
  push_cast at hnear
  refine ⟨?_, hann, by omega⟩
  rw [he, hw.rcvNxt, toInt_seq_sub (by decide) (by omega) (by omega)]
  omega

theorem window_kept_overtaken :
    ∃ c, run step (Conn.init 4294967294 1460) overtaken = some c ∧
      (c.pcb.rcvAnnRightEdge - c.pcb.rcvNxt).toInt ≤ c.pcb.rcvWnd ∧
      c.pcb.rcvAnnWnd ≤ c.pcb.rcvWnd ∧
      c.pcb.rcvWnd + (c.received.length - c.credited) + c.pending = tcpWnd :=
  ⟨_, rfl, window_kept 4294967294 [1, 2, 3] 1460 overtaken_orderly rfl rfl⟩

end

end Stm32TcpServer.Lwip.TcpIn
