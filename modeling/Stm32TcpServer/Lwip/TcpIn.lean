import Mathlib.Data.List.Infix
import Stm32TcpServer.Lib.SeqNo
import Stm32TcpServer.Lwip.Pbuf
import Stm32TcpServer.Lwip.TcpPcb

/-! # The data of a connection (tcp_in.c, tcp.c)

What `tcp_input` does with the data of the segments of a connection in ESTABLISHED or CLOSE_WAIT,
`TCP_QUEUE_OOSEQ` being 0: `tcp_receive` cuts the segment to the window and passes on what is next
in sequence; `tcp_update_rcv_ann_wnd` and `tcp_recved` keep the window that is announced. The
segments that go out of the connection carry `rcv_nxt` and `rcv_ann_wnd` (`Ack`).

* `tcpReceive_next`, `tcpReceive_other`: what a segment adds to the bytes received. -/

namespace Stm32TcpServer.Lwip.TcpIn

open Stm32TcpServer.Lib.SeqNo Stm32TcpServer.Lib.Window
open Stm32TcpServer.Lwip.Pbuf Stm32TcpServer.Lwip.TcpPcb

/-- `TCP_MSS`. -/
abbrev tcpMss : ℕ := 1460
/-- `TCP_WND`. -/
abbrev tcpWnd : ℕ := 2920
/-- `TCP_WND_UPDATE_THRESHOLD`. -/
abbrev tcpWndUpdateThreshold : ℕ := 730

/-- A number of 32 bits. -/
abbrev U32 := BitVec 32

/-- The fields of `struct tcp_pcb` that the data of the peer depend on. -/
structure Pcb where
  state : State
  rcvNxt : U32
  rcvWnd : ℕ
  rcvAnnWnd : ℕ
  rcvAnnRightEdge : U32
  mss : ℕ
  /-- `TF_ACK_DELAY` in `flags`. -/
  ackDelay : Bool
  /-- `TF_ACK_NOW` in `flags`. -/
  ackNow : Bool
  deriving DecidableEq

/-- The fields of an outgoing segment that tell the peer what has been received. -/
structure Ack where
  ackno : U32
  wnd : ℕ
  deriving DecidableEq

/-- **An incoming segment**, past its headers. -/
structure Segment where
  seqno : U32
  syn : Bool
  rst : Bool
  fin : Bool
  p : Chain
  deriving DecidableEq

/-- `struct tcp_seg`, for the segment that is being processed. -/
structure TcpSeg where
  seqno : U32
  len : ℕ
  fin : Bool
  p : Chain

/-- `p->tot_len`. -/
def totLen (p : Chain) : ℕ := p.flatten.length

/-- `TCP_TCPLEN(seg)`, the segment being no SYN. -/
def TcpSeg.tcplen (seg : TcpSeg) : ℕ := seg.len + if seg.fin then 1 else 0

/-- The loop of `tcp_receive` that skips `off` bytes of the chain, and the `pbuf_header` behind
it. -/
def trimFront : Chain → ℕ → Chain
  | [], _ => []
  | q :: p, off => if q.length < off then [] :: trimFront p (off - q.length) else q.drop off :: p

/-- The loop of `pbuf_realloc` that looks for the new last pbuf, and the cut behind it. -/
def cutBack : Chain → ℕ → Chain
  | [], _ => []
  | q :: p, remLen => if q.length < remLen then q :: cutBack p (remLen - q.length)
    else [q.take remLen]

/-- **`pbuf_realloc(p, new_len)`.** -/
def pbufRealloc (p : Chain) (newLen : ℕ) : Chain :=
  if totLen p ≤ newLen then p else cutBack p newLen

/-- **`tcp_update_rcv_ann_wnd(pcb)`.** -/
def tcpUpdateRcvAnnWnd (pcb : Pcb) : Pcb × U32 :=
  let newRightEdge := pcb.rcvNxt + BitVec.ofNat 32 pcb.rcvWnd
  if geq newRightEdge (pcb.rcvAnnRightEdge + BitVec.ofNat 32 (min (tcpWnd / 2) pcb.mss)) then
    ({ pcb with rcvAnnWnd := pcb.rcvWnd }, newRightEdge - pcb.rcvAnnRightEdge)
  else if gt pcb.rcvNxt pcb.rcvAnnRightEdge then ({ pcb with rcvAnnWnd := 0 }, 0)
  else ({ pcb with rcvAnnWnd := (pcb.rcvAnnRightEdge - pcb.rcvNxt).toNat % 65536 }, 0)

/-- `tcp_ack_now(pcb)`. -/
def tcpAckNow (pcb : Pcb) : Pcb := { pcb with ackNow := true }

/-- `tcp_ack(pcb)`. -/
def tcpAck (pcb : Pcb) : Pcb :=
  if pcb.ackDelay then { pcb with ackDelay := false, ackNow := true }
  else { pcb with ackDelay := true }

/-- A segment goes out: `tcp_output_segment` and `tcp_output_alloc_header` fill in its `ackno` and
`wnd` and note the edge of the window. -/
def announce (pcb : Pcb) : Pcb × Ack :=
  ({ pcb with rcvAnnRightEdge := pcb.rcvNxt + BitVec.ofNat 32 pcb.rcvAnnWnd },
    ⟨pcb.rcvNxt, pcb.rcvAnnWnd⟩)

/-- **`tcp_send_empty_ack(pcb)`**; `mem`: there is a pbuf for it. -/
def tcpSendEmptyAck (mem : Bool) (pcb : Pcb) : Pcb × List Ack :=
  if mem then ({ (announce pcb).1 with ackDelay := false, ackNow := false }, [(announce pcb).2])
  else (pcb, [])

/-- What `tcp_receive` leaves behind: the pcb, `recv_data`, `TF_GOT_FIN` in `recv_flags`, and the
segments sent. -/
structure Input where
  pcb : Pcb
  recvData : Option Chain
  gotFin : Bool
  sent : List Ack

/-- The first edge is trimmed if a part of the segment has been received before; a segment that has
been received completely is acknowledged. -/
def trimFirstEdge (pcb : Pcb) (seg : Segment) (tcplen : ℕ) : Pcb × TcpSeg :=
  let inseg : TcpSeg := { seqno := seg.seqno, len := totLen seg.p, fin := seg.fin, p := seg.p }
  if between pcb.rcvNxt (seg.seqno + 1) (seg.seqno + BitVec.ofNat 32 tcplen - 1) then
    let off := (pcb.rcvNxt - seg.seqno).toNat
    (pcb, { inseg with
      p := trimFront inseg.p off
      len := (inseg.len + 65536 - off % 65536) % 65536
      seqno := pcb.rcvNxt })
  else if lt seg.seqno pcb.rcvNxt then (tcpAckNow pcb, inseg)
  else (pcb, inseg)

/-- The segment is the next in sequence: its end is trimmed to the window, and its data are for the
application. -/
def inSequence (pcb : Pcb) (inseg : TcpSeg) : Input :=
  let inseg :=
    if pcb.rcvWnd < inseg.tcplen then
      { inseg with fin := false, len := pcb.rcvWnd, p := pbufRealloc inseg.p pcb.rcvWnd }
    else inseg
  let pcb := { pcb with
    rcvNxt := inseg.seqno + BitVec.ofNat 32 inseg.tcplen
    rcvWnd := pcb.rcvWnd - inseg.tcplen }
  { pcb := tcpAck (tcpUpdateRcvAnnWnd pcb).1
    recvData := if 0 < totLen inseg.p then some inseg.p else none
    gotFin := inseg.fin
    sent := [] }

/-- `tcplen`, a `u16_t`. -/
def Segment.tcplen (seg : Segment) : ℕ := (totLen seg.p + if seg.fin || seg.syn then 1 else 0) % 65536

/-- **`tcp_receive(pcb)`**, what it does with the data of the segment. -/
def tcpReceive (mem : Bool) (pcb : Pcb) (seg : Segment) : Input :=
  if 0 < seg.tcplen ∧ pcb.state ≠ .closeWait then
    let (pcb, inseg) := trimFirstEdge pcb seg seg.tcplen
    if between inseg.seqno pcb.rcvNxt (pcb.rcvNxt + BitVec.ofNat 32 pcb.rcvWnd - 1) ∧
        pcb.rcvNxt = inseg.seqno then
      inSequence pcb inseg
    else
      -- out of sequence, or not within the window
      { pcb := (tcpSendEmptyAck mem pcb).1, recvData := none, gotFin := false,
        sent := (tcpSendEmptyAck mem pcb).2 }
  else if between seg.seqno pcb.rcvNxt (pcb.rcvNxt + BitVec.ofNat 32 pcb.rcvWnd - 1) then
    { pcb := pcb, recvData := none, gotFin := false, sent := [] }
  else { pcb := tcpAckNow pcb, recvData := none, gotFin := false, sent := [] }

/-- **`tcp_process(pcb)`**, in ESTABLISHED or CLOSE_WAIT; `none` if the connection is reset. -/
def tcpProcess (mem : Bool) (pcb : Pcb) (seg : Segment) : Option Input :=
  if seg.rst then
    if between seg.seqno pcb.rcvNxt (pcb.rcvNxt + BitVec.ofNat 32 pcb.rcvWnd) then none
    else some { pcb := pcb, recvData := none, gotFin := false, sent := [] }
  else if seg.syn then some { pcb := tcpAckNow pcb, recvData := none, gotFin := false, sent := [] }
  else
    let r := tcpReceive mem pcb seg
    some (if r.gotFin then { r with pcb := { tcpAckNow r.pcb with state := .closeWait } } else r)

/-- **`tcp_recved(pcb, len)`**. The segment that its `tcp_output` may send is an event of its own. -/
def tcpRecved (pcb : Pcb) (len : ℕ) : Pcb :=
  let pcb := { pcb with rcvWnd := min ((pcb.rcvWnd + len) % 65536) tcpWnd }
  let (pcb, wndInflation) := tcpUpdateRcvAnnWnd pcb
  if (tcpWndUpdateThreshold : ℤ) ≤ wndInflation.toInt then tcpAckNow pcb else pcb

/-! ### Chains -/

section
variable {p : Chain} {n : ℕ}

theorem flatten_trimFront (h : n ≤ totLen p) : (trimFront p n).flatten = p.flatten.drop n := by
  induction p generalizing n with
  | nil => simp [trimFront]
  | cons q p ih =>
    rw [trimFront]
    unfold totLen at h ih
    rw [List.flatten_cons, List.length_append] at h
    split_ifs with hlt
    · rw [List.flatten_cons, List.nil_append, ih (by omega), List.flatten_cons,
        List.drop_append, List.drop_eq_nil_of_le hlt.le, List.nil_append]
    · rw [List.flatten_cons, List.flatten_cons, List.drop_append_of_le_length (by omega)]

theorem flatten_cutBack (p : Chain) (n : ℕ) : (cutBack p n).flatten = p.flatten.take n := by
  induction p generalizing n with
  | nil => simp [cutBack]
  | cons q p ih =>
    rw [cutBack]
    split_ifs with hlt
    · rw [List.flatten_cons, ih, List.flatten_cons, List.take_append,
        List.take_of_length_le hlt.le]
    · rw [List.flatten_singleton, List.flatten_cons, List.take_append_of_le_length (by omega)]

/-- **`pbuf_realloc` keeps the first bytes.** -/
theorem flatten_pbufRealloc (p : Chain) (n : ℕ) : (pbufRealloc p n).flatten = p.flatten.take n := by
  unfold pbufRealloc
  split_ifs with hle
  · rw [List.take_of_length_le hle]
  · exact flatten_cutBack p n

end

/-! ### What a segment does -/

/-- The bytes that are passed to the application. -/
def Input.data (r : Input) : List UInt8 := r.recvData.elim [] List.flatten

/-- No data have been received; at most a segment has gone out. -/
structure Quiet (pcb pcb' : Pcb) (sent : List Ack) : Prop where
  state : pcb'.state = pcb.state
  rcvNxt : pcb'.rcvNxt = pcb.rcvNxt
  rcvWnd : pcb'.rcvWnd = pcb.rcvWnd
  rcvAnnWnd : pcb'.rcvAnnWnd = pcb.rcvAnnWnd
  mss : pcb'.mss = pcb.mss
  edge : (sent = [] ∧ pcb'.rcvAnnRightEdge = pcb.rcvAnnRightEdge) ∨
    (sent = [(announce pcb).2] ∧ pcb'.rcvAnnRightEdge = (announce pcb).1.rcvAnnRightEdge)

section
variable {pcb : Pcb} {seg : Segment} {irs : U32} {x a : ℤ} {mem : Bool}

theorem quiet_refl (pcb : Pcb) : Quiet pcb pcb [] := ⟨rfl, rfl, rfl, rfl, rfl, Or.inl ⟨rfl, rfl⟩⟩

theorem quiet_tcpAckNow (pcb : Pcb) : Quiet pcb (tcpAckNow pcb) [] :=
  ⟨rfl, rfl, rfl, rfl, rfl, Or.inl ⟨rfl, rfl⟩⟩

theorem quiet_tcpSendEmptyAck {pcb' : Pcb} (h : pcb' = pcb ∨ pcb' = tcpAckNow pcb) (mem : Bool) :
    Quiet pcb (tcpSendEmptyAck mem pcb').1 (tcpSendEmptyAck mem pcb').2 := by
  unfold tcpSendEmptyAck
  rcases h with rfl | rfl <;> split_ifs
  · exact ⟨rfl, rfl, rfl, rfl, rfl, Or.inr ⟨rfl, rfl⟩⟩
  · exact quiet_refl _
  · exact ⟨rfl, rfl, rfl, rfl, rfl, Or.inr ⟨rfl, rfl⟩⟩
  · exact quiet_tcpAckNow pcb

/-- **The next segment in sequence**: as many of its bytes as the window has room for are passed to
the application, and the FIN if it is still within the window. -/
theorem inSequence_spec (pcb : Pcb) (inseg : TcpSeg) (hseq : inseg.seqno = pcb.rcvNxt)
    (hlen : inseg.len = totLen inseg.p) :
    ∃ n, n = (inseg.p.flatten.take pcb.rcvWnd).length +
        (if inseg.fin = true ∧ inseg.len < pcb.rcvWnd then 1 else 0) ∧ n ≤ pcb.rcvWnd ∧
      (inSequence pcb inseg).pcb = tcpAck (tcpUpdateRcvAnnWnd { pcb with
        rcvNxt := pcb.rcvNxt + BitVec.ofNat 32 n, rcvWnd := pcb.rcvWnd - n }).1 ∧
      (inSequence pcb inseg).data = inseg.p.flatten.take pcb.rcvWnd ∧
      ((inSequence pcb inseg).gotFin = true ↔ inseg.fin = true ∧ inseg.len < pcb.rcvWnd) ∧
      (inSequence pcb inseg).sent = [] := by
  have hdata : ∀ q : Chain, (if 0 < totLen q then some q else none).elim [] List.flatten =
      q.flatten := by
    intro q
    split_ifs with hpos
    · rfl
    · exact (List.length_eq_zero_iff.mp (Nat.eq_zero_of_not_pos hpos)).symm
  obtain ⟨seqno, len, fin, p⟩ := inseg
  simp only at hseq hlen
  subst hseq hlen
  unfold inSequence Input.data TcpSeg.tcplen
  dsimp only
  by_cases hover : pcb.rcvWnd < totLen p + if fin = true then 1 else 0
  · -- the end is trimmed
    have hle : pcb.rcvWnd ≤ totLen p := by
      split_ifs at hover <;> omega
    have hno : ¬ (fin = true ∧ totLen p < pcb.rcvWnd) := by omega
    have htake : (p.flatten.take pcb.rcvWnd).length = pcb.rcvWnd := by
      rw [List.length_take]
      exact Nat.min_eq_left hle
    rw [if_pos hover, if_neg hno, htake]
    refine ⟨_, rfl, by omega, rfl, ?_, ?_, rfl⟩
    · rw [hdata, flatten_pbufRealloc]
    · simp [hno]
  · rw [if_neg hover]
    have htake : p.flatten.take pcb.rcvWnd = p.flatten := by
      refine List.take_of_length_le ?_
      unfold totLen at hover
      omega
    have hfin : fin = true → totLen p < pcb.rcvWnd := by
      rintro rfl
      rw [if_pos rfl] at hover
      omega
    have hand : (fin = true ∧ totLen p < pcb.rcvWnd) ↔ fin = true := and_iff_left_of_imp hfin
    simp only [hand, htake]
    exact ⟨_, rfl, by unfold totLen at hover; omega, rfl, hdata p, trivial, trivial⟩

/-- A segment of the peer whose number is that of a position near `x`. -/
structure Near (irs : U32) (x a : ℤ) (seg : Segment) : Prop where
  seqno : seg.seqno = seq irs a
  lo : x - a ≤ 2 ^ 30
  hi : a - x ≤ 2 ^ 30
  len : totLen seg.p ≤ 65495
  syn : seg.syn = false

/-- How many positions the segment has. -/
def Segment.span (seg : Segment) : ℕ := totLen seg.p + if seg.fin then 1 else 0

theorem Near.tcplen (h : Near irs x a seg) : seg.tcplen = seg.span := by
  have hlen := h.len
  unfold Segment.tcplen Segment.span
  rw [h.syn, Bool.or_false]
  split_ifs <;> omega

theorem between_window (hx : pcb.rcvNxt = seq irs x) {y : ℤ} {wnd : ℕ} (hwnd : wnd < 65536)
    (hlo : x - y ≤ 2 ^ 30 + 65536) (hhi : y - x ≤ 2 ^ 30 + 65536) :
    between (seq irs y) pcb.rcvNxt (pcb.rcvNxt + BitVec.ofNat 32 wnd - 1) = true ↔
      x ≤ y ∧ y < x + wnd := by
  rw [hx, seq_add_nat, seq_sub_one, between_seq (by decide) (by omega) (by omega) (by omega)
    (by omega)]
  omega

theorem Segment.span_le (seg : Segment) : seg.span ≤ totLen seg.p + 1 := by
  unfold Segment.span
  split_ifs <;> omega

/-- When `tcp_receive` trims the first edge of a near segment. -/
theorem between_edge (hx : pcb.rcvNxt = seq irs x) (h : Near irs x a seg) :
    between pcb.rcvNxt (seg.seqno + 1) (seg.seqno + BitVec.ofNat 32 seg.span - 1) = true ↔
      a < x ∧ x < a + seg.span := by
  have hspan := seg.span_le
  obtain ⟨hseq, hlo, hhi, hlen, -⟩ := h
  have hone : seg.seqno + 1 = seq irs (a + 1) := by
    rw [hseq]
    exact seq_add_nat irs a 1
  rw [hone, hseq, hx, seq_add_nat, seq_sub_one, between_seq (by decide) (by omega) (by omega)
    (by omega) (by omega)]
  omega

theorem trimFirstEdge_part (hx : pcb.rcvNxt = seq irs x) (h : Near irs x a seg)
    (hc : a < x ∧ x < a + seg.span) :
    ∃ p, p.flatten = seg.p.flatten.drop (x - a).toNat ∧
      trimFirstEdge pcb seg seg.span = (pcb, ⟨pcb.rcvNxt, totLen p, seg.fin, p⟩) := by
  have hspan := seg.span_le
  have hedge := (between_edge hx h).mpr hc
  obtain ⟨hseq, hlo, hhi, hlen, -⟩ := h
  have hoff : (pcb.rcvNxt - seg.seqno).toNat = (x - a).toNat := by
    have := toNat_seq_sub (s := irs) (x := x) (y := a) (by omega) (by omega)
    rw [hx, hseq]
    omega
  have hfl := flatten_trimFront (p := seg.p) (n := (x - a).toNat) (by omega)
  unfold trimFirstEdge
  dsimp only
  rw [if_pos hedge, hoff]
  refine ⟨_, hfl, ?_⟩
  congr 2
  unfold totLen at *
  rw [hfl, List.length_drop]
  omega

theorem trimFirstEdge_whole (hx : pcb.rcvNxt = seq irs x) (h : Near irs x a seg)
    (hc : ¬ (a < x ∧ x < a + seg.span)) :
    trimFirstEdge pcb seg seg.span =
      (if a < x then tcpAckNow pcb else pcb, ⟨seg.seqno, totLen seg.p, seg.fin, seg.p⟩) := by
  have hedge : ¬ _ := fun hb => hc ((between_edge hx h).mp hb)
  obtain ⟨hseq, hlo, hhi, hlen, -⟩ := h
  have hlt : lt seg.seqno pcb.rcvNxt = true ↔ a < x := by
    rw [hseq, hx, lt_seq (by decide) (by omega) (by omega)]
  unfold trimFirstEdge
  dsimp only
  rw [if_neg hedge]
  simp only [hlt]
  split_ifs <;> rfl

/-- The segment holds the next position, and the window has room for it. -/
def HasNext (pcb : Pcb) (x a : ℤ) (seg : Segment) : Prop :=
  pcb.state ≠ .closeWait ∧ a ≤ x ∧ x < a + seg.span ∧ 0 < pcb.rcvWnd

/-- **A segment that holds the next position** is received from there on. -/
theorem tcpReceive_next (hx : pcb.rcvNxt = seq irs x) (h : Near irs x a seg)
    (hwnd : pcb.rcvWnd < 65536) (hn : HasNext pcb x a seg) (mem : Bool) :
    ∃ p, p.flatten = seg.p.flatten.drop (x - a).toNat ∧
      tcpReceive mem pcb seg = inSequence pcb ⟨pcb.rcvNxt, totLen p, seg.fin, p⟩ := by
  obtain ⟨hstate, hle, hlt, hroom⟩ := hn
  have hbetween : between pcb.rcvNxt pcb.rcvNxt
      (pcb.rcvNxt + BitVec.ofNat 32 pcb.rcvWnd - 1) = true := by
    have := (between_window hx (y := x) hwnd (by omega) (by omega)).mpr ⟨by omega, by omega⟩
    rwa [← hx] at this
  unfold tcpReceive
  rw [h.tcplen, if_pos ⟨by omega, hstate⟩]
  by_cases hpart : a < x
  · obtain ⟨p, hp, htrim⟩ := trimFirstEdge_part hx h ⟨hpart, hlt⟩
    refine ⟨p, hp, ?_⟩
    rw [htrim]
    exact if_pos ⟨hbetween, rfl⟩
  · obtain rfl : a = x := by omega
    have hseq : pcb.rcvNxt = seg.seqno := by rw [hx, h.seqno]
    refine ⟨seg.p, by simp, ?_⟩
    rw [trimFirstEdge_whole hx h (by omega), if_neg hpart, ← hseq]
    exact if_pos ⟨hbetween, rfl⟩

theorem inWindow_iff (hx : pcb.rcvNxt = seq irs x) (hwnd : pcb.rcvWnd < 65536) {y : ℤ}
    (hlo : x - y ≤ 2 ^ 30) (hhi : y - x ≤ 2 ^ 30) :
    (between (seq irs y) pcb.rcvNxt (pcb.rcvNxt + BitVec.ofNat 32 pcb.rcvWnd - 1) = true ∧
      pcb.rcvNxt = seq irs y) ↔ x = y ∧ 0 < pcb.rcvWnd := by
  rw [between_window hx hwnd (by omega) (by omega), hx, seq_inj (by decide) (by omega) (by omega)]
  omega

/-- **Any other segment** changes nothing, but may be answered. -/
theorem tcpReceive_other (hx : pcb.rcvNxt = seq irs x) (h : Near irs x a seg)
    (hwnd : pcb.rcvWnd < 65536) (hn : ¬ HasNext pcb x a seg) (mem : Bool) :
    (tcpReceive mem pcb seg).recvData = none ∧ (tcpReceive mem pcb seg).gotFin = false ∧
      Quiet pcb (tcpReceive mem pcb seg).pcb (tcpReceive mem pcb seg).sent := by
  unfold tcpReceive
  rw [h.tcplen]
  split_ifs with hdata hwindow
  · have hnext : ¬ (a ≤ x ∧ x < a + seg.span ∧ 0 < pcb.rcvWnd) := fun hc => hn ⟨hdata.2, hc⟩
    by_cases hpart : a < x ∧ x < a + seg.span
    · obtain ⟨p, -, htrim⟩ := trimFirstEdge_part hx h hpart
      have hclosed : ¬ _ := fun hc =>
        hnext ⟨by omega, hpart.2, ((inWindow_iff hx hwnd (y := x) (by omega) (by omega)).mp hc).2⟩
      rw [← hx] at hclosed
      rw [htrim]
      dsimp only
      rw [if_neg hclosed]
      exact ⟨rfl, rfl, quiet_tcpSendEmptyAck (Or.inl rfl) mem⟩
    · have hlo := h.lo
      have hhi := h.hi
      have hother : ¬ _ := fun hc =>
        hnext (by have := (inWindow_iff hx hwnd (y := a) (by omega) (by omega)).mp hc; omega)
      rw [← h.seqno] at hother
      rw [trimFirstEdge_whole hx h hpart]
      by_cases hlt : a < x
      · rw [if_pos hlt]
        dsimp only [tcpAckNow]
        rw [if_neg hother]
        exact ⟨rfl, rfl, quiet_tcpSendEmptyAck (Or.inr rfl) mem⟩
      · rw [if_neg hlt]
        dsimp only
        rw [if_neg hother]
        exact ⟨rfl, rfl, quiet_tcpSendEmptyAck (Or.inl rfl) mem⟩
  · exact ⟨rfl, rfl, quiet_refl pcb⟩
  · exact ⟨rfl, rfl, quiet_tcpAckNow pcb⟩

end

end Stm32TcpServer.Lwip.TcpIn
