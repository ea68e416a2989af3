import Mathlib.Algebra.GroupWithZero.Nat
import Mathlib.Data.List.Sort
import Stm32TcpServer.Lib.SeqNo
import Stm32TcpServer.Lwip.Pbuf

/-! # The data that a connection sends (tcp_out.c, tcp_in.c)

The queues of a connection in ESTABLISHED or CLOSE_WAIT: `tcp_write` puts data into segments on the
`unsent` queue, `tcp_output` sends them and moves them to the `unacked` queue, `tcp_receive` takes off
both queues what is acknowledged, `tcp_rexmit` and `tcp_rexmit_rto` put segments back. The
application always has `tcp_write` copy the data, and never closes a connection.

The flags of the IP layer and the options of incoming segments are not modelled, nor is the
measurement of the round trip: when the retransmission timer runs out is left open. -/

namespace Stm32TcpServer.Lwip.TcpOut

open Stm32TcpServer.Lib.SeqNo Stm32TcpServer.Lib.Window
open Stm32TcpServer.Lwip.Pbuf

/-- `TCP_MSS`. -/
abbrev tcpMss : ℕ := 1460
/-- `TCP_SND_BUF`. -/
abbrev tcpSndBuf : ℕ := 5840
/-- `TCP_SND_QUEUELEN`. -/
abbrev tcpSndQueuelen : ℕ := 8
/-- `TCP_OVERSIZE`. -/
abbrev tcpOversize : ℕ := 1460

/-- A number of 32 bits. -/
abbrev U32 := BitVec 32

/-- `struct tcp_seg`. -/
structure TcpSeg where
  seqno : U32
  len : ℕ
  /-- The pbufs, past the headers. -/
  p : Chain
  /-- How many bytes have been allocated behind the data of the last pbuf. -/
  left : ℕ
  /-- Which of all the bytes written is the first one of the segment; not in the memory. -/
  pos : ℕ
  deriving DecidableEq

/-- The fields of `struct tcp_pcb` that the data sent depend on. -/
structure Pcb where
  mss : ℕ
  sndNxt : U32
  lastack : U32
  sndLbb : U32
  sndWnd : ℕ
  sndWndMax : ℕ
  sndWl1 : U32
  sndWl2 : U32
  cwnd : ℕ
  ssthresh : ℕ
  sndBuf : ℕ
  sndQueuelen : ℕ
  unsentOversize : ℕ
  unsent : List TcpSeg
  unacked : List TcpSeg
  acked : ℕ
  dupacks : ℕ
  /-- `rtime >= 0`. -/
  rtime : Bool
  /-- `TF_INFR` in `flags`. -/
  infr : Bool
  /-- `TF_NAGLEMEMERR` in `flags`. -/
  nagleMemErr : Bool
  /-- All the bytes that `tcp_write` has accepted; not in the memory. -/
  written : List UInt8
  deriving DecidableEq

/-- A segment with data on the wire. -/
structure Wire where
  seqno : U32
  data : List UInt8
  /-- Which of all the bytes written is the first one; not on the wire. -/
  pos : ℕ
  deriving DecidableEq

/-! ### `tcp_write` -/

/-- How many usable bytes `tcp_pbuf_prealloc(layer, length, max_length, ..)` leaves behind the
data. -/
def tcpPbufPrealloc (pcb : Pcb) (length maxLength : ℕ) (firstSeg : Bool) : ℕ :=
  let alloc :=
    if length < maxLength ∧ (firstSeg = false ∨ pcb.unsent ≠ [] ∨ pcb.unacked ≠ []) then
      min maxLength ((length + tcpOversize + 3) / 4 * 4)
    else length
  alloc - length

/-- Don't allocate segments bigger than half the maximum window we ever received. -/
def Pcb.mssLocal (pcb : Pcb) : ℕ := min pcb.mss (pcb.sndWndMax / 2)

/-- Copies to the end of the last pbuf. -/
def appendLast : Chain → List UInt8 → Chain
  | [], _ => []
  | [q], d => [q ++ d]
  | q :: q' :: p, d => q :: appendLast (q' :: p) d

/-- What the first two phases of `tcp_write` do with the last unsent segment: `used` bytes go to the
end of its last pbuf, `seglen` bytes into a new pbuf with `oversize` more. -/
structure Extension where
  used : ℕ
  seglen : ℕ
  oversize : ℕ

/-- The first two phases, for `len` bytes. -/
def Pcb.extension (pcb : Pcb) (len : ℕ) : Extension :=
  match pcb.unsent.getLast? with
  | none => ⟨0, 0, 0⟩
  | some last =>
    let space := (pcb.mssLocal + 65536 - last.len) % 65536
    let used := min pcb.unsentOversize len
    let space := (space + 65536 - used) % 65536
    if used < len ∧ 0 < space ∧ 0 < last.len then
      let seglen := min space (len - used)
      ⟨used, seglen, tcpPbufPrealloc pcb seglen space true⟩
    else ⟨used, 0, pcb.unsentOversize - used⟩

/-- Phases 1 and 2 are committed. -/
def TcpSeg.extend (seg : TcpSeg) (arg : List UInt8) (x : Extension) : TcpSeg :=
  let seg := if 0 < x.used then
      { seg with
        p := appendLast seg.p (arg.take x.used)
        len := (seg.len + x.used) % 65536
        left := seg.left - x.used }
    else seg
  if 0 < x.seglen then
    { seg with
      p := seg.p ++ [window arg x.used x.seglen]
      len := (seg.len + x.seglen) % 65536
      left := x.oversize }
  else seg

/-- The `unsent` queue after that. -/
def Pcb.extended (pcb : Pcb) (arg : List UInt8) (x : Extension) : List TcpSeg :=
  match pcb.unsent.getLast? with
  | none => []
  | some last => pcb.unsent.dropLast ++ [last.extend arg x]

/-- Phase 3: the new segments for the bytes `arg` from `pos` on, and the oversize of the last one;
`none` if the queue gets too long, there being room for `room` pbufs. -/
def newSegments (pcb : Pcb) : ℕ → List UInt8 → ℕ → ℕ → Bool → Option (List TcpSeg × ℕ)
  | _, [], _, oversize, _ => some ([], oversize)
  | 0, _ :: _, _, _, _ => none
  | room + 1, b :: arg, pos, _, firstSeg =>
    let seglen := min (arg.length + 1) pcb.mssLocal
    let oversize := tcpPbufPrealloc pcb seglen pcb.mssLocal firstSeg
    let seg : TcpSeg :=
      { seqno := pcb.sndLbb + BitVec.ofNat 32 pos
        len := seglen
        p := [(b :: arg).take seglen]
        left := oversize
        pos := pcb.written.length + pos }
    (newSegments pcb room ((b :: arg).drop seglen) (pos + seglen) oversize false).map fun r =>
      (seg :: r.1, r.2)

/-- Out of memory, or too much data: nothing is changed but the flag. -/
def Pcb.memerr (pcb : Pcb) : Pcb × Err := ({ pcb with nagleMemErr := true }, .errMem)

/-- **`tcp_write(pcb, arg, len, TCP_WRITE_FLAG_COPY)`**; `mem`: every allocation succeeds. -/
def tcpWrite (mem : Bool) (pcb : Pcb) (arg : List UInt8) : Pcb × Err :=
  if arg ≠ [] ∧ (pcb.sndBuf < arg.length ∨ tcpSndQueuelen ≤ pcb.sndQueuelen) then pcb.memerr
  else
    let x := pcb.extension arg.length
    let queuelen := pcb.sndQueuelen + if 0 < x.seglen then 1 else 0
    let pos := x.used + x.seglen
    match newSegments pcb (tcpSndQueuelen - queuelen) (arg.drop pos) pos x.oversize true with
    | none => pcb.memerr
    | some (queue, oversize) =>
      if mem = false ∧ (0 < x.seglen ∨ queue ≠ []) then pcb.memerr
      else
        ({ pcb with
          unsent := pcb.extended arg x ++ queue
          unsentOversize := oversize
          sndLbb := pcb.sndLbb + BitVec.ofNat 32 arg.length
          sndBuf := pcb.sndBuf - arg.length
          sndQueuelen := queuelen + queue.length
          written := pcb.written ++ arg }, .errOk)

/-! ### `tcp_output` -/

/-- The window allows the segment to be sent. -/
def Pcb.fits (pcb : Pcb) (seg : TcpSeg) : Bool :=
  (seg.seqno - pcb.lastack + BitVec.ofNat 32 seg.len).toNat ≤ min pcb.sndWnd pcb.cwnd

/-- **`tcp_do_output_nagle(pcb)`**, `TF_NODELAY` being never set. -/
def tcpDoOutputNagle (pcb : Pcb) : Bool :=
  pcb.unacked.isEmpty || pcb.infr ||
    (match pcb.unsent with
      | [] => false
      | [seg] => decide (pcb.mss ≤ seg.len)
      | _ :: _ :: _ => true) ||
    (decide (pcb.sndBuf = 0) || decide (tcpSndQueuelen ≤ pcb.sndQueuelen))

/-- Puts a segment in front of the first one whose number is not smaller: the loops that keep the
queues sorted. -/
def insertSeg (seg : TcpSeg) (queue : List TcpSeg) : List TcpSeg :=
  queue.orderedInsert (fun seg cur => ¬ lt cur.seqno seg.seqno) seg

/-- Puts a segment that has been sent on the `unacked` queue: in the case of fast retransmit, it
should not go to the tail of the queue. -/
def insertUnacked (seg : TcpSeg) (unacked : List TcpSeg) : List TcpSeg :=
  match unacked.getLast? with
  | none => [seg]
  | some useg => if lt seg.seqno useg.seqno then insertSeg seg unacked else unacked ++ [seg]

/-- What `tcp_output` does with the segment `seg` that it sends, `rest` being behind it. -/
def Pcb.send (pcb : Pcb) (seg : TcpSeg) (rest : List TcpSeg) : Pcb :=
  let sndNxt := seg.seqno + BitVec.ofNat 32 seg.len
  { pcb with
    unsent := rest
    rtime := true
    sndNxt := if lt pcb.sndNxt sndNxt then sndNxt else pcb.sndNxt
    unacked := if 0 < seg.len then insertUnacked seg pcb.unacked else pcb.unacked }

/-- The loop of `tcp_output` over the unsent segments. -/
def outputLoop : List TcpSeg → Pcb → Pcb × List Wire
  | [], pcb => (pcb, [])
  | seg :: rest, pcb =>
    if pcb.fits seg ∧ (tcpDoOutputNagle pcb ∨ pcb.nagleMemErr) then
      let r := outputLoop rest (pcb.send seg rest)
      (r.1, ⟨seg.seqno, seg.p.flatten, seg.pos⟩ :: r.2)
    else (pcb, [])

/-- **`tcp_output(pcb)`**; `ackNow`: `TF_ACK_NOW` is set, so that without data to go out there is an
empty ACK instead. -/
def tcpOutput (ackNow : Bool) (pcb : Pcb) : Pcb × List Wire :=
  if ackNow ∧ (pcb.unsent.head?.all fun seg => !pcb.fits seg) then (pcb, [])
  else
    let r := outputLoop pcb.unsent pcb
    ({ r.1 with
      unsentOversize := if r.1.unsent = [] then 0 else r.1.unsentOversize
      nagleMemErr := false }, r.2)

/-- **`tcp_zero_window_probe(pcb)`**: one byte of the first segment. -/
def tcpZeroWindowProbe (pcb : Pcb) : List Wire :=
  match (pcb.unacked ++ pcb.unsent).head? with
  | none => []
  | some seg => [⟨seg.seqno, window seg.p.flatten (seg.p.flatten.length - seg.len) 1, seg.pos⟩]

/-! ### Retransmission -/

/-- **`tcp_rexmit(pcb)`**: the first unacked segment goes back. -/
def tcpRexmit (pcb : Pcb) : Pcb :=
  match pcb.unacked with
  | [] => pcb
  | seg :: unacked =>
    { pcb with
      unacked := unacked
      unsent := insertSeg seg pcb.unsent
      unsentOversize :=
        if pcb.unsent.all fun cur => lt cur.seqno seg.seqno then 0 else pcb.unsentOversize }

/-- **`tcp_rexmit_fast(pcb)`.** -/
def tcpRexmitFast (pcb : Pcb) : Pcb :=
  if pcb.unacked ≠ [] ∧ pcb.infr = false then
    let pcb := tcpRexmit pcb
    let ssthresh := if pcb.sndWnd < pcb.cwnd then pcb.sndWnd / 2 else pcb.cwnd / 2
    let ssthresh := if ssthresh < 2 * pcb.mss then 2 * pcb.mss else ssthresh
    { pcb with ssthresh := ssthresh, cwnd := (ssthresh + 3 * pcb.mss) % 65536, infr := true }
  else pcb

/-- **`tcp_rexmit_rto(pcb)`**, up to its `tcp_output`: all unacked segments go back. The timer has
set the windows. -/
def requeue (pcb : Pcb) : Pcb :=
  if pcb.unacked = [] then pcb
  else { pcb with unsent := pcb.unacked ++ pcb.unsent, unacked := [] }

/-- **`tcp_slowtmr`** when the retransmission timer has run out. -/
def tcpRexmitRto (ackNow : Bool) (pcb : Pcb) : Pcb × List Wire :=
  if pcb.unacked = [] then (pcb, [])
  else
    let effWnd := min pcb.cwnd pcb.sndWnd
    let pcb := { pcb with
      ssthresh := if effWnd / 2 < 2 * pcb.mss then 2 * pcb.mss else effWnd / 2, cwnd := pcb.mss }
    tcpOutput ackNow (requeue pcb)

/-! ### `tcp_receive` -/

/-- The fields of an incoming segment that concern the data sent. -/
structure Incoming where
  seqno : U32
  ackno : U32
  wnd : ℕ
  /-- `tcplen`: the segment is not empty. -/
  tcplen : ℕ
  deriving DecidableEq

/-- Update window. -/
def updateWindow (pcb : Pcb) (seg : Incoming) : Pcb :=
  if lt pcb.sndWl1 seg.seqno ∨ (pcb.sndWl1 = seg.seqno ∧ lt pcb.sndWl2 seg.ackno) ∨
      (pcb.sndWl2 = seg.ackno ∧ pcb.sndWnd < seg.wnd) then
    { pcb with
      sndWnd := seg.wnd
      sndWndMax := if pcb.sndWndMax < seg.wnd then seg.wnd else pcb.sndWndMax
      sndWl1 := seg.seqno
      sndWl2 := seg.ackno }
  else pcb

/-- `cwnd + mss`, unless that overflows. -/
def inflate (pcb : Pcb) : Pcb :=
  let cwnd := (pcb.cwnd + pcb.mss) % 65536
  if pcb.cwnd < cwnd then { pcb with cwnd := cwnd } else pcb

/-- The ACK acknowledges no new data. -/
def noNewData (pcb : Pcb) (seg : Incoming) (rightWndEdge : U32) : Pcb :=
  if seg.tcplen = 0 ∧ pcb.sndWl2 + BitVec.ofNat 32 pcb.sndWnd = rightWndEdge ∧ pcb.rtime = true ∧
      pcb.lastack = seg.ackno then
    let dupacks := if pcb.dupacks < 255 then pcb.dupacks + 1 else pcb.dupacks
    let pcb := { pcb with acked := 0, dupacks := dupacks }
    if 3 < dupacks then inflate pcb
    else if dupacks = 3 then tcpRexmitFast pcb
    else pcb
  else { pcb with acked := 0, dupacks := 0 }

/-- The congestion window after an ACK for new data. -/
def openCwnd (pcb : Pcb) : Pcb :=
  if pcb.cwnd < pcb.ssthresh then inflate pcb
  else
    let newCwnd := (pcb.cwnd + pcb.mss * pcb.mss / pcb.cwnd) % 65536
    if pcb.cwnd < newCwnd then { pcb with cwnd := newCwnd } else pcb

/-- How many pbufs the segments have. -/
def clen (segs : List TcpSeg) : ℕ := (segs.map fun seg => seg.p.length).sum

/-- The ACK acknowledges the segment, which is on the `unacked` queue. -/
def TcpSeg.ackedBy (seg : TcpSeg) (ackno : U32) : Bool :=
  leq (seg.seqno + BitVec.ofNat 32 seg.len) ackno

/-- The ACK acknowledges the segment, which is on the `unsent` queue. -/
def TcpSeg.ackedUpTo (seg : TcpSeg) (ackno sndNxt : U32) : Bool :=
  between ackno (seg.seqno + BitVec.ofNat 32 seg.len) sndNxt

/-- The ACK acknowledges new data: segments are removed from the unacknowledged list. -/
def newData (pcb : Pcb) (seg : Incoming) : Pcb :=
  let pcb := if pcb.infr then { pcb with infr := false, cwnd := pcb.ssthresh } else pcb
  let acked := (seg.ackno - pcb.lastack).toNat % 65536
  let pcb := openCwnd { pcb with
    acked := acked
    sndBuf := (pcb.sndBuf + acked) % 65536
    dupacks := 0
    lastack := seg.ackno }
  let unacked := pcb.unacked.dropWhile (·.ackedBy seg.ackno)
  { pcb with
    unacked := unacked
    sndQueuelen := pcb.sndQueuelen - clen (pcb.unacked.takeWhile (·.ackedBy seg.ackno))
    rtime := unacked ≠ [] }

/-- We go through the `unsent` list to see if any of the segments on the list are acknowledged by the
ACK. -/
def ackUnsent (pcb : Pcb) (seg : Incoming) : Pcb :=
  let unsent := pcb.unsent.dropWhile (·.ackedUpTo seg.ackno pcb.sndNxt)
  { pcb with
    unsent := unsent
    unsentOversize := if unsent = [] ∧ pcb.unsent ≠ [] then 0 else pcb.unsentOversize
    sndQueuelen :=
      pcb.sndQueuelen - clen (pcb.unsent.takeWhile (·.ackedUpTo seg.ackno pcb.sndNxt)) }

/-- **`tcp_receive(pcb)`**, for a segment with an acknowledgment. -/
def tcpReceive (pcb : Pcb) (seg : Incoming) : Pcb :=
  let rightWndEdge := BitVec.ofNat 32 pcb.sndWnd + pcb.sndWl2
  let pcb := updateWindow pcb seg
  let pcb :=
    if leq seg.ackno pcb.lastack then noNewData pcb seg rightWndEdge
    else if between seg.ackno (pcb.lastack + 1) pcb.sndNxt then newData pcb seg
    else { pcb with acked := 0 }
  ackUnsent pcb seg

end Stm32TcpServer.Lwip.TcpOut
