import Stm32TcpServer.Lib.Runs
import Stm32TcpServer.Lwip.TcpIn

/-! # What a connection receives (tcp_in.c, tcp.c)

A connection in ESTABLISHED, over any run: segments arrive in any order, any number of times or not
at all, cut at any places; the application takes the data or refuses them and calls `tcp_recved`
when it likes; segments go out. `tcp_input` passes on what `tcp_process` has received and keeps what
the application refuses, `tcp_fasttmr` passes that on again.

* `received_isPrefix`: what the application has taken is a prefix of the stream of the peer, and all
  of it when the end of the stream is reported. -/

namespace Stm32TcpServer.Lwip.TcpIn

open Stm32TcpServer.Lib.Runs Stm32TcpServer.Lib.SeqNo Stm32TcpServer.Lib.Window
open Stm32TcpServer.Lwip.Pbuf Stm32TcpServer.Lwip.TcpPcb

/-- **A connection**, with what the application has seen of it. -/
structure Conn where
  pcb : Pcb
  /-- `refused_data`, and `PBUF_FLAG_TCP_FIN` in its `flags`. -/
  refused : Option (Chain × Bool)
  /-- The bytes that the application has taken. -/
  got : List UInt8
  /-- The application has been told of the end of the stream. -/
  eof : Bool
  /-- The bytes that the application has called `tcp_recved` for. -/
  credited : ℕ
  /-- The segments that have gone out, the oldest one first. -/
  sent : List Ack
  /-- At the end of a call, `tcp_recved` had been called for more than had been taken. -/
  overdrawn : Bool

/-- What the application does, in a callback or on its own: it calls `tcp_recved`, or something
that makes a segment go out. -/
inductive Act
  | recved (len : ℕ)
  | output

/-- A call of the `recv` callback: what it does, and whether it returns `ERR_OK`. -/
structure Answer where
  acts : List Act
  ok : Bool

/-- A segment goes out in `tcp_output`. -/
def Conn.output (c : Conn) : Conn :=
  { c with
    pcb := { (announce c.pcb).1 with ackDelay := false, ackNow := false }
    sent := c.sent ++ [(announce c.pcb).2] }

def Conn.act (c : Conn) : Act → Conn
  | .recved len => { c with pcb := tcpRecved c.pcb len, credited := c.credited + len }
  | .output => c.output

/-- The end of a call of the application. -/
def Conn.settle (c : Conn) : Conn :=
  { c with overdrawn := c.overdrawn || decide (c.got.length < c.credited) }

/-- Data that the application does not take are kept. -/
def Conn.store (c : Conn) (p : Chain) (fin ok : Bool) : Conn :=
  if ok then { c with got := c.got ++ p.flatten } else { c with refused := some (p, fin) }

/-- `TCP_EVENT_RECV`, and what becomes of the data. -/
def Conn.recv (c : Conn) (p : Chain) (fin : Bool) (a : Answer) : Conn :=
  ((a.acts.foldl Conn.act c).store p fin a.ok).settle

/-- `TCP_EVENT_CLOSED`: `rcv_wnd` is corrected as the application won't call `tcp_recved` for the
FIN. -/
def Conn.closed (c : Conn) (acts : List Act) : Conn :=
  (acts.foldl Conn.act { c with
    pcb := { c.pcb with rcvWnd := if c.pcb.rcvWnd ≠ tcpWnd then c.pcb.rcvWnd + 1 else c.pcb.rcvWnd }
    eof := true }).settle

/-- **`tcp_process_refused_data(pcb)`.** -/
def tcpProcessRefusedData (c : Conn) (a : Answer) (closing : List Act) : Conn :=
  match c.refused with
  | none => c
  | some (p, fin) =>
    let c := Conn.recv { c with refused := none } p fin a
    if a.ok ∧ fin = true then c.closed closing else c

/-- The end of `tcp_input`: the data and the FIN are passed on. -/
def Conn.pass (c : Conn) (r : Input) (a : Answer) (closing : List Act) : Conn :=
  let c := { c with pcb := r.pcb, sent := c.sent ++ r.sent }
  let c := r.recvData.elim c fun p => c.recv p false a
  if r.gotFin then
    match c.refused with
    | some (p, _) => { c with refused := some (p, true) }
    | none => c.closed closing
  else c

/-- **`tcp_input`**, for a segment of the connection; `none` if the connection is reset. -/
def tcpInput (mem : Bool) (c : Conn) (seg : Segment) (again a : Answer) (closing : List Act) :
    Option Conn :=
  let c := tcpProcessRefusedData c again closing
  if c.refused.isSome = true ∧ 0 < seg.tcplen then some c
  else (tcpProcess mem c.pcb seg).map fun r => c.pass r a closing

/-- **`tcp_fasttmr`**, for the connection; `out`: `tcp_output` sends a segment. -/
def tcpFasttmr (out : Bool) (c : Conn) (again : Answer) (closing : List Act) : Conn :=
  let c := if c.pcb.ackDelay then
      let c := if out then c.output else c
      { c with pcb := { c.pcb with ackDelay := false, ackNow := false } }
    else c
  tcpProcessRefusedData c again closing

/-- What happens to a connection. The callbacks answer `again` when they get data that they have
refused before, `a` when they get the data of the segment, and do `closing` at the end of the
stream. -/
inductive Event
  | segment (seg : Segment) (mem : Bool) (again a : Answer) (closing : List Act)
  | fasttmr (out : Bool) (again : Answer) (closing : List Act)
  | act (a : Act)

/-- **One step.** -/
def step (c : Conn) : Event → Option Conn
  | .segment seg mem again a closing => tcpInput mem c seg again a closing
  | .fasttmr out again closing => some (tcpFasttmr out c again closing)
  | .act a => some (c.act a).settle

/-- The state after the handshake: the SYN-ACK has announced all of the window. -/
def Conn.init (irs : U32) (mss : ℕ) : Conn where
  pcb := ⟨.established, seq irs 1, tcpWnd, tcpWnd, seq irs (1 + tcpWnd), mss, false, false⟩
  refused := none
  got := []
  eof := false
  credited := 0
  sent := [⟨seq irs 1, tcpWnd⟩]
  overdrawn := false

/-! ### The stream -/

/-- The bytes that have been received: taken by the application, or refused by it so far. -/
def Conn.received (c : Conn) : List UInt8 := c.got ++ c.refused.elim [] fun r => r.1.flatten

/-- The FIN of the peer has been received. -/
def Pcb.ended (pcb : Pcb) : Bool := pcb.state = .closeWait

/-- How many positions of the stream have been received, the SYN among them, when `bytes` have. -/
def Pcb.next (pcb : Pcb) (bytes : List UInt8) : ℕ := 1 + bytes.length + if pcb.ended then 1 else 0

/-- **The segment is cut from the stream**: its number is that of the position of its first byte, it
has the bytes of the stream from there on, and a FIN only behind the last one. It is not from
another round of the sequence numbers: the position is near `x`. -/
structure Cut (irs : U32) (stream : List UInt8) (x : ℕ) (seg : Segment) : Prop where
  len : totLen seg.p ≤ 65495
  place : ∃ a : ℕ, seg.seqno = seq irs (1 + a) ∧ a + totLen seg.p ≤ stream.length ∧
    seg.p.flatten = window stream a (totLen seg.p) ∧
    (seg.fin = true → a + totLen seg.p = stream.length) ∧ x ≤ 1 + a + 2 ^ 30 ∧ 1 + a ≤ x + 2 ^ 30

/-- A segment that is not empty and no SYN or RST is cut from the stream. -/
def Genuine (irs : U32) (stream : List UInt8) (c : Conn) : Event → Prop
  | .segment seg _ _ _ _ => seg.rst = false → seg.syn = false → 0 < seg.tcplen →
      Cut irs stream (c.pcb.next c.received) seg
  | _ => True

/-- The segments are genuine, and the edge that has been announced last is not a billion bytes
behind. -/
structure Orderly (irs : U32) (stream : List UInt8) (c : Conn) (e : Event) : Prop where
  genuine : Genuine irs stream c e
  near : (c.pcb.rcvNxt - c.pcb.rcvAnnRightEdge).toInt ≤ 2 ^ 30

section
variable {irs : U32} {stream bytes : List UInt8} {pcb : Pcb} {seg : Segment} {mem : Bool}
  {c c' : Conn} {r : Input}

@[simp] theorem tcpUpdateRcvAnnWnd_rcvNxt (pcb : Pcb) :
    (tcpUpdateRcvAnnWnd pcb).1.rcvNxt = pcb.rcvNxt := by
  unfold tcpUpdateRcvAnnWnd
  dsimp only
  split_ifs <;> rfl

@[simp] theorem tcpUpdateRcvAnnWnd_rcvWnd (pcb : Pcb) :
    (tcpUpdateRcvAnnWnd pcb).1.rcvWnd = pcb.rcvWnd := by
  unfold tcpUpdateRcvAnnWnd
  dsimp only
  split_ifs <;> rfl

@[simp] theorem tcpUpdateRcvAnnWnd_state (pcb : Pcb) :
    (tcpUpdateRcvAnnWnd pcb).1.state = pcb.state := by
  unfold tcpUpdateRcvAnnWnd
  dsimp only
  split_ifs <;> rfl

@[simp] theorem tcpUpdateRcvAnnWnd_edge (pcb : Pcb) :
    (tcpUpdateRcvAnnWnd pcb).1.rcvAnnRightEdge = pcb.rcvAnnRightEdge := by
  unfold tcpUpdateRcvAnnWnd
  dsimp only
  split_ifs <;> rfl

/-- The window of the connection is the same. -/
structure SameWindow (pcb pcb' : Pcb) : Prop where
  rcvNxt : pcb'.rcvNxt = pcb.rcvNxt
  rcvWnd : pcb'.rcvWnd = pcb.rcvWnd
  rcvAnnWnd : pcb'.rcvAnnWnd = pcb.rcvAnnWnd
  edge : pcb'.rcvAnnRightEdge = pcb.rcvAnnRightEdge

theorem sameWindow_tcpAck (pcb : Pcb) : SameWindow pcb (tcpAck pcb) := by
  unfold tcpAck
  split_ifs <;> exact ⟨rfl, rfl, rfl, rfl⟩

@[simp] theorem tcpAck_state (pcb : Pcb) : (tcpAck pcb).state = pcb.state := by
  unfold tcpAck
  split_ifs <;> rfl

/-- **The connection has received `bytes`** of the stream, and the FIN if it has `ended`. -/
structure Pcb.At (irs : U32) (stream : List UInt8) (pcb : Pcb) (bytes : List UInt8) : Prop where
  isPrefix : bytes <+: stream
  whole : pcb.ended = true → bytes = stream
  rcvNxt : pcb.rcvNxt = seq irs (pcb.next bytes)
  wnd : pcb.rcvWnd ≤ tcpWnd

theorem Pcb.At.of_eq {pcb' : Pcb} (h : pcb.At irs stream bytes) (hstate : pcb'.state = pcb.state)
    (hnxt : pcb'.rcvNxt = pcb.rcvNxt) (hwnd : pcb'.rcvWnd ≤ tcpWnd) :
    pcb'.At irs stream bytes := by
  have hended : pcb'.ended = pcb.ended := by
    unfold Pcb.ended
    rw [hstate]
  refine ⟨h.isPrefix, ?_, ?_, hwnd⟩
  · rw [hended]
    exact h.whole
  · unfold Pcb.next
    rw [hnxt, hended]
    exact h.rcvNxt

theorem append_drop_window (h : bytes <+: stream) {a len : ℕ} (hle : a ≤ bytes.length) (k : ℕ) :
    bytes ++ ((window stream a len).drop (bytes.length - a)).take k =
      stream.take (bytes.length + min k (len - (bytes.length - a))) := by
  rw [window, List.drop_take, List.drop_drop, List.take_take, Nat.add_sub_cancel' hle,
    List.take_add]
  congr 1
  exact List.prefix_iff_eq_take.mp h

/-- The pcb behind the data, with the FIN if there is one. -/
def afterData (pcb : Pcb) (n : ℕ) (gotFin : Bool) : Pcb :=
  let pcb := tcpAck (tcpUpdateRcvAnnWnd { pcb with
    rcvNxt := pcb.rcvNxt + BitVec.ofNat 32 n, rcvWnd := pcb.rcvWnd - n }).1
  if gotFin then { tcpAckNow pcb with state := .closeWait } else pcb

/-- **What the data of a segment add.** -/
structure Gain (stream : List UInt8) (pcb : Pcb) (bytes : List UInt8) (r : Input) (n : ℕ) : Prop where
  running : pcb.ended = false
  isPrefix : bytes ++ r.data <+: stream
  whole : r.gotFin = true → bytes ++ r.data = stream
  count : n = r.data.length + if r.gotFin then 1 else 0
  room : n ≤ pcb.rcvWnd
  pcb_eq : r.pcb = afterData pcb n r.gotFin
  sent : r.sent = []

/-- `tcp_receive`, for a segment that holds the next position. -/
theorem tcpReceive_gain (mem : Bool) (h : pcb.At irs stream bytes) {a : ℕ}
    (hnear : Near irs (pcb.next bytes) (1 + a) seg) (hin : a + totLen seg.p ≤ stream.length)
    (hbytes : seg.p.flatten = window stream a (totLen seg.p))
    (hfin : seg.fin = true → a + totLen seg.p = stream.length)
    (hn : HasNext pcb (pcb.next bytes) (1 + a) seg) :
    ∃ n, n = (tcpReceive mem pcb seg).data.length +
        (if (tcpReceive mem pcb seg).gotFin then 1 else 0) ∧ n ≤ pcb.rcvWnd ∧
      bytes ++ (tcpReceive mem pcb seg).data <+: stream ∧
      ((tcpReceive mem pcb seg).gotFin = true → bytes ++ (tcpReceive mem pcb seg).data = stream) ∧
      (tcpReceive mem pcb seg).pcb = afterData pcb n false ∧ (tcpReceive mem pcb seg).sent = [] := by
  have hwnd := h.wnd
  unfold tcpWnd at hwnd
  obtain ⟨p, hp, heq⟩ := tcpReceive_next h.rcvNxt hnear (by omega) hn mem
  obtain ⟨hopen, hle, hlt, hroom⟩ := hn
  have hended : pcb.ended = false := decide_eq_false hopen
  have hnext : pcb.next bytes = 1 + bytes.length := by
    unfold Pcb.next
    rw [hended]
    rfl
  rw [hnext] at hle hlt
  have hoff : (((pcb.next bytes : ℕ) : ℤ) - (1 + a)).toNat = bytes.length - a := by omega
  rw [hoff, hbytes] at hp
  rw [heq]
  obtain ⟨n, hn, hnle, hpcb, hdata, hgot, hsent⟩ :=
    inSequence_spec pcb ⟨pcb.rcvNxt, totLen p, seg.fin, p⟩ rfl rfl
  dsimp only at hn hdata hgot
  have hspan := seg.span_le
  have hlen : totLen p = totLen seg.p - (bytes.length - a) := by
    unfold totLen at *
    rw [hp, List.length_drop, length_window hin]
  have htake : bytes ++ p.flatten.take pcb.rcvWnd =
      stream.take (bytes.length + min pcb.rcvWnd (totLen p)) := by
    rw [hp, hlen, append_drop_window h.isPrefix (by omega)]
  refine ⟨n, ?_, hnle, ?_, ?_, ?_, hsent⟩
  · rw [hn, hdata]
    congr 1
    by_cases hf : seg.fin = true ∧ totLen p < pcb.rcvWnd
    · rw [if_pos hf, if_pos (hgot.mpr hf)]
    · rw [if_neg hf, if_neg fun hc => hf (hgot.mp hc)]
  · rw [hdata, htake]
    exact List.take_prefix _ _
  · intro hg
    obtain ⟨hf, hlt'⟩ := hgot.mp hg
    have hend := hfin hf
    rw [hdata, htake]
    refine List.take_of_length_le ?_
    omega
  · rw [hpcb]
    rfl

/-- Nothing has been received. -/
structure Nothing (pcb : Pcb) (r : Input) : Prop where
  recvData : r.recvData = none
  gotFin : r.gotFin = false
  quiet : Quiet pcb r.pcb r.sent

theorem tcpReceive_empty (pcb : Pcb) (hlen : seg.tcplen = 0) :
    Nothing pcb (tcpReceive mem pcb seg) := by
  unfold tcpReceive
  rw [if_neg (by omega)]
  split_ifs
  · exact ⟨rfl, rfl, quiet_refl pcb⟩
  · exact ⟨rfl, rfl, quiet_tcpAckNow pcb⟩

/-- **What `tcp_process` does** with a segment that is cut from the stream. -/
theorem tcpProcess_cases (h : pcb.At irs stream bytes)
    (hcut : seg.rst = false → seg.syn = false → 0 < seg.tcplen →
      Cut irs stream (pcb.next bytes) seg) (hr : tcpProcess mem pcb seg = some r) :
    Nothing pcb r ∨ (0 < seg.tcplen ∧ ∃ n, Gain stream pcb bytes r n) := by
  unfold tcpProcess at hr
  split_ifs at hr with hrst hin hsyn
  · obtain rfl := Option.some.inj hr
    exact Or.inl ⟨rfl, rfl, quiet_refl pcb⟩
  · obtain rfl := Option.some.inj hr
    exact Or.inl ⟨rfl, rfl, quiet_tcpAckNow pcb⟩
  rw [Bool.not_eq_true] at hrst hsyn
  dsimp only at hr
  by_cases hlen : 0 < seg.tcplen
  · obtain ⟨hlen', a, hseq, hle, hbytes, hfin, hlo, hhi⟩ := hcut hrst hsyn hlen
    have hnear : Near irs (pcb.next bytes) (1 + a) seg :=
      ⟨hseq, by omega, by omega, hlen', hsyn⟩
    by_cases hn : HasNext pcb (pcb.next bytes) (1 + a) seg
    · obtain ⟨n, hn', hroom, hpre, hwhole, hpcb, hsent⟩ :=
        tcpReceive_gain mem h hnear hle hbytes hfin hn
      have hended : pcb.ended = false := decide_eq_false hn.1
      refine Or.inr ⟨hlen, n, ?_⟩
      by_cases hg : (tcpReceive mem pcb seg).gotFin = true
      · rw [if_pos hg] at hr
        obtain rfl := Option.some.inj hr
        refine ⟨hended, hpre, hwhole, hn', hroom, ?_, hsent⟩
        dsimp only
        rw [hpcb, hg]
        rfl
      · rw [if_neg hg] at hr
        obtain rfl := Option.some.inj hr
        refine ⟨hended, hpre, hwhole, hn', hroom, ?_, hsent⟩
        rw [hpcb, Bool.eq_false_of_not_eq_true hg]
    · have hwnd := h.wnd
      unfold tcpWnd at hwnd
      obtain ⟨hdata, hgot, hquiet⟩ := tcpReceive_other h.rcvNxt hnear (by omega) hn mem
      rw [hgot] at hr
      obtain rfl := Option.some.inj hr
      exact Or.inl ⟨hdata, hgot, hquiet⟩
  · have hnone : Nothing pcb (tcpReceive mem pcb seg) := tcpReceive_empty pcb (by omega)
    rw [hnone.gotFin] at hr
    obtain rfl := Option.some.inj hr
    exact Or.inl hnone

theorem afterData_rcvNxt (pcb : Pcb) (n : ℕ) (f : Bool) :
    (afterData pcb n f).rcvNxt = pcb.rcvNxt + BitVec.ofNat 32 n := by
  unfold afterData
  split_ifs <;> simp [tcpAckNow, (sameWindow_tcpAck _).rcvNxt]

theorem afterData_rcvWnd (pcb : Pcb) (n : ℕ) (f : Bool) :
    (afterData pcb n f).rcvWnd = pcb.rcvWnd - n := by
  unfold afterData
  split_ifs <;> simp [tcpAckNow, (sameWindow_tcpAck _).rcvWnd]

theorem afterData_ended (pcb : Pcb) (n : ℕ) (f : Bool) :
    (afterData pcb n f).ended = (f || pcb.ended) := by
  unfold afterData Pcb.ended
  cases f <;> simp [tcpAckNow]

theorem Gain.reached {n : ℕ} (hg : Gain stream pcb bytes r n) (h : pcb.At irs stream bytes) :
    r.pcb.At irs stream (bytes ++ r.data) ∧ r.pcb.ended = r.gotFin := by
  have hended : r.pcb.ended = r.gotFin := by
    rw [hg.pcb_eq, afterData_ended, hg.running, Bool.or_false]
  have hwnd := h.wnd
  refine ⟨⟨hg.isPrefix, ?_, ?_, ?_⟩, hended⟩
  · rw [hended]
    exact hg.whole
  · have hcount := hg.count
    unfold Pcb.next
    rw [hended, hg.pcb_eq, afterData_rcvNxt, h.rcvNxt, seq_add_nat]
    congr 1
    unfold Pcb.next
    rw [hg.running, hcount, List.length_append]
    push_cast
    omega
  · rw [hg.pcb_eq, afterData_rcvWnd]
    omega

/-! ### The application -/

/-- What a call of the application leaves alone. -/
structure Acted (c c' : Conn) : Prop where
  got : c'.got = c.got
  refused : c'.refused = c.refused
  eof : c'.eof = c.eof
  state : c'.pcb.state = c.pcb.state
  rcvNxt : c'.pcb.rcvNxt = c.pcb.rcvNxt
  wnd : c.pcb.rcvWnd ≤ tcpWnd → c'.pcb.rcvWnd ≤ tcpWnd

theorem tcpRecved_keep (pcb : Pcb) (len : ℕ) :
    (tcpRecved pcb len).state = pcb.state ∧ (tcpRecved pcb len).rcvNxt = pcb.rcvNxt ∧
      (tcpRecved pcb len).rcvWnd = min ((pcb.rcvWnd + len) % 65536) tcpWnd := by
  unfold tcpRecved
  dsimp only
  split_ifs <;> simp [tcpAckNow]

theorem acted_act (c : Conn) (a : Act) : Acted c (c.act a) := by
  cases a with
  | recved len =>
    obtain ⟨hstate, hnxt, hwnd⟩ := tcpRecved_keep c.pcb len
    refine ⟨rfl, rfl, rfl, hstate, hnxt, fun _ => ?_⟩
    exact hwnd.trans_le (min_le_right _ _)
  | output => exact ⟨rfl, rfl, rfl, rfl, rfl, id⟩

theorem acted_foldl (c : Conn) (acts : List Act) : Acted c (acts.foldl Conn.act c) := by
  induction acts generalizing c with
  | nil => exact ⟨rfl, rfl, rfl, rfl, rfl, id⟩
  | cons a acts ih =>
    have h := acted_act c a
    have h' := ih (c.act a)
    exact ⟨h'.got.trans h.got, h'.refused.trans h.refused, h'.eof.trans h.eof,
      h'.state.trans h.state, h'.rcvNxt.trans h.rcvNxt, h'.wnd ∘ h.wnd⟩

/-- What a call of the `recv` callback, for the data `p`, leaves behind. -/
structure Offered (c c' : Conn) (p : Chain) (fin ok : Bool) : Prop where
  received : c'.received = c.got ++ p.flatten
  refused : c'.refused = if ok then none else some (p, fin)
  eof : c'.eof = c.eof
  state : c'.pcb.state = c.pcb.state
  rcvNxt : c'.pcb.rcvNxt = c.pcb.rcvNxt
  wnd : c.pcb.rcvWnd ≤ tcpWnd → c'.pcb.rcvWnd ≤ tcpWnd

theorem offered_recv (hnone : c.refused = none) (p : Chain) (fin : Bool) (a : Answer) :
    Offered c (c.recv p fin a) p fin a.ok := by
  have h := acted_foldl c a.acts
  unfold Conn.recv Conn.store
  cases a.ok with
  | true =>
    refine ⟨?_, h.refused.trans hnone, h.eof, h.state, h.rcvNxt, h.wnd⟩
    simp [Conn.received, Conn.settle, h.refused, hnone, h.got]
  | false =>
    refine ⟨?_, rfl, h.eof, h.state, h.rcvNxt, h.wnd⟩
    simp [Conn.received, Conn.settle, h.got]

theorem closed_spec (c : Conn) (acts : List Act) :
    (c.closed acts).got = c.got ∧ (c.closed acts).refused = c.refused ∧
      (c.closed acts).eof = true ∧ (c.closed acts).pcb.state = c.pcb.state ∧
      (c.closed acts).pcb.rcvNxt = c.pcb.rcvNxt ∧
      (c.pcb.rcvWnd ≤ tcpWnd → (c.closed acts).pcb.rcvWnd ≤ tcpWnd) := by
  unfold Conn.closed
  generalize hc : ({ c with
    pcb := { c.pcb with rcvWnd := if c.pcb.rcvWnd ≠ tcpWnd then c.pcb.rcvWnd + 1 else c.pcb.rcvWnd }
    eof := true } : Conn) = c₁
  have h := acted_foldl c₁ acts
  subst hc
  refine ⟨h.got, h.refused, h.eof, h.state, h.rcvNxt, fun hle => h.wnd ?_⟩
  dsimp only
  split_ifs <;> omega

/-- **What the application has seen is the beginning of the stream.** -/
structure Taken (irs : U32) (stream : List UInt8) (c : Conn) : Prop where
  reached : c.pcb.At irs stream c.received
  flag : ∀ p fin, c.refused = some (p, fin) → fin = c.pcb.ended
  eof : c.eof = (c.pcb.ended && c.refused.isNone)

theorem taken_init (irs : U32) (stream : List UInt8) (mss : ℕ) :
    Taken irs stream (Conn.init irs mss) := by
  refine ⟨⟨List.nil_prefix, fun h => ?_, rfl, le_rfl⟩, fun _ _ h => ?_, rfl⟩
  · simp [Pcb.ended, Conn.init] at h
  · simp [Conn.init] at h

theorem Taken.of_acted (h : Taken irs stream c) (ha : Acted c c') : Taken irs stream c' := by
  have hrec : c'.received = c.received := by
    unfold Conn.received
    rw [ha.got, ha.refused]
  have hended : c'.pcb.ended = c.pcb.ended := by
    unfold Pcb.ended
    rw [ha.state]
  refine ⟨?_, ?_, ?_⟩
  · rw [hrec]
    exact h.reached.of_eq ha.state ha.rcvNxt (ha.wnd h.reached.wnd)
  · rw [ha.refused, hended]
    exact h.flag
  · rw [ha.eof, ha.refused, hended]
    exact h.eof

/-- The end of the stream is reported when all has been taken. -/
theorem closed_taken (hat : c.pcb.At irs stream c.received) (hended : c.pcb.ended = true)
    (hnone : c.refused = none) (acts : List Act) : Taken irs stream (c.closed acts) := by
  obtain ⟨hgot, href, heof, hstate, hnxt, hwnd⟩ := closed_spec c acts
  have hrec : (c.closed acts).received = c.received := by
    unfold Conn.received
    rw [hgot, href]
  have hended' : (c.closed acts).pcb.ended = true := by
    rw [← hended]
    unfold Pcb.ended
    rw [hstate]
  refine ⟨?_, ?_, ?_⟩
  · rw [hrec]
    exact hat.of_eq hstate hnxt (hwnd hat.wnd)
  · intro p fin hs
    rw [href, hnone] at hs
    cases hs
  · rw [heof, hended', href, hnone]
    rfl

/-- **`tcp_process_refused_data`** moves what has been refused, at most. -/
theorem tcpProcessRefusedData_taken (h : Taken irs stream c) (a : Answer) (closing : List Act) :
    Taken irs stream (tcpProcessRefusedData c a closing) ∧
      (tcpProcessRefusedData c a closing).received = c.received ∧
      (tcpProcessRefusedData c a closing).pcb.state = c.pcb.state := by
  unfold tcpProcessRefusedData
  cases hr : c.refused with
  | none => exact ⟨h, rfl, rfl⟩
  | some d =>
    obtain ⟨p, fin⟩ := d
    dsimp only
    have hfin := h.flag p fin hr
    have ho := offered_recv (c := { c with refused := none }) rfl p fin a
    generalize hc : Conn.recv { c with refused := none } p fin a = c₁ at ho ⊢
    have hrec : c₁.received = c.received := by
      rw [ho.received]
      simp [Conn.received, hr]
    have hended : c₁.pcb.ended = c.pcb.ended := by
      unfold Pcb.ended
      rw [ho.state]
    have hat : c₁.pcb.At irs stream c₁.received := by
      rw [hrec]
      exact h.reached.of_eq ho.state ho.rcvNxt (ho.wnd h.reached.wnd)
    by_cases hclose : a.ok = true ∧ fin = true
    · rw [if_pos hclose]
      have href : c₁.refused = none := by rw [ho.refused, hclose.1]; rfl
      obtain ⟨hgot, href', -, hstate, -, -⟩ := closed_spec c₁ closing
      refine ⟨closed_taken hat (by rw [hended, ← hfin, hclose.2]) href closing, ?_, ?_⟩
      · rw [← hrec]
        unfold Conn.received
        rw [hgot, href']
      · rw [hstate]
        exact ho.state
    · rw [if_neg hclose]
      refine ⟨⟨hat, ?_, ?_⟩, hrec, ho.state⟩
      · intro q f hs
        rw [ho.refused] at hs
        split_ifs at hs
        obtain ⟨-, rfl⟩ := Prod.mk.inj (Option.some.inj hs)
        rw [hended]
        exact hfin
      · have heof := h.eof
        rw [hr, Option.isNone_some, Bool.and_false] at heof
        rw [ho.eof, hended, ho.refused, ← hfin]
        cases hok : a.ok <;> cases hf : fin <;> simp_all

theorem pass_nothing (h : Taken irs stream c) (hn : Nothing c.pcb r) (a : Answer)
    (closing : List Act) : Taken irs stream (c.pass r a closing) := by
  unfold Conn.pass
  rw [hn.recvData, hn.gotFin]
  refine h.of_acted ⟨rfl, rfl, rfl, hn.quiet.state, hn.quiet.rcvNxt, fun hle => ?_⟩
  exact hn.quiet.rcvWnd.trans_le hle

/-- The connection when the data have been passed on, and the FIN not yet. -/
def Conn.passData (c : Conn) (r : Input) (a : Answer) : Conn :=
  r.recvData.elim { c with pcb := r.pcb, sent := c.sent ++ r.sent } fun p =>
    Conn.recv { c with pcb := r.pcb, sent := c.sent ++ r.sent } p false a

/-- The FIN is kept with the data that have been refused, or reported. -/
def Conn.passFin (c : Conn) (closing : List Act) : Conn :=
  match c.refused with
  | some (p, _) => { c with refused := some (p, true) }
  | none => c.closed closing

theorem pass_eq (c : Conn) (r : Input) (a : Answer) (closing : List Act) : c.pass r a closing =
    if r.gotFin then (c.passData r a).passFin closing else c.passData r a := rfl

/-- What the data of a segment leave behind. -/
structure Passed (c : Conn) (r : Input) (c' : Conn) : Prop where
  received : c'.received = c.got ++ r.data
  flag : ∀ p f, c'.refused = some (p, f) → f = false
  eof : c'.eof = c.eof
  state : c'.pcb.state = r.pcb.state
  rcvNxt : c'.pcb.rcvNxt = r.pcb.rcvNxt
  wnd : r.pcb.rcvWnd ≤ tcpWnd → c'.pcb.rcvWnd ≤ tcpWnd

theorem passed_passData (hnone : c.refused = none) (r : Input) (a : Answer) :
    Passed c r (c.passData r a) := by
  unfold Conn.passData
  cases hd : r.recvData with
  | none =>
    refine ⟨?_, fun p f hs => ?_, rfl, rfl, rfl, id⟩
    · simp [Conn.received, hnone, Input.data, hd]
    · rw [show _ = c.refused from rfl, hnone] at hs
      cases hs
  | some p =>
    have ho := offered_recv (c := { c with pcb := r.pcb, sent := c.sent ++ r.sent }) hnone p false a
    refine ⟨?_, fun q f hs => ?_, ho.eof, ho.state, ho.rcvNxt, ho.wnd⟩
    · rw [Option.elim_some, ho.received, Input.data, hd]
      rfl
    · rw [Option.elim_some, ho.refused] at hs
      split_ifs at hs
      exact (Prod.mk.inj (Option.some.inj hs)).2.symm

theorem Passed.ended (h : Passed c r c') : c'.pcb.ended = r.pcb.ended := by
  unfold Pcb.ended
  rw [h.state]

/-- The FIN behind the last data. -/
theorem passFin_taken (hat : c.pcb.At irs stream c.received) (hended : c.pcb.ended = true)
    (heof : c.eof = false) (closing : List Act) : Taken irs stream (c.passFin closing) := by
  unfold Conn.passFin
  cases hs : c.refused with
  | none => exact closed_taken hat hended hs closing
  | some d =>
    have hsame : ({ c with refused := some (d.1, true) } : Conn).received = c.received := by
      simp [Conn.received, hs]
    refine ⟨?_, fun p f hs' => ?_, ?_⟩
    · rw [hsame]
      exact hat
    · rw [hended]
      exact (Prod.mk.inj (Option.some.inj hs')).2.symm
    · simp [heof]

theorem pass_gain (h : Taken irs stream c) (hnone : c.refused = none) {n : ℕ}
    (hg : Gain stream c.pcb c.received r n) (a : Answer) (closing : List Act) :
    Taken irs stream (c.pass r a closing) := by
  obtain ⟨hat, hended⟩ := hg.reached h.reached
  have hp := passed_passData hnone r a
  have heof : (c.passData r a).eof = false := by
    rw [hp.eof, h.eof, hg.running]
    rfl
  have hat' : (c.passData r a).pcb.At irs stream (c.passData r a).received := by
    have hgot : c.received = c.got := by simp [Conn.received, hnone]
    rw [hgot] at hat
    rw [hp.received]
    exact hat.of_eq hp.state hp.rcvNxt (hp.wnd hat.wnd)
  rw [pass_eq]
  cases hfin : r.gotFin with
  | false =>
    rw [hfin] at hended
    rw [if_neg Bool.false_ne_true]
    refine ⟨hat', fun p f hs => ?_, ?_⟩
    · rw [hp.ended, hended]
      exact hp.flag p f hs
    · rw [heof, hp.ended, hended]
      rfl
  | true =>
    rw [if_pos rfl]
    exact passFin_taken hat' (hp.ended.trans (hended.trans hfin)) heof closing

/-- **One step keeps it.** -/
theorem step_taken (c : Conn) (e : Event) (c' : Conn) (h : Taken irs stream c)
    (hg : Genuine irs stream c e) (he : step c e = some c') : Taken irs stream c' := by
  cases e with
  | segment seg mem again a closing =>
    simp only [step, tcpInput] at he
    obtain ⟨ht, hrec, hstate⟩ := tcpProcessRefusedData_taken h again closing
    have hnext : (tcpProcessRefusedData c again closing).pcb.next
        (tcpProcessRefusedData c again closing).received = c.pcb.next c.received := by
      rw [hrec]
      unfold Pcb.next Pcb.ended
      rw [hstate]
    generalize tcpProcessRefusedData c again closing = c₁ at he ht hnext
    split_ifs at he with hdrop
    · obtain rfl := Option.some.inj he
      exact ht
    · obtain ⟨r, hr, rfl⟩ := Option.map_eq_some_iff.mp he
      rcases tcpProcess_cases ht.reached (by rw [hnext]; exact hg) hr with hn | ⟨hlen, n, hgain⟩
      · exact pass_nothing ht hn a closing
      · refine pass_gain ht ?_ hgain a closing
        by_contra hsome
        exact hdrop ⟨Option.isSome_iff_ne_none.mpr hsome, hlen⟩
  | fasttmr out again closing =>
    obtain rfl := Option.some.inj he
    refine (tcpProcessRefusedData_taken (h.of_acted ?_) again closing).1
    split_ifs <;> exact ⟨rfl, rfl, rfl, rfl, rfl, id⟩
  | act a =>
    obtain rfl := Option.some.inj he
    have ha := acted_act c a
    exact h.of_acted ⟨ha.got, ha.refused, ha.eof, ha.state, ha.rcvNxt, ha.wnd⟩

/-- **What the application has taken is a prefix of the stream of the peer**, whatever is lost,
repeated, put in another order or cut in another way, and it is all of it when the end of the stream
is reported. -/
theorem received_isPrefix (irs : U32) (stream : List UInt8) (mss : ℕ) {es : List Event}
    (hg : Along step (Genuine irs stream) (Conn.init irs mss) es)
    (hr : run step (Conn.init irs mss) es = some c) :
    c.got <+: stream ∧ (c.eof = true → c.got = stream) := by
  have h := invariant (Taken irs stream) step_taken (taken_init irs stream mss) hg hr
  have hgot : c.got <+: c.received := List.prefix_append _ _
  refine ⟨hgot.trans h.reached.isPrefix, fun heof => ?_⟩
  rw [h.eof, Bool.and_eq_true, Option.isNone_iff_eq_none] at heof
  rw [← h.reached.whole heof.1]
  simp [Conn.received, heof.2]

/-- The last byte overtakes the first ones, which are refused at first; then the stream comes again,
and its end with it. The numbers of the positions wrap. -/
def overtaken : List Event :=
  [.segment ⟨1, false, false, false, [[3]]⟩ true ⟨[], true⟩ ⟨[], true⟩ [],
    .segment ⟨4294967295, false, false, false, [[1, 2]]⟩ true ⟨[], true⟩ ⟨[], false⟩ [],
    .fasttmr true ⟨[.recved 2], true⟩ [],
    .segment ⟨4294967295, false, false, true, [[1], [2, 3]]⟩ true ⟨[], true⟩ ⟨[.recved 1], true⟩ [],
    .act .output]

theorem overtaken_orderly :
    Along step (Orderly 4294967294 [1, 2, 3]) (Conn.init 4294967294 1460) overtaken := by
  refine ⟨⟨fun _ _ _ => ⟨by decide, 2, ?_⟩, by decide⟩, ⟨fun _ _ _ => ⟨by decide, 0, ?_⟩, by decide⟩,
    ⟨trivial, by decide⟩, ⟨fun _ _ _ => ⟨by decide, 0, ?_⟩, by decide⟩, ⟨trivial, by decide⟩, trivial⟩
  all_goals exact ⟨by decide, by decide, by decide, by decide, by decide, by decide⟩

theorem received_isPrefix_overtaken :
    ∃ c, run step (Conn.init 4294967294 1460) overtaken = some c ∧ c.got <+: [1, 2, 3] ∧
      (c.eof = true → c.got = [1, 2, 3]) :=
  ⟨_, rfl, received_isPrefix 4294967294 [1, 2, 3] 1460
    (overtaken_orderly.mono fun _ _ h => h.genuine) rfl⟩

end

end Stm32TcpServer.Lwip.TcpIn
