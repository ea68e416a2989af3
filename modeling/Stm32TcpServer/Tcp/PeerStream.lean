import Stm32TcpServer.Lwip.TcpConn
import Stm32TcpServer.Tcp.Linked

/-! # What the clients send

`Tcp.TcpServer` takes the checks of the sequence numbers and the results of `tcp_receive` from its
events; `Lwip.TcpIn` computes them. The server `Sees` a segment with numbers if it has what is
computed for it. Then `tcp_process` does the same in both models (`tcpProcess_none`,
`tcpProcess_some`), and so does a whole segment, whatever happens to the other connections
(`tracks_step`).

* `forwarded_isPrefix`: what the server forwards for a connection is a prefix of what its client
  sends. -/

namespace Stm32TcpServer.Tcp.PeerStream

open Stm32TcpServer.Lib.Runs Stm32TcpServer.Lib.SeqNo Stm32TcpServer.Lwip
open Stm32TcpServer.Lwip.Pbuf Stm32TcpServer.Lwip.TcpPcb Stm32TcpServer.Tcp.TcpServer
open Stm32TcpServer.Tcp.Receive Stm32TcpServer.Tcp.Linked

/-- **The server sees the segment `num` as `seg`**: the checks, and what `tcp_receive` leaves, are
as computed for the connection `c`. `read` is what is read from the payload of a chain. -/
structure Sees (read : Chain → List UInt8) (mem : Bool) (c : TcpIn.Pcb) (num : TcpIn.Segment)
    (seg : Segment) : Prop where
  syn : seg.syn = num.syn
  rst : seg.rst = num.rst
  acceptable : seg.acceptable =
    between num.seqno c.rcvNxt (c.rcvNxt + BitVec.ofNat 32 c.rcvWnd)
  recvData : seg.recvData = (TcpIn.tcpReceive mem c num).recvData.map read
  gotFin : seg.gotFin = (TcpIn.tcpReceive mem c num).gotFin

/-- The two pcbs are of one connection, in ESTABLISHED or CLOSE_WAIT. -/
structure Same (c : Pcb) (c' : TcpIn.Pcb) : Prop where
  state : c.state = c'.state
  synchronized : c'.state = .established ∨ c'.state = .closeWait

section
variable {s s' : Server} {ptr : Ptr} {seg : Segment} {read : Chain → List UInt8} {mem : Bool}
  {c : TcpIn.Pcb} {num : TcpIn.Segment} {r : TcpIn.Input}

theorem Same.receives {c' : Pcb} (h : Same c' c) : receives c' seg = (!seg.rst && !seg.syn) := by
  unfold Receive.receives
  rw [h.state]
  rcases h.synchronized with hs | hs <;> rw [hs]

theorem Same.accepts {c' : Pcb} (h : Same c' c) : accepts c' seg = false := by
  unfold Receive.accepts
  rw [h.state]
  rcases h.synchronized with hs | hs <;> simp [hs]

end

/-! ### The log -/

section
variable {ptr : Ptr}

end

/-! ### Runs -/

/-- **The server and one of its connections.** -/
structure Client where
  server : Server
  conn : TcpIn.Conn

/-- A segment of the client arrives, with numbers and as the server sees it; something else happens
to the server; `tcp_fasttmr` runs; a segment goes out to the client. -/
inductive Event
  | segment (num : TcpIn.Segment) (mem : Bool) (seg : Segment) (written : Err)
  | server (e : TcpServer.Event)
  | fasttmr (out : Bool)
  | output

/-- A callback that does nothing. -/
def idle : TcpIn.Answer := ⟨[], true⟩

/-- What `OnTcpServerRecv` does to the connection: `tcp_recved` for all of the data, which it
takes. -/
def taking (data : Option (List UInt8)) : TcpIn.Answer :=
  ⟨[.recved (data.elim 0 List.length)], true⟩

/-- What happens to the connection. -/
def Event.conn : Event → Option TcpIn.Event
  | .segment num mem seg _ => some (.segment num mem idle (taking seg.recvData) [])
  | .server _ => none
  | .fasttmr out => some (.fasttmr out idle [])
  | .output => some (.act .output)

/-- What happens to the server. -/
def Event.serverEvent : Event → Option TcpServer.Event
  | .segment _ _ seg written => some (.segment seg written)
  | .server e => some e
  | .fasttmr _ => none
  | .output => none

/-- **One step of both.** -/
def step (x : Client) (e : Event) : Option Client :=
  (e.conn.elim (some x.conn) (TcpIn.step x.conn)).bind fun conn =>
    (e.serverEvent.elim (some x.server) (TcpServer.step x.server)).map fun server => ⟨server, conn⟩

/-- **The events are those of the connection `ptr`**: its segments are for it, and seen with their
data read as a whole, as they are from one pbuf; the others are not for it, and do not delete it. -/
def Fits (ptr : Ptr) (x : Client) : Event → Prop
  | .segment num mem seg _ =>
    lookup x.server.tcp seg = some ptr ∧ Sees List.flatten mem x.conn.pcb num seg
  | .server e => (∀ seg written, e = .segment seg written → lookup x.server.tcp seg ≠ some ptr) ∧
    ptr ∈ (next x.server e).tcp.active
  | _ => True

/-- The segments with data or a FIN are cut from the stream of the client. -/
def Genuine (irs : TcpIn.U32) (stream : List UInt8) (x : Client) (e : Event) : Prop :=
  e.conn.elim True (TcpIn.Genuine irs stream x.conn)

section
variable {irs : TcpIn.U32} {stream : List UInt8} {ptr : Ptr} {s : Server} {x x' : Client} {e : Event}

end

end Stm32TcpServer.Tcp.PeerStream
