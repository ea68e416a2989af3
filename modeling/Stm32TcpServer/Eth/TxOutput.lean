import Stm32TcpServer.Eth.Desc
import Stm32TcpServer.Lib.Runs
import Stm32TcpServer.Lib.Window
import Stm32TcpServer.Lwip.Pbuf

/-! # Sending a frame (ethernetif.c)

`low_level_output` copies a chain into the buffer of the descriptor at `DMATxDescToSet` and calls
`ETH_TxPkt_ChainMode`, which hands the descriptor to the DMA if it is not the DMA's already. The
calls are modelled by statements, the copy by bytes, and the DMA processes its descriptors at any
moment in between: it sends what the buffer then holds. -/

namespace Stm32TcpServer.Eth.TxOutput

open Stm32TcpServer.Lib.Window
open Stm32TcpServer.Eth.Desc Stm32TcpServer.Lwip.Pbuf

/-! ### The descriptors -/

/-- `ETH_DMATxDesc_OWN`: the descriptor is owned by the DMA. -/
def ethDmaTxDescOwn : Word := 0x80000000#32
/-- `ETH_DMATxDesc_LS`: the last segment of the frame. -/
def ethDmaTxDescLs : Word := 0x20000000#32
/-- `ETH_DMATxDesc_FS`: the first segment of the frame. -/
def ethDmaTxDescFs : Word := 0x10000000#32
/-- `ETH_DMATxDesc_TCH`: the second address is the next descriptor. -/
def ethDmaTxDescTch : Word := 0x00100000#32
/-- `ETH_DMATxDesc_ChecksumTCPUDPICMPFull`. -/
def ethDmaTxDescChecksumTcpUdpIcmpFull : Word := 0x00C00000#32
/-- `ETH_DMATxDesc_TBS1`: the size of the first buffer. -/
def ethDmaTxDescTbs1 : Word := 0x00001FFF#32

/-- `ETH_TXBUFNB`. -/
abbrev ethTxBufNb : ℕ := 5

/-- A descriptor of `DMATxDscrTab`. -/
abbrev Desc := Fin ethTxBufNb

/-- The bytes of a frame. -/
abbrev Frame := List UInt8

/-- **The next statement** of `low_level_output`, or of the `ETH_TxPkt_ChainMode` it calls. -/
inductive Stmt
  /-- `memcpy(&buffer[l], q->payload, q->len)`, with what is left to copy of `q` and its successors. -/
  | memcpy (l : ℕ) (q : Chain)
  /-- `if ((DMATxDescToSet->Status & ETH_DMATxDesc_OWN) != RESET) return ETH_ERROR;` -/
  | own (frameLength : BitVec 16)
  /-- `DMATxDescToSet->ControlBufferSize = (FrameLength & ETH_DMATxDesc_TBS1);` -/
  | size (frameLength : BitVec 16)
  /-- `DMATxDescToSet->Status |= ETH_DMATxDesc_LS | ETH_DMATxDesc_FS;` -/
  | segments
  /-- `DMATxDescToSet->Status |= ETH_DMATxDesc_OWN;` -/
  | handOver
  /-- `if ((ETH->DMASR & ETH_DMASR_TBUS) != RESET)`, with its body. -/
  | resume
  /-- `DMATxDescToSet = DMATxDescToSet->Buffer2NextDescAddr; return ETH_SUCCESS;` -/
  | advance
  /-- `ETH_TxPkt_ChainMode` has returned; `return ERR_OK;`. -/
  | ret (result : Word)
  deriving DecidableEq

/-- A call `low_level_output(netif, p)` with its local `buffer`. -/
structure Call where
  p : Chain
  buffer : ℕ
  stmt : Stmt
  deriving DecidableEq

/-- **The transmit side of the Ethernet interface.** -/
structure Tx where
  /-- The `Status` fields of `DMATxDscrTab`. -/
  status : Desc → Word
  /-- The `ControlBufferSize` fields of `DMATxDscrTab`. -/
  controlBufferSize : Desc → Word
  /-- The bytes of `Tx_Buff`. -/
  txBuff : List UInt8
  dmaTxDescToSet : Desc
  /-- `ETH_DMASR_TBUS` in `ETH->DMASR`: the DMA has found no frame. -/
  tbus : Bool
  /-- The descriptor that the DMA processes next. -/
  dma : Desc
  /-- The calls in progress, the innermost first: `ETH_IRQHandler` may preempt a call from the main
  loop. -/
  calls : List Call
  /-- What the calls that are over have returned. -/
  returned : List (Chain × Err)
  /-- The frames the DMA has sent. -/
  wire : List Frame

/-- The state after `low_level_init`. -/
def Tx.init : Tx where
  status _ := ethDmaTxDescTch ||| ethDmaTxDescChecksumTcpUdpIcmpFull
  controlBufferSize _ := 0
  txBuff := List.replicate (ethTxBufNb * ethMaxPacketSize) 0
  dmaTxDescToSet := firstDesc
  tbus := false
  dma := firstDesc
  calls := []
  returned := []
  wire := []

/-- The descriptor is owned by the DMA. -/
def Owned (w : Word) : Prop := w &&& ethDmaTxDescOwn ≠ 0

instance (w : Word) : Decidable (Owned w) := by unfold Owned; infer_instance

/-! ### The code -/

/-- `ETH_GetCurrentTxBuffer()`. -/
def ethGetCurrentTxBuffer (s : Tx) : ℕ := buffer1Addr s.dmaTxDescToSet

/-- **One statement** of the call `c`, the others in progress being `cs`. -/
def exec (s : Tx) (c : Call) (cs : List Call) : Tx :=
  match c.stmt with
  | .memcpy l [] => { s with calls := { c with stmt := .own (BitVec.ofNat 16 l) } :: cs }
  | .memcpy l ([] :: q) => { s with calls := { c with stmt := .memcpy l q } :: cs }
  | .memcpy l ((b :: bs) :: q) =>
    { s with
      txBuff := s.txBuff.set (c.buffer + l) b
      calls := { c with stmt := .memcpy (l + 1) (bs :: q) } :: cs }
  | .own frameLength =>
    let stmt := if s.status s.dmaTxDescToSet &&& ethDmaTxDescOwn ≠ 0 then .ret ethError
      else .size frameLength
    { s with calls := { c with stmt := stmt } :: cs }
  | .size frameLength =>
    { s with
      controlBufferSize := Function.update s.controlBufferSize s.dmaTxDescToSet
        (frameLength.setWidth 32 &&& ethDmaTxDescTbs1)
      calls := { c with stmt := .segments } :: cs }
  | .segments =>
    { s with
      status := Function.update s.status s.dmaTxDescToSet
        (s.status s.dmaTxDescToSet ||| (ethDmaTxDescLs ||| ethDmaTxDescFs))
      calls := { c with stmt := .handOver } :: cs }
  | .handOver =>
    { s with
      status := Function.update s.status s.dmaTxDescToSet
        (s.status s.dmaTxDescToSet ||| ethDmaTxDescOwn)
      calls := { c with stmt := .resume } :: cs }
  | .resume => { s with tbus := false, calls := { c with stmt := .advance } :: cs }
  | .advance =>
    { s with
      dmaTxDescToSet := buffer2NextDescAddr s.dmaTxDescToSet
      calls := { c with stmt := .ret ethSuccess } :: cs }
  | .ret _ => { s with calls := cs, returned := s.returned ++ [(c.p, .errOk)] }

/-! ### Runs -/

/-- A call begins; the innermost call executes a statement; the DMA processes a descriptor, or finds
that the next one is not its own. -/
inductive Event
  | lowLevelOutput (p : Chain)
  | stmt
  | send
  | idle

/-- What the buffer of the descriptor `d` holds, `ControlBufferSize` bytes of it. -/
def content (s : Tx) (d : Desc) : Frame :=
  window s.txBuff (buffer1Addr d) (s.controlBufferSize d).toNat

/-- **One step.** A chain has at most `ETH_MAX_PACKET_SIZE` bytes. The DMA sends the content that
the buffer has when it processes the descriptor, and clears `OWN`. -/
def step (s : Tx) : Event → Option Tx
  | .lowLevelOutput p =>
    if p.flatten.length ≤ ethMaxPacketSize then
      some { s with
        calls := { p := p, buffer := ethGetCurrentTxBuffer s, stmt := .memcpy 0 p } :: s.calls }
    else none
  | .stmt =>
    match s.calls with
    | [] => none
    | c :: cs => some (exec s c cs)
  | .send =>
    if Owned (s.status s.dma) then
      some { s with
        status := Function.update s.status s.dma (s.status s.dma &&& ~~~ ethDmaTxDescOwn)
        dma := buffer2NextDescAddr s.dma
        wire := s.wire ++ [content s s.dma] }
    else none
  | .idle => if Owned (s.status s.dma) then none else some { s with tbus := true }

/-- **The accepted frames**: those of the calls that have returned `ERR_OK`. -/
def accepted (s : Tx) : List Frame :=
  (s.returned.filter fun r => r.2 = .errOk).map fun r => r.1.flatten

/-- The frame of a call that has handed its descriptor over and has not returned yet. -/
def handedOver (s : Tx) : List Frame :=
  match s.calls with
  | [] => []
  | c :: _ =>
    match c.stmt with
    | .resume | .advance | .ret _ => [c.p.flatten]
    | _ => []

/-- The next statement stores a byte in a buffer, or is the ownership test. -/
def Tx.uses (s : Tx) : Bool :=
  match s.calls with
  | [] => false
  | c :: _ =>
    match c.stmt with
    | .memcpy _ ((_ :: _) :: _) | .own _ => true
    | _ => false

/-- **The condition on the steps.** No call begins while another one is in progress, and whenever a
call stores a byte or makes the ownership test, the descriptor at `DMATxDescToSet` is not owned by
the DMA. -/
def Exclusive (s : Tx) : Event → Prop
  | .lowLevelOutput _ => s.calls = []
  | .stmt => s.uses → ¬ Owned (s.status s.dmaTxDescToSet)
  | _ => True

instance (s : Tx) : ∀ e, Decidable (Exclusive s e)
  | .lowLevelOutput _ => inferInstanceAs (Decidable (s.calls = []))
  | .stmt => inferInstanceAs (Decidable (s.uses → ¬ Owned (s.status s.dmaTxDescToSet)))
  | .send => instDecidableTrue
  | .idle => instDecidableTrue

/-! ### Status words -/

theorem owned_handOver (w : Word) : Owned (w ||| ethDmaTxDescOwn) := by
  intro h
  have h31 := congrArg (fun x : Word => x.getLsbD 31) h
  simp [ethDmaTxDescOwn] at h31

theorem not_owned_sent (w : Word) : ¬ Owned (w &&& ~~~ ethDmaTxDescOwn) := by
  rw [Owned, not_not, BitVec.and_assoc, BitVec.not_and_self]
  exact BitVec.and_zero

theorem owned_segments (w : Word) :
    Owned (w ||| (ethDmaTxDescLs ||| ethDmaTxDescFs)) ↔ Owned w := by
  have h0 : (ethDmaTxDescLs ||| ethDmaTxDescFs) &&& ethDmaTxDescOwn = 0#32 := by decide
  rw [Owned, Owned, BitVec.and_or_distrib_right, h0, BitVec.or_zero]

theorem toNat_size {n : BitVec 16} (h : n.toNat ≤ ethMaxPacketSize) :
    (n.setWidth 32 &&& ethDmaTxDescTbs1).toNat = n.toNat := by
  have hmask : ethDmaTxDescTbs1.toNat = 2 ^ 13 - 1 := rfl
  have hn : n.toNat ≤ 1520 := h
  rw [BitVec.toNat_and, hmask, Nat.and_two_pow_sub_one_eq_mod, BitVec.toNat_setWidth,
    Nat.mod_eq_of_lt (by omega), Nat.mod_eq_of_lt (by omega)]

end Stm32TcpServer.Eth.TxOutput
