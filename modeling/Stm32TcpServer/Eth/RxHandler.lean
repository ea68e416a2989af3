import Stm32TcpServer.Eth.RxInput
import Stm32TcpServer.Lib.Steps

/-! # The receive interrupt, statement by statement (dp83848.c, ethernetif.c)

`ETH_IRQHandler` and the functions it calls, with the DMA at work between any two statements: it
stores the bytes of a frame one by one into the buffer of the next descriptor, as long as it owns
that descriptor, and completes it. `Stmt` is the statement that is due, with the local variables
that are still needed.

`body_reaches`: without the DMA the statements of the loop body do what `ethernetifInput` does. -/

namespace Stm32TcpServer.Eth.RxHandler

open Stm32TcpServer.Lib.Ring Stm32TcpServer.Lib.Runs Stm32TcpServer.Lib.Steps
open Stm32TcpServer.Lib.Window
open Stm32TcpServer.Eth.Desc Stm32TcpServer.Eth.RxRing Stm32TcpServer.Lwip.Pbuf

/-! ### The statements -/

/-- The statement that is due. -/
inductive Stmt
  /-- `ETH_IRQHandler` is not running. -/
  | idle
  /-- `while(ETH_GetRxPktSize() != 0)` -/
  | getRxPktSize
  /-- `ETH_RxPkt_ChainMode`: `if((DMARxDescToGet->Status & ETH_DMARxDesc_OWN) != (u32)RESET)` -/
  | ownTest
  /-- `if ((ETH->DMASR & ETH_DMASR_RBUS) != (u32)RESET) ...`, `return frame;` -/
  | ownReturn
  /-- `if(ES is reset && LS is set && FS is set)` -/
  | goodTest
  /-- `framelength = ((DMARxDescToGet->Status & ETH_DMARxDesc_FL) >> 16) - 4;` -/
  | framelength
  /-- `frame.buffer = DMARxDescToGet->Buffer1Addr;` -/
  | buffer (framelength : Word)
  /-- `frame.length = framelength; frame.descriptor = DMARxDescToGet;` -/
  | descriptor (framelength : Word) (buffer : Option ℕ)
  /-- `DMARxDescToGet = DMARxDescToGet->Buffer2NextDescAddr;` -/
  | advance (frame : FrameTypeDef)
  /-- `low_level_input`: `p = pbuf_alloc(PBUF_RAW, len, PBUF_POOL);` -/
  | alloc (frame : FrameTypeDef)
  /-- `memcpy` into the next pbuf of the chain, from `buffer[l]` on; `done` are the payloads filled
  so far, `lens` the `len` fields of the pbufs that follow. -/
  | copy (frame : FrameTypeDef) (l : ℕ) (done : Chain) (lens : List ℕ)
  /-- `frame.descriptor->Status = ETH_DMARxDesc_OWN;` -/
  | handBack (frame : FrameTypeDef) (p : Option Chain)
  /-- `if ((ETH->DMASR & ETH_DMASR_RBUS) != (u32)RESET) ...`, `return p;` -/
  | resume (p : Option Chain)
  /-- `ethernetif_input`: `if (p == NULL) return ERR_MEM; err = netif->input(p, netif);` -/
  | input (p : Option Chain)
  /-- `ETH_DMAClearITPendingBit(ETH_DMA_IT_R);` -/
  | clearR
  /-- `ETH_DMAClearITPendingBit(ETH_DMA_IT_NIS);` -/
  | clearNis

/-- What the CPU must not do. -/
inductive Fault
  /-- Read a byte outside the buffers, or of the buffer of a descriptor that the DMA owns. -/
  | buffer
  /-- Write the status of a descriptor that the DMA owns. -/
  | status
  /-- Write through a NULL descriptor. -/
  | null
  deriving DecidableEq

/-- **The receive side with its interrupt handler.** -/
structure Irq where
  rx : Rx
  pc : Stmt
  /-- `ETH_DMA_IT_R` in `ETH->DMASR`. -/
  itR : Bool
  /-- `ETH_DMA_IT_NIS` in `ETH->DMASR`. -/
  itNis : Bool
  /-- The bytes of the next frame that the DMA has stored so far. -/
  filling : List UInt8
  /-- The frames that the DMA has completed. -/
  arrived : List (List UInt8)
  /-- For each call of `pbuf_alloc`, whether it has returned a chain. -/
  allocs : List Bool
  /-- How many frames `ethernetif_input` has dealt with. -/
  consumed : ℕ
  faults : List Fault

/-- The state after `ETH_DMARxDescChainInit`. -/
def Irq.init : Irq where
  rx := Rx.init
  pc := .idle
  itR := false
  itNis := false
  filling := []
  arrived := []
  allocs := []
  consumed := 0
  faults := []

/-- The byte `o` of `Rx_Buff` is in the buffer of a descriptor that the CPU owns. -/
def CpuByte (status : Desc → Word) (o : ℕ) : Prop :=
  ∃ d : Desc, o / ethMaxPacketSize = d.val ∧ ¬ Owned (status d)

instance (status : Desc → Word) (o : ℕ) : Decidable (CpuByte status o) := by
  unfold CpuByte; infer_instance

/-- `memcpy` from the offset `o` of `Rx_Buff` on. -/
def Irq.memcpyFaults (s : Irq) (o len : ℕ) : List Fault :=
  if ∀ i ∈ List.range' o len, CpuByte s.rx.status i then [] else [.buffer]

/-- **One statement** of the handler. -/
def stmt (s : Irq) : Irq :=
  let w := s.rx.status s.rx.dmaRxDescToGet
  match s.pc with
  | .idle => s
  | .getRxPktSize => { s with pc := if ethGetRxPktSize s.rx ≠ 0 then .ownTest else .clearR }
  | .ownTest => { s with pc := if w &&& ethDmaRxDescOwn ≠ 0 then .ownReturn else .goodTest }
  | .ownReturn => { s with
      rx := s.rx.resume
      pc := .alloc { length := ethError, buffer := none, descriptor := none } }
  | .goodTest => { s with
      pc := if w &&& ethDmaRxDescEs = 0 ∧ w &&& ethDmaRxDescLs ≠ 0 ∧ w &&& ethDmaRxDescFs ≠ 0 then
          .framelength
        else .descriptor ethError none }
  | .framelength => { s with pc := .buffer (((w &&& ethDmaRxDescFl) >>> 16) - 4) }
  | .buffer framelength => { s with
      pc := .descriptor framelength (some (buffer1Addr s.rx.dmaRxDescToGet)) }
  | .descriptor framelength buffer => { s with
      pc := .advance
        { length := framelength, buffer := buffer, descriptor := some s.rx.dmaRxDescToGet } }
  | .advance frame => { s with
      rx := { s.rx with dmaRxDescToGet := buffer2NextDescAddr s.rx.dmaRxDescToGet }
      pc := .alloc frame }
  | .alloc frame =>
    match pbufAlloc s.rx.avail (frame.length.setWidth 16).toNat with
    | none => { s with pc := .handBack frame none, allocs := s.allocs ++ [false] }
    | some lens => { s with
        rx := { s.rx with avail := s.rx.avail - lens.length }
        pc := .copy frame 0 [] lens
        allocs := s.allocs ++ [true] }
  | .copy frame _ done [] => { s with pc := .handBack frame (some done) }
  | .copy frame l done (len :: lens) => { s with
      pc := .copy frame (l + len) (done ++ [window s.rx.rxBuff (frame.buffer.getD 0 + l) len]) lens
      faults := s.faults ++ s.memcpyFaults (frame.buffer.getD 0 + l) len }
  | .handBack frame p =>
    match frame.descriptor with
    | none => { s with pc := .resume p, faults := s.faults ++ [.null] }
    | some d => { s with
        rx := { s.rx with status := Function.update s.rx.status d ethDmaRxDescOwn }
        pc := .resume p
        faults := s.faults ++ if Owned (s.rx.status d) then [.status] else [] }
  | .resume p => { s with rx := s.rx.resume, pc := .input p }
  | .input p => { s with
      rx := { s.rx with delivered := s.rx.delivered ++ p.toList }
      pc := .getRxPktSize
      consumed := s.consumed + 1 }
  | .clearR => { s with itR := false, pc := .clearNis }
  | .clearNis => { s with itNis := false, pc := .idle }

/-! ### The handler without the DMA -/

theorem copy_reaches {frame : FrameTypeDef} {lens : List ℕ} {l : ℕ} {done : Chain} (s : Irq)
    (hpc : s.pc = .copy frame l done lens) : ∃ t, Reaches stmt s t ∧ t.rx = s.rx ∧
      t.pc = .handBack frame
        (some (done ++ copyIn s.rx.rxBuff (frame.buffer.getD 0 + l) lens)) := by
  induction lens generalizing s l done with
  | nil =>
    refine ⟨_, ⟨1, rfl⟩, ?_⟩
    show (stmt s).rx = _ ∧ (stmt s).pc = _
    simp only [stmt, hpc, copyIn, List.append_nil, and_self]
  | cons len lens ih =>
    have hs : (stmt s).pc = .copy frame (l + len)
          (done ++ [window s.rx.rxBuff (frame.buffer.getD 0 + l) len]) lens ∧
        (stmt s).rx = s.rx := by
      simp only [stmt, hpc, and_self]
    obtain ⟨t, ht, hrx, hpct⟩ := ih (stmt s) hs.1
    refine ⟨t, ht.head, hrx.trans hs.2, ?_⟩
    rw [hpct, hs.2, copyIn, List.append_assoc, Nat.add_assoc]
    rfl

theorem handBack_reaches (s : Irq) {frame : FrameTypeDef} {p : Option Chain} {d : Desc}
    (hpc : s.pc = .handBack frame p) (hd : frame.descriptor = some d) :
    ∃ t, Reaches stmt s t ∧ t.pc = .getRxPktSize ∧ t.rx = { s.rx with
      status := Function.update s.rx.status d ethDmaRxDescOwn
      rbus := false
      delivered := s.rx.delivered ++ p.toList } := by
  have hback : stmt s = { s with
      rx := { s.rx with status := Function.update s.rx.status d ethDmaRxDescOwn }
      pc := .resume p
      faults := s.faults ++ if Owned (s.rx.status d) then [.status] else [] } := by
    simp only [stmt, hpc, hd]
  refine ⟨_, ⟨3, rfl⟩, ?_⟩
  show (stmt (stmt (stmt s))).pc = _ ∧ (stmt (stmt (stmt s))).rx = _
  rw [hback]
  exact ⟨rfl, rfl⟩

theorem alloc_reaches (s : Irq) {frame : FrameTypeDef} {d : Desc} {p : Option Chain}
    (hpc : s.pc = .alloc frame) (hd : frame.descriptor = some d)
    (hp : p = (pbufAlloc s.rx.avail (frame.length.setWidth 16).toNat).map
      (copyIn s.rx.rxBuff (frame.buffer.getD 0))) :
    ∃ t, Reaches stmt s t ∧ t.pc = .getRxPktSize ∧ t.rx = { s.rx with
      status := Function.update s.rx.status d ethDmaRxDescOwn
      rbus := false
      avail := s.rx.avail - p.elim 0 List.length
      delivered := s.rx.delivered ++ p.toList } := by
  cases halloc : pbufAlloc s.rx.avail (frame.length.setWidth 16).toNat with
  | none =>
    rw [halloc, Option.map_none] at hp
    have hs : stmt s = { s with pc := .handBack frame none, allocs := s.allocs ++ [false] } := by
      simp only [stmt, hpc, halloc]
    obtain ⟨t, ht, hpct, hrx⟩ := handBack_reaches (stmt s) (by rw [hs]) hd
    refine ⟨t, ht.head, hpct, ?_⟩
    rw [hrx, hs, hp]
    rfl
  | some lens =>
    rw [halloc, Option.map_some] at hp
    have hs : stmt s = { s with
        rx := { s.rx with avail := s.rx.avail - lens.length }
        pc := .copy frame 0 [] lens
        allocs := s.allocs ++ [true] } := by
      simp only [stmt, hpc, halloc]
    obtain ⟨u, hu, hrxu, hpcu⟩ := copy_reaches (stmt s) (by rw [hs])
    obtain ⟨t, ht, hpct, hrx⟩ := handBack_reaches u hpcu hd
    refine ⟨t, (hu.trans ht).head, hpct, ?_⟩
    rw [hrx, hrxu, hs, hp, Option.elim_some, length_copyIn]
    rfl

theorem chainMode_reaches {s : Irq} (hpc : s.pc = .ownTest) : ∃ t, Reaches stmt s t ∧
    t.rx = (ethRxPktChainMode s.rx).1 ∧ t.pc = .alloc (ethRxPktChainMode s.rx).2 := by
  have hs : stmt s = { s with
      pc := if s.rx.status s.rx.dmaRxDescToGet &&& ethDmaRxDescOwn ≠ 0 then .ownReturn
        else .goodTest } := by
    simp only [stmt, hpc]
  unfold ethRxPktChainMode
  simp only
  by_cases hown : s.rx.status s.rx.dmaRxDescToGet &&& ethDmaRxDescOwn ≠ 0
  · rw [if_pos hown] at hs
    rw [if_pos hown]
    refine ⟨_, ⟨2, rfl⟩, ?_⟩
    show (stmt (stmt s)).rx = _ ∧ (stmt (stmt s)).pc = _
    rw [hs]
    exact ⟨rfl, rfl⟩
  · rw [if_neg hown] at hs
    rw [if_neg hown]
    have hs' : stmt (stmt s) = { s with
        pc := if s.rx.status s.rx.dmaRxDescToGet &&& ethDmaRxDescEs = 0 ∧
            s.rx.status s.rx.dmaRxDescToGet &&& ethDmaRxDescLs ≠ 0 ∧
            s.rx.status s.rx.dmaRxDescToGet &&& ethDmaRxDescFs ≠ 0 then .framelength
          else .descriptor ethError none } := by
      rw [hs]
      rfl
    split_ifs at hs' ⊢
    · refine ⟨_, ⟨6, rfl⟩, ?_⟩
      show (stmt (stmt (stmt (stmt (stmt (stmt s)))))).rx = _ ∧
        (stmt (stmt (stmt (stmt (stmt (stmt s)))))).pc = _
      rw [hs']
      exact ⟨rfl, rfl⟩
    · refine ⟨_, ⟨4, rfl⟩, ?_⟩
      show (stmt (stmt (stmt (stmt s)))).rx = _ ∧ (stmt (stmt (stmt (stmt s)))).pc = _
      rw [hs']
      exact ⟨rfl, rfl⟩

/-- **The body of the loop**, from the first statement of `ETH_RxPkt_ChainMode` to the test of the
loop, does what `ethernetifInput` does. -/
theorem body_reaches {s : Irq} {rx' : Rx} (hpc : s.pc = .ownTest)
    (h : ethernetifInput s.rx = some rx') :
    ∃ t, Reaches stmt s t ∧ t.pc = .getRxPktSize ∧ t.rx = rx' := by
  obtain ⟨⟨r, p⟩, hlow, rfl⟩ := Option.map_eq_some_iff.mp h
  obtain ⟨d, hd, heq⟩ := Option.map_eq_some_iff.mp hlow
  obtain ⟨rfl, hp⟩ := Prod.mk.inj heq
  obtain ⟨u, hu, hrxu, hpcu⟩ := chainMode_reaches hpc
  obtain ⟨t, ht, hpct, hrx⟩ := alloc_reaches u hpcu hd (by rw [hrxu])
  refine ⟨t, hu.trans ht, hpct, ?_⟩
  rw [hrx, hrxu, ← hp]
  rfl

/-! ### The frame in work -/

/-- The first descriptor that has not been handed back: between `DMARxDescToGet = ...` and
`frame.descriptor->Status = ...` it is `frame.descriptor`. -/
def Stmt.head (get : Desc) : Stmt → Desc
  | .alloc frame | .copy frame _ _ _ | .handBack frame _ => frame.descriptor.getD get
  | _ => get

/-- 1 if the descriptor of the frame in work has been handed back. -/
def Stmt.handedBack : Stmt → ℕ
  | .resume _ | .input _ => 1
  | _ => 0

/-- 1 if `pbuf_alloc` has been called for the frame in work. -/
def Stmt.allocated : Stmt → ℕ
  | .copy _ _ _ _ | .handBack _ _ | .resume _ | .input _ => 1
  | _ => 0

/-! ### Runs -/

/-- The DMA stores a byte, completes a descriptor or finds none; the rest of the stack takes pbufs
from the pool or gives some back; the handler is entered or executes a statement. -/
inductive Event
  | byte (b : UInt8)
  | complete (w : Word)
  | full
  | pool (avail : ℕ)
  | irq
  | stmt

/-- The word of an error-free frame in one descriptor, with more bytes than its CRC. -/
def FrameWord (w : Word) : Prop :=
  ¬ Owned w ∧ Good w ∧ 4 < (ethGetDmaRxDescFrameLength w).toNat ∧
    (ethGetDmaRxDescFrameLength w).toNat ≤ ethMaxPacketSize

instance (w : Word) : Decidable (FrameWord w) := by unfold FrameWord; infer_instance

/-- The DMA writes the status `w` of the descriptor it has filled. -/
def Irq.complete (s : Irq) (w : Word) : Irq := { s with
  rx := { s.rx with
    status := Function.update s.rx.status s.rx.dma w
    dma := buffer2NextDescAddr s.rx.dma }
  itR := true
  itNis := true
  filling := []
  arrived := s.arrived ++ [s.filling] }

/-- **One step.** -/
def step (s : Irq) : Event → Option Irq
  | .byte b =>
    if Owned (s.rx.status s.rx.dma) ∧ s.filling.length < ethMaxPacketSize then
      some { s with
        rx := { s.rx with
          rxBuff := s.rx.rxBuff.set (buffer1Addr s.rx.dma + s.filling.length) b }
        filling := s.filling ++ [b] }
    else none
  | .complete w =>
    if Owned (s.rx.status s.rx.dma) ∧ FrameWord w ∧
        (ethGetDmaRxDescFrameLength w).toNat = s.filling.length then
      some (s.complete w)
    else none
  | .full =>
    if Owned (s.rx.status s.rx.dma) then none else some { s with rx := { s.rx with rbus := true } }
  | .pool avail => some { s with rx := { s.rx with avail := avail } }
  | .irq =>
    match s.pc with
    | .idle => some { s with pc := .getRxPktSize }
    | _ => none
  | .stmt =>
    match s.pc with
    | .idle => none
    | _ => some (RxHandler.stmt s)

end Stm32TcpServer.Eth.RxHandler
