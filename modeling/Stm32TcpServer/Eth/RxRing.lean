import Stm32TcpServer.Eth.Desc
import Stm32TcpServer.Lib.Runs
import Stm32TcpServer.Lwip.Pbuf

/-! # The receive ring (stm32_eth.c, ethernetif.c, dp83848.c)

Five descriptors, linked by `Buffer2NextDescAddr`, each with a buffer of `ETH_MAX_PACKET_SIZE`
bytes. The DMA completes them in ring order: it fills the buffer, writes the status back with `OWN`
cleared and goes on. The loop of `ETH_IRQHandler` takes the descriptor at `DMARxDescToGet` as long
as `ETH_GetRxPktSize` is not 0.

`Coherent r q`: from `DMARxDescToGet` on stand the completed descriptors, with the status words `q`,
and then those the DMA owns. `exit_iff`: when the handler leaves its loop, the descriptor at
`DMARxDescToGet` is owned by the DMA exactly if every word completed so far was `Good`; otherwise no
frame is taken from the ring any more (`wedged`). -/

namespace Stm32TcpServer.Eth.RxRing

open Stm32TcpServer.Lib.Ring Stm32TcpServer.Lib.Runs
open Stm32TcpServer.Eth.Desc Stm32TcpServer.Lwip.Pbuf

/-! ### The descriptors -/

/-- `ETH_DMARxDesc_OWN`: the descriptor is owned by the DMA. -/
def ethDmaRxDescOwn : Word := 0x80000000#32
/-- `ETH_DMARxDesc_FL`: the frame length. -/
def ethDmaRxDescFl : Word := 0x3FFF0000#32
/-- `ETH_DMARxDesc_ES`: the error summary. -/
def ethDmaRxDescEs : Word := 0x00008000#32
/-- `ETH_DMARxDesc_FS`: the first descriptor of the frame. -/
def ethDmaRxDescFs : Word := 0x00000200#32
/-- `ETH_DMARxDesc_LS`: the last descriptor of the frame. -/
def ethDmaRxDescLs : Word := 0x00000100#32

/-- `ETH_RXBUFNB`. -/
abbrev ethRxBufNb : ℕ := 5

/-- A descriptor of `DMARxDscrTab`. -/
abbrev Desc := Fin ethRxBufNb

/-- **The receive side of the Ethernet interface.** -/
structure Rx where
  /-- The `Status` fields of `DMARxDscrTab`. -/
  status : Desc → Word
  /-- The bytes of `Rx_Buff`. -/
  rxBuff : List UInt8
  dmaRxDescToGet : Desc
  /-- `ETH_DMASR_RBUS` in `ETH->DMASR`: the DMA has found no descriptor. -/
  rbus : Bool
  /-- The descriptor that the DMA completes next. -/
  dma : Desc
  /-- The free pbufs of `MEMP_PBUF_POOL`. -/
  avail : ℕ
  /-- The chains passed to `netif->input`. -/
  delivered : List Chain

/-- The state after `ETH_DMARxDescChainInit`. -/
def Rx.init : Rx where
  status _ := ethDmaRxDescOwn
  rxBuff := List.replicate (ethRxBufNb * ethMaxPacketSize) 0
  dmaRxDescToGet := firstDesc
  rbus := false
  dma := firstDesc
  avail := pbufPoolSize
  delivered := []

/-- The descriptor is owned by the DMA. -/
def Owned (w : Word) : Prop := w &&& ethDmaRxDescOwn ≠ 0

instance (w : Word) : Decidable (Owned w) := by unfold Owned; infer_instance

/-- `ETH_GetDMARxDescFrameLength`. -/
def ethGetDmaRxDescFrameLength (w : Word) : Word := (w &&& ethDmaRxDescFl) >>> 16

/-- The word of a frame in one descriptor, received without error. -/
def Good (w : Word) : Prop :=
  w &&& ethDmaRxDescEs = 0 ∧ w &&& ethDmaRxDescLs ≠ 0 ∧ w &&& ethDmaRxDescFs ≠ 0 ∧
    ethGetDmaRxDescFrameLength w ≠ 0

instance (w : Word) : Decidable (Good w) := by unfold Good; infer_instance

/-! ### The code -/

/-- **`ETH_GetRxPktSize()`.** -/
def ethGetRxPktSize (r : Rx) : Word :=
  let w := r.status r.dmaRxDescToGet
  if w &&& ethDmaRxDescOwn = 0 ∧ w &&& ethDmaRxDescEs = 0 ∧ w &&& ethDmaRxDescLs ≠ 0 ∧
      w &&& ethDmaRxDescFs ≠ 0 then
    ethGetDmaRxDescFrameLength w
  else 0

/-- `FrameTypeDef`: the buffer is an offset in `Rx_Buff`, `none` stands for 0. -/
structure FrameTypeDef where
  length : Word
  buffer : Option ℕ
  descriptor : Option Desc

/-- `ETH->DMASR = ETH_DMASR_RBUS; ETH->DMARPDR = 0;` if the bit is set. -/
def Rx.resume (r : Rx) : Rx := { r with rbus := false }

/-- **`ETH_RxPkt_ChainMode()`.** -/
def ethRxPktChainMode (r : Rx) : Rx × FrameTypeDef :=
  let w := r.status r.dmaRxDescToGet
  if w &&& ethDmaRxDescOwn ≠ 0 then
    (r.resume, { length := ethError, buffer := none, descriptor := none })
  else
    let good := w &&& ethDmaRxDescEs = 0 ∧ w &&& ethDmaRxDescLs ≠ 0 ∧ w &&& ethDmaRxDescFs ≠ 0
    ({ r with dmaRxDescToGet := buffer2NextDescAddr r.dmaRxDescToGet },
      { length := if good then ((w &&& ethDmaRxDescFl) >>> 16) - 4 else ethError
        buffer := if good then some (buffer1Addr r.dmaRxDescToGet) else none
        descriptor := some r.dmaRxDescToGet })

/-- **`low_level_input(netif)`**: `none` if it writes through a NULL descriptor. -/
def lowLevelInput (r : Rx) : Option (Rx × Option Chain) :=
  let (r, frame) := ethRxPktChainMode r
  let len := (frame.length.setWidth 16).toNat
  let p := (pbufAlloc r.avail len).map (copyIn r.rxBuff (frame.buffer.getD 0))
  let r := { r with avail := r.avail - (p.elim 0 List.length) }
  frame.descriptor.map fun d =>
    (Rx.resume { r with status := Function.update r.status d ethDmaRxDescOwn }, p)

/-- **`ethernetif_input(netif)`**, called by `LwIP_Pkt_Handle`. -/
def ethernetifInput (r : Rx) : Option Rx :=
  (lowLevelInput r).map fun (r, p) => { r with delivered := r.delivered ++ p.toList }

/-! ### Runs -/

/-- The DMA completes a descriptor, or finds none; the handler executes the body of its loop; the
rest of the stack takes pbufs from the pool or gives some back. -/
inductive Event
  | complete (w : Word) (bytes : List UInt8)
  | full
  | handle
  | pool (avail : ℕ)

/-- `bytes` in place of those of `buff` from `l` on. -/
def writeAt (buff : List UInt8) (l : ℕ) (bytes : List UInt8) : List UInt8 :=
  buff.take l ++ bytes ++ buff.drop (l + bytes.length)

/-- **One step.** The status that the DMA writes back has `OWN` cleared; the handler executes the
body of its loop if `ETH_GetRxPktSize` is not 0, and leaves the loop otherwise. -/
def step (r : Rx) : Event → Option Rx
  | .complete w bytes =>
    if Owned (r.status r.dma) ∧ ¬ Owned w ∧ bytes.length ≤ ethMaxPacketSize then
      some { r with
        status := Function.update r.status r.dma w
        rxBuff := writeAt r.rxBuff (buffer1Addr r.dma) bytes
        dma := buffer2NextDescAddr r.dma }
    else none
  | .full => if Owned (r.status r.dma) then none else some { r with rbus := true }
  | .handle => if ethGetRxPktSize r ≠ 0 then ethernetifInput r else none
  | .pool avail => some { r with avail := avail }

/-- The status words that the DMA writes back. -/
def completed : List Event → List Word
  | [] => []
  | .complete w _ :: es => w :: completed es
  | _ :: es => completed es

/-- **The ring**: from `DMARxDescToGet` on the completed words `q`, then descriptors of the DMA. -/
structure Coherent (r : Rx) (q : List Word) : Prop where
  holds : Holds r.status Owned buffer2NextDescAddr ethRxBufNb r.dmaRxDescToGet q
  dma : r.dma = buffer2NextDescAddr^[q.length] r.dmaRxDescToGet
  completed : ∀ w ∈ q, ¬ Owned w

theorem owned_own : Owned ethDmaRxDescOwn := by decide

theorem coherent_init : Coherent Rx.init [] :=
  ⟨⟨Nat.zero_le _, fun _ h => absurd h (Nat.not_lt_zero _), fun _ _ _ => owned_own⟩, rfl,
    fun _ h => absurd h List.not_mem_nil⟩

theorem ethGetRxPktSize_eq_zero_iff {r : Rx} :
    ethGetRxPktSize r = 0 ↔
      Owned (r.status r.dmaRxDescToGet) ∨ ¬ Good (r.status r.dmaRxDescToGet) := by
  unfold ethGetRxPktSize Owned Good
  simp only
  split_ifs with h
  · refine ⟨fun h0 => Or.inr fun hg => hg.2.2.2 h0, fun h' => ?_⟩
    by_contra hne
    exact h'.elim (fun ho => ho h.1) fun hg => hg ⟨h.2.1, h.2.2.1, h.2.2.2, hne⟩
  · simp only [true_iff]
    by_contra hne
    push Not at hne
    exact h ⟨hne.1, hne.2.1, hne.2.2.1, hne.2.2.2.1⟩

/-! ### Steps -/

theorem coherent_complete {r r' : Rx} {q : List Word} {w : Word} {bytes : List UInt8}
    (h : Coherent r q) (hs : step r (.complete w bytes) = some r') : Coherent r' (q ++ [w]) := by
  obtain ⟨hg, rfl⟩ := guard_eq_some hs
  obtain ⟨hown, hw, -⟩ := hg
  have hlt : q.length < ethRxBufNb :=
    h.holds.length_lt isRing (by decide) fun hmem => by
      rw [← h.dma] at hmem
      exact h.completed _ hmem hown
  refine ⟨?_, ?_, ?_⟩
  · have hp := h.holds.push isRing hlt w
    rw [← h.dma] at hp
    exact hp
  · show buffer2NextDescAddr r.dma = _
    rw [h.dma, List.length_append, List.length_singleton]
    exact (Function.iterate_succ_apply' _ _ _).symm
  · intro w' hw'
    rw [List.mem_append, List.mem_singleton] at hw'
    rcases hw' with hw' | rfl
    · exact h.completed w' hw'
    · exact hw

/-- The word at the head of the queue, if there is one, decides what the handler does. -/
theorem Coherent.cases {r : Rx} {q : List Word} (h : Coherent r q) :
    q = [] ∧ Owned (r.status r.dmaRxDescToGet) ∨
      ∃ w q', q = w :: q' ∧ r.status r.dmaRxDescToGet = w ∧ ¬ Owned w := by
  cases q with
  | nil => exact Or.inl ⟨rfl, h.holds.free_of_nil (by decide)⟩
  | cons w q' => exact Or.inr ⟨w, q', rfl, h.holds.head, h.completed w List.mem_cons_self⟩

theorem ethRxPktChainMode_cpu {r : Rx} (h : ¬ Owned (r.status r.dmaRxDescToGet)) :
    (ethRxPktChainMode r).1 =
        { r with dmaRxDescToGet := buffer2NextDescAddr r.dmaRxDescToGet } ∧
      (ethRxPktChainMode r).2.descriptor = some r.dmaRxDescToGet := by
  unfold ethRxPktChainMode
  simp only
  rw [if_neg (show ¬ r.status r.dmaRxDescToGet &&& ethDmaRxDescOwn ≠ 0 from h)]
  exact ⟨rfl, rfl⟩

/-- **`low_level_input` on a completed descriptor** hands it back, whether or not it gets the pbufs. -/
theorem lowLevelInput_cpu {r : Rx} (h : ¬ Owned (r.status r.dmaRxDescToGet)) :
    ∃ p avail, lowLevelInput r = some ({ r with
      status := Function.update r.status r.dmaRxDescToGet ethDmaRxDescOwn
      dmaRxDescToGet := buffer2NextDescAddr r.dmaRxDescToGet
      rbus := false
      avail := avail }, p) := by
  obtain ⟨h1, h2⟩ := ethRxPktChainMode_cpu h
  unfold lowLevelInput
  rw [show ethRxPktChainMode r = ((ethRxPktChainMode r).1, (ethRxPktChainMode r).2) from rfl]
  simp only [h2, Option.map_some, h1]
  exact ⟨_, _, rfl⟩

/-- **The body of the loop** consumes a good word and hands its descriptor back. -/
theorem coherent_handle {r r' : Rx} {q : List Word} (h : Coherent r q)
    (hs : step r .handle = some r') : ∃ w q', q = w :: q' ∧ Good w ∧ Coherent r' q' := by
  simp only [step] at hs
  split_ifs at hs with hg
  rw [ne_eq, ethGetRxPktSize_eq_zero_iff, not_or, not_not] at hg
  rcases h.cases with ⟨-, how⟩ | ⟨w, q', rfl, hw, hnow⟩
  · exact absurd how hg.1
  rw [hw] at hg
  refine ⟨w, q', rfl, hg.2, ?_⟩
  have hpop := h.holds.pop isRing owned_own
  have hdma := h.dma
  obtain ⟨p, avail, hl⟩ := lowLevelInput_cpu (r := r) (by rw [hw]; exact hnow)
  rw [ethernetifInput, hl] at hs
  obtain rfl := Option.some.inj hs
  exact ⟨hpop, hdma, fun w' hw' => h.completed w' (List.mem_cons_of_mem _ hw')⟩

theorem coherent_step {r r' : Rx} {q : List Word} {e : Event} (h : Coherent r q)
    (hs : step r e = some r') : ∃ taken q', (∀ w ∈ taken, Good w) ∧
      q ++ completed [e] = taken ++ q' ∧ Coherent r' q' := by
  cases e with
  | complete w bytes =>
    exact ⟨[], q ++ [w], fun _ h => absurd h List.not_mem_nil, rfl, coherent_complete h hs⟩
  | handle =>
    obtain ⟨w, q', rfl, hw, h'⟩ := coherent_handle h hs
    refine ⟨[w], q', fun w' hw' => ?_, List.append_nil _, h'⟩
    rw [List.mem_singleton.mp hw']
    exact hw
  | full =>
    obtain ⟨-, rfl⟩ := excluded_eq_some hs
    exact ⟨[], q, fun _ h => absurd h List.not_mem_nil, List.append_nil _, h.holds, h.dma,
      h.completed⟩
  | pool avail =>
    obtain rfl := Option.some.inj hs
    exact ⟨[], q, fun _ h => absurd h List.not_mem_nil, List.append_nil _, h.holds, h.dma,
      h.completed⟩

/-! ### Runs -/

theorem completed_cons (e : Event) (es : List Event) :
    completed (e :: es) = completed [e] ++ completed es := by
  cases e <;> rfl

/-- **A run** takes good words from the front of what has been completed, and leaves the rest. -/
theorem coherent_run {r r' : Rx} {q : List Word} {es : List Event} (h : Coherent r q)
    (hr : run step r es = some r') : ∃ taken q', (∀ w ∈ taken, Good w) ∧
      q ++ completed es = taken ++ q' ∧ Coherent r' q' := by
  induction es generalizing r q with
  | nil =>
    cases hr
    exact ⟨[], q, fun _ h => absurd h List.not_mem_nil, List.append_nil _, h⟩
  | cons e es ih =>
    obtain ⟨r₁, hs, hr⟩ := run_cons_eq_some.mp hr
    obtain ⟨taken₁, q₁, hg₁, heq₁, h₁⟩ := coherent_step h hs
    obtain ⟨taken₂, q₂, hg₂, heq₂, h₂⟩ := ih h₁ hr
    refine ⟨taken₁ ++ taken₂, q₂, fun w hw => ?_, ?_, h₂⟩
    · exact (List.mem_append.mp hw).elim (hg₁ w) (hg₂ w)
    · rw [completed_cons, ← List.append_assoc, heq₁, List.append_assoc, heq₂, List.append_assoc]

/-- **Leaving the loop.** From a ring that holds the words `q`, after any interleaving of
completions and handled frames: when `ETH_GetRxPktSize` is 0, the descriptor at `DMARxDescToGet` is
owned by the DMA if and only if all words completed so far are good. -/
theorem exit_iff {r r' : Rx} {q : List Word} {es : List Event} (h : Coherent r q)
    (hr : run step r es = some r') (hexit : ethGetRxPktSize r' = 0) :
    Owned (r'.status r'.dmaRxDescToGet) ↔ ∀ w ∈ q ++ completed es, Good w := by
  obtain ⟨taken, q', hg, heq, h'⟩ := coherent_run h hr
  rw [heq]
  rcases h'.cases with ⟨rfl, how⟩ | ⟨w, q'', rfl, hw, hnow⟩
  · rw [List.append_nil]
    exact iff_of_true how hg
  · rw [ethGetRxPktSize_eq_zero_iff, hw] at hexit
    rw [hw]
    refine iff_of_false hnow fun hall => (hexit.resolve_left hnow) (hall w ?_)
    exact List.mem_append_right _ List.mem_cons_self

/-- Three words of a frame received without error, with the lengths 64, 768 and 1520. -/
theorem exit_iff_three : ∃ r, run step Rx.init
      [.complete 0x00400300#32 [1, 2, 3], .complete 0x03000300#32 [4], .handle,
        .complete 0x05F00300#32 [], .handle, .handle] = some r ∧
    (Owned (r.status r.dmaRxDescToGet) ↔
      ∀ w ∈ [0x00400300#32, 0x03000300#32, 0x05F00300#32], Good w) := by
  obtain ⟨r, hr, hexit⟩ := Option.map_eq_some_iff.mp (show (run step Rx.init
      [.complete 0x00400300#32 [1, 2, 3], .complete 0x03000300#32 [4], .handle,
        .complete 0x05F00300#32 [], .handle, .handle]).map ethGetRxPktSize = some 0 by
    decide +kernel)
  exact ⟨r, hr, exit_iff coherent_init hr hexit⟩

/-- **One frame with a CRC error.** Its word has `ES` set: the handler leaves its loop at once, and
the descriptor at `DMARxDescToGet` is not handed back. -/
theorem error_frame_kept : ∃ r, run step Rx.init [.complete 0x00408302#32 [1, 2, 3]] = some r ∧
    ethGetRxPktSize r = 0 ∧ ¬ Owned (r.status r.dmaRxDescToGet) := by
  refine ⟨_, rfl, ?_, ?_⟩ <;> decide

/-- The ring has come to a completed word that is not good, and `delivered` is what it has
delivered. -/
def Wedged (delivered : List Chain) (r : Rx) : Prop :=
  (∃ w q, Coherent r (w :: q) ∧ ¬ Good w) ∧ r.delivered = delivered

theorem wedged_step {delivered : List Chain} {r r' : Rx} {e : Event} (h : Wedged delivered r)
    (hs : step r e = some r') : Wedged delivered r' := by
  obtain ⟨⟨w, q, hc, hw⟩, hdel⟩ := h
  cases e with
  | complete w' bytes =>
    refine ⟨⟨w, q ++ [w'], coherent_complete hc hs, hw⟩, ?_⟩
    obtain ⟨-, rfl⟩ := guard_eq_some hs
    exact hdel
  | full =>
    obtain ⟨-, rfl⟩ := excluded_eq_some hs
    exact ⟨⟨w, q, ⟨hc.holds, hc.dma, hc.completed⟩, hw⟩, hdel⟩
  | handle =>
    obtain ⟨w', q', heq, hgood, -⟩ := coherent_handle hc hs
    obtain ⟨rfl, rfl⟩ := List.cons.inj heq
    exact absurd hgood hw
  | pool avail =>
    obtain rfl := Option.some.inj hs
    exact ⟨⟨w, q, ⟨hc.holds, hc.dma, hc.completed⟩, hw⟩, hdel⟩

/-- **The ring is wedged**: once the handler has come to a completed word that is not good, no frame
is delivered any more. -/
theorem wedged {r r' : Rx} {w : Word} {q : List Word} {es : List Event} (h : Coherent r (w :: q))
    (hw : ¬ Good w) (hr : run step r es = some r') :
    ethGetRxPktSize r' = 0 ∧ r'.delivered = r.delivered := by
  have hinit : Wedged r.delivered r := ⟨⟨w, q, h, hw⟩, rfl⟩
  obtain ⟨⟨w', q', hc, hw'⟩, hdel⟩ :=
    invariant' (Wedged r.delivered) (fun _ _ _ h hs => wedged_step h hs) hinit hr
  refine ⟨ethGetRxPktSize_eq_zero_iff.mpr (Or.inr ?_), hdel⟩
  rw [hc.holds.head]
  exact hw'

end Stm32TcpServer.Eth.RxRing
