import Stm32TcpServer.Eth.RxRing

/-! # One receive descriptor (`low_level_input`)

`low_level_input` computes the length of the frame as `FL - 4` in 32 bits and stores it in 16. No
test excludes a frame of less than four bytes: there the length wraps to 65533 or more (`len_eq`),
and `pbuf_alloc` returns NULL because the pool has no more than 10240 bytes.

`lowLevelInput_safe`: whatever the word, the buffer and the pool, the copy stays inside the buffer
of the descriptor, the chain holds the frame without its CRC, and the descriptor is handed back. -/

namespace Stm32TcpServer.Eth.RxInput

open Stm32TcpServer.Lib.Window
open Stm32TcpServer.Eth.Desc Stm32TcpServer.Eth.RxRing Stm32TcpServer.Lwip.Pbuf

/-- The offsets in `Rx_Buff` that the `memcpy` calls of `low_level_input` read. -/
def lowLevelInputReads (r : Rx) : List ℕ :=
  let (r, frame) := ethRxPktChainMode r
  let len := (frame.length.setWidth 16).toNat
  (pbufAlloc r.avail len).elim [] (readsOf (frame.buffer.getD 0))

/-- The `FL` of the descriptor at `DMARxDescToGet`. -/
def headFl (r : Rx) : Word := ethGetDmaRxDescFrameLength (r.status r.dmaRxDescToGet)

theorem len_eq {fl : Word} (hne : fl ≠ 0) (hle : fl.toNat ≤ ethMaxPacketSize) :
    ((fl - 4).setWidth 16).toNat = if 4 ≤ fl.toNat then fl.toNat - 4 else fl.toNat + 65532 := by
  have hpos : fl.toNat ≠ 0 := fun h => hne (BitVec.eq_of_toNat_eq h)
  have hle' : fl.toNat ≤ 1520 := hle
  rw [BitVec.toNat_setWidth, BitVec.toNat_sub]
  have h4 : (4 : Word).toNat = 4 := rfl
  rw [h4]
  split_ifs <;> omega

/-- The pool has a chain for the frame only if the length has not wrapped. -/
theorem pbufAlloc_len {avail : ℕ} {fl : Word} (hne : fl ≠ 0) (hle : fl.toNat ≤ ethMaxPacketSize)
    (hpool : avail ≤ pbufPoolSize) :
    (pbufAlloc avail ((fl - 4).setWidth 16).toNat).isSome ↔
      0 < avail ∧ 4 ≤ fl.toNat ∧ fl.toNat - 4 ≤ avail * pbufPoolBufsize := by
  have hpool' : avail ≤ 20 := hpool
  rw [pbufAlloc_isSome_iff, len_eq hne hle]
  unfold pbufPoolBufsize
  split_ifs <;> omega

theorem ethRxPktChainMode_frame {r : Rx} (h : ethGetRxPktSize r ≠ 0) :
    ethRxPktChainMode r = ({ r with dmaRxDescToGet := buffer2NextDescAddr r.dmaRxDescToGet },
      { length := headFl r - 4
        buffer := some (buffer1Addr r.dmaRxDescToGet)
        descriptor := some r.dmaRxDescToGet }) := by
  rw [ne_eq, ethGetRxPktSize_eq_zero_iff, not_or, not_not] at h
  obtain ⟨hown, hes, hls, hfs, -⟩ := h
  unfold ethRxPktChainMode
  simp only
  rw [if_neg (show ¬ r.status r.dmaRxDescToGet &&& ethDmaRxDescOwn ≠ 0 from hown),
    if_pos ⟨hes, hls, hfs⟩, if_pos ⟨hes, hls, hfs⟩]
  rfl

/-- **`low_level_input`** on a frame whose size is not 0. -/
theorem lowLevelInput_frame {r : Rx} (h : ethGetRxPktSize r ≠ 0) :
    ∃ r', lowLevelInput r = some (r',
        (pbufAlloc r.avail ((headFl r - 4).setWidth 16).toNat).map
          (copyIn r.rxBuff (buffer1Addr r.dmaRxDescToGet))) ∧
      r'.status = Function.update r.status r.dmaRxDescToGet ethDmaRxDescOwn ∧
      r'.dmaRxDescToGet = buffer2NextDescAddr r.dmaRxDescToGet := by
  unfold lowLevelInput
  rw [ethRxPktChainMode_frame h]
  exact ⟨_, rfl, rfl, rfl⟩

theorem headFl_ne_zero {r : Rx} (h : ethGetRxPktSize r ≠ 0) : headFl r ≠ 0 := by
  rw [ne_eq, ethGetRxPktSize_eq_zero_iff, not_or, not_not] at h
  exact h.2.2.2.2

/-- The lengths of the pbufs add up to `FL - 4`, as the pool is too small for a wrapped length. -/
theorem lens_sum {avail : ℕ} {fl : Word} {lens : List ℕ} (hne : fl ≠ 0)
    (hle : fl.toNat ≤ ethMaxPacketSize) (hpool : avail ≤ pbufPoolSize)
    (h : pbufAlloc avail ((fl - 4).setWidth 16).toNat = some lens) : lens.sum = fl.toNat - 4 := by
  have h4 := ((pbufAlloc_len hne hle hpool).mp (by rw [h]; rfl)).2.1
  rw [pbufAlloc_sum h, len_eq hne hle, if_pos h4]

/-- **The copy stays inside the buffer** of the descriptor. -/
theorem reads_inside {r : Rx} (hsize : ethGetRxPktSize r ≠ 0)
    (hfl : (headFl r).toNat ≤ ethMaxPacketSize) (hpool : r.avail ≤ pbufPoolSize) {o : ℕ}
    (ho : o ∈ lowLevelInputReads r) : buffer1Addr r.dmaRxDescToGet ≤ o ∧
      o < buffer1Addr r.dmaRxDescToGet + ethMaxPacketSize := by
  unfold lowLevelInputReads at ho
  rw [ethRxPktChainMode_frame hsize] at ho
  simp only [Option.getD_some] at ho
  cases hlens : pbufAlloc r.avail ((headFl r - 4).setWidth 16).toNat with
  | none =>
    rw [hlens] at ho
    exact absurd ho List.not_mem_nil
  | some lens =>
    have hsum := lens_sum (headFl_ne_zero hsize) hfl hpool hlens
    rw [hlens, Option.elim_some, readsOf_eq, hsum, List.mem_range'_1] at ho
    have hfl' : (headFl r).toNat ≤ 1520 := hfl
    unfold ethMaxPacketSize
    omega

/-- **The chain holds the frame** without its CRC, where the buffer lies within `Rx_Buff`. -/
theorem chain_holds {rxBuff : List UInt8} {d : Desc} {n : ℕ} {lens : List ℕ} (hsum : lens.sum = n)
    (hn : n ≤ ethMaxPacketSize) (hbuf : rxBuff.length = ethRxBufNb * ethMaxPacketSize) :
    ((copyIn rxBuff (buffer1Addr d) lens).map List.length).sum = n ∧
      (copyIn rxBuff (buffer1Addr d) lens).flatten = window rxBuff (buffer1Addr d) n := by
  have hflat := copyIn_flatten rxBuff (buffer1Addr d) lens
  rw [hsum] at hflat
  refine ⟨?_, hflat⟩
  rw [← List.length_flatten, hflat]
  have hd : d.val < 5 := d.isLt
  have hn' : n ≤ 1520 := hn
  refine length_window ?_
  rw [hbuf]
  unfold buffer1Addr ethMaxPacketSize
  omega

/-- **Safe and complete.** The only assumption on the hardware is that `FL` does not exceed the size
of the buffer. -/
theorem lowLevelInput_safe {r : Rx} (hsize : ethGetRxPktSize r ≠ 0)
    (hfl : (headFl r).toNat ≤ ethMaxPacketSize) (hpool : r.avail ≤ pbufPoolSize)
    (hbuf : r.rxBuff.length = ethRxBufNb * ethMaxPacketSize) :
    ∃ r' p, lowLevelInput r = some (r', p) ∧
      (∀ o ∈ lowLevelInputReads r, buffer1Addr r.dmaRxDescToGet ≤ o ∧
        o < buffer1Addr r.dmaRxDescToGet + ethMaxPacketSize) ∧
      (p.isSome ↔ 0 < r.avail ∧ 4 ≤ (headFl r).toNat ∧
        (headFl r).toNat - 4 ≤ r.avail * pbufPoolBufsize) ∧
      (∀ c, p = some c → (c.map List.length).sum = (headFl r).toNat - 4 ∧
        c.flatten = window r.rxBuff (buffer1Addr r.dmaRxDescToGet) ((headFl r).toNat - 4)) ∧
      r'.status r.dmaRxDescToGet = ethDmaRxDescOwn ∧
      (∀ d, d ≠ r.dmaRxDescToGet → r'.status d = r.status d) ∧
      r'.dmaRxDescToGet = buffer2NextDescAddr r.dmaRxDescToGet := by
  have hne := headFl_ne_zero hsize
  obtain ⟨r', hr', hstatus, hget⟩ := lowLevelInput_frame hsize
  refine ⟨r', _, hr', fun o ho => reads_inside hsize hfl hpool ho, ?_, ?_, ?_, ?_, hget⟩
  · rw [Option.isSome_map, pbufAlloc_len hne hfl hpool]
  · intro c hc
    obtain ⟨lens, hlens, rfl⟩ := Option.map_eq_some_iff.mp hc
    exact chain_holds (lens_sum hne hfl hpool hlens) (Nat.le_trans (Nat.sub_le _ _) hfl) hbuf
  · rw [hstatus, Function.update_self]
  · intro d hd
    rw [hstatus, Function.update_of_ne hd]

/-- A frame of three bytes: its length wraps to 65535, and it is dropped. -/
theorem lowLevelInput_safe_three :
    let r : Rx := { Rx.init with status := fun _ => 0x00030300#32 }
    ∃ r' p, lowLevelInput r = some (r', p) ∧
      (∀ o ∈ lowLevelInputReads r, buffer1Addr r.dmaRxDescToGet ≤ o ∧
        o < buffer1Addr r.dmaRxDescToGet + ethMaxPacketSize) ∧
      (p.isSome ↔ 0 < r.avail ∧ 4 ≤ (headFl r).toNat ∧
        (headFl r).toNat - 4 ≤ r.avail * pbufPoolBufsize) ∧
      (∀ c, p = some c → (c.map List.length).sum = (headFl r).toNat - 4 ∧
        c.flatten = window r.rxBuff (buffer1Addr r.dmaRxDescToGet) ((headFl r).toNat - 4)) ∧
      r'.status r.dmaRxDescToGet = ethDmaRxDescOwn ∧
      (∀ d, d ≠ r.dmaRxDescToGet → r'.status d = r.status d) ∧
      r'.dmaRxDescToGet = buffer2NextDescAddr r.dmaRxDescToGet :=
  lowLevelInput_safe (by decide) (by decide) (by decide) (List.length_replicate)

end Stm32TcpServer.Eth.RxInput
