import Stm32TcpServer.Eth.RxInput
import Stm32TcpServer.Eth.TxOutput

/-! # A frame from one board to the other

`low_level_output` gathers the pbufs of a chain in the buffer of a descriptor, `low_level_input`
scatters the bytes of a buffer over the pbufs of a new chain. `roundTrip`: the bytes that the one
has gathered, with a CRC of four bytes behind them, are given back by the other as they were, split
in the way of the pool. -/

namespace Stm32TcpServer.Eth.RoundTrip

open Stm32TcpServer.Lib.Runs Stm32TcpServer.Lib.Window
open Stm32TcpServer.Eth.Desc Stm32TcpServer.Eth.TxOutput Stm32TcpServer.Lwip.Pbuf
open Stm32TcpServer.Eth.RxRing (Rx writeAt lowLevelInput ethRxPktChainMode)

/-! ### Bytes written to a buffer -/

theorem writeAt_nil (buff : List UInt8) (l : ℕ) : writeAt buff l [] = buff := by
  rw [writeAt, List.append_nil]
  exact List.take_append_drop l buff

theorem writeAt_set {buff : List UInt8} {l : ℕ} (b : UInt8) (bs : List UInt8)
    (h : l < buff.length) : writeAt (buff.set l b) (l + 1) bs = writeAt buff l (b :: bs) := by
  have hdrop : (buff.set l b).drop (l + 1 + bs.length) = buff.drop (l + (b :: bs).length) := by
    rw [List.drop_set_of_lt (by omega), List.length_cons]
    congr 1
    omega
  rw [writeAt, writeAt, hdrop, take_set_succ b h, List.append_assoc, List.append_assoc,
    List.append_assoc]
  rfl

theorem window_writeAt {buff : List UInt8} {l : ℕ} (bs : List UInt8) (h : l ≤ buff.length) :
    window (writeAt buff l bs) l bs.length = bs := by
  have htake : (buff.take l).length = l := by
    rw [List.length_take]
    omega
  rw [window, writeAt, List.append_assoc]
  nth_rewrite 1 [← htake]
  rw [List.drop_left, List.take_left]

/-! ### Sending -/

/-- **A call of `low_level_output`** that nothing interrupts, on a descriptor that is not the
DMA's. -/
def sent (s : Tx) (p : Chain) : Tx := { s with
  txBuff := writeAt s.txBuff (ethGetCurrentTxBuffer s) p.flatten
  controlBufferSize := Function.update s.controlBufferSize s.dmaTxDescToSet
    ((BitVec.ofNat 16 p.flatten.length).setWidth 32 &&& ethDmaTxDescTbs1)
  status := Function.update s.status s.dmaTxDescToSet
    (s.status s.dmaTxDescToSet ||| (ethDmaTxDescLs ||| ethDmaTxDescFs) ||| ethDmaTxDescOwn)
  tbus := false
  dmaTxDescToSet := buffer2NextDescAddr s.dmaTxDescToSet
  returned := s.returned ++ [(p, .errOk)] }

/-- The copying loop, by induction on the chain and on the bytes of its first pbuf. -/
theorem run_memcpy (p : Chain) (buffer : ℕ) (cs : List Call) (q : Chain) (s : Tx) (l : ℕ)
    (h : buffer + l + q.flatten.length ≤ s.txBuff.length) :
    ∃ n, run step { s with calls := ⟨p, buffer, .memcpy l q⟩ :: cs } (List.replicate n .stmt) =
      some { s with
        txBuff := writeAt s.txBuff (buffer + l) q.flatten
        calls := ⟨p, buffer, .own (BitVec.ofNat 16 (l + q.flatten.length))⟩ :: cs } := by
  induction q generalizing s l with
  | nil =>
    refine ⟨1, ?_⟩
    rw [List.flatten_nil, writeAt_nil]
    rfl
  | cons x q ih =>
    induction x generalizing s l with
    | nil =>
      obtain ⟨n, hn⟩ := ih s l h
      exact ⟨n + 1, hn⟩
    | cons b bs ihx =>
      rw [List.flatten_cons, List.cons_append, List.length_cons] at h
      obtain ⟨n, hn⟩ := ihx { s with txBuff := s.txBuff.set (buffer + l) b } (l + 1) (by
        rw [List.flatten_cons, List.length_set]
        omega)
      refine ⟨n + 1, hn.trans ?_⟩
      have hset : writeAt (s.txBuff.set (buffer + l) b) (buffer + (l + 1)) (bs :: q).flatten =
          writeAt s.txBuff (buffer + l) ((b :: bs) :: q).flatten :=
        writeAt_set b (bs :: q).flatten (by omega)
      have hlen : l + 1 + (bs :: q).flatten.length = l + ((b :: bs) :: q).flatten.length := by
        rw [List.flatten_cons, List.flatten_cons, List.cons_append, List.length_cons]
        omega
      simp only [hset, hlen]

theorem run_chainMode (s : Tx) (c : Call) (cs : List Call) {n : BitVec 16}
    (hown : ¬ Owned (s.status s.dmaTxDescToSet)) :
    run step { s with calls := { c with stmt := .own n } :: cs } (List.replicate 7 .stmt) =
      some { s with
        controlBufferSize := Function.update s.controlBufferSize s.dmaTxDescToSet
          (n.setWidth 32 &&& ethDmaTxDescTbs1)
        status := Function.update s.status s.dmaTxDescToSet
          (s.status s.dmaTxDescToSet ||| (ethDmaTxDescLs ||| ethDmaTxDescFs) ||| ethDmaTxDescOwn)
        tbus := false
        dmaTxDescToSet := buffer2NextDescAddr s.dmaTxDescToSet
        returned := s.returned ++ [(c.p, .errOk)]
        calls := cs } := by
  have hcpu : ¬ s.status s.dmaTxDescToSet &&& ethDmaTxDescOwn ≠ 0 := hown
  have hfirst : step { s with calls := { c with stmt := .own n } :: cs } .stmt =
      some { s with calls := { c with stmt := .size n } :: cs } := by
    simp only [step, exec]
    rw [if_neg hcpu]
  rw [List.replicate_succ, run_cons_some hfirst]
  simp only [List.replicate, run, step, exec, Option.bind_some, Function.update_self,
    Function.update_idem]

/-- **The call runs to its end.** -/
theorem run_lowLevelOutput {s : Tx} {p : Chain} (hlen : p.flatten.length ≤ ethMaxPacketSize)
    (hown : ¬ Owned (s.status s.dmaTxDescToSet))
    (hbuff : s.txBuff.length = ethTxBufNb * ethMaxPacketSize) :
    ∃ n, run step s (.lowLevelOutput p :: List.replicate n .stmt) = some (sent s p) := by
  have hd : s.dmaTxDescToSet.val < 5 := s.dmaTxDescToSet.isLt
  have hlen' : p.flatten.length ≤ 1520 := hlen
  obtain ⟨n, hn⟩ := run_memcpy p (ethGetCurrentTxBuffer s) s.calls p s 0 (by
    rw [hbuff]
    unfold ethGetCurrentTxBuffer buffer1Addr ethMaxPacketSize
    omega)
  have hstart : step s (.lowLevelOutput p) = some { s with
      calls := ⟨p, ethGetCurrentTxBuffer s, .memcpy 0 p⟩ :: s.calls } := if_pos hlen
  refine ⟨n + 7, ?_⟩
  rw [run_cons_some hstart, List.replicate_add, run_append, hn, Nat.zero_add, Nat.add_zero,
    Option.bind_some]
  exact run_chainMode (n := BitVec.ofNat 16 p.flatten.length)
    { s with txBuff := writeAt s.txBuff (ethGetCurrentTxBuffer s) p.flatten }
    ⟨p, ethGetCurrentTxBuffer s, .memcpy 0 p⟩ s.calls hown

theorem and_or_ne_zero (w m m' : Word) (h : m &&& m' ≠ 0) : (w ||| m) &&& m' ≠ 0 := by
  intro h0
  rw [BitVec.and_or_distrib_right] at h0
  exact h (BitVec.or_eq_zero_iff.mp h0).2

/-! ### Receiving -/

theorem map_length_copyIn (buffer : List UInt8) (l : ℕ) (lens : List ℕ)
    (h : l + lens.sum ≤ buffer.length) : (copyIn buffer l lens).map List.length = lens := by
  induction lens generalizing l with
  | nil => rfl
  | cons len lens ih =>
    rw [List.sum_cons] at h
    rw [copyIn, List.map_cons, length_window (by omega), ih (l + len) (by omega)]

theorem window_inside {buff bytes : List UInt8} {p n : ℕ} (h : window buff p n = bytes)
    (hlen : bytes.length = n) (hn : 0 < n) : p + n ≤ buff.length := by
  have hw := congrArg List.length h
  rw [window, List.length_take, List.length_drop, hlen] at hw
  omega

/-- **What `low_level_input` takes over** from a descriptor that holds `bytes` and their CRC. -/
theorem lowLevelInput_stored {r : Rx} {bytes crc : List UInt8} (hcrc : crc.length = 4)
    (hle : bytes.length + 4 ≤ ethMaxPacketSize) (hsize : RxRing.ethGetRxPktSize r ≠ 0)
    (hfl : (RxInput.headFl r).toNat = bytes.length + 4)
    (hwin : window r.rxBuff (buffer1Addr r.dmaRxDescToGet) (bytes.length + 4) = bytes ++ crc)
    (hpool : 0 < r.avail ∧ bytes.length ≤ r.avail * pbufPoolBufsize) :
    ∃ r' c, lowLevelInput r = some (r', some c) ∧ c.flatten = bytes ∧
      pbufAlloc r.avail bytes.length = some (c.map List.length) := by
  have hlen : ((RxInput.headFl r - 4).setWidth 16).toNat = bytes.length := by
    rw [RxInput.len_eq (RxInput.headFl_ne_zero hsize) (by rw [hfl]; exact hle), hfl,
      if_pos (Nat.le_add_left 4 _), Nat.add_sub_cancel]
  obtain ⟨r', hr', -, -⟩ := RxInput.lowLevelInput_frame hsize
  rw [hlen] at hr'
  obtain ⟨lens, hlens⟩ := Option.isSome_iff_exists.mp
    ((pbufAlloc_isSome_iff r.avail bytes.length).mpr hpool)
  have hsum := pbufAlloc_sum hlens
  have hin : buffer1Addr r.dmaRxDescToGet + (bytes.length + 4) ≤ r.rxBuff.length :=
    window_inside hwin (by rw [List.length_append, hcrc]) (by omega)
  have hbytes : window r.rxBuff (buffer1Addr r.dmaRxDescToGet) bytes.length = bytes := by
    rw [← window_take _ _ (Nat.le_add_right bytes.length 4), hwin, List.take_left]
  rw [hlens] at hr'
  refine ⟨r', _, hr', ?_, ?_⟩
  · rw [copyIn_flatten, hsum, hbytes]
  · rw [hlens, map_length_copyIn _ _ _ (by rw [hsum]; omega)]

/-! ### The round trip -/

/-- The head descriptor holds a frame of `bytes` with the CRC `crc`: `FS` and `LS` are set, `ES` and
`OWN` are not, and `FL` counts the CRC too. -/
structure Stored (r : Rx) (bytes crc : List UInt8) : Prop where
  fs : r.status r.dmaRxDescToGet &&& RxRing.ethDmaRxDescFs ≠ 0
  ls : r.status r.dmaRxDescToGet &&& RxRing.ethDmaRxDescLs ≠ 0
  es : r.status r.dmaRxDescToGet &&& RxRing.ethDmaRxDescEs = 0
  own : r.status r.dmaRxDescToGet &&& RxRing.ethDmaRxDescOwn = 0
  fl : (RxRing.ethGetDmaRxDescFrameLength (r.status r.dmaRxDescToGet)).toNat = bytes.length + 4
  crcLen : crc.length = 4
  buff : window r.rxBuff (buffer1Addr r.dmaRxDescToGet) (bytes.length + 4) = bytes ++ crc

theorem Stored.size {r : Rx} {bytes crc : List UInt8} (h : Stored r bytes crc) :
    RxRing.ethGetRxPktSize r ≠ 0 := by
  rw [ne_eq, RxRing.ethGetRxPktSize_eq_zero_iff, not_or, not_not]
  refine ⟨fun hown => hown h.own, h.es, h.ls, h.fs, fun h0 => ?_⟩
  have hfl := h.fl
  rw [h0] at hfl
  exact absurd hfl (Nat.succ_ne_zero _).symm

theorem stored_complete {r r' : Rx} {w : Word} {bytes crc : List UInt8}
    (hdma : r.dma = r.dmaRxDescToGet) (hbuff : r.rxBuff.length = 5 * ethMaxPacketSize)
    (hs : RxRing.step r (.complete w (bytes ++ crc)) = some r') (hgood : RxRing.Good w)
    (hcrc : crc.length = 4)
    (hfl : (RxRing.ethGetDmaRxDescFrameLength w).toNat = bytes.length + 4) :
    Stored r' bytes crc := by
  obtain ⟨⟨-, hown, -⟩, rfl⟩ := guard_eq_some hs
  have hstatus : Function.update r.status r.dma w r.dmaRxDescToGet = w := by
    rw [hdma, Function.update_self]
  have hlen : (bytes ++ crc).length = bytes.length + 4 := by rw [List.length_append, hcrc]
  have hd : r.dmaRxDescToGet.val < 5 := r.dmaRxDescToGet.isLt
  refine ⟨?_, ?_, ?_, ?_, ?_, hcrc, ?_⟩
  · simp only [hstatus]
    exact hgood.2.2.1
  · simp only [hstatus]
    exact hgood.2.1
  · simp only [hstatus]
    exact hgood.1
  · simp only [hstatus]
    exact not_not.mp hown
  · simp only [hstatus]
    exact hfl
  · simp only [hdma, ← hlen]
    refine window_writeAt _ ?_
    rw [hbuff]
    unfold buffer1Addr ethMaxPacketSize
    omega

/-- **The copies are inverse to each other.** A chain of at most 1516 bytes is sent with a
descriptor that is not the DMA's: its bytes are in the buffer, their number is in
`ControlBufferSize`, the descriptor is handed over, and `DMATxDescToSet` goes on to the next one.
Whenever these bytes and a CRC are in the head descriptor of a receive ring, and the pool can supply
the chain, `low_level_input` returns a chain of the same bytes, split as `pbuf_alloc` does. -/
theorem roundTrip {s : Tx} {p : Chain} (hlen : p.flatten.length ≤ 1516)
    (hown : ¬ Owned (s.status s.dmaTxDescToSet))
    (hbuff : s.txBuff.length = ethTxBufNb * ethMaxPacketSize) :
    ∃ n s', run step s (.lowLevelOutput p :: List.replicate n .stmt) = some s' ∧
      s'.calls = s.calls ∧ s'.returned = s.returned ++ [(p, .errOk)] ∧
      window s'.txBuff (buffer1Addr s.dmaTxDescToSet) p.flatten.length = p.flatten ∧
      (s'.controlBufferSize s.dmaTxDescToSet).toNat = p.flatten.length ∧
      s'.status s.dmaTxDescToSet &&& ethDmaTxDescLs ≠ 0 ∧
      s'.status s.dmaTxDescToSet &&& ethDmaTxDescFs ≠ 0 ∧
      Owned (s'.status s.dmaTxDescToSet) ∧
      s'.dmaTxDescToSet = buffer2NextDescAddr s.dmaTxDescToSet ∧
      ∀ (r : Rx) (crc : List UInt8),
        Stored r (window s'.txBuff (buffer1Addr s.dmaTxDescToSet) p.flatten.length) crc →
        0 < r.avail ∧ p.flatten.length ≤ r.avail * pbufPoolBufsize →
        ∃ r' c, lowLevelInput r = some (r', some c) ∧ c.flatten = p.flatten ∧
          pbufAlloc r.avail p.flatten.length = some (c.map List.length) := by
  have hle : p.flatten.length ≤ ethMaxPacketSize := Nat.le_trans hlen (by decide)
  obtain ⟨n, hrun⟩ := run_lowLevelOutput hle hown hbuff
  have hstatus : (sent s p).status s.dmaTxDescToSet = s.status s.dmaTxDescToSet |||
      (ethDmaTxDescLs ||| ethDmaTxDescFs) ||| ethDmaTxDescOwn := Function.update_self _ _ _
  have hwin : window (sent s p).txBuff (buffer1Addr s.dmaTxDescToSet) p.flatten.length =
      p.flatten := by
    refine window_writeAt p.flatten ?_
    have hd : s.dmaTxDescToSet.val < 5 := s.dmaTxDescToSet.isLt
    rw [hbuff]
    unfold ethGetCurrentTxBuffer buffer1Addr ethMaxPacketSize
    omega
  have hcbs : ((sent s p).controlBufferSize s.dmaTxDescToSet).toNat = p.flatten.length := by
    have hn : (BitVec.ofNat 16 p.flatten.length).toNat = p.flatten.length := by
      rw [BitVec.toNat_ofNat]
      omega
    show (Function.update s.controlBufferSize s.dmaTxDescToSet _ s.dmaTxDescToSet).toNat = _
    rw [Function.update_self, toNat_size (by rw [hn]; exact hle), hn]
  refine ⟨n, sent s p, hrun, rfl, rfl, hwin, hcbs, ?_, ?_, ?_, rfl, ?_⟩
  · rw [hstatus, BitVec.or_assoc]
    exact and_or_ne_zero _ _ _ (by decide)
  · rw [hstatus, BitVec.or_assoc]
    exact and_or_ne_zero _ _ _ (by decide)
  · rw [hstatus]
    exact owned_handOver _
  · intro r crc hr hpool
    rw [hwin] at hr
    exact lowLevelInput_stored hr.crcLen (by unfold ethMaxPacketSize; omega) hr.size hr.fl hr.buff
      hpool

/-- Three bytes in three pbufs, one of them empty, come back in one. -/
theorem roundTrip_three : ∃ n s' r, run step Tx.init
      (.lowLevelOutput [[1, 2], [], [3]] :: List.replicate n .stmt) = some s' ∧
    RxRing.step Rx.init (.complete 0x00070300#32
      (window s'.txBuff (buffer1Addr (0 : Desc)) 3 ++ [10, 11, 12, 13])) = some r ∧
    ∃ r' c, lowLevelInput r = some (r', some c) ∧ c.flatten = [1, 2, 3] ∧
      c.map List.length = [3] := by
  obtain ⟨n, s', hrun, -, -, hwin, -, -, -, -, -, hback⟩ :=
    roundTrip (s := Tx.init) (p := [[1, 2], [], [3]]) (by decide) (by decide)
      List.length_replicate
  have hwin' : window s'.txBuff (buffer1Addr (0 : Desc)) 3 = [1, 2, 3] := hwin
  obtain ⟨r, hr⟩ : ∃ r, RxRing.step Rx.init (.complete 0x00070300#32
      (window s'.txBuff (buffer1Addr (0 : Desc)) 3 ++ [10, 11, 12, 13])) = some r := by
    rw [hwin']
    exact ⟨_, rfl⟩
  have hstored := stored_complete rfl List.length_replicate hr (by decide) rfl
    (by rw [hwin']; decide)
  have hpool : r.avail = 20 := by
    rw [hwin'] at hr
    obtain rfl := Option.some.inj hr
    rfl
  obtain ⟨r', c, hc, hflat, hsplit⟩ := hback r [10, 11, 12, 13] hstored (by
    rw [hpool]
    decide)
  refine ⟨n, s', r, hrun, hr, r', c, hc, hflat, ?_⟩
  rw [hpool] at hsplit
  exact (Option.some.inj hsplit).symm

end Stm32TcpServer.Eth.RoundTrip
