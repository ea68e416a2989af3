import Stm32TcpServer.Eth.RxHandler

/-! # The ring with the frames in it

`Ring rx filling arrived h n q`: from the descriptor `h` on stand the completed descriptors `q`,
each with the frame it holds; behind them the DMA fills the next one. It stores a byte
(`Ring.byte`), completes a descriptor (`Ring.complete`), and the CPU hands the first one back
(`Ring.handBack`). -/

namespace Stm32TcpServer.Eth.RxSlots

open Stm32TcpServer.Lib.Ring Stm32TcpServer.Lib.Window
open Stm32TcpServer.Eth.RxRing hiding Event step
open Stm32TcpServer.Eth.Desc Stm32TcpServer.Eth.RxHandler

/-- The status of a descriptor with the bytes of its buffer. -/
abbrev Slot := Word × List UInt8

/-- The `ETH_MAX_PACKET_SIZE` bytes of the buffer of a descriptor. -/
def row (rxBuff : List UInt8) (d : Desc) : List UInt8 :=
  window rxBuff (buffer1Addr d) ethMaxPacketSize

/-- A descriptor as the status word and the bytes of its buffer. -/
def slotOf (status : Desc → Word) (rxBuff : List UInt8) (d : Desc) : Slot :=
  (status d, row rxBuff d)

theorem slotOf_update (status : Desc → Word) (rxBuff : List UInt8) (e : Desc) (w : Word) :
    slotOf (Function.update status e w) rxBuff =
      Function.update (slotOf status rxBuff) e (w, row rxBuff e) := by
  funext d
  unfold slotOf
  by_cases hd : d = e
  · rw [hd, Function.update_self, Function.update_self]
  · rw [Function.update_of_ne hd, Function.update_of_ne hd]

/-- The frame in a completed descriptor. -/
def frameOf (x : Slot) : List UInt8 := x.2.take (ethGetDmaRxDescFrameLength x.1).toNat

/-- A frame without its CRC. -/
def stripCrc (frame : List UInt8) : List UInt8 := frame.take (frame.length - 4)

/-- **The ring**: from the descriptor `h` on the completed descriptors `q`, then those of the DMA.
The frames behind the first `n` of those that have arrived are in `q`. -/
structure Ring (rx : Rx) (filling : List UInt8) (arrived : List (List UInt8)) (h : Desc) (n : ℕ)
    (q : List Slot) : Prop where
  holds : Holds (slotOf rx.status rx.rxBuff) (fun x => Owned x.1) buffer2NextDescAddr ethRxBufNb h q
  dma : rx.dma = buffer2NextDescAddr^[q.length] h
  frames : ∀ x ∈ q, FrameWord x.1
  le : n ≤ arrived.length
  arrived : arrived.drop n = q.map frameOf
  size : rx.rxBuff.length = ethRxBufNb * ethMaxPacketSize
  room : filling.length ≤ ethMaxPacketSize
  filling : window rx.rxBuff (buffer1Addr rx.dma) filling.length = filling
  /-- The frame `i` has been stored in the descriptor `i` of the ring. -/
  cursor : h = buffer2NextDescAddr^[n] firstDesc

variable {rx : Rx} {filling : List UInt8} {arrived : List (List UInt8)} {h : Desc} {n : ℕ}
  {q : List Slot}

theorem ring_init : Ring Rx.init [] [] firstDesc 0 [] where
  holds := ⟨Nat.zero_le _, fun _ h => absurd h (Nat.not_lt_zero _), fun _ _ _ => owned_own⟩
  dma := rfl
  frames := fun _ h => absurd h List.not_mem_nil
  le := Nat.le_refl _
  arrived := rfl
  size := List.length_replicate
  room := Nat.zero_le _
  filling := rfl
  cursor := rfl

theorem Ring.congr {rx' : Rx} (hR : Ring rx filling arrived h n q) (hstatus : rx'.status = rx.status)
    (hbuff : rx'.rxBuff = rx.rxBuff) (hdma : rx'.dma = rx.dma) :
    Ring rx' filling arrived h n q where
  holds := by rw [hstatus, hbuff]; exact hR.holds
  dma := hdma.trans hR.dma
  frames := hR.frames
  le := hR.le
  arrived := hR.arrived
  size := by rw [hbuff]; exact hR.size
  room := hR.room
  filling := by rw [hbuff, hdma]; exact hR.filling
  cursor := hR.cursor

/-- As long as the DMA owns its descriptor, the ring is not full. -/
theorem Ring.length_lt (hR : Ring rx filling arrived h n q) (hown : Owned (rx.status rx.dma)) :
    q.length < ethRxBufNb := by
  refine hR.holds.length_lt isRing (by decide) fun hmem => ?_
  rw [← hR.dma] at hmem
  exact (hR.frames _ hmem).1 hown

theorem row_set_of_ne (rxBuff : List UInt8) {d e : Desc} (hne : d ≠ e) {k : ℕ}
    (hk : k < ethMaxPacketSize) (b : UInt8) :
    row (rxBuff.set (buffer1Addr e + k) b) d = row rxBuff d := by
  have hk' : k < 1520 := hk
  unfold row buffer1Addr ethMaxPacketSize
  rcases Nat.lt_or_gt_of_ne fun heq => hne (Fin.ext heq) with hlt | hlt
  · exact window_set_of_le _ _ (by omega)
  · exact window_set_of_lt _ _ _ (by omega)

theorem row_length (hR : Ring rx filling arrived h n q) (d : Desc) :
    (row rx.rxBuff d).length = ethMaxPacketSize := by
  have hd : d.val < 5 := d.isLt
  refine length_window ?_
  rw [hR.size]
  unfold buffer1Addr ethMaxPacketSize
  omega

theorem Ring.byte (hR : Ring rx filling arrived h n q) (hown : Owned (rx.status rx.dma))
    (hlt : filling.length < ethMaxPacketSize) (b : UInt8) :
    Ring { rx with rxBuff := rx.rxBuff.set (buffer1Addr rx.dma + filling.length) b }
      (filling ++ [b]) arrived h n q := by
  have hslot : slotOf rx.status (rx.rxBuff.set (buffer1Addr rx.dma + filling.length) b) =
      Function.update (slotOf rx.status rx.rxBuff) (buffer2NextDescAddr^[q.length] h)
        (rx.status rx.dma, row (rx.rxBuff.set (buffer1Addr rx.dma + filling.length) b) rx.dma) := by
    funext d
    rw [← hR.dma]
    by_cases hd : d = rx.dma
    · rw [hd, Function.update_self]
      rfl
    · rw [Function.update_of_ne hd]
      exact congrArg (Prod.mk _) (row_set_of_ne _ hd hlt b)
  have hd : rx.dma.val < 5 := rx.dma.isLt
  have hlt' : filling.length < 1520 := hlt
  refine ⟨?_, hR.dma, hR.frames, hR.le, hR.arrived, by rw [List.length_set]; exact hR.size, ?_, ?_,
    hR.cursor⟩
  · rw [hslot]
    exact hR.holds.overwrite isRing (hR.length_lt hown) hown
  · rw [List.length_append, List.length_singleton]
    exact hlt
  · have hin : buffer1Addr rx.dma + filling.length < rx.rxBuff.length := by
      rw [hR.size]
      unfold buffer1Addr ethMaxPacketSize
      omega
    rw [List.length_append, List.length_singleton, window_set_last b hin, hR.filling]

theorem Ring.complete (hR : Ring rx filling arrived h n q) (hown : Owned (rx.status rx.dma))
    {w : Word} (hw : FrameWord w) (hfl : (ethGetDmaRxDescFrameLength w).toNat = filling.length) :
    Ring { rx with
        status := Function.update rx.status rx.dma w
        dma := buffer2NextDescAddr rx.dma }
      [] (arrived ++ [filling]) h n (q ++ [(w, row rx.rxBuff rx.dma)]) := by
  have hframe : frameOf (w, row rx.rxBuff rx.dma) = filling := by
    show (window rx.rxBuff (buffer1Addr rx.dma) ethMaxPacketSize).take _ = filling
    rw [hfl, window_take _ _ hR.room, hR.filling]
  refine ⟨?_, ?_, ?_, ?_, ?_, hR.size, Nat.zero_le _, rfl, hR.cursor⟩
  · have hp := hR.holds.push isRing (hR.length_lt hown) (w, row rx.rxBuff rx.dma)
    rw [← hR.dma, ← slotOf_update] at hp
    exact hp
  · show buffer2NextDescAddr rx.dma = _
    rw [hR.dma, List.length_append, List.length_singleton]
    exact (Function.iterate_succ_apply' _ _ _).symm
  · intro x hx
    rw [List.mem_append, List.mem_singleton] at hx
    rcases hx with hx | rfl
    · exact hR.frames x hx
    · exact hw
  · rw [List.length_append]
    exact Nat.le_trans hR.le (Nat.le_add_right _ _)
  · rw [List.drop_append_of_le_length hR.le, hR.arrived, List.map_append, List.map_singleton, hframe]

theorem Ring.handBack {x : Slot} (hR : Ring rx filling arrived h n (x :: q)) :
    Ring { rx with status := Function.update rx.status h ethDmaRxDescOwn } filling arrived
      (buffer2NextDescAddr h) (n + 1) q := by
  have harr := hR.arrived
  have hpos : n < arrived.length := by
    have hlen := congrArg List.length harr
    rw [List.length_drop, List.length_map, List.length_cons] at hlen
    omega
  refine ⟨?_, hR.dma, fun y hy => hR.frames y (List.mem_cons_of_mem _ hy), hpos, ?_, hR.size,
    hR.room, hR.filling, ?_⟩
  · have hp := hR.holds.pop isRing (y := (ethDmaRxDescOwn, row rx.rxBuff h)) owned_own
    rw [← slotOf_update] at hp
    exact hp
  · rw [List.drop_eq_getElem_cons hpos, List.map_cons] at harr
    exact (List.cons.inj harr).2
  · rw [Function.iterate_succ_apply', ← hR.cursor]

theorem Ring.length_arrived (hR : Ring rx filling arrived h n q) :
    arrived.length = n + q.length := by
  have hlen := congrArg List.length hR.arrived
  rw [List.length_drop, List.length_map] at hlen
  have hle := hR.le
  omega

theorem Ring.iterate_head (hR : Ring rx filling arrived h n q) (i : ℕ) :
    buffer2NextDescAddr^[i] h = buffer2NextDescAddr^[n + i] firstDesc := by
  rw [Nat.add_comm, Function.iterate_add_apply, ← hR.cursor]

theorem Ring.dma_eq (hR : Ring rx filling arrived h n q) :
    rx.dma = buffer2NextDescAddr^[arrived.length] firstDesc := by
  rw [hR.dma, hR.iterate_head, hR.length_arrived]

/-- **The CPU owns the descriptors of the frames that have not been handed back**, and no others. -/
theorem Ring.cpu_iff (hR : Ring rx filling arrived h n q) (d : Desc) :
    ¬ Owned (rx.status d) ↔
      ∃ i, n ≤ i ∧ i < arrived.length ∧ d = buffer2NextDescAddr^[i] firstDesc := by
  have hround : ∀ h d : Desc, ∃ i < ethRxBufNb, d = buffer2NextDescAddr^[i] h := by decide
  rw [hR.length_arrived]
  constructor
  · intro hcpu
    obtain ⟨i, hi, rfl⟩ := hround h d
    refine ⟨n + i, Nat.le_add_right _ _, ?_, hR.iterate_head i⟩
    by_contra hlt
    exact hcpu (hR.holds.rest i (by omega) hi)
  · rintro ⟨i, hle, hlt, rfl⟩
    obtain ⟨k, rfl⟩ := Nat.exists_eq_add_of_le hle
    have hk : k < q.length := by omega
    have hslot : rx.status (buffer2NextDescAddr^[k] h) = q[k].1 :=
      congrArg Prod.fst (hR.holds.queued k hk)
    rw [← hR.iterate_head k, hslot]
    exact (hR.frames _ (List.getElem_mem hk)).1

theorem Ring.head_arrived {x : Slot} (hR : Ring rx filling arrived h n (x :: q)) :
    arrived[n]? = some (frameOf x) := by
  have harr := congrArg List.head? hR.arrived
  rw [List.head?_drop] at harr
  exact harr

theorem Ring.stripCrc_head {x : Slot} (hR : Ring rx filling arrived h n (x :: q)) :
    stripCrc (frameOf x) = x.2.take ((ethGetDmaRxDescFrameLength x.1).toNat - 4) := by
  have hx : slotOf rx.status rx.rxBuff h = x := hR.holds.head
  have hlen : x.2.length = ethMaxPacketSize := by
    rw [← hx]
    exact row_length hR h
  obtain ⟨-, -, -, hle⟩ := hR.frames x List.mem_cons_self
  unfold stripCrc frameOf
  rw [List.length_take, hlen, Nat.min_eq_left hle, List.take_take,
    Nat.min_eq_left (Nat.sub_le _ _)]

theorem Ring.status_head {x : Slot} (hR : Ring rx filling arrived h n (x :: q)) :
    rx.status h = x.1 ∧ FrameWord x.1 :=
  ⟨congrArg Prod.fst hR.holds.head, hR.frames x List.mem_cons_self⟩

theorem Ring.memcpy_ok {x : Slot} (hR : Ring rx filling arrived h n (x :: q)) {l len : ℕ}
    (hle : l + len ≤ ethMaxPacketSize) :
    ∀ i ∈ List.range' (buffer1Addr h + l) len, CpuByte rx.status i := by
  intro i hi
  rw [List.mem_range'_1] at hi
  obtain ⟨hw, hframe⟩ := hR.status_head
  refine ⟨h, ?_, by rw [hw]; exact hframe.1⟩
  have hle' : l + len ≤ 1520 := hle
  unfold buffer1Addr ethMaxPacketSize at hi
  unfold ethMaxPacketSize
  omega

end Stm32TcpServer.Eth.RxSlots
