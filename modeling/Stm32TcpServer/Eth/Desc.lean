import Stm32TcpServer.Lib.Ring

/-! # DMA descriptors in chain mode (stm32_eth.c)

`ETH_DMARxDescChainInit` and `ETH_DMATxDescChainInit` lay a table of descriptors out in the same
way: the descriptor `i` has the buffer `i` of a two-dimensional array, and its `Buffer2NextDescAddr`
is the next descriptor, that of the last one the first. -/

namespace Stm32TcpServer.Eth.Desc

open Stm32TcpServer.Lib.Ring

/-- A register or a field of a descriptor. -/
abbrev Word := BitVec 32

/-- `ETH_MAX_PACKET_SIZE`. -/
abbrev ethMaxPacketSize : ℕ := 1520

/-- `ETH_ERROR`. -/
def ethError : Word := 0
/-- `ETH_SUCCESS`. -/
def ethSuccess : Word := 1

variable {n : ℕ}

/-- `Buffer2NextDescAddr`. -/
def buffer2NextDescAddr (d : Fin n) : Fin n :=
  ⟨(d.val + 1) % n, Nat.mod_lt _ (Nat.zero_lt_of_lt d.isLt)⟩

/-- `Buffer1Addr`, as an offset in the array of the buffers. -/
def buffer1Addr (d : Fin n) : ℕ := d.val * ethMaxPacketSize

/-- The first descriptor of a table of five. -/
def firstDesc : Fin 5 := 0

theorem isRing : IsRing (buffer2NextDescAddr : Fin 5 → Fin 5) 5 where
  cycle := by decide
  ne := by
    have h : ∀ d : Fin 5, ∀ i < 5, 0 < i → buffer2NextDescAddr^[i] d ≠ d := by decide
    exact fun d i hpos hlt => h d i hlt hpos

end Stm32TcpServer.Eth.Desc
