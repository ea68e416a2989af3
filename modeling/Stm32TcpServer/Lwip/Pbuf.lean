import Mathlib.Algebra.GroupWithZero.Nat
import Stm32TcpServer.Lib.Window

/-! # Chains of pbufs (pbuf.c), error codes (err.h)

A chain is given by the payloads of its pbufs; the `len` of a pbuf is the length of its payload, the
`tot_len` of the chain that of all of them. `pbufAlloc` is `pbuf_alloc(PBUF_RAW, length,
PBUF_POOL)`: it takes the pbufs one after the other from the pool and gives them back if the pool
runs out. -/

namespace Stm32TcpServer.Lwip.Pbuf

open Stm32TcpServer.Lib.Window

/-- `err_t`, with the codes that the modelled functions return. -/
inductive Err
  | errOk
  | errMem
  | errConn
  deriving DecidableEq, Repr

/-- The payloads of the pbufs of a chain. -/
abbrev Chain := List (List UInt8)

/-- `PBUF_POOL_BUFSIZE`. -/
abbrev pbufPoolBufsize : ℕ := 512

/-- `PBUF_POOL_SIZE`. -/
abbrev pbufPoolSize : ℕ := 20

/-- The loop of `pbuf_alloc` over the pbufs behind the first: the `len` fields, `avail` pbufs being
free and `rem` bytes left to be placed. -/
def allocTail : ℕ → ℕ → Option (List ℕ)
  | _, 0 => some []
  | 0, _ + 1 => none
  | avail + 1, rem + 1 =>
    let len := min (rem + 1) pbufPoolBufsize
    (allocTail avail (rem + 1 - len)).map (len :: ·)

/-- **`pbuf_alloc(PBUF_RAW, length, PBUF_POOL)`** with `avail` pbufs in the pool: the `len` fields
of the chain. -/
def pbufAlloc (avail length : ℕ) : Option (List ℕ) :=
  match avail with
  | 0 => none
  | avail + 1 =>
    let len := min length pbufPoolBufsize
    (allocTail avail (length - len)).map (len :: ·)

/-- The loop that copies `buffer` from `l` on into the pbufs of a chain. -/
def copyIn (buffer : List UInt8) : ℕ → List ℕ → Chain
  | _, [] => []
  | l, len :: lens => window buffer l len :: copyIn buffer (l + len) lens

/-! ### What is allocated -/

theorem allocTail_sum (avail rem : ℕ) :
    ∀ lens, allocTail avail rem = some lens → lens.sum = rem := by
  induction avail, rem using allocTail.induct with
  | case1 avail =>
    intro lens h
    rw [allocTail] at h
    cases h
    rfl
  | case2 rem =>
    intro lens h
    rw [allocTail] at h
    exact absurd h nofun
  | case3 avail rem len ih =>
    intro lens h
    rw [allocTail] at h
    obtain ⟨lens', hlens, rfl⟩ := Option.map_eq_some_iff.mp h
    have hsum := ih lens' hlens
    have hle : len ≤ rem + 1 := Nat.min_le_left _ _
    rw [List.sum_cons, hsum]
    exact Nat.add_sub_cancel' hle

theorem allocTail_isSome_iff (avail rem : ℕ) :
    (allocTail avail rem).isSome ↔ rem ≤ avail * pbufPoolBufsize := by
  induction avail, rem using allocTail.induct with
  | case1 avail => simp [allocTail]
  | case2 rem => simp [allocTail]
  | case3 avail rem len ih =>
    have hlen : len = min (rem + 1) 512 := rfl
    rw [allocTail, Option.isSome_map, ih]
    unfold pbufPoolBufsize
    omega

/-- **`pbuf_alloc` places all bytes**: the `len` fields add up to the length. -/
theorem pbufAlloc_sum {avail length : ℕ} {lens : List ℕ} (h : pbufAlloc avail length = some lens) :
    lens.sum = length := by
  cases avail with
  | zero => exact absurd h nofun
  | succ avail =>
    obtain ⟨lens', hlens, rfl⟩ := Option.map_eq_some_iff.mp h
    have hsum := allocTail_sum _ _ _ hlens
    rw [List.sum_cons, hsum]
    exact Nat.add_sub_cancel' (Nat.min_le_left _ _)

/-- **`pbuf_alloc` returns a chain** if there is a pbuf and the pool has room for all bytes. -/
theorem pbufAlloc_isSome_iff (avail length : ℕ) :
    (pbufAlloc avail length).isSome ↔ 0 < avail ∧ length ≤ avail * pbufPoolBufsize := by
  cases avail with
  | zero => simp [pbufAlloc]
  | succ avail =>
    unfold pbufAlloc
    simp only [Option.isSome_map, allocTail_isSome_iff]
    unfold pbufPoolBufsize
    omega

/-! ### What is copied -/

/-- The positions of `buffer` that the loop reads, in the order in which it does. -/
def readsOf : ℕ → List ℕ → List ℕ
  | _, [] => []
  | l, len :: lens => List.range' l len ++ readsOf (l + len) lens

theorem readsOf_eq (l : ℕ) (lens : List ℕ) : readsOf l lens = List.range' l lens.sum := by
  induction lens generalizing l with
  | nil => rfl
  | cons len lens ih =>
    rw [readsOf, ih, List.sum_cons, List.range'_append_1]

theorem length_copyIn (buffer : List UInt8) (l : ℕ) (lens : List ℕ) :
    (copyIn buffer l lens).length = lens.length := by
  induction lens generalizing l with
  | nil => rfl
  | cons len lens ih => rw [copyIn, List.length_cons, ih, List.length_cons]

theorem copyIn_flatten (buffer : List UInt8) (l : ℕ) (lens : List ℕ) :
    (copyIn buffer l lens).flatten = window buffer l lens.sum := by
  induction lens generalizing l with
  | nil => rw [copyIn, List.sum_nil, window_zero]; rfl
  | cons len lens ih => rw [copyIn, List.flatten_cons, ih, List.sum_cons, window_add]

end Stm32TcpServer.Lwip.Pbuf
