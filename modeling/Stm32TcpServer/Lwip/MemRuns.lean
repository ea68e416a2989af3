import Mathlib.Data.List.Nodup
import Stm32TcpServer.Lib.Runs
import Stm32TcpServer.Lwip.MemOps

/-! # The heap over whole runs (mem.c)

The heap and its clients: they allocate, give back, shrink and write the regions they hold, in any
order. `State.live` is what a client may rely on: where each region begins and the bytes last
written to it. A client gives back or shrinks only regions that it holds, to a size they had, and
writes only inside them. -/

namespace Stm32TcpServer.Lwip.Mem

open Stm32TcpServer.Lib.Blocks
open Stm32TcpServer.Lib.Runs

/-- A region that a client holds. -/
structure Region where
  ptr : ℕ
  data : List UInt8
  deriving DecidableEq

/-- **The heap and its clients.** -/
structure State where
  heap : Heap
  live : List Region

/-- A call of one of the functions, or a write to a region. -/
inductive Event where
  | malloc (size : ℕ)
  | free (ptr : ℕ)
  | trim (ptr newsize : ℕ)
  | write (ptr i : ℕ) (v : UInt8)

/-- The bytes from `p` on. -/
def bytes (r : Ram) (p n : ℕ) : List UInt8 := (List.range n).map fun i => r (p + i)

/-- What becomes of the region at `p`. -/
def onRegion (p : ℕ) (f : Region → Region) (live : List Region) : List Region :=
  live.map fun x => if x.ptr = p then f x else x

/-- After `mem_init`, whatever the memory holds. -/
def init (r : Ram) : State := { heap := memInit r, live := [] }

/-- **A step.** A new region holds the bytes that are found there. -/
def step (s : State) : Event → Option State
  | .malloc size =>
    if size < 65536 then
      (memMalloc s.heap size).map fun x =>
        { heap := x.1,
          live := x.2.elim s.live fun p => ⟨p, bytes x.1.ram p size⟩ :: s.live }
    else none
  | .free p =>
    if ∃ x ∈ s.live, x.ptr = p then
      some { heap := memFree s.heap (some p), live := s.live.filter fun x => x.ptr ≠ p }
    else none
  | .trim p newsize =>
    if ∃ x ∈ s.live, x.ptr = p ∧ newsize ≤ x.data.length then
      (memTrim s.heap p newsize).2.map fun q =>
        { heap := (memTrim s.heap p newsize).1,
          live := onRegion p (fun x => ⟨q, x.data.take newsize⟩) s.live }
    else none
  | .write p i v =>
    if ∃ x ∈ s.live, x.ptr = p ∧ i < x.data.length then
      some { heap := { s.heap with ram := Function.update s.heap.ram (p + i) v },
             live := onRegion p (fun x => { x with data := x.data.set i v }) s.live }
    else none

/-- A request that a `mem_size_t` can still round up to a multiple of 4. -/
def Roundable (_ : State) : Event → Prop
  | .malloc size => size ≤ 65532
  | _ => True

instance (s : State) (e : Event) : Decidable (Roundable s e) := by
  unfold Roundable
  split <;> infer_instance

/-! ### The invariant -/

section
variable {r r' : Ram} {bs bs' : List Block} {a n k p : ℕ} {s s' : State} {e : Event} {x : Region}

@[simp] theorem length_bytes (r : Ram) (p n : ℕ) : (bytes r p n).length = n := by simp [bytes]

@[simp] theorem getElem_bytes (r : Ram) (p n i : ℕ) (h : i < (bytes r p n).length) :
    (bytes r p n)[i] = r (p + i) := by
  simp [bytes]

theorem Keeps.bytes (hk : Keeps r r' bs) (ha : (a, n) ∈ allocated 0 bs)
    (hn : sizeofStructMem + k ≤ n) :
    bytes r' (a + sizeofStructMem) k = bytes r (a + sizeofStructMem) k := by
  refine List.map_congr_left fun i hi => ?_
  have := List.mem_range.mp hi
  exact hk a n _ ha (by omega) (by omega)

theorem take_bytes (r : Ram) (p : ℕ) (h : k ≤ n) : (bytes r p n).take k = bytes r p k := by
  unfold Mem.bytes
  rw [← List.map_take, List.take_range, Nat.min_eq_left h]

theorem bytes_update (r : Ram) (p n i : ℕ) (v : UInt8) :
    bytes (Function.update r (p + i) v) p n = (bytes r p n).set i v := by
  refine List.ext_getElem (by simp) fun j hj _ => ?_
  rw [List.getElem_set, getElem_bytes, getElem_bytes]
  split_ifs with hij
  · rw [hij, Function.update_self]
  · rw [Function.update_of_ne (by omega)]

/-- **The invariant**: the regions of the clients lie in the used blocks of the heap, one in each,
and hold what was written to them. -/
structure Inv (s : State) (bs : List Block) : Prop where
  shaped : Shaped s.heap bs
  owns : ∀ x ∈ s.live, ∃ a n, x.ptr = a + sizeofStructMem ∧ (a, n) ∈ allocated 0 bs ∧
    sizeofStructMem + x.data.length ≤ n
  owned : ∀ a n, (a, n) ∈ allocated 0 bs → ∃ x ∈ s.live, x.ptr = a + sizeofStructMem
  nodup : (s.live.map Region.ptr).Nodup
  holds : ∀ x ∈ s.live, bytes s.heap.ram x.ptr x.data.length = x.data

theorem rows_memInit (r : Ram) : Rows (memInit r).ram [⟨memSizeAligned, false⟩] := by
  have hapart : Apart memSizeAligned 0 := Or.inr (by decide)
  have hlt : memSizeAligned < 65536 := by decide
  have hzero : 0 < 65536 := by decide
  unfold memInit
  refine ⟨⟨?_, trivial⟩, by simp +decide, by simp +decide, by simp, ?_⟩
  · dsimp only
    rw [memAt_setPrev_of_apart hapart, memAt_setNext_of_apart hapart,
      memAt_setUsed_of_apart hapart, memAt_setUsed, memAt_setPrev _ _ hzero, memAt_setNext _ _ hlt]
    rfl
  · dsimp only
    rw [memAt_setPrev _ _ hlt, memAt_setNext _ _ hlt, memAt_setUsed]
    exact show (1 : UInt8) ≠ 0 by decide

theorem inv_init (r : Ram) : Inv (init r) [⟨memSizeAligned, false⟩] := by
  refine ⟨⟨rows_memInit r, List.isChain_singleton _, rfl⟩, ?_, ?_, List.nodup_nil, ?_⟩
  · intro x hx
    cases hx
  · intro a n ha
    simp at ha
  · intro x hx
    cases hx

theorem Rows.ne_of_mem {xs ys : List Block} {b : Block} (h : Rows r (xs ++ b :: ys))
    (ha : (a, n) ∈ allocated 0 xs ++ allocated (total xs + b.size) ys) : a ≠ total xs := by
  rcases List.mem_append.mp ha with ha | ha
  · have hpos := h.pos (List.mem_append_left _ (mem_of_placed (mem_allocated.mp ha)))
    have hle := (bounds_of_mem (mem_allocated.mp ha)).2
    simp only at hpos hle
    omega
  · have hpos := h.pos (b := b) (by simp)
    have hle := (bounds_of_mem (mem_allocated.mp ha)).1
    omega

theorem split_allocated (ha : (a, n) ∈ allocated 0 bs) :
    ∃ xs ys, bs = xs ++ ⟨n, true⟩ :: ys ∧ a = total xs ∧
      allocated 0 bs = allocated 0 xs ++ (total xs, n) :: allocated (total xs + n) ys := by
  obtain ⟨xs, ys, rfl, rfl⟩ := split_of_mem (mem_allocated.mp ha)
  refine ⟨xs, ys, rfl, Nat.zero_add _, ?_⟩
  rw [allocated_append, allocated_used, Nat.zero_add]

theorem Inv.malloc {size : ℕ} (hi : Inv s bs) (hsize : size ≤ 65532)
    (hs : step s (.malloc size) = some s') : ∃ bs', Inv s' bs' := by
  have hlt : size < 65536 := by omega
  simp only [step, if_pos hlt] at hs
  rcases memMalloc_spec hi.shaped size with ⟨hnone, -⟩ |
    ⟨h', xs, m, ys, bs', k, hne, rfl, hsome, hshaped, hk, hkm, halloc, hkeep⟩
  · rw [hnone] at hs
    obtain rfl := Option.some.inj hs
    exact ⟨bs, hi⟩
  rw [hsome] at hs
  obtain rfl := Option.some.inj hs
  have hold : allocated 0 (xs ++ ⟨m, false⟩ :: ys) =
      allocated 0 xs ++ allocated (total xs + m) ys := by simp
  have hmem : ∀ a n, (a, n) ∈ allocated 0 (xs ++ ⟨m, false⟩ :: ys) → (a, n) ∈ allocated 0 bs' := by
    intro a n ha
    rw [hold] at ha
    rw [halloc]
    rcases List.mem_append.mp ha with ha | ha
    · exact List.mem_append_left _ ha
    · exact List.mem_append_right _ (List.mem_cons_of_mem _ ha)
  have hround := le_roundSize hsize
  refine ⟨bs', hshaped, ?_, ?_, ?_, ?_⟩
  · rintro x (_ | ⟨_, hx⟩)
    · refine ⟨total xs, k, rfl, ?_, ?_⟩
      · rw [halloc]
        simp
      · rw [length_bytes]
        omega
    · obtain ⟨a, n, hp, ha, hn⟩ := hi.owns x hx
      exact ⟨a, n, hp, hmem a n ha, hn⟩
  · intro a n ha
    rw [halloc] at ha
    have hcases : (a, n) = (total xs, k) ∨ (a, n) ∈ allocated 0 (xs ++ ⟨m, false⟩ :: ys) := by
      rw [hold]
      simp only [List.mem_append, List.mem_cons] at ha ⊢
      tauto
    rcases hcases with heq | ha
    · obtain ⟨rfl, rfl⟩ := Prod.mk.inj heq
      exact ⟨_, List.mem_cons_self, rfl⟩
    · obtain ⟨x, hx, hp⟩ := hi.owned a n ha
      exact ⟨x, List.mem_cons_of_mem _ hx, hp⟩
  · refine List.nodup_cons.mpr ⟨fun hmem' => ?_, hi.nodup⟩
    obtain ⟨x, hx, hp⟩ := List.mem_map.mp hmem'
    obtain ⟨a, n, hp', ha, -⟩ := hi.owns x hx
    refine hi.shaped.rows.ne_of_mem (hold ▸ ha) ?_
    simp only at hp
    omega
  · rintro x (_ | ⟨_, hx⟩)
    · simp
    · obtain ⟨a, n, hp, ha, hn⟩ := hi.owns x hx
      have := hi.holds x hx
      rw [hp] at this ⊢
      rw [hkeep.bytes (hmem a n ha) hn]
      exact this

theorem Inv.split (hi : Inv s bs) (hx : x ∈ s.live) : ∃ xs n ys, bs = xs ++ ⟨n, true⟩ :: ys ∧
    x.ptr = total xs + sizeofStructMem ∧ sizeofStructMem + x.data.length ≤ n ∧
    allocated 0 bs = allocated 0 xs ++ (total xs, n) :: allocated (total xs + n) ys := by
  obtain ⟨a, n, hp, ha, hn⟩ := hi.owns x hx
  obtain ⟨xs, ys, rfl, rfl, halloc⟩ := split_allocated ha
  exact ⟨xs, n, ys, rfl, hp, hn, halloc⟩

theorem Inv.free (hi : Inv s bs) (hs : step s (.free p) = some s') : ∃ bs', Inv s' bs' := by
  obtain ⟨⟨x, hx, rfl⟩, rfl⟩ := guard_eq_some hs
  obtain ⟨xs, n, ys, rfl, hp, hn, hold⟩ := hi.split hx
  obtain ⟨bs', hshaped, halloc, hkeep⟩ := memFree_spec hi.shaped
  rw [← hp] at hshaped hkeep
  have hmem : ∀ a k, (a, k) ∈ allocated 0 bs' ↔
      (a, k) ∈ allocated 0 (xs ++ ⟨n, true⟩ :: ys) ∧ a ≠ total xs := by
    intro a k
    rw [hold, halloc]
    constructor
    · intro ha
      refine ⟨?_, hi.shaped.rows.ne_of_mem ha⟩
      simp only [List.mem_append, List.mem_cons] at ha ⊢
      tauto
    · rintro ⟨ha, hne⟩
      simp only [List.mem_append, List.mem_cons, Prod.mk.injEq] at ha ⊢
      tauto
  refine ⟨bs', hshaped, ?_, ?_, ?_, ?_⟩
  · intro y hy
    obtain ⟨hy, hne⟩ := List.mem_filter.mp hy
    obtain ⟨a, k, hpy, ha, hk⟩ := hi.owns y hy
    refine ⟨a, k, hpy, (hmem a k).mpr ⟨ha, ?_⟩, hk⟩
    rintro rfl
    simp [hpy, hp] at hne
  · intro a k ha
    obtain ⟨ha, hne⟩ := (hmem a k).mp ha
    obtain ⟨y, hy, hpy⟩ := hi.owned a k ha
    refine ⟨y, List.mem_filter.mpr ⟨hy, ?_⟩, hpy⟩
    rw [decide_eq_true_iff]
    omega
  · exact hi.nodup.sublist (List.filter_sublist.map _)
  · intro y hy
    obtain ⟨hy, hne⟩ := List.mem_filter.mp hy
    obtain ⟨a, k, hpy, ha, hk⟩ := hi.owns y hy
    have hne' : a ≠ total xs := by
      rintro rfl
      simp [hpy, hp] at hne
    have := hi.holds y hy
    rw [hpy] at this ⊢
    rw [hkeep.bytes ((hmem a k).mpr ⟨ha, hne'⟩) hk]
    exact this

theorem mem_onRegion {f : Region → Region} {live : List Region} {y : Region} :
    y ∈ onRegion p f live ↔ (∃ x ∈ live, x.ptr = p ∧ y = f x) ∨ (y ∈ live ∧ y.ptr ≠ p) := by
  unfold onRegion
  rw [List.mem_map]
  constructor
  · rintro ⟨x, hx, rfl⟩
    split_ifs with hp
    · exact Or.inl ⟨x, hx, hp, rfl⟩
    · exact Or.inr ⟨hx, hp⟩
  · rintro (⟨x, hx, hp, rfl⟩ | ⟨hy, hp⟩)
    · exact ⟨x, hx, if_pos hp⟩
    · exact ⟨y, hy, if_neg hp⟩

theorem map_ptr_onRegion {f : Region → Region} (hf : ∀ x, x.ptr = p → (f x).ptr = p)
    (live : List Region) : (onRegion p f live).map Region.ptr = live.map Region.ptr := by
  unfold onRegion
  rw [List.map_map]
  refine List.map_congr_left fun x _ => ?_
  rw [Function.comp_apply]
  split_ifs with hp
  · rw [hf x hp, hp]
  · rfl

theorem Inv.memTrim (hi : Inv s bs) {newsize : ℕ} (hx : x ∈ s.live)
    (hsize : newsize ≤ x.data.length) : ∃ bs' xs n k ys, x.ptr = total xs + sizeofStructMem ∧
      bs = xs ++ ⟨n, true⟩ :: ys ∧ (memTrim s.heap x.ptr newsize).2 = some x.ptr ∧
      Shaped (memTrim s.heap x.ptr newsize).1 bs' ∧ sizeofStructMem + newsize ≤ k ∧
      allocated 0 bs = allocated 0 xs ++ (total xs, n) :: allocated (total xs + n) ys ∧
      allocated 0 bs' = allocated 0 xs ++ (total xs, k) :: allocated (total xs + n) ys ∧
      Keeps s.heap.ram (memTrim s.heap x.ptr newsize).1.ram bs' := by
  obtain ⟨xs, n, ys, rfl, hp, hn, hold⟩ := hi.split hx
  have hrows := hi.shaped.rows
  have hbig := hrows.big ⟨n, true⟩ (by simp)
  have hmod := hrows.aligned ⟨n, true⟩ (by simp)
  have hle : (⟨n, true⟩ : Block).size ≤ total (xs ++ ⟨n, true⟩ :: ys) := size_le_total (by simp)
  rw [hrows.covers] at hle
  simp only at hbig hmod hle
  unfold sizeofStructMem minSizeAligned memSizeAligned at *
  have hround : roundSize newsize ≤ n - 8 :=
    roundSize_le (by omega) (by omega) (by unfold minSizeAligned; omega)
  have hself : newsize ≤ roundSize newsize := le_roundSize (by omega)
  obtain ⟨bs', k, hret, hshaped, hk, hkn, halloc, hkeep⟩ := memTrim_spec newsize hi.shaped
    (by unfold sizeofStructMem; omega)
  unfold sizeofStructMem at *
  rw [← hp] at hret hshaped hkeep
  exact ⟨bs', xs, n, k, ys, hp, rfl, hret, hshaped, by omega, hold, halloc, hkeep⟩

theorem Inv.trim {newsize : ℕ} (hi : Inv s bs) (hs : step s (.trim p newsize) = some s') :
    ∃ bs', Inv s' bs' := by
  rw [step] at hs
  split_ifs at hs with hguard
  obtain ⟨x, hx, rfl, hsize⟩ := hguard
  obtain ⟨bs', xs, n, k, ys, hp, rfl, hret, hshaped, hk, hold, halloc, hkeep⟩ :=
    hi.memTrim hx hsize
  rw [hret, Option.map_some] at hs
  obtain rfl := Option.some.inj hs
  have hmem : ∀ a m, a ≠ total xs →
      ((a, m) ∈ allocated 0 bs' ↔ (a, m) ∈ allocated 0 (xs ++ ⟨n, true⟩ :: ys)) := by
    intro a m hne
    rw [hold, halloc]
    simp [hne]
  have hmid : (total xs, k) ∈ allocated 0 bs' := by
    rw [halloc]
    simp
  have hother : ∀ y ∈ s.live, y.ptr ≠ x.ptr → ∃ a m, y.ptr = a + sizeofStructMem ∧
      (a, m) ∈ allocated 0 bs' ∧ sizeofStructMem + y.data.length ≤ m := by
    intro y hy hne
    obtain ⟨a, m, hpy, ha, hm⟩ := hi.owns y hy
    exact ⟨a, m, hpy, (hmem a m (by rintro rfl; exact hne (hpy.trans hp.symm))).mpr ha, hm⟩
  refine ⟨bs', hshaped, ?_, ?_, ?_, ?_⟩
  · intro y hy
    rcases mem_onRegion.mp hy with ⟨z, hz, hpz, rfl⟩ | ⟨hy, hne⟩
    · refine ⟨total xs, k, hp, hmid, ?_⟩
      rw [List.length_take]
      omega
    · exact hother y hy hne
  · intro a m ha
    by_cases hne : a = total xs
    · exact ⟨_, mem_onRegion.mpr (Or.inl ⟨x, hx, rfl, rfl⟩), hne ▸ hp⟩
    · obtain ⟨y, hy, hpy⟩ := hi.owned a m ((hmem a m hne).mp ha)
      exact ⟨y, mem_onRegion.mpr (Or.inr ⟨hy, by omega⟩), hpy⟩
  · rw [map_ptr_onRegion]
    · exact hi.nodup
    · exact fun _ _ => rfl
  · intro y hy
    rcases mem_onRegion.mp hy with ⟨z, hz, hpz, rfl⟩ | ⟨hy, hne⟩
    · obtain rfl := List.inj_on_of_nodup_map hi.nodup hz hx hpz
      have hdata := congrArg (List.take newsize) (hi.holds z hz)
      have hbytes := hkeep.bytes hmid hk
      rw [take_bytes _ _ hsize] at hdata
      rw [← hp] at hbytes
      rw [List.length_take, Nat.min_eq_left hsize]
      exact hbytes.trans hdata
    · obtain ⟨a, m, hpy, ha, hm⟩ := hother y hy hne
      have := hi.holds y hy
      rw [hpy] at this ⊢
      rw [hkeep.bytes ha hm]
      exact this

theorem Inv.write {i : ℕ} {v : UInt8} (hi : Inv s bs) (hs : step s (.write p i v) = some s') :
    Inv s' bs := by
  obtain ⟨⟨x, hx, rfl, hlt⟩, rfl⟩ := guard_eq_some hs
  obtain ⟨a, n, hp, ha, hn⟩ := hi.owns x hx
  have hlo : a + sizeofStructMem ≤ x.ptr + i := by omega
  have hhi : x.ptr + i < a + n := by omega
  refine ⟨⟨hi.shaped.rows.update ha hlo hhi v, hi.shaped.coalesced, hi.shaped.lowest⟩, ?_, ?_, ?_,
    ?_⟩
  · intro y hy
    rcases mem_onRegion.mp hy with ⟨z, hz, hpz, rfl⟩ | ⟨hy, hne⟩
    · obtain ⟨c, m, hpc, hc, hm⟩ := hi.owns z hz
      exact ⟨c, m, hpc, hc, by rwa [List.length_set]⟩
    · exact hi.owns y hy
  · intro c m hc
    obtain ⟨y, hy, hpy⟩ := hi.owned c m hc
    by_cases hxy : y.ptr = x.ptr
    · exact ⟨_, mem_onRegion.mpr (Or.inl ⟨y, hy, hxy, rfl⟩), hpy⟩
    · exact ⟨y, mem_onRegion.mpr (Or.inr ⟨hy, hxy⟩), hpy⟩
  · rw [map_ptr_onRegion]
    · exact hi.nodup
    · exact fun _ hy => hy
  · intro y hy
    rcases mem_onRegion.mp hy with ⟨z, hz, hpz, rfl⟩ | ⟨hy, hne⟩
    · simp only [List.length_set]
      rw [← hpz, bytes_update, hi.holds z hz]
    · -- the other regions lie in other blocks
      obtain ⟨c, m, hpc, hc, hm⟩ := hi.owns y hy
      have hapart := eq_or_apart (mem_allocated.mp ha) (mem_allocated.mp hc)
      have := hi.holds y hy
      rw [← this]
      simp only [length_bytes]
      refine List.map_congr_left fun j hj => Function.update_of_ne ?_ _ _
      have := List.mem_range.mp hj
      simp only at hapart
      omega

theorem Inv.step (hi : Inv s bs) (hG : Roundable s e) (hs : step s e = some s') :
    ∃ bs', Inv s' bs' := by
  cases e with
  | malloc size => exact hi.malloc hG hs
  | free p => exact hi.free hs
  | trim p newsize => exact hi.trim hs
  | write p i v => exact ⟨bs, hi.write hs⟩

theorem exists_inv {es : List Event} (hG : Along Mem.step Roundable (init r) es)
    (hr : run Mem.step (init r) es = some s) : ∃ bs, Inv s bs :=
  invariant (fun s => ∃ bs, Inv s bs) (fun _ _ _ ⟨_, hi⟩ hG hs => hi.step hG hs)
    ⟨_, inv_init r⟩ hG hr

end

/-! ### What the clients can rely on -/

/-- Two regions are written; the first is given back, the second is shrunk, and a new one gets the
memory of the first and is written. -/
def calls : List Event :=
  [.malloc 100, .malloc 200, .write 8 3 7, .write 116 1 9, .free 8, .trim 116 20, .malloc 50,
    .write 8 0 5]

/-- The pointers, the lengths and the first four bytes of the regions at the end. -/
theorem exists_calls : ∃ s, run step (init fun _ => 0) calls = some s ∧
    s.live.map (fun x => (x.ptr, x.data.length, x.data.take 4)) =
      [(8, 50, [5, 0, 0, 7]), (116, 20, [0, 9, 0, 0])] :=
  Option.map_eq_some_iff.mp (by decide +kernel : (run step (init fun _ => 0) calls).map _ = some _)

theorem calls_roundable : Along step Roundable (init fun _ => 0) calls := by decide +kernel

section
variable {r : Ram} {s : State} {es : List Event}

/-- **Regions do not overlap**: each lies in the heap, begins at a multiple of 4, and shares no byte
with another, nor with the header of another. -/
theorem regions_apart (hG : Along step Roundable (init r) es)
    (hr : run step (init r) es = some s) :
    (∀ x ∈ s.live, x.ptr % 4 = 0 ∧ sizeofStructMem ≤ x.ptr ∧
      x.ptr + x.data.length ≤ memSizeAligned) ∧
    s.live.Pairwise fun x y => x.ptr + x.data.length + sizeofStructMem ≤ y.ptr ∨
      y.ptr + y.data.length + sizeofStructMem ≤ x.ptr := by
  obtain ⟨bs, hi⟩ := exists_inv hG hr
  constructor
  · intro x hx
    obtain ⟨xs, n, ys, rfl, hp, hn, -⟩ := hi.split hx
    have hmod := total_mod fun b hb => hi.shaped.rows.aligned b (List.mem_append_left _ hb)
    have hcov := hi.shaped.rows.covers
    rw [total_append, total_cons] at hcov
    simp only at hcov
    refine ⟨?_, by omega, by omega⟩
    rw [hp]
    unfold sizeofStructMem
    omega
  · refine hi.nodup.of_map.imp_of_mem ?_
    intro x y hx hy hne
    obtain ⟨a, n, hp, ha, hn⟩ := hi.owns x hx
    obtain ⟨c, m, hpc, hc, hm⟩ := hi.owns y hy
    rcases eq_or_apart (mem_allocated.mp ha) (mem_allocated.mp hc) with ⟨rfl, -⟩ | hap | hap
    · exact absurd (List.inj_on_of_nodup_map hi.nodup hx hy (hp.trans hpc.symm)) hne
    · simp only at hap
      omega
    · simp only at hap
      omega

theorem regions_apart_calls : ∃ s, run step (init fun _ => 0) calls = some s ∧
    s.live.length = 2 ∧
    s.live.Pairwise fun x y => x.ptr + x.data.length + sizeofStructMem ≤ y.ptr ∨
      y.ptr + y.data.length + sizeofStructMem ≤ x.ptr := by
  obtain ⟨s, hs, hlive⟩ := exists_calls
  have htwo := congrArg List.length hlive
  rw [List.length_map] at htwo
  exact ⟨s, hs, htwo, (regions_apart calls_roundable hs).2⟩

/-- **A region holds what was written to it**, whatever the other clients do. -/
theorem regions_hold (hG : Along step Roundable (init r) es)
    (hr : run step (init r) es = some s) :
    ∀ x ∈ s.live, bytes s.heap.ram x.ptr x.data.length = x.data := by
  obtain ⟨bs, hi⟩ := exists_inv hG hr
  exact hi.holds

theorem regions_hold_calls : ∃ s, run step (init fun _ => 0) calls = some s ∧
    s.live.map (fun x => (x.ptr, x.data.length, x.data.take 4)) =
      [(8, 50, [5, 0, 0, 7]), (116, 20, [0, 9, 0, 0])] ∧
    ∀ x ∈ s.live, bytes s.heap.ram x.ptr x.data.length = x.data := by
  obtain ⟨s, hs, hlive⟩ := exists_calls
  exact ⟨s, hs, hlive, regions_hold calls_roundable hs⟩

/-- **Every call returns**: the loops of `mem_malloc` end, and `mem_trim` gives back the pointer it
was given. -/
theorem calls_return (hG : Along step Roundable (init r) es) (hr : run step (init r) es = some s) :
    (∀ size, memMalloc s.heap size ≠ none) ∧
    ∀ x ∈ s.live, ∀ newsize ≤ x.data.length, (memTrim s.heap x.ptr newsize).2 = some x.ptr := by
  obtain ⟨bs, hi⟩ := exists_inv hG hr
  constructor
  · intro size hnone
    rcases memMalloc_spec hi.shaped size with ⟨hsome, -⟩ | ⟨_, _, _, _, _, _, _, _, hsome, -⟩
    · rw [hnone] at hsome
      cases hsome
    · rw [hnone] at hsome
      cases hsome
  · intro x hx newsize hsize
    obtain ⟨_, _, _, _, _, _, _, hret, -⟩ := hi.memTrim hx hsize
    exact hret

theorem calls_return_calls : ∃ s, run step (init fun _ => 0) calls = some s ∧
    memMalloc s.heap 1460 ≠ none := by
  obtain ⟨s, hs, -⟩ := exists_calls
  exact ⟨s, hs, (calls_return calls_roundable hs).1 1460⟩

/-- **`mem_malloc` fails only if there is no room**: it returns NULL exactly if nothing is requested
or every stretch of the heap that would hold the block and its header meets a used block. -/
theorem malloc_null_iff (hG : Along step Roundable (init r) es) (hr : run step (init r) es = some s)
    (size : ℕ) : (∃ h, memMalloc s.heap size = some (h, none)) ↔
      size = 0 ∨ ∀ x, x + (sizeofStructMem + roundSize size) ≤ memSizeAligned →
        ∃ a n, (a, n) ∈ allocated 0 (blocks s.heap.ram memSizeAligned 0) ∧
          a < x + (sizeofStructMem + roundSize size) ∧ x < a + n := by
  obtain ⟨bs, hi⟩ := exists_inv hG hr
  obtain ⟨hrows, hcoal, -⟩ := hi.shaped
  rw [hrows.blocks]
  rcases memMalloc_spec hi.shaped size with
    ⟨hnone, hwhy⟩ | ⟨h', xs, m, ys, bs', k, hne, rfl, hsome, -, hk, hkm, -⟩
  · refine iff_of_true ⟨_, hnone⟩ (hwhy.imp_right fun hsmall x hx => ?_)
    by_contra hgap
    have hfree : ∀ y n, (y, n) ∈ allocated 0 bs →
        y + n ≤ x ∨ x + (sizeofStructMem + roundSize size) ≤ y := by
      intro y n hy
      by_contra hmeets
      exact hgap ⟨y, n, hy, by omega, by omega⟩
    have hpos : 0 < sizeofStructMem + roundSize size := by
      unfold sizeofStructMem
      omega
    obtain ⟨c, b, hc, hu, hlo, hhi⟩ := hcoal.gap hpos (Nat.zero_le x)
      (by rw [hrows.covers]; omega) hfree
    have := hsmall b (mem_of_placed hc) hu
    omega
  · refine iff_of_false ?_ ?_
    · rintro ⟨h, hnone⟩
      rw [hsome] at hnone
      cases hnone
    · rintro (hzero | hall)
      · exact hne hzero
      · -- the block that was taken is a free stretch
        have hcov := hrows.covers
        rw [total_append, total_cons] at hcov
        simp only at hcov
        obtain ⟨a, n, ha, hlt, hgt⟩ := hall (total xs) (by omega)
        have hold : allocated 0 (xs ++ ⟨m, false⟩ :: ys) =
            allocated 0 xs ++ allocated (total xs + m) ys := by simp
        rw [hold] at ha
        rcases List.mem_append.mp ha with ha | ha
        · have := (bounds_of_mem (mem_allocated.mp ha)).2
          simp only at this
          omega
        · have := (bounds_of_mem (mem_allocated.mp ha)).1
          omega

theorem malloc_null_iff_calls : ∃ s, run step (init fun _ => 0) calls = some s ∧
    ((∃ h, memMalloc s.heap 1460 = some (h, none)) ↔
      1460 = 0 ∨ ∀ x, x + (sizeofStructMem + roundSize 1460) ≤ memSizeAligned →
        ∃ a n, (a, n) ∈ allocated 0 (blocks s.heap.ram memSizeAligned 0) ∧
          a < x + (sizeofStructMem + roundSize 1460) ∧ x < a + n) := by
  obtain ⟨s, hs, -⟩ := exists_calls
  exact ⟨s, hs, malloc_null_iff calls_roundable hs 1460⟩

/-- **Nothing is lost**: when all regions have been given back, the heap is one free block again,
however they were allocated, shrunk and freed. -/
theorem given_back (hG : Along step Roundable (init r) es) (hr : run step (init r) es = some s)
    (hnone : s.live = []) :
    blocks s.heap.ram memSizeAligned 0 = [⟨memSizeAligned, false⟩] ∧ s.heap.lfree = 0 := by
  obtain ⟨bs, hi⟩ := exists_inv hG hr
  obtain ⟨hrows, hcoal, hlow⟩ := hi.shaped
  have halloc : allocated 0 bs = [] := by
    refine List.eq_nil_iff_forall_not_mem.mpr fun ⟨a, n⟩ ha => ?_
    obtain ⟨x, hx, -⟩ := hi.owned a n ha
    rw [hnone] at hx
    cases hx
  have hne : bs ≠ [] := by
    rintro rfl
    exact absurd hrows.covers (by decide)
  have hbs := hcoal.eq_singleton hne halloc
  rw [hrows.covers] at hbs
  subst hbs
  exact ⟨hrows.blocks, hlow⟩

theorem given_back_two : ∃ s, run step (init fun _ => 0)
    [.malloc 100, .malloc 200, .trim 116 20, .free 8, .free 116] = some s ∧
    blocks s.heap.ram memSizeAligned 0 = [⟨memSizeAligned, false⟩] := by
  have hlive : ((run step (init fun _ => 0)
      [.malloc 100, .malloc 200, .trim 116 20, .free 8, .free 116]).map State.live) = some [] := by
    decide +kernel
  obtain ⟨s, hs, hnone⟩ := Option.map_eq_some_iff.mp hlive
  exact ⟨s, hs, (given_back (by decide +kernel) hs hnone).1⟩

/-- **A request of more than 65532 bytes is granted too small a block**: rounded up to a multiple of
4 it does not fit a `mem_size_t`. -/
theorem granted_enough_iff (hG : Along step Roundable (init r) es)
    (hr : run step (init r) es = some s) {size p : ℕ} {h : Heap} (hsize : size < 65536)
    (hm : memMalloc s.heap size = some (h, some p)) :
    (∃ n, (p - sizeofStructMem, n) ∈ allocated 0 (blocks h.ram memSizeAligned 0) ∧
      sizeofStructMem + size ≤ n) ↔ size ≤ 65532 := by
  obtain ⟨bs, hi⟩ := exists_inv hG hr
  rcases memMalloc_spec hi.shaped size with
    ⟨hnone, -⟩ | ⟨h', xs, m, ys, bs', k, hne, rfl, hsome, hshaped, hk, hkm, halloc, -⟩
  · rw [hnone] at hm
    cases hm
  rw [hsome] at hm
  cases hm
  rw [hshaped.rows.blocks, Nat.add_sub_cancel]
  constructor
  · rintro ⟨n, hn, hle⟩
    have := size_le_total (mem_of_placed (mem_allocated.mp hn))
    rw [hshaped.rows.covers] at this
    unfold memSizeAligned at this
    simp only at this
    omega
  · intro hle
    have := le_roundSize hle
    refine ⟨k, ?_, by omega⟩
    rw [halloc]
    simp

theorem granted_enough_iff_calls : ∃ s, run step (init fun _ => 0) calls = some s ∧
    ∃ h p, memMalloc s.heap 65533 = some (h, some p) ∧
      ¬ ∃ n, (p - sizeofStructMem, n) ∈ allocated 0 (blocks h.ram memSizeAligned 0) ∧
        sizeofStructMem + 65533 ≤ n := by
  have hp : ((run step (init fun _ => 0) calls).bind fun s =>
      (memMalloc s.heap 65533).bind Prod.snd) = some 68 := by
    decide +kernel
  obtain ⟨s, hs, hm⟩ := Option.bind_eq_some_iff.mp hp
  obtain ⟨⟨h, q⟩, hm, rfl⟩ := Option.bind_eq_some_iff.mp hm
  exact ⟨s, hs, h, 68, hm, fun hn =>
    absurd ((granted_enough_iff calls_roundable hs (by omega) hm).mp hn) (by omega)⟩

end

end Stm32TcpServer.Lwip.Mem
