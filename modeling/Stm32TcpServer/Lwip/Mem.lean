import Mathlib.Logic.Function.Basic
import Stm32TcpServer.Lib.Blocks

/-! # The heap (mem.c)

`mem_malloc`, `mem_free` and `mem_trim` on the bytes of the heap. A block begins with its
`struct mem`, the indices of the next and the previous block and a flag; the data follow. A pointer
is its offset from `ram`, NULL is `none`. `mem_size_t` is a `u16_t`, since `MEM_SIZE` is 32000.

`Rows`: how the headers divide the heap into a row of blocks; `Rows.replace`: a part of the row is
replaced by other blocks; `blocks`: the row, read by walking the headers. -/

namespace Stm32TcpServer.Lwip.Mem

open Stm32TcpServer.Lib.Blocks

/-! ### The code -/

/-- The bytes from `ram` on. -/
abbrev Ram := ℕ → UInt8

/-- `SIZEOF_STRUCT_MEM`. -/
abbrev sizeofStructMem : ℕ := 8
/-- `MIN_SIZE_ALIGNED`. -/
abbrev minSizeAligned : ℕ := 12
/-- `MEM_SIZE_ALIGNED`, the offset of `ram_end`. -/
abbrev memSizeAligned : ℕ := 32000

/-- `LWIP_MEM_ALIGN_SIZE(size)`, stored in a `mem_size_t`. -/
def lwipMemAlignSize (size : ℕ) : ℕ := (size + 3) / 4 * 4 % 65536

/-- `struct mem`. -/
structure StructMem where
  next : ℕ
  prev : ℕ
  used : UInt8
  deriving DecidableEq

/-- The `mem_size_t` at the offset `a`. -/
def u16At (r : Ram) (a : ℕ) : ℕ := (r a).toNat + 256 * (r (a + 1)).toNat

/-- Writes it. -/
def setU16 (r : Ram) (a v : ℕ) : Ram :=
  Function.update (Function.update r a (UInt8.ofNat v)) (a + 1) (UInt8.ofNat (v / 256))

/-- The `struct mem` at `&ram[a]`. -/
def memAt (r : Ram) (a : ℕ) : StructMem where
  next := u16At r a
  prev := u16At r (a + 2)
  used := r (a + 4)

/-- `mem->next = v;` -/
def setNext (r : Ram) (a v : ℕ) : Ram := setU16 r a v
/-- `mem->prev = v;` -/
def setPrev (r : Ram) (a v : ℕ) : Ram := setU16 r (a + 2) v
/-- `mem->used = v;` -/
def setUsed (r : Ram) (a : ℕ) (v : UInt8) : Ram := Function.update r (a + 4) v

/-- **The heap**: its bytes and `lfree`. -/
structure Heap where
  ram : Ram
  lfree : ℕ

/-- **`mem_init()`.** -/
def memInit (r : Ram) : Heap :=
  let r := setUsed (setPrev (setNext r 0 memSizeAligned) 0 0) 0 0
  let r := setUsed r memSizeAligned 1
  let r := setPrev (setNext r memSizeAligned memSizeAligned) memSizeAligned memSizeAligned
  { ram := r, lfree := 0 }

/-- `mem->next = nmem->next; ((struct mem *)&ram[nmem->next])->prev = mem;` -/
def unlink (r : Ram) (mem nmem : ℕ) : Ram :=
  let r := setNext r mem (memAt r nmem).next
  setPrev r (memAt r nmem).next mem

/-- The first half of `plug_holes`: plug hole forward. -/
def plugForward (h : Heap) (mem : ℕ) : Heap :=
  let nmem := (memAt h.ram mem).next
  if mem ≠ nmem ∧ (memAt h.ram nmem).used = 0 ∧ nmem ≠ memSizeAligned then
    let lfree := if h.lfree = nmem then mem else h.lfree
    { ram := unlink h.ram mem nmem, lfree := lfree }
  else h

/-- The second half: plug hole backward. -/
def plugBackward (h : Heap) (mem : ℕ) : Heap :=
  let pmem := (memAt h.ram mem).prev
  if pmem ≠ mem ∧ (memAt h.ram pmem).used = 0 then
    let lfree := if h.lfree = mem then pmem else h.lfree
    { ram := unlink h.ram pmem mem, lfree := lfree }
  else h

/-- **`plug_holes(mem)`.** -/
def plugHoles (h : Heap) (mem : ℕ) : Heap := plugBackward (plugForward h mem) mem

/-- **`mem_free(rmem)`.** -/
def memFree (h : Heap) : Option ℕ → Heap
  | none => h
  | some rmem =>
    if memSizeAligned ≤ rmem then h
    else
      let mem := rmem - sizeofStructMem
      let ram := setUsed h.ram mem 0
      let lfree := if mem < h.lfree then mem else h.lfree
      plugHoles { ram := ram, lfree := lfree } mem

/-- The requested size as `mem_malloc` and `mem_trim` round it. -/
def roundSize (size : ℕ) : ℕ :=
  let size := lwipMemAlignSize size
  if size < minSizeAligned then minSizeAligned else size

/-- `((struct mem *)&ram[mem2->next])->prev = ptr2;`, but only if `mem2->next` is not the end of the
heap. -/
def linkBack (r : Ram) (ptr2 : ℕ) : Ram :=
  if (memAt r ptr2).next ≠ memSizeAligned then setPrev r (memAt r ptr2).next ptr2 else r

/-- **`mem_trim(rmem, newsize)`.** -/
def memTrim (h : Heap) (rmem newsize : ℕ) : Heap × Option ℕ :=
  let newsize := roundSize newsize
  if memSizeAligned < newsize then (h, none)
  else if memSizeAligned ≤ rmem then (h, some rmem)
  else
    let ptr := rmem - sizeofStructMem
    let size := (((memAt h.ram ptr).next - ptr - sizeofStructMem : ℤ) % 65536).toNat
    if size < newsize then (h, none)
    else if newsize = size then (h, some rmem)
    else
      let mem2 := (memAt h.ram ptr).next
      let ptr2 := ptr + sizeofStructMem + newsize
      if (memAt h.ram mem2).used = 0 then
        let next := (memAt h.ram mem2).next
        let lfree := if h.lfree = mem2 then ptr2 else h.lfree
        let ram := setPrev (setNext (setUsed h.ram ptr2 0) ptr2 next) ptr2 ptr
        let ram := setNext ram ptr ptr2
        ({ ram := linkBack ram ptr2, lfree := lfree }, some rmem)
      else if newsize + sizeofStructMem + minSizeAligned ≤ size then
        let lfree := if ptr2 < h.lfree then ptr2 else h.lfree
        let ram := setUsed h.ram ptr2 0
        let ram := setPrev (setNext ram ptr2 (memAt ram ptr).next) ptr2 ptr
        let ram := setNext ram ptr ptr2
        ({ ram := linkBack ram ptr2, lfree := lfree }, some rmem)
      else (h, some rmem)

/-- `mem->next - (ptr + SIZEOF_STRUCT_MEM)`, the user data size of the block, an `unsigned int`. -/
def userDataSize (r : Ram) (ptr : ℕ) : ℕ :=
  (((memAt r ptr).next - (ptr + sizeofStructMem) : ℤ) % 4294967296).toNat

/-- The search of `mem_malloc` from `ptr` on, in at most `fuel` steps: a block that is free and big
enough. -/
def search (r : Ram) (size : ℕ) : ℕ → ℕ → Option (Option ℕ)
  | 0, _ => none
  | fuel + 1, ptr =>
    if ptr < memSizeAligned - size then
      if (memAt r ptr).used = 0 ∧ size ≤ userDataSize r ptr then
        some (some ptr)
      else search r size fuel (memAt r ptr).next
    else some none

/-- The block `ptr` is taken; what it does not need becomes a block of its own. -/
def takeBlock (r : Ram) (ptr size : ℕ) : Ram :=
  if size + sizeofStructMem + minSizeAligned ≤ userDataSize r ptr then
    let ptr2 := ptr + sizeofStructMem + size
    let r := setUsed r ptr2 0
    let r := setPrev (setNext r ptr2 (memAt r ptr).next) ptr2 ptr
    linkBack (setUsed (setNext r ptr ptr2) ptr 1) ptr2
  else setUsed r ptr 1

/-- The search for the next free block, in at most `fuel` steps. -/
def nextFree (r : Ram) : ℕ → ℕ → Option ℕ
  | 0, _ => none
  | fuel + 1, cur =>
    if (memAt r cur).used ≠ 0 ∧ cur ≠ memSizeAligned then nextFree r fuel (memAt r cur).next
    else some cur

/-- **`mem_malloc(size)`**; `none` if a loop takes more steps than the heap has bytes. -/
def memMalloc (h : Heap) (size : ℕ) : Option (Heap × Option ℕ) :=
  if size = 0 then some (h, none)
  else
    let size := roundSize size
    if memSizeAligned < size then some (h, none)
    else
      match search h.ram size memSizeAligned h.lfree with
      | none => none
      | some none => some (h, none)
      | some (some ptr) =>
        let ram := takeBlock h.ram ptr size
        if ptr = h.lfree then
          (nextFree ram memSizeAligned ptr).map fun cur =>
            ({ ram := ram, lfree := cur }, some (ptr + sizeofStructMem))
        else some ({ ram := ram, lfree := h.lfree }, some (ptr + sizeofStructMem))

/-! ### Headers in the bytes -/

/-- Two headers that do not overlap. -/
def Apart (a b : ℕ) : Prop := a + sizeofStructMem ≤ b ∨ b + sizeofStructMem ≤ a

theorem Apart.symm {a b : ℕ} (h : Apart a b) : Apart b a := Or.symm h

section
variable {r : Ram} {a b v : ℕ}

theorem setU16_of_ne {i : ℕ} (h : i < a ∨ a + 2 ≤ i) : setU16 r a v i = r i := by
  unfold setU16
  rw [Function.update_of_ne (by omega), Function.update_of_ne (by omega)]

theorem u16At_setU16 (r : Ram) (a : ℕ) (hv : v < 65536) : u16At (setU16 r a v) a = v := by
  unfold u16At setU16
  rw [Function.update_of_ne (by omega), Function.update_self, Function.update_self,
    UInt8.toNat_ofNat', UInt8.toNat_ofNat']
  omega

theorem u16At_setU16_of_ne (h : b + 2 ≤ a ∨ a + 2 ≤ b) :
    u16At (setU16 r a v) b = u16At r b := by
  unfold u16At
  rw [setU16_of_ne (by omega), setU16_of_ne (by omega)]

theorem memAt_setNext (r : Ram) (a : ℕ) (hv : v < 65536) :
    memAt (setNext r a v) a = { memAt r a with next := v } := by
  unfold memAt setNext
  rw [u16At_setU16 r a hv, u16At_setU16_of_ne (by omega), setU16_of_ne (by omega)]

theorem memAt_setPrev (r : Ram) (a : ℕ) (hv : v < 65536) :
    memAt (setPrev r a v) a = { memAt r a with prev := v } := by
  unfold memAt setPrev
  rw [u16At_setU16 r _ hv, u16At_setU16_of_ne (by omega), setU16_of_ne (by omega)]

theorem memAt_setUsed (r : Ram) (a : ℕ) (u : UInt8) :
    memAt (setUsed r a u) a = { memAt r a with used := u } := by
  unfold memAt setUsed u16At
  rw [Function.update_self, Function.update_of_ne (by omega), Function.update_of_ne (by omega),
    Function.update_of_ne (by omega), Function.update_of_ne (by omega)]

theorem memAt_congr {r' : Ram} (h : ∀ i < 5, r' (b + i) = r (b + i)) : memAt r' b = memAt r b := by
  have h0 : r' b = r b := h 0 (by omega)
  unfold memAt u16At
  rw [h0, h 1 (by omega), h 2 (by omega), show b + 2 + 1 = b + 3 by omega, h 3 (by omega),
    h 4 (by omega)]

theorem setNext_of_ne {i : ℕ} (h : i < a ∨ a + sizeofStructMem ≤ i) : setNext r a v i = r i :=
  setU16_of_ne (by unfold sizeofStructMem at h; omega)

theorem setPrev_of_ne {i : ℕ} (h : i < a ∨ a + sizeofStructMem ≤ i) : setPrev r a v i = r i :=
  setU16_of_ne (by unfold sizeofStructMem at h; omega)

theorem setUsed_of_ne {i : ℕ} {u : UInt8} (h : i < a ∨ a + sizeofStructMem ≤ i) :
    setUsed r a u i = r i :=
  Function.update_of_ne (by unfold sizeofStructMem at h; omega) _ _

theorem memAt_setNext_of_apart (h : Apart a b) : memAt (setNext r a v) b = memAt r b :=
  memAt_congr fun i hi => setNext_of_ne (by unfold Apart sizeofStructMem at *; omega)

theorem memAt_setPrev_of_apart (h : Apart a b) : memAt (setPrev r a v) b = memAt r b :=
  memAt_congr fun i hi => setPrev_of_ne (by unfold Apart sizeofStructMem at *; omega)

theorem memAt_setUsed_of_apart {u : UInt8} (h : Apart a b) :
    memAt (setUsed r a u) b = memAt r b :=
  memAt_congr fun i hi => setUsed_of_ne (by unfold Apart sizeofStructMem at *; omega)

end

/-! ### Rows of blocks -/

/-- The header of the block `b` at `a`, behind the block at `prev`. -/
def header (prev a : ℕ) (b : Block) : StructMem where
  next := a + b.size
  prev := prev
  used := if b.used then 1 else 0

/-- **The headers of the row** that begins at `a`, behind the block at `prev`. -/
def Row (r : Ram) : ℕ → ℕ → List Block → Prop
  | _, _, [] => True
  | prev, a, b :: bs => memAt r a = header prev a b ∧ Row r a (a + b.size) bs

/-- The address of the last block of the row, or `prev`. -/
def lastAddr : ℕ → ℕ → List Block → ℕ
  | prev, _, [] => prev
  | _, a, b :: bs => lastAddr a (a + b.size) bs

@[simp] theorem lastAddr_concat (prev a : ℕ) (xs : List Block) (b : Block) :
    lastAddr prev a (xs ++ [b]) = a + total xs := by
  induction xs generalizing prev a with
  | nil => rfl
  | cons c xs ih => rw [List.cons_append, lastAddr, ih, total_cons, Nat.add_assoc]

theorem row_append {r : Ram} {prev a : ℕ} {xs ys : List Block} : Row r prev a (xs ++ ys) ↔
    Row r prev a xs ∧ Row r (lastAddr prev a xs) (a + total xs) ys := by
  induction xs generalizing prev a with
  | nil => simp [Row, lastAddr]
  | cons b xs ih =>
    rw [List.cons_append, Row, Row, lastAddr, total_cons, ih, and_assoc, Nat.add_assoc]

theorem Row.congr {r r' : Ram} {prev a : ℕ} {bs : List Block} (h : Row r prev a bs)
    (hr : ∀ c b, (c, b) ∈ placed a bs → memAt r' c = memAt r c) : Row r' prev a bs := by
  induction bs generalizing prev a with
  | nil => trivial
  | cons b bs ih =>
    refine ⟨(hr a b List.mem_cons_self).trans h.1, ih h.2 fun c d hc => ?_⟩
    exact hr c d (List.mem_cons_of_mem _ hc)

theorem Row.relink {r r' : Ram} {prev prev' a : ℕ} {bs : List Block} (h : Row r prev a bs)
    (hbig : ∀ b ∈ bs, sizeofStructMem ≤ b.size)
    (hhead : bs ≠ [] → memAt r' a = { memAt r a with prev := prev' })
    (htail : ∀ c, a + sizeofStructMem ≤ c → memAt r' c = memAt r c) : Row r' prev' a bs := by
  cases bs with
  | nil => trivial
  | cons b bs =>
    refine ⟨?_, h.2.congr fun c d hc => htail c ?_⟩
    · rw [hhead (List.cons_ne_nil _ _), h.1]
      rfl
    · have hlo := (bounds_of_mem hc).1
      have hb := hbig b List.mem_cons_self
      omega

/-- **The heap is divided into the blocks `bs`.** -/
structure Rows (r : Ram) (bs : List Block) : Prop where
  row : Row r 0 0 bs
  big : ∀ b ∈ bs, sizeofStructMem + minSizeAligned ≤ b.size
  aligned : ∀ b ∈ bs, b.size % 4 = 0
  covers : total bs = memSizeAligned
  endUsed : (memAt r memSizeAligned).used ≠ 0

section
variable {r r' : Ram} {b c : Block} {bs xs ys old mid : List Block}

theorem Rows.pos (h : Rows r bs) (hb : b ∈ bs) : 0 < b.size := by
  have := h.big b hb
  unfold sizeofStructMem at this
  omega

theorem Rows.header_at (h : Rows r (xs ++ b :: ys)) :
    memAt r (total xs) = header (lastAddr 0 0 xs) (total xs) b := by
  have := (row_append.mp h.row).2.1
  rwa [Nat.zero_add] at this

theorem Rows.header_next (h : Rows r (xs ++ b :: c :: ys)) :
    memAt r (total xs + b.size) = header (total xs) (total xs + b.size) c := by
  have h' : Rows r ((xs ++ [b]) ++ c :: ys) := by
    rw [List.append_assoc]
    exact h
  have := h'.header_at
  rwa [lastAddr_concat, total_append, total_cons, total_nil, Nat.add_zero, Nat.zero_add] at this

theorem Rows.end_le (h : Rows r (xs ++ ys)) :
    total xs ≤ memSizeAligned ∧ (total xs = memSizeAligned ↔ ys = []) := by
  have ht := h.covers
  rw [total_append] at ht
  refine ⟨by omega, fun heq => ?_, ?_⟩
  · cases ys with
    | nil => rfl
    | cons c ys =>
      have := h.big c (by simp)
      rw [total_cons] at ht
      unfold sizeofStructMem at this
      omega
  · rintro rfl
    rw [total_nil] at ht
    omega

/-- **A part of the row is replaced.** The bytes before it stay as they are, and those behind it but
for the link of the next block. -/
theorem Rows.replace (h : Rows r (xs ++ old ++ ys)) (htotal : total mid = total old)
    (hbig : ∀ b ∈ mid, sizeofStructMem + minSizeAligned ≤ b.size)
    (haligned : ∀ b ∈ mid, b.size % 4 = 0)
    (hmid : Row r' (lastAddr 0 0 xs) (total xs) mid)
    (hnext : ∃ v, memAt r' (total xs + total old) =
        { memAt r (total xs + total old) with prev := v } ∧
      (ys ≠ [] → v = lastAddr (lastAddr 0 0 xs) (total xs) mid))
    (hlo : ∀ i < total xs, r' i = r i)
    (hhi : ∀ i, total xs + total old + sizeofStructMem ≤ i → r' i = r i) :
    Rows r' (xs ++ mid ++ ys) := by
  obtain ⟨hrow, hbig', haligned', hcovers, hend⟩ := h
  obtain ⟨v, hnext, hv⟩ := hnext
  rw [List.append_assoc, row_append, row_append, Nat.zero_add] at hrow
  obtain ⟨hxs, -, hys⟩ := hrow
  have hhi' : ∀ a, total xs + total old + sizeofStructMem ≤ a → memAt r' a = memAt r a :=
    fun a ha => memAt_congr fun i _ => hhi _ (by omega)
  have hsplit : ∀ b ∈ xs ++ mid ++ ys, b ∈ xs ++ old ++ ys ∨ b ∈ mid := by
    intro b hb
    simp only [List.mem_append] at hb ⊢
    tauto
  refine ⟨?_, fun b hb => ?_, fun b hb => ?_, ?_, ?_⟩
  · rw [List.append_assoc, row_append, row_append, Nat.zero_add, htotal]
    refine ⟨hxs.congr fun c b hc => ?_, hmid, hys.relink (fun b hb => ?_) (fun hne => ?_) hhi'⟩
    · have hle := (bounds_of_mem hc).2
      have hb := hbig' b (by simp [mem_of_placed hc])
      unfold sizeofStructMem at hb
      exact memAt_congr fun i hi => hlo _ (by omega)
    · have := hbig' b (by simp [hb])
      omega
    · rw [hnext, hv hne]
  · exact (hsplit b hb).elim (hbig' b) (hbig b)
  · exact (hsplit b hb).elim (haligned' b) (haligned b)
  · rw [← hcovers]
    simp only [total_append, htotal]
  · rw [total_append, total_append] at hcovers
    rcases ys with _ | ⟨c, zs⟩
    · rw [total_nil, Nat.add_zero] at hcovers
      rw [← hcovers] at hend ⊢
      rw [hnext]
      exact hend
    · have := hbig' c (by simp)
      rw [total_cons] at hcovers
      rw [hhi' _ (by omega)]
      exact hend

/-- The row, read by walking the headers from `a` on. -/
def blocks (r : Ram) : ℕ → ℕ → List Block
  | 0, _ => []
  | fuel + 1, a =>
    if a = memSizeAligned then []
    else ⟨(memAt r a).next - a, (memAt r a).used ≠ 0⟩ :: blocks r fuel (memAt r a).next

theorem blocks_eq {fuel : ℕ} (h : Rows r (xs ++ ys)) (hfuel : ys.length < fuel) :
    blocks r fuel (total xs) = ys := by
  induction fuel generalizing xs ys with
  | zero => omega
  | succ fuel ih =>
    rw [blocks]
    rcases ys with _ | ⟨⟨n, u⟩, ys⟩
    · exact if_pos (h.end_le.2.mpr rfl)
    · have hne : total xs ≠ memSizeAligned := fun he => by simpa using h.end_le.2.mp he
      have hnext : total xs + n = total (xs ++ [⟨n, u⟩]) := by simp
      rw [List.length_cons] at hfuel
      rw [if_neg hne, h.header_at]
      simp only [header]
      rw [hnext, ih (List.append_cons _ _ _ ▸ h) (by omega), ← hnext, Nat.add_sub_cancel_left]
      cases u <;> rfl

theorem Rows.length_lt (h : Rows r (xs ++ ys)) : ys.length < memSizeAligned := by
  have hle := mul_length_le_total h.big
  rw [h.covers, List.length_append] at hle
  unfold sizeofStructMem minSizeAligned memSizeAligned at *
  omega

/-- **The walk reads the row.** -/
theorem Rows.blocks (h : Rows r bs) : blocks r memSizeAligned 0 = bs := by
  have h' : Rows r ([] ++ bs) := h
  exact blocks_eq h' h'.length_lt

/-! ### What an edit touches -/

/-- An address where a header stands. -/
def IsHeader (bs : List Block) (c : ℕ) : Prop :=
  (∃ d, (c, d) ∈ placed 0 bs) ∨ memSizeAligned ≤ c

theorem Rows.isHeader (h : Rows r bs) (xs ys : List Block) (heq : bs = xs ++ ys) :
    IsHeader bs (total xs) := by
  subst heq
  rcases ys with _ | ⟨c, ys⟩
  · exact Or.inr (h.end_le.2.mpr rfl).ge
  · exact Or.inl ⟨c, by simp [placed_append]⟩

/-- **The data of the used blocks stay as they are.** -/
def Keeps (r r' : Ram) (bs : List Block) : Prop :=
  ∀ x n i, (x, n) ∈ allocated 0 bs → x + sizeofStructMem ≤ i → i < x + n → r' i = r i

theorem Keeps.refl (r : Ram) (bs : List Block) : Keeps r r bs := fun _ _ _ _ _ _ => rfl

theorem Keeps.trans {r'' : Ram} {bs' : List Block} (h : Keeps r r' bs) (h' : Keeps r' r'' bs')
    (ha : allocated 0 bs' = allocated 0 bs) : Keeps r r'' bs' := by
  intro x n i hx hlo hhi
  rw [h' x n i hx hlo hhi, h x n i (ha ▸ hx) hlo hhi]

/-- The data of a used block lie outside of all headers. -/
theorem Rows.data_apart {x n i c : ℕ} (h : Rows r bs) (hx : (x, n) ∈ allocated 0 bs)
    (hlo : x + sizeofStructMem ≤ i) (hhi : i < x + n) (hc : IsHeader bs c) :
    i < c ∨ c + sizeofStructMem ≤ i := by
  have hx' := mem_allocated.mp hx
  rcases hc with ⟨d, hd⟩ | hend
  · have hbig := h.big d (mem_of_placed hd)
    rcases eq_or_apart hd hx' with ⟨rfl, -⟩ | hapart | hapart
    · exact Or.inr hlo
    · exact Or.inr (by omega)
    · exact Or.inl (by simp only at hapart; omega)
  · have hle := (bounds_of_mem hx').2
    rw [h.covers] at hle
    exact Or.inl (by simp only at hle; omega)

theorem Rows.keeps {cs : List ℕ} (h : Rows r' bs) (hcs : ∀ c ∈ cs, IsHeader bs c)
    (hr : ∀ i, (∀ c ∈ cs, i < c ∨ c + sizeofStructMem ≤ i) → r' i = r i) : Keeps r r' bs :=
  fun _ _ i hx hlo hhi => hr i fun c hc => h.data_apart hx hlo hhi (hcs c hc)

theorem Rows.update {x n i : ℕ} (h : Rows r bs) (hx : (x, n) ∈ allocated 0 bs)
    (hlo : x + sizeofStructMem ≤ i) (hhi : i < x + n) (v : UInt8) :
    Rows (Function.update r i v) bs := by
  have hsame : ∀ c, IsHeader bs c → memAt (Function.update r i v) c = memAt r c := by
    intro c hc
    have := h.data_apart hx hlo hhi hc
    unfold sizeofStructMem at this
    exact memAt_congr fun j hj => Function.update_of_ne (by omega) _ _
  refine ⟨h.row.congr fun c b hc => hsame c (Or.inl ⟨b, hc⟩), h.big, h.aligned, h.covers, ?_⟩
  rw [hsame _ (Or.inr (Nat.le_refl _))]
  exact h.endUsed

end

end Stm32TcpServer.Lwip.Mem
