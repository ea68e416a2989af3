import Stm32TcpServer.Lib.Refcount
import Stm32TcpServer.Lwip.Pbuf

/-! # Pbufs in memory (pbuf.c)

A pbuf is linked to the next one of its chain and counts the pointers to itself. Pbufs with a buffer
come from one pool, those for data elsewhere from another one, and those of any size from the heap:
what `mem_malloc` returns is a parameter, the pools are their lists of free elements. What is freed
goes back to the pool that it came from. The clients hold pointers (`held`), which are not in this
memory.

`Good`: the counts are right, and an element of a pool is free or allocated. `Store.Total`: the
total lengths are right. `pbufFree_spec`, `pbufAlloc_pool`, `pbufAlloc_spec`: what these functions
do. -/

namespace Stm32TcpServer.Lwip.PbufRefs

open Stm32TcpServer.Lib.FreeList Stm32TcpServer.Lib.Refcount
open Stm32TcpServer.Lwip.Pbuf

/-! ### The code -/

/-- `pbuf_type`. -/
inductive PbufType
  | ram
  | rom
  | ref
  | pool
  deriving DecidableEq

/-- `pbuf_layer`. -/
inductive PbufLayer
  | transport
  | ip
  | link
  | raw

/-- `PBUF_LINK_HLEN`, `PBUF_IP_HLEN` and `PBUF_TRANSPORT_HLEN`, as far as there are headers below
the layer. -/
def PbufLayer.offset : PbufLayer → ℕ
  | .transport => 14 + 20 + 20
  | .ip => 14 + 20
  | .link => 14
  | .raw => 0

/-- `LWIP_MEM_ALIGN_SIZE(size)`. -/
def lwipMemAlignSize (size : ℕ) : ℕ := (size + 3) / 4 * 4

/-- The address of a pbuf. -/
abbrev Addr := ℕ

/-- **`struct pbuf`**; `offset` is how far the payload is behind it: the room for headers. -/
structure Pbuf where
  next : Option Addr
  offset : ℕ
  totLen : ℕ
  len : ℕ
  type : PbufType
  ref : ℕ
  deriving DecidableEq

/-- `memp_t`, as far as pbufs go. -/
inductive MempT
  | pbuf
  | pbufPool
  deriving DecidableEq

/-- The pool that pbufs of a type come from; the others come from the heap. -/
def PbufType.memp : PbufType → Option MempT
  | .ram => none
  | .rom | .ref => some .pbuf
  | .pool => some .pbufPool

/-- **The memory**: the pbufs, the addresses of those that are allocated, and the free elements of
the pools. -/
structure Store where
  pbuf : Addr → Pbuf
  live : List Addr
  free : MempT → List Addr

/-- The pbuf `p` changes. -/
def Store.modify (s : Store) (p : Addr) (f : Pbuf → Pbuf) : Store :=
  { s with pbuf := Function.update s.pbuf p (f (s.pbuf p)) }

/-- The pbuf `p` is allocated and set up. -/
def Store.alloc (s : Store) (p : Addr) (b : Pbuf) : Store :=
  { s with pbuf := Function.update s.pbuf p b, live := p :: s.live }

/-- The free elements of the pool `k` change. -/
def Store.setFree (s : Store) (k : MempT) (l : List Addr) : Store :=
  { s with free := Function.update s.free k l }

/-- `memp_free` or `mem_free` of the pbuf `p`. -/
def Store.dealloc (s : Store) (p : Addr) : Store :=
  let s := { s with live := s.live.erase p }
  match (s.pbuf p).type.memp with
  | some k => s.setFree k (p :: s.free k)
  | none => s

/-- The loop of `pbuf_free`, with the number of pbufs that it has freed; `none` if a pbuf is not
allocated. -/
def freeLoop : ℕ → Store → Option Addr → ℕ → Option (Store × ℕ)
  | _, s, none, count => some (s, count)
  | 0, _, some _, _ => none
  | fuel + 1, s, some p, count =>
    if p ∈ s.live then
      let ref := ((s.pbuf p).ref + 65535) % 65536
      let s := s.modify p fun b => { b with ref := ref }
      if ref = 0 then freeLoop fuel (s.dealloc p) (s.pbuf p).next ((count + 1) % 256)
      else some (s, count)
    else none

/-- **`pbuf_free(p)`.** -/
def pbufFree (s : Store) (p : Addr) : Option (Store × ℕ) := freeLoop s.live.length s (some p) 0

/-- The loop of `pbuf_alloc` over the pbufs behind the first, `rem` bytes being left to be placed
and `pool` being free: what it leaves, and whether there have been enough. -/
def allocTail : List Addr → Store → Addr → ℕ → Store × Bool
  | pool, s, _, 0 => (s.setFree .pbufPool pool, true)
  | [], s, _, _ + 1 => (s.setFree .pbufPool [], false)
  | q :: pool, s, r, rem + 1 =>
    let len := min (rem + 1) pbufPoolBufsize
    let s := s.alloc q
      { next := none, offset := 0, totLen := rem + 1, len := len, type := .pool, ref := 1 }
    allocTail pool (s.modify r fun b => { b with next := some q }) q (rem + 1 - len)

/-- **`pbuf_alloc(layer, length, type)`**, `ram` being what `mem_malloc` returns. -/
def pbufAlloc (s : Store) (layer : PbufLayer) (length : ℕ) (type : PbufType) (ram : Option Addr) :
    Option (Store × Option Addr) :=
  let offset := lwipMemAlignSize layer.offset
  match type with
  | .pool =>
    match s.free .pbufPool with
    | [] => some (s, none)
    | p :: pool =>
      let len := min length (pbufPoolBufsize - offset)
      let s := s.alloc p
        { next := none, offset := offset, totLen := length, len := len, type := .pool, ref := 1 }
      let r := allocTail pool s p (length - len)
      if r.2 then some (r.1, some p) else (pbufFree r.1 p).map fun x => (x.1, none)
  | .ram =>
    match ram with
    | none => some (s, none)
    | some p =>
      let b : Pbuf :=
        { next := none, offset := offset, totLen := length, len := length, type := .ram, ref := 1 }
      some (s.alloc p b, some p)
  | type =>
    match s.free .pbuf with
    | [] => some (s, none)
    | p :: rest =>
      let b : Pbuf :=
        { next := none, offset := 0, totLen := length, len := length, type := type, ref := 1 }
      some ((s.setFree .pbuf rest).alloc p b, some p)

/-- **`pbuf_ref(p)`.** -/
def pbufRef (s : Store) (p : Addr) : Store :=
  s.modify p fun b => { b with ref := (b.ref + 1) % 65536 }

/-- The loop of `pbuf_cat`, from `p` to the last pbuf, and what it does there. -/
def catLoop : ℕ → Store → Addr → Addr → Option Store
  | 0, _, _, _ => none
  | fuel + 1, s, p, t =>
    let total := ((s.pbuf p).totLen + (s.pbuf t).totLen) % 65536
    match (s.pbuf p).next with
    | some q => catLoop fuel (s.modify p fun b => { b with totLen := total }) q t
    | none => some (s.modify p fun b => { b with totLen := total, next := some t })

/-- **`pbuf_cat(h, t)`.** -/
def pbufCat (s : Store) (h t : Addr) : Option Store := catLoop s.live.length s h t

/-- **`pbuf_chain(h, t)`.** -/
def pbufChain (s : Store) (h t : Addr) : Option Store := (pbufCat s h t).map fun s => pbufRef s t

/-- **`pbuf_dechain(p)`**, with what it returns. -/
def pbufDechain (s : Store) (p : Addr) : Option (Store × Option Addr) :=
  match (s.pbuf p).next with
  | none => some (s, none)
  | some q =>
    let total := ((s.pbuf p).totLen + 65536 - (s.pbuf p).len) % 65536
    let s := s.modify q fun b => { b with totLen := total }
    let s := s.modify p fun b => { b with next := none, totLen := b.len }
    (pbufFree s q).map fun x => (x.1, if 0 < x.2 then none else some q)

/-- The loop of `pbuf_realloc` over the pbufs that stay, `rem` bytes of the new length being left
and `shrink` bytes going, and what it does with the last of them; `none` if there are too few. -/
def reallocLoop : ℕ → Store → Addr → ℕ → ℕ → Option Store
  | 0, _, _, _, _ => none
  | fuel + 1, s, q, rem, shrink =>
    if (s.pbuf q).len < rem then
      match (s.pbuf q).next with
      | some r =>
        let total := ((s.pbuf q).totLen + 65536 - shrink) % 65536
        reallocLoop fuel (s.modify q fun b => { b with totLen := total }) r (rem - (s.pbuf q).len)
          shrink
      | none => none
    else
      let s := s.modify q fun b => { b with len := rem, totLen := rem }
      match (s.pbuf q).next with
      | some r => (pbufFree s r).map fun x => x.1.modify q fun b => { b with next := none }
      | none => some s

/-- **`pbuf_realloc(p, new_len)`**; `mem_trim` leaves the pbuf where it is. -/
def pbufRealloc (s : Store) (p : Addr) (newLen : ℕ) : Option Store :=
  if (s.pbuf p).totLen ≤ newLen then some s
  else reallocLoop s.live.length s p newLen ((s.pbuf p).totLen - newLen)

/-- A length changes by `inc`, in 16 bits. -/
def addU16 (n : ℕ) (inc : ℤ) : ℕ := (((n : ℤ) + inc) % 65536).toNat

/-- **`pbuf_header(p, header_size_increment)`**, with whether it fails. -/
def pbufHeader (s : Store) (p : Addr) (inc : ℤ) : Store × Bool :=
  let b := s.pbuf p
  if inc = 0 then (s, false)
  else if inc < 0 ∧ (b.len : ℤ) < -inc then (s, true)
  else if (b.type = .ram ∨ b.type = .pool) ∧ (b.offset : ℤ) < inc then (s, true)
  else if (b.type = .rom ∨ b.type = .ref) ∧ 0 < inc then (s, true)
  else
    (s.modify p fun b => { b with
      offset := (b.offset - inc).toNat
      len := addU16 b.len inc
      totLen := addU16 b.totLen inc }, false)

/-- The pbufs of the chain that begins with `p`. -/
def chainOf : ℕ → Store → Option Addr → List Addr
  | 0, _, _ => []
  | _ + 1, _, none => []
  | fuel + 1, s, some p => p :: chainOf fuel s (s.pbuf p).next

/-- The pbufs of the chain that begins with `p`. -/
def Store.chain (s : Store) (p : Addr) : List Addr := chainOf s.live.length s (some p)

/-! ### What holds between calls -/

/-- The links. -/
def Store.next (s : Store) : Addr → Option Addr := fun p => (s.pbuf p).next
/-- The reference counts. -/
def Store.ref (s : Store) : Addr → ℕ := fun p => (s.pbuf p).ref

/-- The addresses of the elements of the pools. -/
structure Pools where
  elems : MempT → List Addr
  nodup : ∀ k, (elems k).Nodup
  apart : ∀ k k', ∀ p ∈ elems k, p ∈ elems k' → k = k'

/-- **The memory is in order**: the counts are right and do not overflow, each element of a pool is
free or allocated, and what comes from the heap is no element of a pool. -/
structure Good (m : Pools) (s : Store) (held : List Addr) : Prop where
  counted : Counted s.next s.ref s.live held
  small : ∀ p ∈ s.live, s.ref p < 65536
  pool : ∀ k, (s.free k ++ s.live.filter fun p => (s.pbuf p).type.memp = some k).Perm (m.elems k)
  ram : ∀ p ∈ s.live, (s.pbuf p).type.memp = none → ∀ k, p ∉ m.elems k

section
variable {m : Pools} {s s' : Store} {held hs l : List Addr} {p q t : Addr} {b : Pbuf}
  {f g : Pbuf → Pbuf}

@[simp] theorem modify_live (s : Store) (p : Addr) (f : Pbuf → Pbuf) :
    (s.modify p f).live = s.live := rfl
@[simp] theorem modify_free (s : Store) (p : Addr) (f : Pbuf → Pbuf) :
    (s.modify p f).free = s.free := rfl
@[simp] theorem setFree_free (s : Store) (k : MempT) (l : List Addr) :
    (s.setFree k l).free = Function.update s.free k l := rfl
@[simp] theorem setFree_live (s : Store) (k : MempT) (l : List Addr) :
    (s.setFree k l).live = s.live := rfl
@[simp] theorem setFree_pbuf (s : Store) (k : MempT) (l : List Addr) :
    (s.setFree k l).pbuf = s.pbuf := rfl
@[simp] theorem modify_self (s : Store) (p : Addr) (f : Pbuf → Pbuf) :
    (s.modify p f).pbuf p = f (s.pbuf p) := Function.update_self ..
theorem modify_of_ne (s : Store) (f : Pbuf → Pbuf) (h : q ≠ p) :
    (s.modify p f).pbuf q = s.pbuf q := Function.update_of_ne h ..

theorem modify_next (s : Store) (p : Addr) (f : Pbuf → Pbuf) :
    (s.modify p f).next = Function.update s.next p (f (s.pbuf p)).next := by
  funext q
  unfold Store.next
  rcases eq_or_ne q p with rfl | hne
  · rw [modify_self, Function.update_self]
  · rw [modify_of_ne s f hne, Function.update_of_ne hne]

theorem modify_ref (s : Store) (p : Addr) (f : Pbuf → Pbuf) :
    (s.modify p f).ref = Function.update s.ref p (f (s.pbuf p)).ref := by
  funext q
  unfold Store.ref
  rcases eq_or_ne q p with rfl | hne
  · rw [modify_self, Function.update_self]
  · rw [modify_of_ne s f hne, Function.update_of_ne hne]

theorem modify_next_eq (s : Store) (h : (f (s.pbuf p)).next = (s.pbuf p).next) :
    (s.modify p f).next = s.next := by
  rw [modify_next, h]
  exact Function.update_eq_self p s.next

theorem modify_ref_eq (s : Store) (h : (f (s.pbuf p)).ref = (s.pbuf p).ref) :
    (s.modify p f).ref = s.ref := by
  rw [modify_ref, h]
  exact Function.update_eq_self p s.ref

theorem modify_type (s : Store) (p : Addr) (hf : ∀ b, (f b).type = b.type) (q : Addr) :
    ((s.modify p f).pbuf q).type = (s.pbuf q).type := by
  rcases eq_or_ne q p with rfl | hne
  · rw [modify_self, hf]
  · rw [modify_of_ne s f hne]

theorem modify_comm (s : Store) (h : p ≠ q) (f g : Pbuf → Pbuf) :
    (s.modify p f).modify q g = (s.modify q g).modify p f := by
  unfold Store.modify
  simp only [Function.update_of_ne h, Function.update_of_ne h.symm]
  rw [Function.update_comm h]

theorem Good.of_counted (h : Good m s held) (hc : Counted s'.next s'.ref s'.live hs)
    (hsmall : ∀ p ∈ s'.live, s'.ref p < 65536) (hlive : s'.live = s.live) (hfree : s'.free = s.free)
    (htype : ∀ p, (s'.pbuf p).type = (s.pbuf p).type) : Good m s' hs := by
  refine ⟨hc, hsmall, ?_, ?_⟩
  · simp only [hlive, hfree, htype]
    exact h.pool
  · simp only [hlive, htype]
    exact h.ram

theorem Good.perm (h : Good m s held) (hp : held.Perm hs) : Good m s hs :=
  ⟨h.counted.perm hp, h.small, h.pool, h.ram⟩

theorem Good.modify (h : Good m s held) (hnext : (f (s.pbuf p)).next = (s.pbuf p).next)
    (href : (f (s.pbuf p)).ref = (s.pbuf p).ref) (htype : ∀ b, (f b).type = b.type) :
    Good m (s.modify p f) held := by
  have hn := modify_next_eq s hnext
  have hr := modify_ref_eq s href
  refine h.of_counted ?_ ?_ rfl rfl (modify_type s p htype)
  · rw [hn, hr]
    exact h.counted
  · rw [hr]
    exact h.small

theorem Good.not_live (h : Good m s held) {k : MempT} (hp : p ∈ s.free k) : p ∉ s.live := by
  intro hl
  have hk : p ∈ m.elems k := (h.pool k).mem_iff.mp (List.mem_append_left _ hp)
  cases ht : (s.pbuf p).type.memp with
  | none => exact h.ram p hl ht k hk
  | some k' =>
    have hin : p ∈ s.live.filter fun p => (s.pbuf p).type.memp = some k' := by simp [hl, ht]
    obtain rfl := m.apart k' k p ((h.pool k').mem_iff.mp (List.mem_append_right _ hin)) hk
    have hnd := List.nodup_append.mp ((h.pool k').nodup_iff.mpr (m.nodup k'))
    exact hnd.2.2 p hp p hin rfl

theorem filter_erase_perm (hp : p ∈ l) (f : Addr → Bool) :
    (l.filter f).Perm ((if f p then [p] else []) ++ (l.erase p).filter f) := by
  refine ((List.perm_cons_erase hp).filter f).trans ?_
  rw [List.filter_cons]
  split_ifs
  · exact List.Perm.refl _
  · exact List.Perm.refl _

theorem dealloc_live (s : Store) (p : Addr) : (s.dealloc p).live = s.live.erase p := by
  unfold Store.dealloc
  dsimp only
  split <;> rfl

theorem dealloc_pbuf (s : Store) (p : Addr) : (s.dealloc p).pbuf = s.pbuf := by
  unfold Store.dealloc
  dsimp only
  split <;> rfl

theorem dealloc_free (s : Store) (p : Addr) (k : MempT) : (s.dealloc p).free k =
    (if (s.pbuf p).type.memp = some k then [p] else []) ++ s.free k := by
  unfold Store.dealloc
  dsimp only
  cases (s.pbuf p).type.memp with
  | none => simp
  | some k' =>
    unfold Store.setFree
    rcases eq_or_ne k k' with rfl | hne
    · simp
    · simp [Function.update_of_ne hne, hne.symm]

theorem Good.modify_dead (h : Good m s held) (hp : p ∉ s.live) (f : Pbuf → Pbuf) :
    Good m (s.modify p f) held := by
  have hold : ∀ q ∈ s.live, (s.modify p f).pbuf q = s.pbuf q :=
    fun q hq => modify_of_ne s f fun hc => hp (hc ▸ hq)
  have href : ∀ q ∈ s.live, (s.modify p f).ref q = s.ref q := fun q hq => by
    unfold Store.ref
    rw [hold q hq]
  refine ⟨h.counted.congr (fun q hq => ?_) href, fun q hq => ?_, fun k => ?_, fun q hq => ?_⟩
  · unfold Store.next
    rw [hold q hq]
  · rw [href q hq]
    exact h.small q hq
  · have hsame : (s.modify p f).live.filter (fun q => ((s.modify p f).pbuf q).type.memp = some k) =
        s.live.filter fun q => (s.pbuf q).type.memp = some k :=
      List.filter_congr fun q hq => by rw [hold q hq]
    rw [hsame]
    exact h.pool k
  · rw [hold q hq]
    exact h.ram q hq

theorem dealloc_modify (s : Store) (p : Addr) (hf : ∀ b, (f b).type = b.type) :
    (s.modify p f).dealloc p = (s.dealloc p).modify p f := by
  unfold Store.dealloc
  dsimp only
  rw [modify_self, hf]
  split <;> rfl

theorem Good.dealloc (h : Good m s (p :: held)) (hp : s.ref p = 1) :
    Good m (s.dealloc p) ((s.next p).toList ++ held) := by
  have hlive := h.counted.mem p List.mem_cons_self
  have hmem : ∀ q ∈ (s.dealloc p).live, q ∈ s.live := by
    rw [dealloc_live]
    exact fun q => List.mem_of_mem_erase
  have hnext : (s.dealloc p).next = s.next := by
    unfold Store.next
    rw [dealloc_pbuf]
  have href : (s.dealloc p).ref = s.ref := by
    unfold Store.ref
    rw [dealloc_pbuf]
  refine ⟨?_, fun q hq => ?_, fun k => ?_, fun q hq => ?_⟩
  · rw [hnext, href, dealloc_live]
    exact h.counted.remove hp
  · rw [href]
    exact h.small q (hmem q hq)
  · rw [dealloc_live, dealloc_pbuf, dealloc_free]
    refine List.Perm.trans ?_ (h.pool k)
    have hperm := filter_erase_perm hlive fun q => decide ((s.pbuf q).type.memp = some k)
    simp only [decide_eq_true_eq] at hperm
    refine List.Perm.trans ?_ (hperm.symm.append_left _)
    rw [← List.append_assoc]
    exact List.perm_append_comm.append_right _
  · rw [dealloc_pbuf]
    exact h.ram q (hmem q hq)

/-! ### `pbuf_free` -/

/-- Some pbufs are gone, and the others are as before, but for their counts. -/
structure Kept (s s' : Store) : Prop where
  live : ∀ q ∈ s'.live, q ∈ s.live
  pbuf : ∀ q ∈ s'.live, s'.pbuf q = { s.pbuf q with ref := s'.ref q }

theorem Kept.refl (s : Store) : Kept s s := ⟨fun _ hq => hq, fun _ _ => rfl⟩

theorem Kept.trans {s₁ s₂ s₃ : Store} (h : Kept s₁ s₂) (h' : Kept s₂ s₃) : Kept s₁ s₃ :=
  ⟨fun q hq => h.live q (h'.live q hq), fun q hq => by
    rw [h'.pbuf q hq, h.pbuf q (h'.live q hq)]⟩

theorem kept_modify (s : Store) (p : Addr) (n : ℕ) :
    Kept s (s.modify p fun b => { b with ref := n }) := by
  refine ⟨fun _ hq => hq, fun q _ => ?_⟩
  unfold Store.ref
  rcases eq_or_ne q p with rfl | hne
  · rw [modify_self]
  · rw [modify_of_ne s _ hne]

theorem kept_dealloc (s : Store) (p : Addr) : Kept s (s.dealloc p) := by
  refine ⟨fun q hq => ?_, fun q _ => ?_⟩
  · rw [dealloc_live] at hq
    exact List.mem_of_mem_erase hq
  · unfold Store.ref
    rw [dealloc_pbuf]

theorem Good.drop (h : Good m s (p :: held)) (hp : s.ref p ≠ 1) :
    Good m (s.modify p fun b => { b with ref := s.ref p - 1 }) held := by
  refine h.of_counted ?_ (fun q hq => ?_) rfl rfl (modify_type s p fun _ => rfl)
  · rw [modify_next_eq s rfl, modify_ref]
    exact h.counted.drop hp
  · have hsmall := h.small q hq
    rw [modify_ref]
    rcases eq_or_ne q p with rfl | hne
    · rw [Function.update_self]
      dsimp only
      omega
    · rw [Function.update_of_ne hne]
      exact hsmall

theorem freeLoop_none (fuel : ℕ) (s : Store) (count : ℕ) :
    freeLoop fuel s none count = some (s, count) := by
  cases fuel <;> rfl

/-- **The loop of `pbuf_free`** gives up one pointer. -/
theorem freeLoop_spec : ∀ {fuel : ℕ} {s : Store} {p : Addr} {l : List Addr} (count : ℕ),
    Good m s (p :: held) → Chain s.next (some p) l → l.length ≤ fuel →
    ∃ s' n, freeLoop fuel s (some p) count = some (s', n) ∧ Good m s' held ∧ Kept s s' ∧
      ∀ q ∈ s.live, q ∉ l → q ∈ s'.live
  | _, _, _, [], _, _, hc, _ => nomatch hc
  | 0, _, _, _ :: _, _, _, _, hl => absurd hl (Nat.not_succ_le_zero _)
  | fuel + 1, s, p, x :: l, count, h, hc, hl => by
    obtain rfl := Option.some.inj hc.1
    have hlive := h.counted.mem p List.mem_cons_self
    have hpos := h.counted.pos p hlive
    have hsmall := h.small p hlive
    have href : ((s.pbuf p).ref + 65535) % 65536 = s.ref p - 1 := by
      unfold Store.ref at *
      omega
    unfold freeLoop
    rw [if_pos hlive, href]
    dsimp only
    split_ifs with hlast
    · -- the pbuf is freed, and its link is what is given up next
      have hone : s.ref p = 1 := by omega
      rw [hlast]
      have hgood : Good m ((s.modify p fun b => { b with ref := 0 }).dealloc p)
          ((s.next p).toList ++ held) := by
        rw [dealloc_modify (f := fun b => { b with ref := 0 }) s p fun _ => rfl]
        refine (h.dealloc hone).modify_dead ?_ _
        rw [dealloc_live]
        exact fun hc => (h.counted.nodup.mem_erase_iff.mp hc).1 rfl
      have hkept : Kept s ((s.modify p fun b => { b with ref := 0 }).dealloc p) :=
        (kept_modify s p 0).trans (kept_dealloc _ p)
      have hrest : ∀ q ∈ s.live, q ∉ p :: l →
          q ∈ ((s.modify p fun b => { b with ref := 0 }).dealloc p).live := by
        intro q hq hl
        rw [List.mem_cons, not_or] at hl
        rw [dealloc_live]
        exact h.counted.nodup.mem_erase_iff.mpr ⟨hl.1, hq⟩
      have hnext : ((s.modify p fun b => { b with ref := 0 }).dealloc p).next = s.next := by
        unfold Store.next
        rw [dealloc_pbuf]
        exact modify_next_eq s rfl
      rw [modify_self]
      cases hq : s.next p with
      | none =>
        rw [hq] at hgood
        have hq' : (s.pbuf p).next = none := hq
        rw [hq', freeLoop_none]
        exact ⟨_, _, rfl, hgood, hkept, hrest⟩
      | some q =>
        rw [hq] at hgood
        have hq' : (s.pbuf p).next = some q := hq
        rw [hq']
        have hc' := hc.2
        rw [hq, ← hnext] at hc'
        obtain ⟨s', n, hrun, hgood', hkept', hrest'⟩ :=
          freeLoop_spec ((count + 1) % 256) hgood hc' (Nat.le_of_succ_le_succ hl)
        exact ⟨s', n, hrun, hgood', hkept.trans hkept', fun r hr hrl =>
          hrest' r (hrest r hr hrl) fun hc => hrl (List.mem_cons_of_mem _ hc)⟩
    · exact ⟨_, _, rfl, h.drop (by omega), kept_modify s p _, fun _ hq _ => hq⟩

/-- **`pbuf_free`** gives up one pointer; all that was allocated and is not any more is back where
it came from. -/
theorem pbufFree_spec (h : Good m s (p :: held)) (hc : Chain s.next (some p) l) :
    ∃ s' n, pbufFree s p = some (s', n) ∧ Good m s' held ∧ Kept s s' ∧
      ∀ q ∈ s.live, q ∉ l → q ∈ s'.live :=
  freeLoop_spec 0 h hc (h.counted.chain_length (h.counted.mem p List.mem_cons_self) hc)

theorem freeLoop_count : ∀ {fuel : ℕ} {s : Store} {o : Option Addr} {count n : ℕ}, s.live.Nodup →
    count < 256 → freeLoop fuel s o count = some (s', n) →
    ∃ k, s'.live.length + k = s.live.length ∧ n = (count + k) % 256 ∧
      (∀ q ∈ s'.live, q ∈ s.live) ∧ (0 < k → ∀ q, o = some q → q ∉ s'.live)
  | fuel, s, none, count, n, _, hcount, hrun => by
    rw [freeLoop_none] at hrun
    obtain ⟨rfl, rfl⟩ := Prod.mk.inj (Option.some.inj hrun)
    exact ⟨0, rfl, by omega, fun _ hq => hq, fun hk => absurd hk (Nat.lt_irrefl 0)⟩
  | 0, _, some _, _, _, _, _, hrun => nomatch hrun
  | fuel + 1, s, some p, count, n, hnd, hcount, hrun => by
    unfold freeLoop at hrun
    split_ifs at hrun with hp
    dsimp only at hrun
    split_ifs at hrun with hlast
    · obtain ⟨k, hlen, hn, hsub, -⟩ := freeLoop_count (by rw [dealloc_live]; exact hnd.erase p)
        (Nat.mod_lt _ (by omega)) hrun
      rw [dealloc_live, modify_live] at hlen hsub
      rw [List.length_erase_of_mem hp] at hlen
      have hpos := List.length_pos_of_mem hp
      refine ⟨k + 1, by omega, by omega, fun q hq => List.mem_of_mem_erase (hsub q hq), ?_⟩
      rintro - q hq hc
      obtain rfl := Option.some.inj hq
      exact (hnd.mem_erase_iff.mp (hsub p hc)).1 rfl
    · obtain ⟨rfl, rfl⟩ := Prod.mk.inj (Option.some.inj hrun)
      exact ⟨0, rfl, by omega, fun _ hq => hq, fun hk => absurd hk (Nat.lt_irrefl 0)⟩

/-- **`pbuf_free`** returns the number of pbufs that it has freed, in 8 bits, and none is freed if
not the first one is. -/
theorem pbufFree_count {n : ℕ} (hnd : s.live.Nodup) (hrun : pbufFree s p = some (s', n)) :
    ∃ k, s'.live.length + k = s.live.length ∧ n = k % 256 ∧ (0 < k → p ∉ s'.live) := by
  obtain ⟨k, hlen, hn, -, hgone⟩ := freeLoop_count hnd (by omega) hrun
  exact ⟨k, hlen, by omega, fun hk => hgone hk p rfl⟩

/-! ### `pbuf_alloc` -/

@[simp] theorem alloc_live (s : Store) (p : Addr) (b : Pbuf) :
    (s.alloc p b).live = p :: s.live := rfl
@[simp] theorem alloc_free (s : Store) (p : Addr) (b : Pbuf) : (s.alloc p b).free = s.free := rfl
@[simp] theorem alloc_self (s : Store) (p : Addr) (b : Pbuf) : (s.alloc p b).pbuf p = b :=
  Function.update_self ..
theorem alloc_of_ne (s : Store) (b : Pbuf) (h : q ≠ p) : (s.alloc p b).pbuf q = s.pbuf q :=
  Function.update_of_ne h ..

theorem Good.alloc (h : Good m s held) (hp : p ∉ s.live) (hnext : b.next = none) (href : b.ref = 1)
    {o : MempT → List Addr}
    (hfree : ∀ k, (s.free k).Perm ((if b.type.memp = some k then [p] else []) ++ o k))
    (hram : b.type.memp = none → ∀ k, p ∉ m.elems k) :
    Good m ({ s with free := o }.alloc p b) (p :: held) := by
  have hne : ∀ q ∈ s.live, q ≠ p := fun q hq hc => hp (hc ▸ hq)
  have hold : ∀ q ∈ s.live, ({ s with free := o }.alloc p b).pbuf q = s.pbuf q :=
    fun q hq => alloc_of_ne _ b (hne q hq)
  have hn : ({ s with free := o }.alloc p b).next = Function.update s.next p none := by
    funext q
    unfold Store.next
    rcases eq_or_ne q p with rfl | hq
    · rw [alloc_self, Function.update_self, hnext]
    · rw [alloc_of_ne _ b hq, Function.update_of_ne hq]
  have hr : ({ s with free := o }.alloc p b).ref = Function.update s.ref p 1 := by
    funext q
    unfold Store.ref
    rcases eq_or_ne q p with rfl | hq
    · rw [alloc_self, Function.update_self, href]
    · rw [alloc_of_ne _ b hq, Function.update_of_ne hq]
  refine ⟨?_, fun q hq => ?_, fun k => ?_, fun q hq => ?_⟩
  · rw [hn, hr]
    exact h.counted.alloc hp
  · rw [hr]
    rcases List.mem_cons.mp hq with rfl | hq
    · rw [Function.update_self]
      decide
    · rw [Function.update_of_ne (hne q hq)]
      exact h.small q hq
  · have hsame : s.live.filter (fun q =>
        (({ s with free := o }.alloc p b).pbuf q).type.memp = some k) =
        s.live.filter fun q => (s.pbuf q).type.memp = some k :=
      List.filter_congr fun q hq => by rw [hold q hq]
    have hpool := h.pool k
    refine List.Perm.trans ?_ ((List.Perm.append_right _ (hfree k)).symm.trans hpool)
    rw [alloc_live, alloc_free, List.filter_cons, alloc_self, hsame]
    simp only [decide_eq_true_eq]
    split_ifs
    · rw [List.append_assoc]
      exact List.perm_middle
    · exact List.Perm.refl _
  · rcases List.mem_cons.mp hq with rfl | hq
    · rw [alloc_self]
      exact hram
    · rw [hold q hq]
      exact h.ram q hq

theorem Good.alloc_elem (h : Good m s held) {k : MempT} {rest : List Addr}
    (hk : s.free k = p :: rest) (hb : b.type.memp = some k) (hnext : b.next = none)
    (href : b.ref = 1) : Good m ((s.setFree k rest).alloc p b) (p :: held) := by
  refine h.alloc (h.not_live (k := k) (by rw [hk]; exact List.mem_cons_self)) hnext href
    (fun k' => ?_) fun hc => by rw [hb] at hc; cases hc
  rw [hb]
  rcases eq_or_ne k k' with rfl | hne
  · rw [Function.update_self, if_pos rfl, hk]
    exact List.Perm.refl _
  · rw [Function.update_of_ne hne.symm, if_neg fun hc => hne (Option.some.inj hc)]
    exact List.Perm.refl _

/-- The last pbuf `p` of a chain is linked to `t`, instead of a pointer of a client. -/
theorem Good.link (h : Good m s (t :: held)) (hp : p ∈ s.live) (hend : s.next p = none)
    (hc : Chain s.next (some t) l) (hpl : p ∉ l) (hnext : (f (s.pbuf p)).next = some t)
    (href : (f (s.pbuf p)).ref = (s.pbuf p).ref) (htype : ∀ b, (f b).type = b.type) :
    Good m (s.modify p f) held := by
  have hr := modify_ref_eq s href
  refine h.of_counted ?_ ?_ rfl rfl (modify_type s p htype)
  · rw [hr, modify_next, hnext]
    exact h.counted.link hp hend hc hpl
  · rw [hr]
    exact h.small

/-- The total length of a pbuf is right. -/
def Store.TotalAt (s : Store) (p : Addr) : Prop :=
  (s.pbuf p).totLen = (s.pbuf p).len + (s.next p).elim 0 fun q => (s.pbuf q).totLen

theorem totalAt_of_eq (hp : s'.pbuf p = s.pbuf p)
    (hq : ∀ q, s.next p = some q → (s'.pbuf q).totLen = (s.pbuf q).totLen) (h : s.TotalAt p) :
    s'.TotalAt p := by
  unfold Store.TotalAt Store.next at *
  rw [hp, h]
  cases hn : (s.pbuf p).next with
  | none => rfl
  | some q =>
    rw [Option.elim_some, Option.elim_some, hq q hn]

/-- **The loop of `pbuf_alloc`** over the pbufs behind `r`: what is new, and whether it is enough.
-/
structure Tail (s : Store) (pool : List Addr) (r : Addr) (rem : ℕ) (s' : Store) (ok : Bool) :
    Prop where
  old : ∀ q ∈ s.live, q ∈ s'.live ∧ (q ≠ r → s'.pbuf q = s.pbuf q)
  same : ∃ o, s'.pbuf r = { s.pbuf r with next := o }
  new : ∀ q ∈ s'.live, (q ∉ s.live ∨ q = r) → ∀ x, s'.next q = some x → x ∉ s.live
  enough : ok = true ↔ rem ≤ pool.length * pbufPoolBufsize
  lens : ∃ qs, Chain s'.next (s'.next r) qs ∧ Pbuf.allocTail pool.length rem =
    if ok = true then some (qs.map fun q => (s'.pbuf q).len) else none
  total : ok = true → (s.pbuf r).totLen = (s.pbuf r).len + rem →
    (∀ q ∈ s.live, q ≠ r → s.TotalAt q) → ∀ q ∈ s'.live, s'.TotalAt q
  short : rem < 65536 → (∀ q ∈ s.live, (s.pbuf q).totLen < 65536) →
    ∀ q ∈ s'.live, (s'.pbuf q).totLen < 65536

theorem tail_zero {pool : List Addr} {r : Addr} (hr : s.next r = none) :
    Tail s pool r 0 (s.setFree .pbufPool pool) true := by
  refine ⟨fun q hq => ⟨hq, fun _ => rfl⟩, ⟨(s.pbuf r).next, rfl⟩, fun q hq hor x hx => ?_,
    iff_of_true rfl (Nat.zero_le _), ⟨[], hr, by rw [Pbuf.allocTail.eq_def]; rfl⟩,
    fun _ hlen hrest q hq => ?_, fun _ hs => hs⟩
  · obtain rfl := hor.resolve_left fun hc => hc hq
    have hx' : s.next q = some x := hx
    rw [hr] at hx'
    cases hx'
  · rcases eq_or_ne q r with rfl | hne
    · have hn : (s.setFree .pbufPool pool).next q = none := hr
      unfold Store.TotalAt
      rw [hn]
      exact hlen
    · exact hrest q hq hne

theorem tail_none {r : Addr} {rem : ℕ} (hr : s.next r = none) :
    Tail s [] r (rem + 1) (s.setFree .pbufPool []) false := by
  refine ⟨fun q hq => ⟨hq, fun _ => rfl⟩, ⟨(s.pbuf r).next, rfl⟩, fun q hq hor x hx => ?_,
    iff_of_false Bool.false_ne_true (by simp), ⟨[], hr, rfl⟩, nofun, fun _ hs => hs⟩
  obtain rfl := hor.resolve_left fun hc => hc hq
  have hx' : s.next q = some x := hx
  rw [hr] at hx'
  cases hx'

/-- `pbuf_alloc` takes the pbuf `q` out of its pool, sets it to `b` and links it behind `r`. -/
def Store.allocBehind (s : Store) (r q : Addr) (b : Pbuf) : Store :=
  (s.alloc q b).modify r fun b => { b with next := some q }

theorem allocBehind_self (s : Store) {r : Addr} (b : Pbuf) (hrq : r ≠ q) :
    (s.allocBehind r q b).pbuf r = { s.pbuf r with next := some q } := by
  unfold Store.allocBehind
  rw [modify_self, alloc_of_ne s b hrq]

theorem allocBehind_next (s : Store) {r : Addr} (b : Pbuf) (hrq : r ≠ q) :
    (s.allocBehind r q b).next r = some q := by
  unfold Store.next
  rw [allocBehind_self s b hrq]

theorem allocBehind_new (s : Store) {r : Addr} (b : Pbuf) (hrq : r ≠ q) :
    (s.allocBehind r q b).pbuf q = b := by
  unfold Store.allocBehind
  rw [modify_of_ne _ _ hrq.symm, alloc_self]

theorem allocBehind_of_ne (s : Store) {r x : Addr} (b : Pbuf) (hxr : x ≠ r) (hxq : x ≠ q) :
    (s.allocBehind r q b).pbuf x = s.pbuf x := by
  unfold Store.allocBehind
  rw [modify_of_ne _ _ hxr, alloc_of_ne s b hxq]

theorem allocBehind_totLen (s : Store) {r x : Addr} (b : Pbuf) (hrq : r ≠ q) (hxq : x ≠ q) :
    ((s.allocBehind r q b).pbuf x).totLen = (s.pbuf x).totLen := by
  rcases eq_or_ne x r with rfl | hxr
  · rw [allocBehind_self s b hrq]
  · rw [allocBehind_of_ne s b hxr hxq]

theorem totalAt_allocBehind {r : Addr} {rem : ℕ}
    (hmem : ∀ x ∈ s.live, ∀ y, s.next x = some y → y ∈ s.live) (hr : r ∈ s.live) (hq : q ∉ s.live)
    (hb : b.totLen = rem) (htot : (s.pbuf r).totLen = (s.pbuf r).len + rem)
    (hrest : ∀ x ∈ s.live, x ≠ r → s.TotalAt x) :
    ∀ x ∈ s.live, (s.allocBehind r q b).TotalAt x := by
  intro x hx
  have hne : ∀ x ∈ s.live, x ≠ q := fun x hx hc => hq (hc ▸ hx)
  have hrq := hne r hr
  rcases eq_or_ne x r with rfl | hxr
  · unfold Store.TotalAt
    rw [allocBehind_next s b hrq, Option.elim_some, allocBehind_self s b hrq,
      allocBehind_new s b hrq, hb]
    exact htot
  · refine totalAt_of_eq (allocBehind_of_ne s b hxr (hne x hx)) (fun y hy => ?_) (hrest x hx hxr)
    exact allocBehind_totLen s b hrq (hne y (hmem x hx y hy))

theorem Tail.cons {pool : List Addr} {r : Addr} {rem len : ℕ} {ok : Bool}
    (hmem : ∀ x ∈ s.live, ∀ y, s.next x = some y → y ∈ s.live) (hr : r ∈ s.live) (hq : q ∉ s.live)
    (hrem : rem ≠ 0) (hlen : len = min rem pbufPoolBufsize)
    (hb : b.totLen = rem ∧ b.len = len ∧ b.next = none)
    (h : Tail (s.allocBehind r q b) pool q (rem - len) s' ok) :
    Tail s (q :: pool) r rem s' ok := by
  have hne : ∀ x ∈ s.live, x ≠ q := fun x hx hc => hq (hc ▸ hx)
  have hrq := hne r hr
  have hsub : ∀ x ∈ s.live, x ∈ (s.allocBehind r q b).live := fun x hx => List.mem_cons_of_mem _ hx
  have hpr : s'.pbuf r = { s.pbuf r with next := some q } := by
    rw [(h.old r (hsub r hr)).2 hrq, allocBehind_self s b hrq]
  have hn : s'.next r = some q := by
    unfold Store.next
    rw [hpr]
  refine ⟨fun x hx => ⟨(h.old x (hsub x hx)).1, fun hxr => ?_⟩, ⟨some q, hpr⟩,
    fun x hx hor y hy => ?_, ?_, ?_, fun hok htot hrest => ?_,
    fun hrem hshort => h.short (by omega) fun x hx => ?_⟩
  · rw [(h.old x (hsub x hx)).2 (hne x hx), allocBehind_of_ne s b hxr (hne x hx)]
  · -- `r` is linked to `q`, and the pbufs that are new behind `q` to new ones
    rcases eq_or_ne x r with rfl | hxr
    · rw [hn] at hy
      obtain rfl := Option.some.inj hy
      exact hq
    · have hx' := hor.resolve_right hxr
      refine fun hc => h.new x hx ?_ y hy (hsub y hc)
      rcases eq_or_ne x q with rfl | hxq
      · exact Or.inr rfl
      · exact Or.inl fun hc => hx' ((List.mem_cons.mp hc).resolve_left hxq)
  · rw [h.enough, List.length_cons]
    unfold pbufPoolBufsize at *
    omega
  · obtain ⟨qs, hqs, hlens⟩ := h.lens
    have hqlen : (s'.pbuf q).len = len := by
      obtain ⟨o, ho⟩ := h.same
      rw [ho, allocBehind_new s b hrq, hb.2.1]
    refine ⟨q :: qs, by rw [hn]; exact ⟨rfl, hqs⟩, ?_⟩
    obtain ⟨n, rfl⟩ : ∃ n, rem = n + 1 := Nat.exists_eq_succ_of_ne_zero hrem
    rw [List.length_cons, Pbuf.allocTail, ← hlen, hlens, List.map_cons, hqlen]
    split_ifs
    · rfl
    · rfl
  · refine h.total hok ?_ fun x hx hxq => ?_
    · rw [allocBehind_new s b hrq, hb.1, hb.2.1]
      omega
    · exact totalAt_allocBehind hmem hr hq hb.1 htot hrest x
        ((List.mem_cons.mp hx).resolve_left hxq)
  · rcases List.mem_cons.mp hx with rfl | hx
    · rw [allocBehind_new s b hrq, hb.1]
      exact hrem
    · rw [allocBehind_totLen s b hrq (hne x hx)]
      exact hshort x hx

theorem allocTail_spec : ∀ {pool : List Addr} {s : Store} {r hd : Addr} (rem : ℕ),
    Good m (s.setFree .pbufPool pool) (hd :: held) → r ∈ s.live → s.next r = none →
    Good m (allocTail pool s r rem).1 (hd :: held) ∧
      Tail s pool r rem (allocTail pool s r rem).1 (allocTail pool s r rem).2
  | pool, s, r, hd, 0, h, _, hn => by
    rw [allocTail.eq_def]
    exact ⟨h, tail_zero hn⟩
  | [], s, r, hd, rem + 1, h, _, hn => ⟨h, tail_none hn⟩
  | q :: pool, s, r, hd, rem + 1, h, hr, hn => by
    have hfree : (s.setFree .pbufPool (q :: pool)).free .pbufPool = q :: pool := by
      rw [setFree_free, Function.update_self]
    have hq : q ∉ s.live := h.not_live (k := .pbufPool) (by rw [hfree]; exact List.mem_cons_self)
    have hrq : r ≠ q := fun hc => hq (hc ▸ hr)
    unfold allocTail
    dsimp only
    generalize hb : Pbuf.mk none 0 (rem + 1) (min (rem + 1) pbufPoolBufsize) .pool 1 = b
    have hb' : b.totLen = rem + 1 ∧ b.len = min (rem + 1) pbufPoolBufsize ∧ b.next = none ∧
        b.ref = 1 ∧ b.type.memp = some .pbufPool := by
      rw [← hb]
      exact ⟨rfl, rfl, rfl, rfl, rfl⟩
    obtain ⟨htot, hlen, hnext, href, htype⟩ := hb'
    have hgood : Good m (((s.alloc q b).modify r fun b => { b with next := some q }).setFree
        .pbufPool pool) (hd :: held) := by
      have halloc := h.alloc_elem hfree htype hnext href
      have hidem : ((s.setFree .pbufPool (q :: pool)).setFree .pbufPool pool).alloc q b =
          (s.alloc q b).setFree .pbufPool pool := by
        unfold Store.setFree Store.alloc
        simp only [Function.update_idem]
      rw [hidem] at halloc
      have hqn : ((s.alloc q b).setFree .pbufPool pool).next q = none := by
        unfold Store.next Store.setFree
        rw [alloc_self, hnext]
      refine halloc.link (l := [q]) (f := fun b => { b with next := some q })
        (List.mem_cons_of_mem _ hr) ?_ ⟨rfl, hqn⟩ (by simpa using hrq) rfl rfl fun _ => rfl
      unfold Store.next Store.setFree
      rw [alloc_of_ne s b hrq]
      exact hn
    have hrec := allocTail_spec (rem + 1 - min (rem + 1) pbufPoolBufsize) hgood
      (List.mem_cons_self : q ∈ q :: s.live) (by
        unfold Store.next
        rw [modify_of_ne _ _ hrq.symm, alloc_self, hnext])
    refine ⟨hrec.1, ?_⟩
    exact hrec.2.cons h.counted.next_mem hr hq (Nat.succ_ne_zero _) rfl ⟨htot, hlen, hnext⟩

/-- **All total lengths are right**, and fit 16 bits. -/
structure Store.Total (s : Store) : Prop where
  sum : ∀ p ∈ s.live, s.TotalAt p
  short : ∀ p ∈ s.live, (s.pbuf p).totLen < 65536

theorem Kept.total (hk : Kept s s') (hg : Good m s' held)
    (h : ∀ p ∈ s'.live, s.TotalAt p ∧ (s.pbuf p).totLen < 65536) : s'.Total := by
  refine ⟨fun p hp => ?_, fun p hp => by rw [hk.pbuf p hp]; exact (h p hp).2⟩
  have hp' := hk.pbuf p hp
  have hn : s'.next p = s.next p := by
    unfold Store.next
    rw [hp']
  have ht := (h p hp).1
  unfold Store.TotalAt at *
  rw [hn, hp']
  dsimp only
  rw [ht]
  cases hq : s.next p with
  | none => rfl
  | some q =>
    rw [Option.elim_some, Option.elim_some, hk.pbuf q (hg.counted.next_mem p hp q (hn.trans hq))]

theorem alloc_total {o : MempT → List Addr} (h : s.Total) (hg : Good m s held) (hp : p ∉ s.live)
    (hb : b.totLen = b.len) (hshort : b.totLen < 65536) (hnext : b.next = none) :
    ({ s with free := o }.alloc p b).Total := by
  have hne : ∀ q ∈ s.live, q ≠ p := fun q hq hc => hp (hc ▸ hq)
  refine ⟨fun q hq => ?_, fun q hq => ?_⟩
  all_goals rcases List.mem_cons.mp hq with rfl | hq
  · have hn : ({ s with free := o }.alloc q b).next q = none := by
      unfold Store.next
      rw [alloc_self, hnext]
    unfold Store.TotalAt
    rw [hn, alloc_self]
    exact hb
  · exact totalAt_of_eq (s := s) (alloc_of_ne _ b (hne q hq))
      (fun x hx => by rw [alloc_of_ne _ b (hne x (hg.counted.next_mem q hq x hx))]) (h.sum q hq)
  · rw [alloc_self]
    exact hshort
  · rw [alloc_of_ne _ b (hne q hq)]
    exact h.short q hq

/-- **What `pbuf_alloc` does**: it returns a new chain, or leaves what is allocated as it is. -/
structure Allocs (m : Pools) (s : Store) (held : List Addr) (s' : Store) (o : Option Addr) :
    Prop where
  good : Good m s' (o.toList ++ held)
  total : s.Total → s'.Total
  same : o = none → (∀ q, q ∈ s'.live ↔ q ∈ s.live) ∧ ∀ q ∈ s.live, s'.pbuf q = s.pbuf q

theorem Good.allocs_elem (h : Good m s held) {k : MempT} {rest : List Addr}
    (hk : s.free k = p :: rest) (hb : b.type.memp = some k) (hlen : b.totLen = b.len)
    (hshort : b.totLen < 65536) (hnext : b.next = none) (href : b.ref = 1) :
    Allocs m s held ((s.setFree k rest).alloc p b) (some p) := by
  have hp : p ∉ s.live := h.not_live (k := k) (by rw [hk]; exact List.mem_cons_self)
  exact ⟨h.alloc_elem hk hb hnext href, fun ht => alloc_total ht h hp hlen hshort hnext, nofun⟩

section
variable {s₂ : Store} {pool : List Addr} {rem : ℕ} {ok : Bool}

theorem Tail.old_pbuf (ht : Tail (s.alloc p b) pool p rem s₂ ok) (hp : p ∉ s.live)
    (hq : q ∈ s.live) : q ∈ s₂.live ∧ s₂.pbuf q = s.pbuf q := by
  have hqp : q ≠ p := fun hc => hp (hc ▸ hq)
  obtain ⟨hlive, hpbuf⟩ := ht.old q (List.mem_cons_of_mem _ hq)
  exact ⟨hlive, by rw [hpbuf hqp, alloc_of_ne s b hqp]⟩

/-- The new chain has the right total lengths, as `b` has. -/
theorem Tail.alloc_total (ht : Tail (s.alloc p b) pool p rem s₂ true) (h : Good m s held)
    (hp : p ∉ s.live) (hlen : b.totLen = b.len + rem) (hshort : b.totLen < 65536) (hs : s.Total) :
    s₂.Total := by
  have hne : ∀ q ∈ s.live, q ≠ p := fun q hq hc => hp (hc ▸ hq)
  constructor
  · refine ht.total rfl ?_ fun q hq hqp => ?_
    · rw [alloc_self]
      exact hlen
    · have hq' := (List.mem_cons.mp hq).resolve_left hqp
      exact totalAt_of_eq (s := s) (alloc_of_ne s b hqp)
        (fun x hx => by rw [alloc_of_ne s b (hne x (h.counted.next_mem q hq' x hx))])
        (hs.sum q hq')
  · refine ht.short (by omega) fun q hq => ?_
    rcases List.mem_cons.mp hq with rfl | hq
    · rw [alloc_self]
      exact hshort
    · rw [alloc_of_ne s b (hne q hq)]
      exact hs.short q hq

theorem Tail.chain_new (ht : Tail (s.alloc p b) pool p rem s₂ ok) (hgood : Good m s₂ (p :: held))
    (hp : p ∉ s.live) (hl : Chain s₂.next (some p) l) : ∀ x ∈ l, x ∉ s.live := by
  have hnew : ∀ x ∈ l, x ∈ s₂.live ∧ x ∉ s.live := by
    refine chain_forall (P := fun x => x ∈ s₂.live ∧ x ∉ s.live) (fun x hx y hy => ?_)
      (fun x hx => ?_) hl
    · refine ⟨hgood.counted.next_mem x hx.1 y hy, fun hc => ?_⟩
      have hor : x ∉ (s.alloc p b).live ∨ x = p := by
        rcases eq_or_ne x p with hxp | hxp
        · exact Or.inr hxp
        · exact Or.inl fun hc => hx.2 ((List.mem_cons.mp hc).resolve_left hxp)
      exact ht.new x hx.1 hor y hy (List.mem_cons_of_mem _ hc)
    · obtain rfl := Option.some.inj hx
      exact ⟨hgood.counted.mem p List.mem_cons_self, hp⟩
  exact fun x hx => (hnew x hx).2

/-- What was there before is left, and so are the counts, which follow from the pointers. -/
theorem Kept.allocs (hk : Kept s₂ s') (h : Good m s held) (h' : Good m s' held)
    (hold : ∀ q ∈ s.live, s₂.pbuf q = s.pbuf q) (hlive : ∀ q, q ∈ s'.live ↔ q ∈ s.live) :
    Allocs m s held s' none := by
  have hnext : ∀ q ∈ s.live, s'.next q = s.next q := fun q hq => by
    unfold Store.next
    rw [hk.pbuf q ((hlive q).mpr hq), hold q hq]
  refine ⟨h', fun ht => hk.total h' fun q hq => ?_, fun _ => ⟨hlive, fun q hq => ?_⟩⟩
  · have hq' := (hlive q).mp hq
    refine ⟨totalAt_of_eq (hold q hq')
      (fun x hx => by rw [hold x (h.counted.next_mem q hq' x hx)]) (ht.sum q hq'), ?_⟩
    rw [hold q hq']
    exact ht.short q hq'
  · have href : s'.ref q = s.ref q := h.counted.ref_eq h'.counted hlive hnext hq
    rw [hk.pbuf q ((hlive q).mpr hq), hold q hq, href]
    rfl

/-- **`pbuf_alloc` gives the pbufs back** that it has got if there are not enough. -/
theorem Tail.free (ht : Tail (s.alloc p b) pool p rem s₂ ok) (h : Good m s held)
    (hgood : Good m s₂ (p :: held)) (hp : p ∉ s.live) :
    ∃ s' n, pbufFree s₂ p = some (s', n) ∧ Allocs m s held s' none := by
  obtain ⟨l, hl⟩ := hgood.counted.chain p (hgood.counted.mem p List.mem_cons_self)
  obtain ⟨s', n, hrun, hgood', hkept, hrest⟩ := pbufFree_spec hgood hl
  have hold : ∀ q ∈ s.live, s₂.pbuf q = s.pbuf q := fun q hq => (ht.old_pbuf hp hq).2
  have hstays : ∀ q ∈ s.live, q ∈ s'.live := fun q hq =>
    hrest q (ht.old_pbuf hp hq).1 fun hc => ht.chain_new hgood hp hl q hc hq
  -- nothing leads to the new pbufs any more
  have hgone : ∀ q ∈ s'.live, q ∈ s.live := by
    intro q hq
    by_contra hc
    refine hgood'.counted.not_mem (P := fun x => x ∉ s.live)
      (fun x hx hc => hc (h.counted.mem x hx)) (fun x hx y hy hfresh hlive => hfresh ?_) q hq hc
    have hn : s'.next x = s.next x := by
      unfold Store.next
      rw [hkept.pbuf x hx, hold x hlive]
    exact h.counted.next_mem x hlive y (hn ▸ hy)
  exact ⟨s', n, hrun, hkept.allocs h hgood' hold fun q => ⟨hgone q, hstays q⟩⟩

/-- The lengths of the new chain are those that `Pbuf.allocTail` computes, behind the first. -/
theorem Tail.lens_alloc (ht : Tail (s.alloc p b) pool p rem s₂ ok)
    (hl : Chain s₂.next (some p) l) : (Pbuf.allocTail pool.length rem).map (b.len :: ·) =
      if ok = true then some (l.map fun q => (s₂.pbuf q).len) else none := by
  obtain ⟨qs, hqs, hlens⟩ := ht.lens
  have hpqs : Chain s₂.next (some p) (p :: qs) := ⟨rfl, hqs⟩
  obtain rfl := hl.unique hpqs
  have hplen : (s₂.pbuf p).len = b.len := by
    obtain ⟨o, ho⟩ := ht.same
    rw [ho, alloc_self]
  rw [hlens, List.map_cons, hplen]
  split_ifs
  · rfl
  · rfl

end

theorem pbufAlloc_pool (h : Good m s held) (layer : PbufLayer) {length : ℕ} (hlen : length < 65536)
    (ram : Option Addr) : ∃ s' o, pbufAlloc s layer length .pool ram = some (s', o) ∧
      Allocs m s held s' o ∧
      (o = none ↔ ¬ (0 < (s.free .pbufPool).length ∧
        length + lwipMemAlignSize layer.offset ≤ (s.free .pbufPool).length * pbufPoolBufsize)) ∧
      (layer = .raw → ∀ l, Chain s'.next o l → (o.map fun _ => l.map fun q => (s'.pbuf q).len) =
        Pbuf.pbufAlloc (s.free .pbufPool).length length) := by
  have hoff : lwipMemAlignSize layer.offset ≤ 56 := by
    cases layer <;> decide
  unfold pbufAlloc
  dsimp only
  cases hf : s.free .pbufPool with
  | nil =>
    exact ⟨s, none, rfl, ⟨h, id, fun _ => ⟨fun _ => Iff.rfl, fun _ _ => rfl⟩⟩, by simp,
      fun _ _ _ => rfl⟩
  | cons p pool =>
    dsimp only
    generalize hb : Pbuf.mk none (lwipMemAlignSize layer.offset) length
      (min length (pbufPoolBufsize - lwipMemAlignSize layer.offset)) .pool 1 = b
    obtain ⟨htot, hblen, hnext, href, htype⟩ : b.totLen = length ∧
        b.len = min length (pbufPoolBufsize - lwipMemAlignSize layer.offset) ∧ b.next = none ∧
        b.ref = 1 ∧ b.type.memp = some .pbufPool := by
      rw [← hb]
      exact ⟨rfl, rfl, rfl, rfl, rfl⟩
    rw [← hblen]
    have hp : p ∉ s.live := h.not_live (k := .pbufPool) (by rw [hf]; exact List.mem_cons_self)
    have hnp : (s.alloc p b).next p = none := by
      unfold Store.next
      rw [alloc_self, hnext]
    obtain ⟨hgood, htail⟩ := allocTail_spec (length - b.len)
      (h.alloc_elem hf htype hnext href : Good m ((s.alloc p b).setFree .pbufPool pool) (p :: held))
      (List.mem_cons_self : p ∈ p :: s.live) hnp
    generalize allocTail pool (s.alloc p b) p (length - b.len) = r at hgood htail ⊢
    obtain ⟨s₂, ok⟩ := r
    dsimp only at hgood htail ⊢
    have henough : ok = true ↔
        length + lwipMemAlignSize layer.offset ≤ (p :: pool).length * pbufPoolBufsize := by
      rw [htail.enough, List.length_cons, hblen]
      unfold pbufPoolBufsize
      omega
    have hlens : layer = .raw → ∀ l, Chain s₂.next (some p) l →
        Pbuf.pbufAlloc (p :: pool).length length =
          if ok = true then some (l.map fun q => (s₂.pbuf q).len) else none := by
      rintro rfl l hl
      rw [← htail.lens_alloc hl, hblen]
      rfl
    cases ok with
    | true =>
      refine ⟨s₂, some p, rfl, ⟨hgood, htail.alloc_total h hp (by omega) (by omega), nofun⟩,
        iff_of_false nofun fun hc => hc ⟨Nat.succ_pos _, henough.mp rfl⟩, fun hraw l hl => ?_⟩
      exact (hlens hraw l hl).symm
    | false =>
      obtain ⟨s', n, hrun, hall⟩ := htail.free h hgood hp
      obtain ⟨l, hl⟩ := hgood.counted.chain p (hgood.counted.mem p List.mem_cons_self)
      refine ⟨s', none, by rw [if_neg Bool.false_ne_true, hrun]; rfl, hall,
        iff_of_true rfl fun hc => Bool.false_ne_true (henough.mpr hc.2), fun hraw _ _ => ?_⟩
      exact (hlens hraw l hl).symm

/-- **`pbuf_alloc`.** -/
theorem pbufAlloc_spec (h : Good m s held) (layer : PbufLayer) {length : ℕ} (hlen : length < 65536)
    (type : PbufType) {ram : Option Addr} (hram : ∀ p ∈ ram, p ∉ s.live ∧ ∀ k, p ∉ m.elems k) :
    ∃ s' o, pbufAlloc s layer length type ram = some (s', o) ∧ Allocs m s held s' o := by
  have hnone : Allocs m s held s none := ⟨h, id, fun _ => ⟨fun _ => Iff.rfl, fun _ _ => rfl⟩⟩
  have href : ∀ type : PbufType, type.memp = some .pbuf →
      ∃ s' o, (match s.free .pbuf with
        | [] => some (s, none)
        | p :: rest =>
          some ((s.setFree .pbuf rest).alloc p ⟨none, 0, length, length, type, 1⟩, some p)) =
            some (s', o) ∧ Allocs m s held s' o := by
    intro type htype
    cases hf : s.free .pbuf with
    | nil => exact ⟨s, none, rfl, hnone⟩
    | cons p rest => exact ⟨_, _, rfl, h.allocs_elem hf htype rfl hlen rfl rfl⟩
  cases type with
  | pool =>
    obtain ⟨s', o, hrun, hall, -, -⟩ := pbufAlloc_pool h layer hlen ram
    exact ⟨s', o, hrun, hall⟩
  | ram =>
    unfold pbufAlloc
    cases ram with
    | none => exact ⟨s, none, rfl, hnone⟩
    | some p =>
      obtain ⟨hp, hm⟩ := hram p rfl
      refine ⟨_, _, rfl, ⟨?_, fun ht => alloc_total (o := s.free) ht h hp rfl hlen rfl, nofun⟩⟩
      exact h.alloc (o := s.free) hp rfl rfl (fun k => List.Perm.refl _) fun _ => hm
  | rom => exact href .rom rfl
  | ref => exact href .ref rfl

end

end Stm32TcpServer.Lwip.PbufRefs
