import Stm32TcpServer.Lwip.Mem

/-! # What the heap's functions do to its blocks (mem.c)

A heap is `Shaped` if its headers divide it into a coalesced row of blocks and `lfree` is the first
free one. `memFree_spec`, `memTrim_spec`, `memMalloc_spec`: each function leaves a shaped heap, and
the data of the blocks that stay used are the same bytes as before. -/

namespace Stm32TcpServer.Lwip.Mem

open Stm32TcpServer.Lib.Blocks

section
variable {r r' : Ram} {b c : Block} {bs xs ys old : List Block} {h : Heap} {n m size : ℕ}

/-! ### Edits -/

theorem Rows.mark (h : Rows r (xs ++ b :: ys)) (u : Bool) :
    Rows (setUsed r (total xs) (if u then 1 else 0)) (xs ++ ⟨b.size, u⟩ :: ys) ∧
      Keeps r (setUsed r (total xs) (if u then 1 else 0)) (xs ++ ⟨b.size, u⟩ :: ys) := by
  have hb := h.big b (by simp)
  have h' : Rows r (xs ++ [b] ++ ys) := List.append_cons _ _ _ ▸ h
  have hrows : Rows (setUsed r (total xs) (if u then 1 else 0))
      (xs ++ [⟨b.size, u⟩] ++ ys) := by
    refine h'.replace rfl (by simpa using hb) (by simpa using h.aligned b (by simp))
      ⟨?_, trivial⟩ ?_ ?_ ?_
    · rw [memAt_setUsed, h.header_at]
      rfl
    · refine ⟨(memAt r (total xs + total [b])).prev, ?_, fun hne => ?_⟩
      · rw [memAt_setUsed_of_apart]
        rw [total_cons]
        exact Or.inl (by omega)
      · obtain ⟨c, zs, rfl⟩ := List.exists_cons_of_ne_nil hne
        rw [total_cons, total_nil, Nat.add_zero, h.header_next]
        rfl
    · exact fun i hi => setUsed_of_ne (Or.inl hi)
    · intro i hi
      rw [total_cons] at hi
      exact setUsed_of_ne (Or.inr (by omega))
  rw [← List.append_cons] at hrows
  have hhead : ∀ c ∈ [total xs], IsHeader (xs ++ ⟨b.size, u⟩ :: ys) c := by
    rintro c (_ | ⟨_, hc⟩)
    · exact hrows.isHeader _ _ rfl
    · cases hc
  exact ⟨hrows, hrows.keeps hhead fun i hi => setUsed_of_ne (hi _ List.mem_cons_self)⟩

theorem Rows.unlink (h : Rows r (xs ++ b :: c :: ys)) :
    Rows (Mem.unlink r (total xs) (total xs + b.size))
        (xs ++ ⟨b.size + c.size, b.used⟩ :: ys) ∧
      Keeps r (Mem.unlink r (total xs) (total xs + b.size))
        (xs ++ ⟨b.size + c.size, b.used⟩ :: ys) := by
  have hb := h.big b (by simp)
  have hc := h.big c (by simp)
  have hab := h.aligned b (by simp)
  have hac := h.aligned c (by simp)
  have hle := h.covers
  rw [total_append, total_cons, total_cons] at hle
  unfold sizeofStructMem minSizeAligned at hb hc
  unfold memSizeAligned at hle
  set p := total xs with hp
  have hq : (memAt r (p + b.size)).next = p + b.size + c.size := by rw [h.header_next]; rfl
  have hr : Mem.unlink r p (p + b.size) =
      setPrev (setNext r p (p + b.size + c.size)) (p + b.size + c.size) p := by
    unfold Mem.unlink
    dsimp only
    rw [hq, memAt_setNext_of_apart (Or.inl (by unfold sizeofStructMem; omega)), hq]
  have hframe : ∀ i, (∀ c' ∈ [p, p + b.size + c.size], i < c' ∨ c' + sizeofStructMem ≤ i) →
      Mem.unlink r p (p + b.size) i = r i := by
    intro i hi
    rw [hr, setPrev_of_ne (hi _ (by simp)), setNext_of_ne (hi _ (by simp))]
  have hrows : Rows (Mem.unlink r p (p + b.size)) (xs ++ [⟨b.size + c.size, b.used⟩] ++ ys) := by
    have h' : Rows r (xs ++ [b, c] ++ ys) := by
      rw [List.append_assoc]
      exact h
    refine h'.replace (by simp) ?_ ?_ ⟨?_, trivial⟩ ?_ ?_ ?_
    · rintro d (_ | ⟨_, hd⟩)
      · unfold sizeofStructMem minSizeAligned
        simp only
        omega
      · cases hd
    · rintro d (_ | ⟨_, hd⟩)
      · simp only
        omega
      · cases hd
    · rw [hr, memAt_setPrev_of_apart (Or.inr (by unfold sizeofStructMem; omega)),
        memAt_setNext _ _ (by omega), h.header_at]
      simp [header, hp, Nat.add_assoc]
    · refine ⟨p, ?_, fun _ => rfl⟩
      rw [total_cons, total_cons, total_nil, Nat.add_zero, ← Nat.add_assoc, hr,
        memAt_setPrev _ _ (by omega),
        memAt_setNext_of_apart (Or.inl (by unfold sizeofStructMem; omega))]
    · intro i hi
      refine hframe i ?_
      simp only [List.mem_cons, List.not_mem_nil, or_false, forall_eq_or_imp, forall_eq]
      omega
    · intro i hi
      refine hframe i ?_
      simp only [total_cons, total_nil] at hi
      simp only [List.mem_cons, List.not_mem_nil, or_false, forall_eq_or_imp, forall_eq]
      unfold sizeofStructMem at *
      omega
  have hhead := hrows.isHeader (xs ++ [⟨b.size + c.size, b.used⟩]) ys rfl
  rw [total_append, total_cons, total_nil, Nat.add_zero, ← hp, ← Nat.add_assoc] at hhead
  rw [← List.append_cons] at hrows hhead
  refine ⟨hrows, hrows.keeps ?_ hframe⟩
  simp only [List.mem_cons, List.not_mem_nil, or_false, forall_eq_or_imp, forall_eq]
  exact ⟨hrows.isHeader _ _ rfl, hhead⟩

/-- A free header is written at `ptr2`, between those at `ptr` and `next`. -/
structure Created (r r' : Ram) (ptr ptr2 next : ℕ) (u : UInt8) : Prop where
  at_ptr : memAt r' ptr = ⟨ptr2, (memAt r ptr).prev, u⟩
  at_ptr2 : memAt r' ptr2 = ⟨next, ptr, 0⟩
  frame : ∀ i, (∀ c ∈ [ptr, ptr2], i < c ∨ c + sizeofStructMem ≤ i) → r' i = r i

theorem created {ptr ptr2 next : ℕ} (r : Ram) (h1 : ptr + sizeofStructMem ≤ ptr2)
    (h2 : ptr2 < next) (hnext : next < 65536) :
    Created r (setNext (setPrev (setNext (setUsed r ptr2 0) ptr2 next) ptr2 ptr) ptr ptr2)
      ptr ptr2 next (memAt r ptr).used := by
  refine ⟨?_, ?_, fun i hi => ?_⟩
  · rw [memAt_setNext _ _ (by omega), memAt_setPrev_of_apart (Or.inr h1),
      memAt_setNext_of_apart (Or.inr h1), memAt_setUsed_of_apart (Or.inr h1)]
  · rw [memAt_setNext_of_apart (Or.inl h1), memAt_setPrev _ _ (by omega), memAt_setNext _ _ hnext,
      memAt_setUsed]
  · have hptr := hi ptr (by simp)
    have hptr2 := hi ptr2 (by simp)
    rw [setNext_of_ne hptr, setPrev_of_ne hptr2, setNext_of_ne hptr2, setUsed_of_ne hptr2]

theorem Created.setUsed {ptr ptr2 next : ℕ} {u : UInt8} (h : Created r r' ptr ptr2 next u)
    (h1 : ptr + sizeofStructMem ≤ ptr2) (v : UInt8) :
    Created r (setUsed r' ptr v) ptr ptr2 next v := by
  refine ⟨?_, ?_, fun i hi => ?_⟩
  · rw [memAt_setUsed, h.at_ptr]
  · rw [memAt_setUsed_of_apart (Or.inl h1), h.at_ptr2]
  · rw [setUsed_of_ne (hi ptr (by simp)), h.frame i hi]

theorem memAt_linkBack_of_apart {a c : ℕ} (hc : Apart (memAt r a).next c) :
    memAt (linkBack r a) c = memAt r c := by
  unfold linkBack
  split_ifs
  · exact memAt_setPrev_of_apart hc
  · rfl

theorem Created.linkBack_frame {ptr ptr2 next : ℕ} {u : UInt8}
    (h : Created r r' ptr ptr2 next u) {i : ℕ}
    (hi : ∀ c ∈ [ptr, ptr2, next], i < c ∨ c + sizeofStructMem ≤ i) :
    linkBack r' ptr2 i = r i := by
  have hr' : linkBack r' ptr2 i = r' i := by
    unfold linkBack
    rw [h.at_ptr2]
    split_ifs
    · exact setPrev_of_ne (hi _ (by simp))
    · rfl
  rw [hr']
  exact h.frame i fun c hc => hi c (by simp at hc ⊢; omega)

/-- The block behind the new one is linked back to it, and is as it was otherwise. -/
theorem Created.linkBack_next {ptr ptr2 next : ℕ} {u : UInt8} (h : Created r r' ptr ptr2 next u)
    (hptr : ptr + sizeofStructMem ≤ ptr2) (hptr2 : ptr2 + sizeofStructMem ≤ next)
    (hlt : ptr2 < 65536) : ∃ v, memAt (linkBack r' ptr2) next = { memAt r next with prev := v } ∧
      (next ≠ memSizeAligned → v = ptr2) := by
  have hlast : memAt r' next = memAt r next := by
    refine memAt_congr fun i _ => h.frame _ ?_
    simp only [List.mem_cons, List.not_mem_nil, or_false, forall_eq_or_imp, forall_eq]
    omega
  unfold linkBack
  rw [h.at_ptr2]
  dsimp only
  split_ifs with hne
  · exact ⟨ptr2, by rw [memAt_setPrev _ _ hlt, hlast], fun _ => rfl⟩
  · exact ⟨(memAt r next).prev, hlast, fun hc => absurd hc hne⟩

/-- **A free block is put behind the first of the blocks** `b :: old`, in place of the others. -/
theorem Rows.create (h : Rows r (xs ++ (b :: old) ++ ys)) {u : Bool}
    (hr : Created r r' (total xs) (total xs + n) (total xs + total (b :: old)) (if u then 1 else 0))
    (hn : sizeofStructMem + minSizeAligned ≤ n) (hm : sizeofStructMem + minSizeAligned ≤ m)
    (hnm : n + m = total (b :: old)) (halign : n % 4 = 0) :
    Rows (linkBack r' (total xs + n)) (xs ++ ⟨n, u⟩ :: ⟨m, false⟩ :: ys) ∧
      Keeps r (linkBack r' (total xs + n)) (xs ++ ⟨n, u⟩ :: ⟨m, false⟩ :: ys) := by
  have hcov := h.covers
  rw [total_append, total_append, ← hnm] at hcov
  rw [← hnm, ← Nat.add_assoc] at hr
  set p := total xs with hp
  have hapart : Apart (p + n + m) p := Or.inr (by omega)
  have hapart2 : Apart (p + n + m) (p + n) := Or.inr (by omega)
  have hframe : ∀ i, (∀ c ∈ [p, p + n, p + n + m], i < c ∨ c + sizeofStructMem ≤ i) →
      linkBack r' (p + n) i = r i := fun i => hr.linkBack_frame
  have hkeep : ∀ c, Apart (p + n + m) c → memAt (linkBack r' (p + n)) c = memAt r' c :=
    fun c hc => memAt_linkBack_of_apart (by rw [hr.at_ptr2]; exact hc)
  have hhead : (memAt r p).prev = lastAddr 0 0 xs := by
    rw [List.append_assoc] at h
    rw [h.header_at]
    rfl
  have hrows : Rows (linkBack r' (p + n)) (xs ++ [⟨n, u⟩, ⟨m, false⟩] ++ ys) := by
    refine h.replace (by simp [hnm]) ?_ ?_ ⟨?_, ?_, trivial⟩ ?_ ?_ ?_
    · simp [hn, hm]
    · have hmod := total_mod fun d hd => h.aligned d (List.mem_append_left _
        (List.mem_append_right xs hd))
      rw [← hnm] at hmod
      rintro d (_ | ⟨_, _ | ⟨_, hd⟩⟩)
      · exact halign
      · simp only
        omega
      · cases hd
    · rw [hkeep _ hapart, hr.at_ptr, hhead]
      rfl
    · rw [hkeep _ hapart2, hr.at_ptr2]
      rfl
    · rw [← hnm, ← Nat.add_assoc]
      obtain ⟨v, hv, hback⟩ := hr.linkBack_next (by omega) (by omega)
        (by unfold memSizeAligned at *; omega)
      refine ⟨v, hv, fun hys => hback fun hc => absurd (h.end_le.2.mp ?_) hys⟩
      rw [total_append, ← hnm]
      omega
    · intro i hi
      refine hframe i ?_
      simp only [List.mem_cons, List.not_mem_nil, or_false, forall_eq_or_imp, forall_eq]
      omega
    · intro i hi
      rw [← hnm] at hi
      refine hframe i ?_
      simp only [List.mem_cons, List.not_mem_nil, or_false, forall_eq_or_imp, forall_eq]
      omega
  have hhead := hrows.isHeader _ _ rfl
  rw [total_append, total_cons, total_cons, total_nil, Nat.add_zero, ← hp, ← Nat.add_assoc]
    at hhead
  rw [List.append_assoc] at hrows hhead
  have hmid := hrows.isHeader _ _ (List.append_cons _ _ _)
  rw [total_append, total_cons, total_nil, Nat.add_zero, ← hp] at hmid
  refine ⟨hrows, hrows.keeps ?_ hframe⟩
  simp only [List.mem_cons, List.not_mem_nil, or_false, forall_eq_or_imp, forall_eq]
  exact ⟨hrows.isHeader _ _ rfl, hmid, hhead⟩

/-! ### Freeing -/

/-- **The heap is in order**: its headers divide it into the coalesced row `bs`, whose first free
block is `lfree`. -/
structure Shaped (h : Heap) (bs : List Block) : Prop where
  rows : Rows h.ram bs
  coalesced : Coalesced bs
  lowest : h.lfree = lowestFree 0 bs

theorem plugForward_spec (hrows : Rows h.ram (xs ++ ⟨n, false⟩ :: ys))
    (hfree : h.lfree = lowestFree 0 xs) (hys : Coalesced ys) :
    ∃ m zs, Rows (plugForward h (total xs)).ram (xs ++ ⟨m, false⟩ :: zs) ∧
      (plugForward h (total xs)).lfree = h.lfree ∧ Coalesced zs ∧
      (∀ c ∈ zs.head?, c.used = true) ∧
      allocated 0 (xs ++ ⟨m, false⟩ :: zs) = allocated 0 (xs ++ ⟨n, false⟩ :: ys) ∧
      Keeps h.ram (plugForward h (total xs)).ram (xs ++ ⟨m, false⟩ :: zs) := by
  have hnext : (memAt h.ram (total xs)).next = total xs + n := by
    rw [hrows.header_at]
    rfl
  have hn := hrows.big ⟨n, false⟩ (by simp)
  have hend := (List.append_cons xs ⟨n, false⟩ ys ▸ hrows).end_le
  rw [total_append, total_cons, total_nil, Nat.add_zero] at hend
  rcases ys with _ | ⟨⟨k, u⟩, zs⟩
  · have hsame : plugForward h (total xs) = h := by
      unfold plugForward
      exact if_neg fun hc => hc.2.2 (by rw [hnext]; exact hend.2.mpr rfl)
    rw [hsame]
    exact ⟨n, [], hrows, rfl, hys, by simp, rfl, Keeps.refl _ _⟩
  · have hused : (memAt h.ram (total xs + n)).used = if u then 1 else 0 := by
      rw [hrows.header_next]
      rfl
    cases u with
    | true =>
      have hsame : plugForward h (total xs) = h := by
        unfold plugForward
        refine if_neg fun hc => ?_
        rw [hnext, hused] at hc
        exact absurd hc.2.1 (by decide)
      rw [hsame]
      exact ⟨n, _, hrows, rfl, hys, by simp, rfl, Keeps.refl _ _⟩
    | false =>
      have hne : total xs + n ≠ memSizeAligned := fun he => by simpa using hend.2.mp he
      have hlow : h.lfree ≠ total xs + n := by
        have := lowestFree_le 0 xs
        unfold sizeofStructMem at hn
        simp only at hn
        omega
      have hjoin : plugForward h (total xs) =
          { ram := unlink h.ram (total xs) (total xs + n), lfree := h.lfree } := by
        unfold plugForward
        simp only [hnext, hused, if_neg hlow]
        refine if_pos ⟨?_, rfl, hne⟩
        unfold sizeofStructMem at hn
        simp only at hn
        omega
      obtain ⟨hrows', hkeeps⟩ := hrows.unlink
      rw [hjoin]
      rw [Coalesced] at hys
      refine ⟨n + k, zs, hrows', rfl, hys.tail, ?_, by simp [Nat.add_assoc], hkeeps⟩
      intro c hc
      exact (hys.rel_head? hc).resolve_left (by simp)

/-- A freed block, with no free block behind it, is joined with the free block before it. -/
theorem plugBackward_spec (hrows : Rows h.ram (xs ++ ⟨n, false⟩ :: ys))
    (hfree : h.lfree = lowestFree 0 xs) (hxs : Coalesced xs) (hys : Coalesced ys)
    (hused : ∀ c ∈ ys.head?, c.used = true) :
    ∃ bs, Shaped (plugBackward h (total xs)) bs ∧
      allocated 0 bs = allocated 0 (xs ++ ⟨n, false⟩ :: ys) ∧
      Keeps h.ram (plugBackward h (total xs)).ram bs := by
  have hprev : (memAt h.ram (total xs)).prev = lastAddr 0 0 xs := by
    rw [hrows.header_at]
    rfl
  rcases xs.eq_nil_or_concat' with rfl | ⟨ws, ⟨k, u⟩, rfl⟩
  · have hsame : plugBackward h (total []) = h := by
      unfold plugBackward
      exact if_neg fun hc => hc.1 hprev
    rw [hsame]
    refine ⟨_, ⟨hrows, coalesced_append_cons.mpr ⟨hxs, hys, Or.inr ⟨by simp, hused⟩⟩, ?_⟩, rfl,
      Keeps.refl _ _⟩
    rw [hfree, lowestFree_append_free]
  · rw [lastAddr_concat, Nat.zero_add] at hprev
    have hrows' : Rows h.ram (ws ++ ⟨k, u⟩ :: ⟨n, false⟩ :: ys) := by
      rw [List.append_assoc] at hrows
      exact hrows
    have hk := hrows'.big ⟨k, u⟩ (by simp)
    have hhead : (memAt h.ram (total ws)).used = if u then 1 else 0 := by
      rw [hrows'.header_at]
      rfl
    have htotal : total (ws ++ [⟨k, u⟩]) = total ws + k := by simp
    cases u with
    | true =>
      have hsame : plugBackward h (total (ws ++ [⟨k, true⟩])) = h := by
        unfold plugBackward
        refine if_neg fun hc => ?_
        rw [hprev, hhead] at hc
        exact absurd hc.2 (by decide)
      rw [hsame]
      refine ⟨_, ⟨hrows, coalesced_append_cons.mpr ⟨hxs, hys, Or.inr ⟨by simp, hused⟩⟩, ?_⟩, rfl,
        Keeps.refl _ _⟩
      rw [hfree, lowestFree_append_free]
    | false =>
      rw [lowestFree_append_free] at hfree
      have hne : total ws ≠ total (ws ++ [⟨k, false⟩]) := by
        unfold sizeofStructMem at hk
        simp only at hk
        omega
      have hlow : h.lfree ≠ total (ws ++ [⟨k, false⟩]) := by
        have := lowestFree_le 0 ws
        omega
      have hjoin : plugBackward h (total (ws ++ [⟨k, false⟩])) =
          { ram := unlink h.ram (total ws) (total ws + k), lfree := h.lfree } := by
        unfold plugBackward
        simp only [hprev, hhead, if_neg hlow]
        rw [htotal] at hne ⊢
        exact if_pos ⟨hne, rfl⟩
      obtain ⟨hws, -, hlast⟩ := coalesced_append_cons.mp hxs
      obtain ⟨hjoined, hkeeps⟩ := hrows'.unlink
      rw [hjoin]
      refine ⟨_, ⟨hjoined, coalesced_append_cons.mpr ⟨hws, hys, Or.inr ⟨?_, hused⟩⟩, ?_⟩, ?_,
        hkeeps⟩
      · exact (hlast.resolve_left (by simp)).1
      · rw [lowestFree_append_free]
        exact hfree
      · simp [Nat.add_assoc]

/-- **What `mem_free` does**: the block is used no more. -/
theorem memFree_spec (hs : Shaped h (xs ++ ⟨n, true⟩ :: ys)) :
    ∃ bs, Shaped (memFree h (some (total xs + sizeofStructMem))) bs ∧
      allocated 0 bs = allocated 0 xs ++ allocated (total xs + n) ys ∧
      Keeps h.ram (memFree h (some (total xs + sizeofStructMem))).ram bs := by
  obtain ⟨hrows, hcoal, hlow⟩ := hs
  obtain ⟨hxs, hys, -⟩ := coalesced_append_cons.mp hcoal
  have hn := hrows.big ⟨n, true⟩ (by simp)
  have hcov := hrows.covers
  rw [total_append, total_cons] at hcov
  simp only at hn hcov
  have hpos : ∀ b ∈ xs, 0 < b.size := fun b hb => hrows.pos (List.mem_append_left _ hb)
  obtain ⟨hmark, hkeep⟩ := hrows.mark false
  set lfree := if total xs < h.lfree then total xs else h.lfree with hlfree
  have hfree : lfree = lowestFree 0 xs := by
    rw [hlfree, hlow]
    rcases used_or_free xs with hall | hex
    · have h0 := lowestFree_append hall 0 []
      rw [List.append_nil, Nat.zero_add] at h0
      have hle := le_lowestFree (total xs + n) ys
      rw [lowestFree_append hall, h0, Nat.zero_add, lowestFree_used, if_pos]
      · rfl
      · unfold sizeofStructMem at hn
        omega
    · have hlt := lowestFree_lt hex hpos 0
      rw [lowestFree_append_of_free hex, if_neg (by omega)]
  have hcode : memFree h (some (total xs + sizeofStructMem)) =
      plugHoles { ram := setUsed h.ram (total xs) 0, lfree := lfree } (total xs) := by
    unfold memFree
    have hin : ¬ memSizeAligned ≤ total xs + sizeofStructMem := by
      unfold minSizeAligned at hn
      omega
    simp only [if_neg hin, Nat.add_sub_cancel]
    rfl
  obtain ⟨m, zs, hfwd, hsame, hzs, hhead, halloc, hkeep'⟩ :=
    plugForward_spec (h := { ram := setUsed h.ram (total xs) 0, lfree := lfree }) hmark hfree hys
  obtain ⟨bs, hshaped, halloc', hkeep''⟩ :=
    plugBackward_spec hfwd (hsame.trans hfree) hxs hzs hhead
  rw [hcode]
  refine ⟨bs, hshaped, ?_, ?_⟩
  · rw [halloc', halloc]
    simp
  · exact (hkeep.trans hkeep' halloc).trans hkeep'' halloc'

/-! ### Trimming -/

theorem roundSize_mod (size : ℕ) : roundSize size % 4 = 0 := by
  unfold roundSize lwipMemAlignSize minSizeAligned
  dsimp only
  split_ifs <;> omega

theorem minSizeAligned_le_roundSize (size : ℕ) : minSizeAligned ≤ roundSize size := by
  unfold roundSize
  dsimp only
  split_ifs <;> omega

theorem le_roundSize (h : size ≤ 65532) : size ≤ roundSize size := by
  unfold roundSize lwipMemAlignSize minSizeAligned
  dsimp only
  split_ifs <;> omega

theorem roundSize_le (h : size ≤ n) (hmod : n % 4 = 0) (hmin : minSizeAligned ≤ n) :
    roundSize size ≤ n := by
  unfold roundSize lwipMemAlignSize minSizeAligned at *
  dsimp only
  split_ifs <;> omega

/-- The writes with which `mem_trim` puts a free block at `ptr2`. -/
def insertMem (r : Ram) (ptr ptr2 next : ℕ) : Ram :=
  linkBack (setNext (setPrev (setNext (setUsed r ptr2 0) ptr2 next) ptr2 ptr) ptr ptr2) ptr2

/-- A used block ends after `n` bytes; the rest of it and the blocks `old` behind it become one free
block. -/
theorem Rows.insertMem {k : ℕ} (h : Rows r (xs ++ (⟨k, true⟩ :: old) ++ ys))
    (hn : sizeofStructMem + minSizeAligned ≤ n) (hm : sizeofStructMem + minSizeAligned ≤ m)
    (hnm : n + m = total (⟨k, true⟩ :: old)) (halign : n % 4 = 0) :
    Rows (insertMem r (total xs) (total xs + n) (total xs + (n + m)))
        (xs ++ ⟨n, true⟩ :: ⟨m, false⟩ :: ys) ∧
      Keeps r (insertMem r (total xs) (total xs + n) (total xs + (n + m)))
        (xs ++ ⟨n, true⟩ :: ⟨m, false⟩ :: ys) := by
  have hcov := h.covers
  rw [total_append, total_append, ← hnm] at hcov
  have hused : (memAt r (total xs)).used = 1 := by
    rw [List.append_assoc] at h
    rw [h.header_at]
    rfl
  have hlt : total xs + n < total xs + (n + m) := by
    unfold sizeofStructMem at hm
    omega
  have hc := created r (show total xs + sizeofStructMem ≤ total xs + n by omega) hlt
    (by unfold memSizeAligned at hcov; omega)
  rw [hused, hnm] at hc
  rw [Mem.insertMem, hnm]
  exact h.create hc hn hm hnm halign

theorem memTrim_eq {newsize : ℕ} (hrows : Rows h.ram (xs ++ ⟨n, true⟩ :: ys))
    (hsize : sizeofStructMem + roundSize newsize ≤ n) :
    memTrim h (total xs + sizeofStructMem) newsize =
      (let ptr2 := total xs + (sizeofStructMem + roundSize newsize)
      if sizeofStructMem + roundSize newsize = n then h
      else if (memAt h.ram (total xs + n)).used = 0 then
        { ram := insertMem h.ram (total xs) ptr2 (memAt h.ram (total xs + n)).next,
          lfree := if h.lfree = total xs + n then ptr2 else h.lfree }
      else if sizeofStructMem + roundSize newsize + (sizeofStructMem + minSizeAligned) ≤ n then
        { ram := insertMem h.ram (total xs) ptr2 (total xs + n),
          lfree := if ptr2 < h.lfree then ptr2 else h.lfree }
      else h, some (total xs + sizeofStructMem)) := by
  have hcov := hrows.covers
  have hmin := minSizeAligned_le_roundSize newsize
  rw [total_append, total_cons] at hcov
  simp only at hcov
  have hnext : (memAt h.ram (total xs)).next = total xs + n := by
    rw [hrows.header_at]
    rfl
  have hdata : (((total xs + n : ℕ) - total xs - sizeofStructMem : ℤ) % 65536).toNat =
      n - sizeofStructMem := by
    unfold sizeofStructMem memSizeAligned at *
    omega
  have hreread : (memAt (setUsed h.ram (total xs + (sizeofStructMem + roundSize newsize)) 0)
      (total xs)).next = total xs + n := by
    rw [memAt_setUsed_of_apart (Or.inr (by omega)), hnext]
  have hsame : roundSize newsize = n - sizeofStructMem ↔
      sizeofStructMem + roundSize newsize = n := by omega
  have hroom : roundSize newsize + sizeofStructMem + minSizeAligned ≤ n - sizeofStructMem ↔
      sizeofStructMem + roundSize newsize + (sizeofStructMem + minSizeAligned) ≤ n := by omega
  unfold memTrim
  simp only [Nat.add_sub_cancel, hnext, hdata, Nat.add_assoc (total xs)]
  rw [if_neg (by omega), if_neg (by unfold minSizeAligned at hmin; omega), if_neg (by omega)]
  simp only [hsame, hroom, hreread]
  split_ifs <;> rfl

theorem Rows.exists_free (hrows : Rows r (xs ++ ⟨n, true⟩ :: ys))
    (hfree : (memAt r (total xs + n)).used = 0) : ∃ m zs, ys = ⟨m, false⟩ :: zs := by
  rcases ys with _ | ⟨⟨m, u⟩, zs⟩
  · have hcov := hrows.covers
    rw [total_append, total_cons, total_nil, Nat.add_zero] at hcov
    exact absurd (hcov ▸ hfree) hrows.endUsed
  · rw [hrows.header_next] at hfree
    cases u with
    | true => exact absurd hfree (by simp [header])
    | false => exact ⟨m, zs, rfl⟩

theorem Rows.not_free (hrows : Rows r (xs ++ ⟨n, true⟩ :: ys))
    (hfree : (memAt r (total xs + n)).used ≠ 0) : ∀ c ∈ ys.head?, c.used = true := by
  rcases ys with _ | ⟨⟨m, u⟩, zs⟩
  · simp
  · rw [hrows.header_next] at hfree
    cases u with
    | true => simp
    | false => exact absurd rfl hfree

/-- **What `mem_trim` does**: the block ends earlier, if what is left over can be a block or belongs
to the free block behind it. -/
theorem memTrim_spec (newsize : ℕ) (hs : Shaped h (xs ++ ⟨n, true⟩ :: ys))
    (hsize : sizeofStructMem + roundSize newsize ≤ n) :
    ∃ bs k, (memTrim h (total xs + sizeofStructMem) newsize).2 =
        some (total xs + sizeofStructMem) ∧
      Shaped (memTrim h (total xs + sizeofStructMem) newsize).1 bs ∧
      sizeofStructMem + roundSize newsize ≤ k ∧ k ≤ n ∧
      allocated 0 bs = allocated 0 xs ++ (total xs, k) :: allocated (total xs + n) ys ∧
      Keeps h.ram (memTrim h (total xs + sizeofStructMem) newsize).1.ram bs := by
  obtain ⟨hrows, hcoal, hlow⟩ := hs
  obtain ⟨hxs, hys⟩ := coalesced_append_used.mp hcoal
  have hpos : ∀ b ∈ xs, 0 < b.size := fun b hb => hrows.pos (List.mem_append_left _ hb)
  have hmod : (sizeofStructMem + roundSize newsize) % 4 = 0 := by
    have := roundSize_mod newsize
    unfold sizeofStructMem
    omega
  have hmin : sizeofStructMem + minSizeAligned ≤ sizeofStructMem + roundSize newsize :=
    Nat.add_le_add_left (minSizeAligned_le_roundSize newsize) _
  rw [memTrim_eq hrows hsize]
  dsimp only
  generalize sizeofStructMem + roundSize newsize = s at hsize hmod hmin ⊢
  have hsame : ∃ bs k, some (total xs + sizeofStructMem) = some (total xs + sizeofStructMem) ∧
      Shaped h bs ∧ s ≤ k ∧ k ≤ n ∧
      allocated 0 bs = allocated 0 xs ++ (total xs, k) :: allocated (total xs + n) ys ∧
      Keeps h.ram h.ram bs :=
    ⟨_, n, rfl, ⟨hrows, hcoal, hlow⟩, hsize, Nat.le_refl n, by simp, Keeps.refl _ _⟩
  by_cases hexact : s = n
  · rw [if_pos hexact]
    exact hsame
  rw [if_neg hexact]
  have hn : n = s + (n - s) := by omega
  by_cases hfree : (memAt h.ram (total xs + n)).used = 0
  · -- the free block behind it begins earlier
    rw [if_pos hfree]
    obtain ⟨m, zs, rfl⟩ := hrows.exists_free hfree
    have hm := hrows.big ⟨m, false⟩ (by simp)
    simp only at hm
    have hnext : (memAt h.ram (total xs + n)).next = total xs + (s + (n - s + m)) := by
      rw [hrows.header_next]
      simp only [header]
      omega
    have hrows' : Rows h.ram (xs ++ [⟨n, true⟩, ⟨m, false⟩] ++ zs) := by simpa using hrows
    obtain ⟨hnew, hkeep⟩ := hrows'.insertMem (m := n - s + m) hmin (by omega) (by simp; omega) hmod
    rw [hnext]
    refine ⟨_, s, rfl, ⟨hnew, ?_, ?_⟩, Nat.le_refl s, hsize, ?_, hkeep⟩
    · exact coalesced_append_used.mpr
        ⟨hxs, coalesced_free_cons.mpr (coalesced_free_cons.mp hys)⟩
    · rw [hlow, lowestFree_shift hpos 0 s n _ m, Nat.zero_add]
    · simp only [allocated_append, allocated_used, allocated_free, Nat.zero_add]
      rw [show total xs + s + (n - s + m) = total xs + n + m by omega]
  rw [if_neg hfree]
  by_cases hroom : s + (sizeofStructMem + minSizeAligned) ≤ n
  · -- what is left over becomes a free block
    rw [if_pos hroom]
    have hrows' : Rows h.ram (xs ++ [⟨n, true⟩] ++ ys) := by simpa using hrows
    obtain ⟨hnew, hkeep⟩ := hrows'.insertMem (m := n - s) hmin (by omega) (by simp; omega) hmod
    rw [← hn] at hnew hkeep
    refine ⟨_, s, rfl, ⟨hnew, ?_, ?_⟩, Nat.le_refl s, hsize, ?_, hkeep⟩
    · exact coalesced_append_used.mpr ⟨hxs, coalesced_free_cons.mpr ⟨hys, hrows.not_free hfree⟩⟩
    · rw [hlow, lowestFree_carve hpos 0 (n - s) (lt_of_le_of_ne hsize hexact), Nat.zero_add]
    · simp only [allocated_append, allocated_used, allocated_free, Nat.zero_add]
      rw [show total xs + s + (n - s) = total xs + n by omega]
  · rw [if_neg hroom]
    exact hsame

/-! ### Allocating -/

theorem Rows.userDataSize_eq {u : Bool} (hrows : Rows r (xs ++ ⟨m, u⟩ :: ys)) :
    userDataSize r (total xs) = m - sizeofStructMem := by
  have hcov := hrows.covers
  have hm := hrows.big ⟨m, u⟩ (by simp)
  rw [total_append, total_cons] at hcov
  unfold userDataSize
  rw [hrows.header_at]
  unfold header sizeofStructMem memSizeAligned at *
  simp only at *
  omega

/-- **First fit**: the search stops at a free block that is big enough, or there is none. -/
theorem search_spec {fuel : ℕ} (hrows : Rows r (xs ++ ys)) (hpos : 0 < size)
    (hfuel : ys.length < fuel) :
    (search r size fuel (total xs) = some none ∧
      ∀ b ∈ ys, b.used = false → b.size < sizeofStructMem + size) ∨
    ∃ zs m ws, ys = zs ++ ⟨m, false⟩ :: ws ∧ sizeofStructMem + size ≤ m ∧
      search r size fuel (total xs) = some (some (total xs + total zs)) := by
  induction fuel generalizing xs ys with
  | zero => omega
  | succ fuel ih =>
    have hcov := hrows.covers
    rw [total_append] at hcov
    rw [search]
    split_ifs with hlt hfit
    · rcases ys with _ | ⟨⟨m, u⟩, ys⟩
      · rw [total_nil] at hcov
        omega
      · rw [hrows.userDataSize_eq, hrows.header_at] at hfit
        cases u with
        | true => exact absurd hfit.1 (by simp [header])
        | false => exact Or.inr ⟨[], m, ys, rfl, by omega, rfl⟩
    · rcases ys with _ | ⟨⟨m, u⟩, ys⟩
      · rw [total_nil] at hcov
        omega
      · have hsmall : u = false → m < sizeofStructMem + size := by
          rintro rfl
          rw [hrows.userDataSize_eq, hrows.header_at] at hfit
          by_contra hge
          exact hfit ⟨rfl, by omega⟩
        have hnext : (memAt r (total xs)).next = total (xs ++ [⟨m, u⟩]) := by
          rw [hrows.header_at, total_append, total_cons, total_nil]
          rfl
        rw [List.length_cons] at hfuel
        rw [hnext]
        rcases ih (List.append_cons _ _ _ ▸ hrows) (by omega) with
          ⟨hnone, hall⟩ | ⟨zs, k, ws, rfl, hk, hsome⟩
        · refine Or.inl ⟨hnone, ?_⟩
          rintro b (_ | ⟨_, hb⟩)
          · exact hsmall
          · exact hall b hb
        · refine Or.inr ⟨⟨m, u⟩ :: zs, k, ws, rfl, hk, ?_⟩
          rw [hsome, total_append, total_cons, total_nil, total_cons]
          simp [Nat.add_assoc]
    · refine Or.inl ⟨rfl, fun b hb _ => ?_⟩
      have := size_le_total hb
      unfold sizeofStructMem
      omega

theorem nextFree_spec {fuel : ℕ} (hrows : Rows r (xs ++ ys)) (hfuel : ys.length < fuel) :
    nextFree r fuel (total xs) = some (lowestFree (total xs) ys) := by
  induction fuel generalizing xs ys with
  | zero => omega
  | succ fuel ih =>
    rw [nextFree]
    rcases ys with _ | ⟨⟨m, u⟩, ys⟩
    · exact if_neg fun hc => hc.2 (hrows.end_le.2.mpr rfl)
    · have hne : total xs ≠ memSizeAligned := fun he => by simpa using hrows.end_le.2.mp he
      rw [hrows.header_at]
      cases u with
      | true =>
        have hnext : total xs + m = total (xs ++ [⟨m, true⟩]) := by simp
        rw [List.length_cons] at hfuel
        rw [if_pos ⟨by simp [header], hne⟩, lowestFree_used]
        simp only [header]
        rw [hnext]
        exact ih (List.append_cons _ _ _ ▸ hrows) (by omega)
      | false => exact if_neg fun hc => hc.1 rfl

/-- The block is taken, and what it does not need becomes a free block if it is big enough. -/
theorem takeBlock_spec (hrows : Rows r (xs ++ ⟨m, false⟩ :: ys)) (hys : Coalesced (⟨m, false⟩ :: ys))
    (hmod : size % 4 = 0) (hmin : minSizeAligned ≤ size) (hsize : sizeofStructMem + size ≤ m) :
    ∃ k zs, sizeofStructMem + size ≤ k ∧ k ≤ m ∧
      Rows (takeBlock r (total xs) size) (xs ++ ⟨k, true⟩ :: zs) ∧ Coalesced zs ∧
      allocated (total xs + k) zs = allocated (total xs + m) ys ∧
      Keeps r (takeBlock r (total xs) size) (xs ++ ⟨k, true⟩ :: zs) := by
  obtain ⟨hys', hhead⟩ := coalesced_free_cons.mp hys
  have hcov := hrows.covers
  rw [total_append, total_cons] at hcov
  simp only at hcov
  unfold takeBlock
  rw [hrows.userDataSize_eq]
  dsimp only
  split_ifs with hroom
  · have hnext : (memAt r (total xs)).next = total xs + m := by
      rw [hrows.header_at]
      rfl
    have hlo : total xs + sizeofStructMem ≤ total xs + (sizeofStructMem + size) := by omega
    have hhi : total xs + (sizeofStructMem + size) < total xs + m := by
      unfold minSizeAligned at hroom
      omega
    have hcreated := (created r hlo hhi (by unfold memSizeAligned at hcov; omega)).setUsed hlo 1
    have hrows' : Rows r (xs ++ [⟨m, false⟩] ++ ys) := by simpa using hrows
    obtain ⟨hnew, hkeep⟩ := hrows'.create (u := true) (m := m - (sizeofStructMem + size))
      hcreated (by omega) (by omega) (by simp; omega) (by unfold sizeofStructMem; omega)
    rw [Nat.add_assoc, memAt_setUsed_of_apart (Or.inr hlo), hnext]
    refine ⟨sizeofStructMem + size, _, Nat.le_refl _, hsize, hnew,
      coalesced_free_cons.mpr ⟨hys', hhead⟩, ?_, hkeep⟩
    rw [allocated_free]
    congr 1
    omega
  · obtain ⟨hmark, hkeep⟩ := hrows.mark true
    exact ⟨m, ys, hsize, Nat.le_refl m, hmark, hys', rfl, hkeep⟩

theorem lowestFree_take {k : ℕ} {us zs : List Block} (hrows : Rows r (us ++ zs ++ ⟨k, true⟩ :: ys))
    (hused : ∀ b ∈ us, b.used = true) (hfirst : ∀ b ∈ zs.head?, b.used = false) :
    (if total (us ++ zs) = total us then nextFree r memSizeAligned (total (us ++ zs))
      else some (total us)) = some (lowestFree 0 (us ++ zs ++ ⟨k, true⟩ :: ys)) := by
  rcases zs with _ | ⟨⟨m, u⟩, zs⟩
  · rw [List.append_nil] at hrows ⊢
    rw [if_pos rfl, nextFree_spec hrows hrows.length_lt, lowestFree_append hused, Nat.zero_add]
  · have hu : u = false := hfirst _ rfl
    subst hu
    have hm := hrows.pos (b := ⟨m, false⟩) (by simp)
    have hne : total (us ++ ⟨m, false⟩ :: zs) ≠ total us := by
      rw [total_append, total_cons]
      omega
    rw [if_neg hne, List.append_assoc, List.cons_append, lowestFree_append hused, lowestFree_free,
      Nat.zero_add]

/-- **What `mem_malloc` does.** It finds no free block that is big enough, or it takes one. -/
theorem memMalloc_spec (hs : Shaped h bs) (size : ℕ) :
    (memMalloc h size = some (h, none) ∧ (size = 0 ∨
      ∀ b ∈ bs, b.used = false → b.size < sizeofStructMem + roundSize size)) ∨
    ∃ h' xs m ys bs' k, size ≠ 0 ∧ bs = xs ++ ⟨m, false⟩ :: ys ∧
      memMalloc h size = some (h', some (total xs + sizeofStructMem)) ∧ Shaped h' bs' ∧
      sizeofStructMem + roundSize size ≤ k ∧ k ≤ m ∧
      allocated 0 bs' = allocated 0 xs ++ (total xs, k) :: allocated (total xs + m) ys ∧
      Keeps h.ram h'.ram bs' := by
  obtain ⟨hrows, hcoal, hlow⟩ := hs
  unfold memMalloc
  by_cases hzero : size = 0
  · exact Or.inl ⟨if_pos hzero, Or.inl hzero⟩
  rw [if_neg hzero]
  have hmod := roundSize_mod size
  have hmin := minSizeAligned_le_roundSize size
  dsimp only
  generalize roundSize size = s at hmod hmin ⊢
  by_cases hbig : memSizeAligned < s
  · refine Or.inl ⟨if_pos hbig, Or.inr fun b hb _ => ?_⟩
    have := size_le_total hb
    rw [hrows.covers] at this
    omega
  rw [if_neg hbig]
  -- the search begins at the first free block
  obtain ⟨us, vs, rfl, hused, hfirst, hhead⟩ := exists_lowestFree 0 bs
  rw [Nat.zero_add] at hfirst
  rw [hlow, hfirst]
  have hpos : 0 < s := by
    unfold minSizeAligned at hmin
    omega
  rcases search_spec hrows hpos hrows.length_lt with ⟨hnone, hall⟩ | ⟨zs, m, ws, rfl, hm, hsome⟩
  · rw [hnone]
    refine Or.inl ⟨rfl, Or.inr fun b hb hu => ?_⟩
    rcases List.mem_append.mp hb with hb | hb
    · rw [hused b hb] at hu
      cases hu
    · exact hall b hb hu
  · rw [hsome]
    dsimp only
    rw [← total_append]
    have happ : us ++ (zs ++ ⟨m, false⟩ :: ws) = (us ++ zs) ++ ⟨m, false⟩ :: ws :=
      (List.append_assoc _ _ _).symm
    rw [happ] at hrows hcoal
    obtain ⟨hxs, hws, hor⟩ := coalesced_append_cons.mp hcoal
    obtain ⟨k, ts, hk, hkm, hrows', hts, halloc, hkeep⟩ := takeBlock_spec hrows
      (coalesced_free_cons.mpr ⟨hws, (hor.resolve_left (by simp)).2⟩) hmod hmin hm
    have hlfree := lowestFree_take hrows' hused fun b hb => by
      cases zs with
      | nil => cases hb
      | cons c zs => exact hhead b hb
    refine Or.inr ⟨⟨takeBlock h.ram (total (us ++ zs)) s, lowestFree 0 (us ++ zs ++ _ :: ts)⟩,
      us ++ zs, m, ws, _, k, hzero, happ, ?_,
      ⟨hrows', coalesced_append_used.mpr ⟨hxs, hts⟩, rfl⟩, hk, hkm, ?_, hkeep⟩
    · split_ifs at hlfree ⊢ with heq
      · rw [hlfree]
        rfl
      · rw [Option.some.inj hlfree]
    · rw [allocated_append, allocated_used, Nat.zero_add, halloc]

end

end Stm32TcpServer.Lwip.Mem
