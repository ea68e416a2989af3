import Mathlib.Algebra.GroupWithZero.Nat
import Mathlib.Data.List.Basic
import Mathlib.Data.List.Chain

/-! # A row of blocks

Memory that is divided completely into blocks, each used or free, the first one at the address `a`.
The row is coalesced if no two free blocks are neighbours: then a stretch of memory that no used
block touches lies in one block (`Coalesced.gap`), and a row without a used block is a single one
(`Coalesced.eq_singleton`).

* `placed`: the blocks with their addresses; `allocated`: the used ones with their sizes.
* `lowestFree`: the address of the first free block, or the end of the row. -/

namespace Stm32TcpServer.Lib.Blocks

/-- A block of memory. -/
structure Block where
  size : ℕ
  used : Bool
  deriving DecidableEq

variable {a x n : ℕ} {b c : Block} {bs xs ys : List Block}

/-- The size of the row. -/
def total (bs : List Block) : ℕ := (bs.map Block.size).sum

@[simp] theorem total_nil : total [] = 0 := rfl

@[simp] theorem total_cons (b : Block) (bs : List Block) : total (b :: bs) = b.size + total bs := rfl

@[simp] theorem total_append (xs ys : List Block) : total (xs ++ ys) = total xs + total ys := by
  simp [total]

theorem mul_length_le_total {k : ℕ} (h : ∀ b ∈ bs, k ≤ b.size) : k * bs.length ≤ total bs := by
  induction bs with
  | nil => exact Nat.le_refl _
  | cons b bs ih =>
    have hb := h b List.mem_cons_self
    have := ih fun c hc => h c (List.mem_cons_of_mem _ hc)
    rw [total_cons, List.length_cons, Nat.mul_add]
    omega

theorem size_le_total (h : b ∈ bs) : b.size ≤ total bs := by
  obtain ⟨xs, ys, rfl⟩ := List.append_of_mem h
  rw [total_append, total_cons]
  omega

theorem total_mod {k : ℕ} (h : ∀ b ∈ bs, b.size % k = 0) : total bs % k = 0 := by
  induction bs with
  | nil => exact Nat.zero_mod k
  | cons b bs ih =>
    rw [total_cons, Nat.add_mod, h b List.mem_cons_self,
      ih fun c hc => h c (List.mem_cons_of_mem _ hc), Nat.zero_add, Nat.zero_mod]

/-- The blocks of the row with their addresses. -/
def placed : ℕ → List Block → List (ℕ × Block)
  | _, [] => []
  | a, b :: bs => (a, b) :: placed (a + b.size) bs

@[simp] theorem placed_nil (a : ℕ) : placed a [] = [] := rfl

@[simp] theorem placed_cons (a : ℕ) (b : Block) (bs : List Block) :
    placed a (b :: bs) = (a, b) :: placed (a + b.size) bs := rfl

theorem placed_append (a : ℕ) (xs ys : List Block) :
    placed a (xs ++ ys) = placed a xs ++ placed (a + total xs) ys := by
  induction xs generalizing a with
  | nil => simp
  | cons b xs ih => simp [ih, Nat.add_assoc]

theorem bounds_of_mem (h : (x, b) ∈ placed a bs) : a ≤ x ∧ x + b.size ≤ a + total bs := by
  induction bs generalizing a with
  | nil => cases h
  | cons c bs ih =>
    rw [total_cons]
    rcases List.mem_cons.mp h with heq | h
    · obtain ⟨rfl, rfl⟩ := Prod.mk.inj heq
      omega
    · have := ih h
      omega

theorem mem_of_placed (h : (x, b) ∈ placed a bs) : b ∈ bs := by
  induction bs generalizing a with
  | nil => cases h
  | cons c bs ih =>
    rcases List.mem_cons.mp h with heq | h
    · obtain ⟨rfl, rfl⟩ := Prod.mk.inj heq
      exact List.mem_cons_self
    · exact List.mem_cons_of_mem _ (ih h)

theorem split_of_mem (h : (x, b) ∈ placed a bs) :
    ∃ xs ys, bs = xs ++ b :: ys ∧ x = a + total xs := by
  induction bs generalizing a with
  | nil => cases h
  | cons c bs ih =>
    rcases List.mem_cons.mp h with heq | h
    · obtain ⟨rfl, rfl⟩ := Prod.mk.inj heq
      exact ⟨[], bs, rfl, rfl⟩
    · obtain ⟨xs, ys, rfl, rfl⟩ := ih h
      exact ⟨c :: xs, ys, rfl, by rw [total_cons, Nat.add_assoc]⟩

theorem eq_or_apart {y : ℕ} (hx : (x, b) ∈ placed a bs) (hy : (y, c) ∈ placed a bs) :
    (x = y ∧ b = c) ∨ x + b.size ≤ y ∨ y + c.size ≤ x := by
  induction bs generalizing a with
  | nil => cases hx
  | cons d bs ih =>
    rcases List.mem_cons.mp hx with heq | hx' <;> rcases List.mem_cons.mp hy with heq' | hy'
    · obtain ⟨rfl, rfl⟩ := Prod.mk.inj heq
      obtain ⟨rfl, rfl⟩ := Prod.mk.inj heq'
      exact Or.inl ⟨rfl, rfl⟩
    · obtain ⟨rfl, rfl⟩ := Prod.mk.inj heq
      have := bounds_of_mem hy'
      omega
    · obtain ⟨rfl, rfl⟩ := Prod.mk.inj heq'
      have := bounds_of_mem hx'
      omega
    · exact ih hx' hy'

/-! ### What is used -/

/-- The used blocks, with their addresses and sizes. -/
def allocated (a : ℕ) (bs : List Block) : List (ℕ × ℕ) :=
  ((placed a bs).filter fun x => x.2.used).map fun x => (x.1, x.2.size)

@[simp] theorem allocated_nil (a : ℕ) : allocated a [] = [] := rfl

theorem allocated_cons (a : ℕ) (b : Block) (bs : List Block) :
    allocated a (b :: bs) = (if b.used then [(a, b.size)] else []) ++ allocated (a + b.size) bs := by
  unfold allocated
  rw [placed_cons]
  cases hu : b.used <;> simp [hu]

@[simp] theorem allocated_used (a n : ℕ) (bs : List Block) :
    allocated a (⟨n, true⟩ :: bs) = (a, n) :: allocated (a + n) bs := allocated_cons _ _ _

@[simp] theorem allocated_free (a n : ℕ) (bs : List Block) :
    allocated a (⟨n, false⟩ :: bs) = allocated (a + n) bs := allocated_cons _ _ _

@[simp] theorem allocated_append (a : ℕ) (xs ys : List Block) :
    allocated a (xs ++ ys) = allocated a xs ++ allocated (a + total xs) ys := by
  simp [allocated, placed_append]

theorem mem_allocated : (x, n) ∈ allocated a bs ↔ (x, ⟨n, true⟩) ∈ placed a bs := by
  unfold allocated
  rw [List.mem_map]
  constructor
  · rintro ⟨⟨y, c⟩, hc, heq⟩
    obtain ⟨hmem, hu⟩ := List.mem_filter.mp hc
    obtain ⟨rfl, rfl⟩ := Prod.mk.inj heq
    have hu' : c.used = true := hu
    rw [← hu']
    exact hmem
  · intro h
    exact ⟨(x, ⟨n, true⟩), List.mem_filter.mpr ⟨h, rfl⟩, rfl⟩

/-! ### The first free block -/

/-- The address of the first free block, or the end of the row. -/
def lowestFree : ℕ → List Block → ℕ
  | a, [] => a
  | a, b :: bs => if b.used then lowestFree (a + b.size) bs else a

@[simp] theorem lowestFree_used (a n : ℕ) (bs : List Block) :
    lowestFree a (⟨n, true⟩ :: bs) = lowestFree (a + n) bs := rfl

@[simp] theorem lowestFree_free (a n : ℕ) (bs : List Block) :
    lowestFree a (⟨n, false⟩ :: bs) = a := rfl

theorem lowestFree_append (h : ∀ b ∈ xs, b.used = true) (a : ℕ) (ys : List Block) :
    lowestFree a (xs ++ ys) = lowestFree (a + total xs) ys := by
  induction xs generalizing a with
  | nil => rfl
  | cons b xs ih =>
    rw [List.cons_append, lowestFree, if_pos (h b List.mem_cons_self),
      ih (fun c hc => h c (List.mem_cons_of_mem _ hc)), total_cons, Nat.add_assoc]

theorem lowestFree_append_of_free (h : ∃ b ∈ xs, b.used = false) (a : ℕ) (ys : List Block) :
    lowestFree a (xs ++ ys) = lowestFree a xs := by
  induction xs generalizing a with
  | nil => obtain ⟨b, hb, -⟩ := h; cases hb
  | cons b xs ih =>
    rw [List.cons_append, lowestFree, lowestFree]
    split_ifs with hu
    · refine ih ?_ _
      obtain ⟨c, hc, hcu⟩ := h
      rcases List.mem_cons.mp hc with rfl | hc
      · rw [hu] at hcu
        cases hcu
      · exact ⟨c, hc, hcu⟩
    · rfl

theorem lowestFree_lt (h : ∃ b ∈ xs, b.used = false) (hpos : ∀ b ∈ xs, 0 < b.size) (a : ℕ) :
    lowestFree a xs < a + total xs := by
  induction xs generalizing a with
  | nil => obtain ⟨b, hb, -⟩ := h; cases hb
  | cons b xs ih =>
    have hb := hpos b List.mem_cons_self
    rw [lowestFree, total_cons]
    split_ifs with hu
    · obtain ⟨c, hc, hcu⟩ := h
      rcases List.mem_cons.mp hc with rfl | hc
      · rw [hu] at hcu
        cases hcu
      · have := ih ⟨c, hc, hcu⟩ (fun d hd => hpos d (List.mem_cons_of_mem _ hd)) (a + b.size)
        omega
    · omega

theorem used_or_free (xs : List Block) : (∀ b ∈ xs, b.used = true) ∨
    ∃ b ∈ xs, b.used = false := by
  by_contra hne
  rw [not_or] at hne
  refine hne.1 fun b hb => ?_
  by_contra hu
  exact hne.2 ⟨b, hb, Bool.not_eq_true _ ▸ hu⟩

@[simp] theorem lowestFree_append_free (a n : ℕ) (xs ys : List Block) :
    lowestFree a (xs ++ ⟨n, false⟩ :: ys) = lowestFree a xs := by
  rcases used_or_free xs with h | h
  · rw [lowestFree_append h, lowestFree_free]
    have := lowestFree_append h a []
    rwa [List.append_nil, eq_comm] at this
  · exact lowestFree_append_of_free h _ _

theorem le_lowestFree (a : ℕ) (bs : List Block) : a ≤ lowestFree a bs := by
  induction bs generalizing a with
  | nil => exact Nat.le_refl _
  | cons b bs ih =>
    have := ih (a + b.size)
    rw [lowestFree]
    split_ifs <;> omega

theorem lowestFree_le (a : ℕ) (bs : List Block) : lowestFree a bs ≤ a + total bs := by
  induction bs generalizing a with
  | nil => exact Nat.le_refl _
  | cons b bs ih =>
    have := ih (a + b.size)
    rw [lowestFree, total_cons]
    split_ifs <;> omega

/-- A used block shrinks, and the free block behind it grows. -/
theorem lowestFree_shift (hpos : ∀ b ∈ xs, 0 < b.size) (a s n m k : ℕ) :
    lowestFree a (xs ++ ⟨s, true⟩ :: ⟨m, false⟩ :: ys) =
      if lowestFree a (xs ++ ⟨n, true⟩ :: ⟨k, false⟩ :: ys) = a + total xs + n then a + total xs + s
      else lowestFree a (xs ++ ⟨n, true⟩ :: ⟨k, false⟩ :: ys) := by
  rcases used_or_free xs with hall | hex
  · rw [lowestFree_append hall, lowestFree_append hall]
    simp
  · have hlt := lowestFree_lt hex hpos a
    rw [lowestFree_append_of_free hex, lowestFree_append_of_free hex, if_neg (by omega)]

/-- A used block shrinks, and what is left over becomes a free one. -/
theorem lowestFree_carve (hpos : ∀ b ∈ xs, 0 < b.size) {s : ℕ} (a m : ℕ) (hs : s < n) :
    lowestFree a (xs ++ ⟨s, true⟩ :: ⟨m, false⟩ :: ys) =
      if a + total xs + s < lowestFree a (xs ++ ⟨n, true⟩ :: ys) then a + total xs + s
      else lowestFree a (xs ++ ⟨n, true⟩ :: ys) := by
  rcases used_or_free xs with hall | hex
  · have hle := le_lowestFree (a + total xs + n) ys
    rw [lowestFree_append hall, lowestFree_append hall, lowestFree_used, lowestFree_used,
      lowestFree_free, if_pos (by omega)]
  · have hlt := lowestFree_lt hex hpos a
    rw [lowestFree_append_of_free hex, lowestFree_append_of_free hex, if_neg (by omega)]

theorem exists_lowestFree (a : ℕ) (bs : List Block) : ∃ xs ys, bs = xs ++ ys ∧
    (∀ b ∈ xs, b.used = true) ∧ lowestFree a bs = a + total xs ∧
    ∀ b ∈ ys.head?, b.used = false := by
  induction bs generalizing a with
  | nil => exact ⟨[], [], rfl, by simp, rfl, by simp⟩
  | cons b bs ih =>
    cases hu : b.used with
    | false => exact ⟨[], b :: bs, rfl, by simp, by simp [lowestFree, hu], by simp [hu]⟩
    | true =>
      obtain ⟨xs, ys, rfl, hxs, hlow, hys⟩ := ih (a + b.size)
      refine ⟨b :: xs, ys, rfl, ?_, ?_, hys⟩
      · rintro c (_ | ⟨_, hc⟩)
        · exact hu
        · exact hxs c hc
      · rw [lowestFree, if_pos hu, hlow, total_cons, Nat.add_assoc]

/-! ### Coalesced rows -/

/-- **No two free blocks are neighbours.** -/
def Coalesced (bs : List Block) : Prop := bs.IsChain fun b c => b.used = true ∨ c.used = true

/-- A used block may stand anywhere, a free one only between used ones. -/
theorem coalesced_append_cons :
    Coalesced (xs ++ b :: ys) ↔ Coalesced xs ∧ Coalesced ys ∧
      (b.used = true ∨ (∀ c ∈ xs.getLast?, c.used = true) ∧ ∀ c ∈ ys.head?, c.used = true) := by
  unfold Coalesced
  rw [List.isChain_append, List.isChain_cons]
  simp only [List.head?_cons, Option.mem_def, Option.some.injEq, forall_eq']
  constructor
  · rintro ⟨hxs, ⟨hhead, hys⟩, hlast⟩
    refine ⟨hxs, hys, or_iff_not_imp_left.mpr fun hb => ⟨fun c hc => ?_, fun c hc => ?_⟩⟩
    · exact (hlast c hc).resolve_right hb
    · exact (hhead c hc).resolve_left hb
  · rintro ⟨hxs, hys, hb | ⟨hlast, hhead⟩⟩
    · exact ⟨hxs, ⟨fun c _ => Or.inl hb, hys⟩, fun c _ => Or.inr hb⟩
    · exact ⟨hxs, ⟨fun c hc => Or.inr (hhead c hc), hys⟩, fun c hc => Or.inl (hlast c hc)⟩

theorem coalesced_append_used :
    Coalesced (xs ++ ⟨n, true⟩ :: ys) ↔ Coalesced xs ∧ Coalesced ys := by
  rw [coalesced_append_cons]
  tauto

theorem coalesced_free_cons :
    Coalesced (⟨n, false⟩ :: ys) ↔ Coalesced ys ∧ ∀ c ∈ ys.head?, c.used = true := by
  unfold Coalesced
  rw [List.isChain_cons, and_comm]
  simp

/-- **A stretch of memory that no used block touches** lies in one block. -/
theorem Coalesced.gap (h : Coalesced bs) (hn : 0 < n) (hlo : a ≤ x) (hhi : x + n ≤ a + total bs)
    (hfree : ∀ y m, (y, m) ∈ allocated a bs → y + m ≤ x ∨ x + n ≤ y) :
    ∃ c b, (c, b) ∈ placed a bs ∧ b.used = false ∧ c ≤ x ∧ x + n ≤ c + b.size := by
  induction bs generalizing a with
  | nil =>
    rw [total_nil] at hhi
    omega
  | cons b bs ih =>
    rw [total_cons] at hhi
    rw [allocated_cons] at hfree
    by_cases hx : a + b.size ≤ x
    · obtain ⟨c, d, hmem, hd⟩ := ih h.tail hx (by omega) fun y m hy =>
        hfree y m (List.mem_append_right _ hy)
      exact ⟨c, d, List.mem_cons_of_mem _ hmem, hd⟩
    · cases hu : b.used with
      | true =>
        rw [hu, if_pos rfl] at hfree
        have := hfree a b.size (List.mem_append_left _ (List.mem_singleton_self _))
        omega
      | false =>
        refine ⟨a, b, List.mem_cons_self, hu, hlo, ?_⟩
        cases bs with
        | nil =>
          rw [total_nil] at hhi
          omega
        | cons c bs =>
          -- the next block is used, so the stretch ends before it
          have hc : c.used = true := (List.isChain_cons_cons.mp h).1.resolve_left (by simp [hu])
          rw [allocated_cons (a + b.size), hc, if_pos rfl] at hfree
          have := hfree (a + b.size) c.size (by simp)
          rw [total_cons] at hhi
          omega

theorem Coalesced.eq_singleton (h : Coalesced bs) (hne : bs ≠ []) (hfree : allocated a bs = []) :
    bs = [⟨total bs, false⟩] := by
  have hall : ∀ b ∈ bs, b.used = false := by
    clear h hne
    induction bs generalizing a with
    | nil => simp
    | cons b bs ih =>
      rw [allocated_cons, List.append_eq_nil_iff] at hfree
      rintro c (_ | ⟨_, hc⟩)
      · by_contra hu
        rw [Bool.not_eq_false] at hu
        rw [if_pos hu] at hfree
        exact List.cons_ne_nil _ _ hfree.1
      · exact ih hfree.2 c hc
  match bs, hne with
  | [b], _ =>
    have hb := hall b List.mem_cons_self
    obtain ⟨size, used⟩ := b
    simp only at hb
    simp [hb]
  | b :: c :: bs, _ =>
    have h1 := hall b List.mem_cons_self
    have h2 := hall c (List.mem_cons_of_mem _ List.mem_cons_self)
    rcases (List.isChain_cons_cons.mp h).1 with hu | hu
    · rw [h1] at hu
      cases hu
    · rw [h2] at hu
      cases hu

end Stm32TcpServer.Lib.Blocks
