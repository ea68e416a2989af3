import Mathlib.Logic.Function.Basic
import Mathlib.Data.List.Nodup
import Stm32TcpServer.Lib.FreeList

/-! # The memory pools of lwIP (memp.c)

Each pool type has a number of elements, and the free ones form a linked list through their first
word, from `memp_tab[type]` on. While an element is in use its first word belongs to the user
(`MEMP_SIZE` is 0, there is no overflow check).

* `mempMalloc`, `mempFree`, `mempInit`: the functions of memp.c;
* `FreeLists`: the free lists of the pools, as the memory threads them;
* `freeLists_mempInit`: after `memp_init` every element is in the free list of its pool. -/

namespace Stm32TcpServer.Lwip.Memp

open Stm32TcpServer.Lib.FreeList

variable {MempT : Type}

/-- An element of a pool: the type of the pool and the number of the element in it. -/
abbrev Elem (MempT : Type) := MempT × ℕ

/-- The first `n` elements of a pool, as `memp_init` links them. -/
def linked (type : MempT) (n : ℕ) : List (Elem MempT) :=
  ((List.range n).map fun j => (type, j)).reverse

/-- The elements of a pool. -/
def elems (mempNum : MempT → ℕ) (type : MempT) : List (Elem MempT) := linked type (mempNum type)

theorem linked_succ (type : MempT) (n : ℕ) :
    linked type (n + 1) = (type, n) :: linked type n := by
  simp [linked, List.range_succ]

theorem mem_linked {type : MempT} {n : ℕ} {e : Elem MempT} :
    e ∈ linked type n ↔ e.1 = type ∧ e.2 < n := by
  obtain ⟨t, j⟩ := e
  simp only [linked, List.mem_reverse, List.mem_map, List.mem_range, Prod.mk.injEq]
  constructor
  · rintro ⟨k, hk, rfl, rfl⟩
    exact ⟨rfl, hk⟩
  · rintro ⟨rfl, hj⟩
    exact ⟨j, hj, rfl, rfl⟩

variable [DecidableEq MempT]

/-- **The memory of the pools.** -/
structure Mem (MempT : Type) where
  mempTab : MempT → Option (Elem MempT)
  /-- The first word of an element, read as a pointer. -/
  next : Elem MempT → Option (Elem MempT)

/-- `memp_tab[type] = p`. -/
def Mem.setTab (m : Mem MempT) (type : MempT) (p : Option (Elem MempT)) : Mem MempT :=
  { m with mempTab := Function.update m.mempTab type p }

/-- `e->next = p`, or a write of the user of `e` to its first word. -/
def Mem.setNext (m : Mem MempT) (e : Elem MempT) (p : Option (Elem MempT)) : Mem MempT :=
  { m with next := Function.update m.next e p }

@[simp] theorem setTab_mempTab (m : Mem MempT) (type : MempT) (p : Option (Elem MempT)) :
    (m.setTab type p).mempTab = Function.update m.mempTab type p := rfl
@[simp] theorem setTab_next (m : Mem MempT) (type : MempT) (p : Option (Elem MempT)) :
    (m.setTab type p).next = m.next := rfl
@[simp] theorem setNext_mempTab (m : Mem MempT) (e : Elem MempT) (p : Option (Elem MempT)) :
    (m.setNext e p).mempTab = m.mempTab := rfl
@[simp] theorem setNext_next (m : Mem MempT) (e : Elem MempT) (p : Option (Elem MempT)) :
    (m.setNext e p).next = Function.update m.next e p := rfl

/-- **`memp_malloc(type)`**, with the element it returns. -/
def mempMalloc (m : Mem MempT) (type : MempT) : Mem MempT × Option (Elem MempT) :=
  match m.mempTab type with
  | some memp => (m.setTab type (m.next memp), some memp)
  | none => (m, none)

/-- **`memp_free(type, memp)`** for an element of this pool. -/
def mempFree (m : Mem MempT) (memp : Elem MempT) : Mem MempT :=
  (m.setNext memp (m.mempTab memp.1)).setTab memp.1 (some memp)

/-- The inner loop of `memp_init`: `num` elements are linked, each before the one linked before it. -/
def carve (type : MempT) : ℕ → Mem MempT → Mem MempT
  | 0, m => m
  | num + 1, m => mempFree (carve type num m) (type, num)

/-- **`memp_init()`**: the pools `types`, of `mempNum` elements each. -/
def mempInit (mempNum : MempT → ℕ) (types : List MempT) (m : Mem MempT) : Mem MempT :=
  types.foldl (fun m type => carve type (mempNum type) (m.setTab type none)) m

/-! ### The free lists -/

/-- The lists `free` are the free lists of the pools. -/
def FreeLists (m : Mem MempT) (free : MempT → List (Elem MempT)) : Prop :=
  ∀ type, Chain m.next (m.mempTab type) (free type)

theorem freeLists_setNext {m : Mem MempT} {free : MempT → List (Elem MempT)} {e : Elem MempT}
    (p : Option (Elem MempT)) (he : ∀ type, e ∉ free type) (h : FreeLists m free) :
    FreeLists (m.setNext e p) free :=
  fun type => (chain_update p (he type)).mpr (h type)

theorem freeLists_setTab {m : Mem MempT} {free : MempT → List (Elem MempT)} {type : MempT}
    {p : Option (Elem MempT)} {l : List (Elem MempT)} (h : FreeLists m free)
    (hl : Chain m.next p l) : FreeLists (m.setTab type p) (Function.update free type l) := by
  intro type'
  by_cases ht : type' = type
  · subst ht
    rw [setTab_mempTab, setTab_next, Function.update_self, Function.update_self]
    exact hl
  · rw [setTab_mempTab, setTab_next, Function.update_of_ne ht, Function.update_of_ne ht]
    exact h type'

theorem freeLists_mempMalloc {m : Mem MempT} {free : MempT → List (Elem MempT)} (type : MempT)
    (h : FreeLists m free) :
    (mempMalloc m type).2 = none ∧ (mempMalloc m type).1 = m ∧ free type = [] ∨
      ∃ e l, (mempMalloc m type).2 = some e ∧ free type = e :: l ∧
        FreeLists (mempMalloc m type).1 (Function.update free type l) := by
  have ht := h type
  unfold mempMalloc
  cases htab : m.mempTab type with
  | none =>
    rw [htab] at ht
    exact Or.inl ⟨rfl, rfl, ht.of_none⟩
  | some e =>
    rw [htab] at ht
    obtain ⟨l, hl, hc⟩ := ht.of_some
    exact Or.inr ⟨e, l, rfl, hl, freeLists_setTab h hc⟩

/-- `memp_free` puts an element that is not free at the front of the free list. -/
theorem freeLists_mempFree {m : Mem MempT} {free : MempT → List (Elem MempT)} {e : Elem MempT}
    (he : ∀ type, e ∉ free type) (h : FreeLists m free) :
    FreeLists (mempFree m e) (Function.update free e.1 (e :: free e.1)) := by
  refine freeLists_setTab (freeLists_setNext _ he h) ⟨rfl, ?_⟩
  rw [setNext_next, Function.update_self, chain_update _ (he e.1)]
  exact h e.1

/-! ### `memp_init` -/

theorem count_linked (type : MempT) (n : ℕ) (e : Elem MempT) :
    (linked type n).count e = if e.1 = type ∧ e.2 < n then 1 else 0 := by
  have hnd : (linked type n).Nodup := by
    refine List.nodup_reverse.mpr (List.nodup_range.map ?_)
    exact fun _ _ h => (Prod.mk.inj h).2
  split_ifs with h
  · exact List.count_eq_one_of_mem hnd (mem_linked.mpr h)
  · exact List.count_eq_zero_of_not_mem (mt mem_linked.mp h)

theorem carve_linked (type : MempT) {m : Mem MempT} (h : m.mempTab type = none) : ∀ n : ℕ,
    Chain (carve type n m).next ((carve type n m).mempTab type) (linked type n)
  | 0 => h
  | n + 1 => by
    have ih := carve_linked type h n
    have hn : (type, n) ∉ linked type n := fun hm => Nat.lt_irrefl _ (mem_linked.mp hm).2
    rw [linked_succ, carve, mempFree, setTab_mempTab, setTab_next, setNext_next,
      Function.update_self]
    refine ⟨rfl, ?_⟩
    rw [Function.update_self, chain_update _ hn]
    exact ih

theorem carve_other {type type' : MempT} (ht : type' ≠ type) {m : Mem MempT}
    {l : List (Elem MempT)} (hl : ∀ e ∈ l, e.1 = type') (h : Chain m.next (m.mempTab type') l) :
    ∀ n : ℕ, Chain (carve type n m).next ((carve type n m).mempTab type') l
  | 0 => h
  | n + 1 => by
    have hn : (type, n) ∉ l := fun hm => ht (hl _ hm).symm
    rw [carve, mempFree, setTab_mempTab, setTab_next, setNext_next, Function.update_of_ne ht,
      setNext_mempTab, chain_update _ hn]
    exact carve_other ht hl h n

theorem mempInit_other (mempNum : MempT → ℕ) {type : MempT} {l : List (Elem MempT)}
    (hl : ∀ e ∈ l, e.1 = type) : ∀ (types : List MempT) {m : Mem MempT}, type ∉ types →
    Chain m.next (m.mempTab type) l →
    Chain (mempInit mempNum types m).next ((mempInit mempNum types m).mempTab type) l
  | [], _, _, h => h
  | t :: types, m, ht, h => by
    rw [List.mem_cons, not_or] at ht
    refine mempInit_other mempNum hl types ht.2 (carve_other ht.1 hl ?_ _)
    rw [setTab_mempTab, setTab_next, Function.update_of_ne ht.1]
    exact h

/-- **After `memp_init` every element is in the free list of its pool.** -/
theorem freeLists_mempInit (mempNum : MempT → ℕ) : ∀ (types : List MempT) (m : Mem MempT),
    types.Nodup → ∀ type ∈ types,
    Chain (mempInit mempNum types m).next ((mempInit mempNum types m).mempTab type)
      (elems mempNum type)
  | t :: types, m, hnd, type, ht => by
    obtain ⟨hnot, hnd⟩ := List.nodup_cons.mp hnd
    rcases List.mem_cons.mp ht with rfl | ht
    · refine mempInit_other mempNum (fun e he => (mem_linked.mp he).1) types hnot
        (carve_linked _ ?_ _)
      rw [setTab_mempTab, Function.update_self]
    · exact freeLists_mempInit mempNum types _ hnd type ht

end Stm32TcpServer.Lwip.Memp
