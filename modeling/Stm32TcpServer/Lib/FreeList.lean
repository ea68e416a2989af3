import Mathlib.Data.List.Basic
import Mathlib.Logic.Function.Basic

/-! # Linked lists in memory

`Chain next h l`: from the pointer `h` on, the pointers `next` thread the elements of `l` and end in
`none`. A finite chain is no cycle, and it is determined by the memory (`Chain.unique`).

* `chain_update`: a write to an element outside the chain does not change it;
* `Chain.head_eq_of_perm`: two chains in one memory with the same elements start at the same one. -/

namespace Stm32TcpServer.Lib.FreeList

variable {α : Type*} {next : α → Option α}

/-- **The list `l` is threaded through the memory `next`, starting at `h`.** -/
def Chain (next : α → Option α) : Option α → List α → Prop
  | h, [] => h = none
  | h, x :: l => h = some x ∧ Chain next (next x) l

theorem chain_cons_iff {h : Option α} {x : α} {l : List α} :
    Chain next h (x :: l) ↔ h = some x ∧ Chain next (next x) l := Iff.rfl

theorem Chain.of_none : ∀ {l : List α}, Chain next none l → l = []
  | [], _ => rfl
  | _ :: _, h => nomatch h.1

theorem Chain.of_some {x : α} : ∀ {l : List α}, Chain next (some x) l →
    ∃ l', l = x :: l' ∧ Chain next (next x) l'
  | [], h => nomatch h
  | y :: l', h => by
    obtain rfl := Option.some.inj h.1
    exact ⟨l', rfl, h.2⟩

/-- The memory determines the list. -/
theorem Chain.unique : ∀ {l l' : List α} {h : Option α}, Chain next h l → Chain next h l' → l = l'
  | [], l', h, hc, hc' => by
    obtain rfl : h = none := hc
    exact hc'.of_none.symm
  | x :: l, l', h, hc, hc' => by
    rw [hc.1] at hc'
    obtain ⟨l'', rfl, hc''⟩ := hc'.of_some
    rw [hc.2.unique hc'']

theorem Chain.split {x : α} : ∀ {l₁ l₂ : List α} {h : Option α},
    Chain next h (l₁ ++ x :: l₂) → Chain next (next x) l₂
  | [], _, _, hc => hc.2
  | _ :: _, _, _, hc => Chain.split hc.2

theorem chain_update [DecidableEq α] {e : α} (v : Option α) : ∀ {l : List α} {h : Option α}, e ∉ l →
    (Chain (Function.update next e v) h l ↔ Chain next h l)
  | [], _, _ => Iff.rfl
  | x :: l, h, he => by
    rw [List.mem_cons, not_or] at he
    rw [chain_cons_iff, chain_cons_iff, Function.update_of_ne (Ne.symm he.1),
      chain_update v he.2]

/-- **Two chains in one memory with the same elements start at the same one.** -/
theorem Chain.head_eq_of_perm {l l' : List α} {h h' : Option α} (hc : Chain next h l)
    (hc' : Chain next h' l') (hp : l.Perm l') : h = h' := by
  cases l' with
  | nil =>
    obtain rfl := hp.eq_nil
    exact hc.trans hc'.symm
  | cons x l' =>
    obtain ⟨l₁, l₂, rfl⟩ := List.append_of_mem (hp.mem_iff.mpr List.mem_cons_self)
    -- behind `x` both lists are what the memory threads from there
    obtain rfl := hc.split.unique hc'.2
    have hlen := hp.length_eq
    rw [List.length_append, List.length_cons] at hlen
    obtain rfl : l₁ = [] := List.length_eq_zero_iff.mp (by omega)
    exact hc.1.trans hc'.1.symm

end Stm32TcpServer.Lib.FreeList
