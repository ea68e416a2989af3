import Mathlib.Data.List.Basic
import Mathlib.Logic.Function.Iterate

/-! # Queues in a ring of slots

The slots of a ring are linked by `next` (`IsRing next n`: `n` steps lead back, and no fewer do).
`Holds slot free next n h q`: from the slot `h` on the ring holds the queue `q`, and the slots
behind it are free. A producer fills the slot behind the queue (`Holds.push`), a consumer frees the
first one and goes on to the next (`Holds.pop`). -/

namespace Stm32TcpServer.Lib.Ring

variable {β α : Type*} {next : β → β} {n : ℕ}

/-- **The slots linked by `next` form rings of `n`.** -/
structure IsRing (next : β → β) (n : ℕ) : Prop where
  cycle : ∀ h, next^[n] h = h
  ne : ∀ h i, 0 < i → i < n → next^[i] h ≠ h

theorem IsRing.inj (hr : IsRing next n) {i j : ℕ} (h : β) (hi : i < n) (hj : j < n)
    (heq : next^[i] h = next^[j] h) : i = j := by
  have key : ∀ {i j : ℕ}, i < j → j < n → next^[i] h ≠ next^[j] h := by
    intro i j hij hj heq
    have hsplit : next^[j] h = next^[j - i] (next^[i] h) := by
      rw [← Function.iterate_add_apply, Nat.sub_add_cancel (Nat.le_of_lt hij)]
    rw [hsplit] at heq
    exact hr.ne (next^[i] h) (j - i) (by omega) (by omega) heq.symm
  rcases Nat.lt_trichotomy i j with hlt | rfl | hlt
  · exact absurd heq (key hlt hj)
  · rfl
  · exact absurd heq.symm (key hlt hi)

/-- **The ring holds the queue `q` from the slot `h` on**, and its other slots are free. -/
structure Holds (slot : β → α) (free : α → Prop) (next : β → β) (n : ℕ) (h : β) (q : List α) :
    Prop where
  le : q.length ≤ n
  queued : ∀ i, (hi : i < q.length) → slot (next^[i] h) = q[i]
  rest : ∀ i, q.length ≤ i → i < n → free (slot (next^[i] h))

variable {slot : β → α} {free : α → Prop} {h : β} {q : List α}

theorem Holds.free_of_nil (hh : Holds slot free next n h []) (hn : 0 < n) : free (slot h) :=
  hh.rest 0 (Nat.le_refl _) hn

theorem Holds.head {x : α} (hh : Holds slot free next n h (x :: q)) : slot h = x :=
  hh.queued 0 (Nat.succ_pos _)

/-- A ring that is full has come round to the first slot: a queue leaves room if the slot behind it
holds none of its elements. -/
theorem Holds.length_lt (hr : IsRing next n) (hh : Holds slot free next n h q) (hn : 0 < n)
    (hne : slot (next^[q.length] h) ∉ q) : q.length < n := by
  by_contra hge
  have hlen : q.length = n := Nat.le_antisymm hh.le (Nat.not_lt.mp hge)
  have hpos : 0 < q.length := by rw [hlen]; exact hn
  have hhead : slot h = q[0] := hh.queued 0 hpos
  rw [hlen, hr.cycle, hhead] at hne
  exact hne (List.getElem_mem hpos)

/-- **The slot behind the queue is filled.** -/
theorem Holds.push [DecidableEq β] (hr : IsRing next n) (hh : Holds slot free next n h q)
    (hlt : q.length < n) (x : α) :
    Holds (Function.update slot (next^[q.length] h) x) free next n h (q ++ [x]) := by
  refine ⟨by rw [List.length_append]; exact hlt, fun i hi => ?_, fun i hi hn => ?_⟩
  · by_cases hiq : i = q.length
    · subst hiq
      simp
    · have hi' : i < q.length := by
        rw [List.length_append, List.length_singleton] at hi
        omega
      have hne : next^[i] h ≠ next^[q.length] h := fun heq => hiq (hr.inj h (by omega) hlt heq)
      rw [Function.update_of_ne hne, hh.queued i hi', List.getElem_append_left hi']
  · rw [List.length_append, List.length_singleton] at hi
    have hne : next^[i] h ≠ next^[q.length] h := fun heq => by
      have := hr.inj h hn hlt heq
      omega
    rw [Function.update_of_ne hne]
    exact hh.rest i (by omega) hn

theorem Holds.overwrite [DecidableEq β] {y : α} (hr : IsRing next n)
    (hh : Holds slot free next n h q) (hlt : q.length < n) (hy : free y) :
    Holds (Function.update slot (next^[q.length] h) y) free next n h q := by
  refine ⟨hh.le, fun i hi => ?_, fun i hi hn => ?_⟩
  · have hne : next^[i] h ≠ next^[q.length] h := fun heq => by
      have := hr.inj h (by omega) hlt heq
      omega
    rw [Function.update_of_ne hne, hh.queued i hi]
  · by_cases hiq : i = q.length
    · rw [hiq, Function.update_self]
      exact hy
    · have hne : next^[i] h ≠ next^[q.length] h := fun heq => hiq (hr.inj h hn hlt heq)
      rw [Function.update_of_ne hne]
      exact hh.rest i hi hn

/-- **The first slot is freed.** -/
theorem Holds.pop [DecidableEq β] {x y : α} (hr : IsRing next n)
    (hh : Holds slot free next n h (x :: q)) (hy : free y) :
    Holds (Function.update slot h y) free next n (next h) q := by
  have hle := hh.le
  rw [List.length_cons] at hle
  refine ⟨by omega, fun i hi => ?_, fun i hi hn => ?_⟩
  · have hne : next^[i] (next h) ≠ h := hr.ne h (i + 1) (by omega) (by omega)
    rw [Function.update_of_ne hne]
    exact hh.queued (i + 1) (Nat.succ_lt_succ hi)
  · by_cases hlast : i + 1 = n
    · have heq : next^[i] (next h) = h := by
        have := hr.cycle h
        rw [← hlast] at this
        exact this
      rw [heq, Function.update_self]
      exact hy
    · have hne : next^[i] (next h) ≠ h := hr.ne h (i + 1) (by omega) (by omega)
      rw [Function.update_of_ne hne]
      exact hh.rest (i + 1) (Nat.succ_le_succ hi) (by omega)

end Stm32TcpServer.Lib.Ring
