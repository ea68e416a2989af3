import Mathlib.Data.List.Basic
import Mathlib.Data.List.GetD
import Mathlib.Data.List.TakeDrop

/-! # Windows of a buffer

`window l p n` are the `n` elements of the buffer `l` from position `p` on: what a transfer that has
reached position `p` still has to move, or the part of an array that a loop has filled. A loop over
an array writes with `List.set` and reads with `List.getD`, so the lemmas say how a window grows by
one element at either end and which writes it does not see. -/

namespace Stm32TcpServer.Lib.Window

variable {α : Type*}

/-- The `n` elements of `l` from position `p` on. -/
def window (l : List α) (p n : ℕ) : List α := (l.drop p).take n

@[simp] theorem window_zero (l : List α) (p : ℕ) : window l p 0 = [] := by simp [window]

theorem window_zero_left (l : List α) (n : ℕ) : window l 0 n = l.take n := by simp [window]

theorem length_window {l : List α} {p n : ℕ} (h : p + n ≤ l.length) : (window l p n).length = n := by
  simp only [window, List.length_take, List.length_drop]; omega

theorem window_add (l : List α) (p m n : ℕ) :
    window l p (m + n) = window l p m ++ window l (p + m) n := by
  simp only [window, List.take_add, List.drop_drop]

theorem window_one {l : List α} {p : ℕ} (d : α) (h : p < l.length) :
    window l p 1 = [l.getD p d] := by
  simp only [window, List.drop_eq_getElem_cons h, List.take_succ_cons, List.take_zero,
    List.getD_eq_getElem _ _ h]

theorem window_succ {l : List α} {p : ℕ} (d : α) (n : ℕ) (h : p < l.length) :
    window l p (n + 1) = l.getD p d :: window l (p + 1) n := by
  rw [Nat.add_comm n 1, window_add, window_one d h]; rfl

theorem window_succ_last {l : List α} {p n : ℕ} (d : α) (h : p + n < l.length) :
    window l p (n + 1) = window l p n ++ [l.getD (p + n) d] := by
  rw [window_add, window_one d h]

theorem window_take (l : List α) (p : ℕ) {n k : ℕ} (h : k ≤ n) :
    (window l p n).take k = window l p k := by
  rw [window, window, List.take_take, Nat.min_eq_left h]

theorem window_window (l : List α) (p : ℕ) {m i n : ℕ} (h : i + n ≤ m) :
    window (window l p m) i n = window l (p + i) n := by
  simp only [window, List.drop_take, List.drop_drop, List.take_take]
  congr 1
  omega

theorem window_append_left {l : List α} (l' : List α) {p n : ℕ} (h : p + n ≤ l.length) :
    window (l ++ l') p n = window l p n := by
  rw [window, window, List.drop_append_of_le_length (by omega),
    List.take_append_of_le_length (by rw [List.length_drop]; omega)]

theorem window_append_right {l : List α} (l' : List α) {p : ℕ} (n : ℕ) (h : l.length ≤ p) :
    window (l ++ l') p n = window l' (p - l.length) n := by
  rw [window, window, List.drop_append, List.drop_eq_nil_of_le h, List.nil_append]

theorem window_set_of_lt (l : List α) {i p : ℕ} (n : ℕ) (a : α) (h : i < p) :
    window (l.set i a) p n = window l p n := by
  rw [window, window, List.drop_set_of_lt h]

theorem window_set_of_le (l : List α) {i p n : ℕ} (a : α) (h : p + n ≤ i) :
    window (l.set i a) p n = window l p n := by
  apply List.ext_getElem? fun k => ?_
  simp only [window, List.getElem?_take, List.getElem?_drop, List.getElem?_set]
  split_ifs with h1 h2 <;> first | rfl | omega

theorem window_set_last {l : List α} {p n : ℕ} (a : α) (h : p + n < l.length) :
    window (l.set (p + n) a) p (n + 1) = window l p n ++ [a] := by
  have hl : p + n < (l.set (p + n) a).length := by simpa using h
  rw [window_succ_last a hl, window_set_of_le l a (Nat.le_refl _), List.getD_eq_getElem _ _ hl,
    List.getElem_set_self]

theorem take_set_succ {l : List α} {i : ℕ} (a : α) (h : i < l.length) :
    (l.set i a).take (i + 1) = l.take i ++ [a] := by
  have := window_set_last (l := l) (p := 0) (n := i) a (by omega)
  simpa [window_zero_left] using this

end Stm32TcpServer.Lib.Window
