import Mathlib.Data.List.Count
import Mathlib.Data.List.Nodup
import Mathlib.Data.List.Perm.Subperm
import Stm32TcpServer.Lib.FreeList

/-! # Objects with a link and a reference count

Each object has a pointer to another one, or none, and counts the pointers to itself: those of the
clients, `held`, and those of other objects. `Counted` says that the counts are right, that all
pointers are to objects that are there, and that the links end.

* `Counted.alloc`, `Counted.take`, `Counted.link`, `Counted.unlink`: a new object, a new pointer of
  a client, a link instead of a pointer of a client and the other way round.
* `Counted.drop`: a client gives up a pointer to an object that has others.
* `Counted.remove`: it gives up the last one; the object goes, and its link is left to the client.
* `Counted.not_mem`, `Counted.reached`, `Counted.eq_nil`: what no pointer of a client leads to is
  not there.
* `Counted.ref_eq`: the counts follow from the pointers. -/

namespace Stm32TcpServer.Lib.Refcount

open Stm32TcpServer.Lib.FreeList

variable {α : Type*} {next next' : α → Option α} {ref ref' : α → ℕ} {live held hs l : List α}
  {p q t : α} {v : Option α}

/-! ### Chains -/

theorem chain_congr : ∀ {l : List α} {o : Option α}, (∀ x ∈ l, next' x = next x) →
    Chain next o l → Chain next' o l
  | [], _, _, hc => hc
  | x :: l, _, he, hc => by
    refine ⟨hc.1, ?_⟩
    rw [he x List.mem_cons_self]
    exact chain_congr (fun y hy => he y (List.mem_cons_of_mem _ hy)) hc.2

theorem chain_nodup : ∀ {l : List α} {h : Option α}, Chain next h l → l.Nodup
  | [], _, _ => List.nodup_nil
  | x :: l, h, hc => by
    refine List.nodup_cons.mpr ⟨fun hx => ?_, chain_nodup hc.2⟩
    obtain ⟨l₁, l₂, rfl⟩ := List.append_of_mem hx
    -- behind both occurrences the same is threaded
    have hlen := congrArg List.length (hc.2.unique hc.2.split)
    rw [List.length_append, List.length_cons] at hlen
    omega

theorem chain_forall {P : α → Prop} (hP : ∀ x, P x → ∀ y, next x = some y → P y) :
    ∀ {l : List α} {o : Option α}, (∀ x, o = some x → P x) → Chain next o l → ∀ x ∈ l, P x
  | [], _, _, _, _, hx => absurd hx List.not_mem_nil
  | y :: l, o, ho, hc, x, hx => by
    have hy := ho y hc.1
    rcases List.mem_cons.mp hx with rfl | hx
    · exact hy
    · exact chain_forall hP (hP y hy) hc.2 x hx

theorem chain_inj {h : Option α} (hc : Chain next h l) (hp : p ∈ l) (hq : q ∈ l)
    (he : next p = next q) : p = q := by
  obtain ⟨l₁, l₂, rfl⟩ := List.append_of_mem hp
  obtain ⟨l₃, l₄, hl⟩ := List.append_of_mem hq
  have hc₂ := hc.split
  rw [hl] at hc
  have hc₄ := hc.split
  rw [he] at hc₂
  obtain rfl := hc₂.unique hc₄
  exact (List.cons.inj (List.append_inj' hl rfl).2).1

theorem chain_ne_head (hc : Chain next (some p) l) (hq : q ∈ l) : next q ≠ some p := by
  intro he
  obtain ⟨l₁, l₂, rfl⟩ := List.append_of_mem hq
  have hc₂ := hc.split
  rw [he] at hc₂
  have hlen := congrArg List.length (hc.unique hc₂)
  rw [List.length_append, List.length_cons] at hlen
  omega

variable [DecidableEq α]

/-- Up to `x` a chain stays as it is if the link of `x` changes. -/
theorem chain_relink {lt : List α} (ht : Chain (Function.update next p v) v lt) :
    ∀ {l₁ l₂ : List α} {h : Option α}, Chain next h (l₁ ++ p :: l₂) → p ∉ l₁ →
      Chain (Function.update next p v) h (l₁ ++ p :: lt)
  | [], _, _, hc, _ => ⟨hc.1, by rw [Function.update_self]; exact ht⟩
  | x :: l₁, l₂, h, hc, hp => by
    rw [List.mem_cons, not_or] at hp
    refine ⟨hc.1, ?_⟩
    rw [Function.update_of_ne (Ne.symm hp.1)]
    exact chain_relink ht hc.2 hp.2

/-! ### Counts -/

/-- How many objects have a link to `p`. -/
def links (next : α → Option α) (live : List α) (p : α) : ℕ := live.countP fun q => next q = some p

theorem links_update (next : α → Option α) (hp : p ∈ live) (hn : live.Nodup) (q : α) :
    links (Function.update next p v) live q + (if next p = some q then 1 else 0) =
      links next live q + if v = some q then 1 else 0 := by
  have hperm := List.perm_cons_erase hp
  have hrest : (live.erase p).countP (fun x => decide (Function.update next p v x = some q)) =
      (live.erase p).countP fun x => decide (next x = some q) := by
    refine List.countP_congr fun x hx => ?_
    rw [Function.update_of_ne (hn.mem_erase_iff.mp hx).1]
  unfold links
  rw [hperm.countP_eq, hperm.countP_eq, List.countP_cons, List.countP_cons, hrest,
    Function.update_self]
  simp only [decide_eq_true_eq]
  omega

theorem links_erase (next : α → Option α) (hp : p ∈ live) (q : α) :
    links next (live.erase p) q + (if next p = some q then 1 else 0) = links next live q := by
  unfold links
  rw [(List.perm_cons_erase hp).countP_eq, List.countP_cons]
  simp only [decide_eq_true_eq]

/-- **The counts are right**, the pointers are to objects that are there, and the links end. -/
structure Counted (next : α → Option α) (ref : α → ℕ) (live held : List α) : Prop where
  nodup : live.Nodup
  count : ∀ p ∈ live, ref p = held.count p + links next live p
  pos : ∀ p ∈ live, 0 < ref p
  mem : ∀ p ∈ held, p ∈ live
  next_mem : ∀ p ∈ live, ∀ q, next p = some q → q ∈ live
  chain : ∀ p ∈ live, ∃ l, Chain next (some p) l

theorem counted_nil (next : α → Option α) (ref : α → ℕ) : Counted next ref [] [] :=
  ⟨List.nodup_nil, nofun, nofun, nofun, nofun, nofun⟩

section
variable (h : Counted next ref live held)
include h

theorem Counted.perm (hp : held.Perm hs) : Counted next ref live hs :=
  ⟨h.nodup, fun p hl => by rw [← hp.count_eq]; exact h.count p hl, h.pos,
    fun p hl => h.mem p (hp.mem_iff.mpr hl), h.next_mem, h.chain⟩

theorem Counted.chain_mem : ∀ {l : List α} {o : Option α}, (∀ p, o = some p → p ∈ live) →
    Chain next o l → ∀ x ∈ l, x ∈ live
  | [], _, _, _, _, hx => absurd hx List.not_mem_nil
  | y :: l, o, ho, hc, x, hx => by
    have hy := ho y hc.1
    rcases List.mem_cons.mp hx with rfl | hx
    · exact hy
    · exact Counted.chain_mem (h.next_mem y hy) hc.2 x hx

theorem Counted.chain_mem_of (hp : p ∈ live) (hc : Chain next (some p) l) : ∀ x ∈ l, x ∈ live :=
  h.chain_mem (fun q hq => by obtain rfl := Option.some.inj hq; exact hp) hc

theorem Counted.chain_length (hp : p ∈ live) (hc : Chain next (some p) l) :
    l.length ≤ live.length :=
  (List.subperm_of_subset (chain_nodup hc) fun x hx => h.chain_mem_of hp hc x hx).length_le

theorem Counted.congr (hnext : ∀ p ∈ live, next' p = next p) (href : ∀ p ∈ live, ref' p = ref p) :
    Counted next' ref' live held := by
  have hlinks : ∀ p, links next' live p = links next live p :=
    fun p => List.countP_congr fun q hq => by rw [hnext q hq]
  refine ⟨h.nodup, fun p hp => ?_, fun p hp => ?_, h.mem, fun p hp q hq => ?_, fun p hp => ?_⟩
  · rw [href p hp, hlinks, h.count p hp]
  · rw [href p hp]
    exact h.pos p hp
  · rw [hnext p hp] at hq
    exact h.next_mem p hp q hq
  · obtain ⟨l, hl⟩ := h.chain p hp
    exact ⟨l, chain_congr (fun x hx => hnext x (h.chain_mem_of hp hl x hx)) hl⟩

/-! ### Operations -/

theorem Counted.alloc (hp : p ∉ live) :
    Counted (Function.update next p none) (Function.update ref p 1) (p :: live) (p :: held) := by
  have hne : ∀ q ∈ live, q ≠ p := fun q hq hc => hp (hc ▸ hq)
  have hold := h.congr (fun q hq => Function.update_of_ne (hne q hq) none next)
    fun q hq => Function.update_of_ne (hne q hq) 1 ref
  have hlinks : ∀ q, links (Function.update next p none) (p :: live) q =
      links (Function.update next p none) live q := by
    intro q
    unfold links
    rw [List.countP_cons_of_neg (by simp)]
  refine ⟨List.nodup_cons.mpr ⟨hp, h.nodup⟩, fun q hq => ?_, fun q hq => ?_, fun q hq => ?_,
    fun q hq r hr => ?_, fun q hq => ?_⟩
  · rw [hlinks]
    rcases List.mem_cons.mp hq with rfl | hq
    · have hheld : held.count q = 0 := List.count_eq_zero.mpr fun hc => hp (h.mem q hc)
      have hzero : links (Function.update next q none) live q = 0 := by
        refine List.countP_eq_zero.mpr fun r hr => ?_
        rw [decide_eq_true_eq]
        exact fun hc => hp (hold.next_mem r hr q hc)
      rw [Function.update_self, List.count_cons_self, hheld, hzero]
    · rw [List.count_cons_of_ne (hne q hq).symm]
      exact hold.count q hq
  · rcases List.mem_cons.mp hq with rfl | hq
    · rw [Function.update_self]
      exact Nat.one_pos
    · exact hold.pos q hq
  · rcases List.mem_cons.mp hq with rfl | hq
    · exact List.mem_cons_self
    · exact List.mem_cons_of_mem _ (h.mem q hq)
  · rcases List.mem_cons.mp hq with rfl | hq
    · rw [Function.update_self] at hr
      cases hr
    · exact List.mem_cons_of_mem _ (hold.next_mem q hq r hr)
  · rcases List.mem_cons.mp hq with rfl | hq
    · exact ⟨[q], rfl, by rw [Function.update_self]; rfl⟩
    · exact hold.chain q hq

theorem Counted.take (hp : p ∈ live) :
    Counted next (Function.update ref p (ref p + 1)) live (p :: held) := by
  refine ⟨h.nodup, fun q hq => ?_, fun q hq => ?_, fun q hq => ?_, h.next_mem, h.chain⟩
  · rcases eq_or_ne q p with rfl | hne
    · rw [Function.update_self, List.count_cons_self, h.count q hq]
      omega
    · rw [Function.update_of_ne hne, List.count_cons_of_ne hne.symm]
      exact h.count q hq
  · rcases eq_or_ne q p with rfl | hne
    · rw [Function.update_self]
      exact Nat.succ_pos _
    · rw [Function.update_of_ne hne]
      exact h.pos q hq
  · rcases List.mem_cons.mp hq with rfl | hq
    · exact hp
    · exact h.mem q hq

end

theorem Counted.drop (h : Counted next ref live (p :: held)) (hp : ref p ≠ 1) :
    Counted next (Function.update ref p (ref p - 1)) live held := by
  have hlive := h.mem p List.mem_cons_self
  have hpos := h.pos p hlive
  refine ⟨h.nodup, fun q hq => ?_, fun q hq => ?_, fun q hq => h.mem q (List.mem_cons_of_mem _ hq),
    h.next_mem, h.chain⟩
  · have hcount := h.count q hq
    rcases eq_or_ne q p with rfl | hne
    · rw [List.count_cons_self] at hcount
      rw [Function.update_self]
      omega
    · rw [List.count_cons_of_ne hne.symm] at hcount
      rw [Function.update_of_ne hne]
      exact hcount
  · rcases eq_or_ne q p with rfl | hne
    · rw [Function.update_self]
      omega
    · rw [Function.update_of_ne hne]
      exact h.pos q hq

/-- **The last pointer is given up**: the object goes, and its link is left to the client. -/
theorem Counted.remove (h : Counted next ref live (p :: held)) (hp : ref p = 1) :
    Counted next ref (live.erase p) ((next p).toList ++ held) := by
  have hlive := h.mem p List.mem_cons_self
  have hself := h.count p hlive
  rw [List.count_cons_self] at hself
  have hmem : ∀ q, q ∈ live.erase p ↔ q ≠ p ∧ q ∈ live := fun q => h.nodup.mem_erase_iff
  have hnone : ∀ q ∈ live, next q ≠ some p := by
    intro q hq hc
    have hzero : links next live p = 0 := by omega
    have := List.countP_eq_zero.mp hzero q hq
    rw [decide_eq_true_eq] at this
    exact this hc
  refine ⟨h.nodup.erase p, fun q hq => ?_, fun q hq => h.pos q ((hmem q).mp hq).2, fun q hq => ?_,
    fun q hq r hr => ?_, fun q hq => h.chain q ((hmem q).mp hq).2⟩
  · obtain ⟨hne, hq⟩ := (hmem q).mp hq
    have hcount := h.count q hq
    have herase := links_erase next hlive q
    rw [List.count_cons_of_ne hne.symm] at hcount
    have hlink : (next p).toList.count q = if next p = some q then 1 else 0 := by
      cases next p with
      | none => rfl
      | some r =>
        rw [Option.toList_some, List.count_singleton]
        simp only [beq_iff_eq, Option.some.injEq]
    rw [List.count_append, hlink]
    omega
  · rcases List.mem_append.mp hq with hq | hq
    · have hq' : next p = some q := Option.mem_toList.mp hq
      exact (hmem q).mpr ⟨fun hc => hnone p hlive (hc ▸ hq'), h.next_mem p hlive q hq'⟩
    · refine (hmem q).mpr ⟨fun hc => ?_, h.mem q (List.mem_cons_of_mem _ hq)⟩
      have hzero : held.count p = 0 := by omega
      exact List.count_eq_zero.mp hzero (hc ▸ hq)
  · obtain ⟨-, hq⟩ := (hmem q).mp hq
    exact (hmem r).mpr ⟨fun hc => hnone q hq (hc ▸ hr), h.next_mem q hq r hr⟩

/-- **The last object of a chain is linked** to an object that a client holds, which gives up its
pointer. -/
theorem Counted.link (h : Counted next ref live (t :: held)) (hp : p ∈ live) (hend : next p = none)
    (hc : Chain next (some t) l) (hpl : p ∉ l) :
    Counted (Function.update next p (some t)) ref live held := by
  have ht := h.mem t List.mem_cons_self
  have hlt : Chain (Function.update next p (some t)) (some t) l := (chain_update _ hpl).mpr hc
  refine ⟨h.nodup, fun q hq => ?_, h.pos, fun q hq => h.mem q (List.mem_cons_of_mem _ hq),
    fun q hq r hr => ?_, fun q hq => ?_⟩
  · have hcount := h.count q hq
    have hlinks := links_update next (v := some t) hp h.nodup q
    rw [hend, if_neg (Option.some_ne_none q).symm] at hlinks
    rw [List.count_cons] at hcount
    simp only [beq_iff_eq, Option.some.injEq] at hcount hlinks
    omega
  · rcases eq_or_ne q p with rfl | hne
    · rw [Function.update_self] at hr
      exact Option.some.inj hr ▸ ht
    · rw [Function.update_of_ne hne] at hr
      exact h.next_mem q hq r hr
  · obtain ⟨m, hm⟩ := h.chain q hq
    by_cases hpm : p ∈ m
    · obtain ⟨l₁, l₂, rfl⟩ := List.append_of_mem hpm
      have hnd := List.nodup_append.mp (chain_nodup hm)
      refine ⟨_, chain_relink hlt hm fun hp₁ => ?_⟩
      exact hnd.2.2 p hp₁ p List.mem_cons_self rfl
    · exact ⟨m, (chain_update _ hpm).mpr hm⟩

/-- **A link is taken away**, and a client gets the pointer. -/
theorem Counted.unlink (h : Counted next ref live held) (hp : p ∈ live) (hq : next p = some q) :
    Counted (Function.update next p none) ref live (q :: held) := by
  refine ⟨h.nodup, fun r hr => ?_, h.pos, fun r hr => ?_, fun r hr x hx => ?_, fun r hr => ?_⟩
  · have hcount := h.count r hr
    have hlinks := links_update next (v := none) hp h.nodup r
    rw [hq, if_neg (Option.some_ne_none r).symm] at hlinks
    rw [List.count_cons]
    simp only [beq_iff_eq, Option.some.injEq] at hlinks ⊢
    omega
  · rcases List.mem_cons.mp hr with rfl | hr
    · exact h.next_mem p hp r hq
    · exact h.mem r hr
  · rcases eq_or_ne r p with rfl | hne
    · rw [Function.update_self] at hx
      cases hx
    · rw [Function.update_of_ne hne] at hx
      exact h.next_mem r hr x hx
  · obtain ⟨m, hm⟩ := h.chain r hr
    by_cases hpm : p ∈ m
    · obtain ⟨l₁, l₂, rfl⟩ := List.append_of_mem hpm
      have hnd := List.nodup_append.mp (chain_nodup hm)
      have hnil : Chain (Function.update next p none) none [] := rfl
      refine ⟨_, chain_relink hnil hm fun hp₁ => ?_⟩
      exact hnd.2.2 p hp₁ p List.mem_cons_self rfl
    · exact ⟨m, (chain_update _ hpm).mpr hm⟩

/-- **What no pointer of a client and no link from elsewhere leads to is not there**: each object
would have one before it. -/
theorem Counted.not_mem (h : Counted next ref live held) {P : α → Prop} (hheld : ∀ p ∈ held, ¬ P p)
    (hnext : ∀ p ∈ live, ∀ q, next p = some q → P q → P p) : ∀ p ∈ live, ¬ P p := by
  intro p₀ hp₀ hP₀
  have hlong : ∀ n : ℕ, ∃ p ∈ live, P p ∧ ∃ l, Chain next (some p) l ∧ n ≤ l.length := by
    intro n
    induction n with
    | zero =>
      obtain ⟨l, hl⟩ := h.chain p₀ hp₀
      exact ⟨p₀, hp₀, hP₀, l, hl, Nat.zero_le _⟩
    | succ n ih =>
      obtain ⟨p, hp, hP, l, hl, hle⟩ := ih
      have hcount := h.count p hp
      have hpos := h.pos p hp
      have hzero : held.count p = 0 := List.count_eq_zero.mpr fun hc => hheld p hc hP
      rw [hcount, hzero, Nat.zero_add, links, List.countP_pos_iff] at hpos
      obtain ⟨q, hq, hqp⟩ := hpos
      rw [decide_eq_true_eq] at hqp
      refine ⟨q, hq, hnext q hq p hqp hP, q :: l, ⟨rfl, by rw [hqp]; exact hl⟩, ?_⟩
      rw [List.length_cons]
      omega
  obtain ⟨p, hp, -, l, hl, hle⟩ := hlong (live.length + 1)
  have := h.chain_length hp hl
  omega

/-- **Each object is in the chain of a pointer of a client.** -/
theorem Counted.reached (h : Counted next ref live held) (hp : p ∈ live) :
    ∃ q ∈ held, ∀ l, Chain next (some q) l → p ∈ l := by
  by_contra hnone
  refine h.not_mem (P := fun x => ¬ ∃ q ∈ held, ∀ l, Chain next (some q) l → x ∈ l)
    (fun x hx hc => hc ⟨x, hx, fun l hl => ?_⟩) (fun x _ y hy hc hreached => hc ?_) p hp hnone
  · obtain ⟨l', rfl, -⟩ := hl.of_some
    exact List.mem_cons_self
  · obtain ⟨q, hq, hall⟩ := hreached
    refine ⟨q, hq, fun l hl => ?_⟩
    obtain ⟨l₁, l₂, rfl⟩ := List.append_of_mem (hall l hl)
    have hrest := hl.split
    rw [hy] at hrest
    obtain ⟨l₃, rfl, -⟩ := hrest.of_some
    simp

/-- The counts follow from the pointers. -/
theorem Counted.ref_eq {live' : List α} (h : Counted next ref live held)
    (h' : Counted next' ref' live' held) (hlive : ∀ p, p ∈ live' ↔ p ∈ live)
    (hnext : ∀ p ∈ live, next' p = next p) (hp : p ∈ live) : ref' p = ref p := by
  have hperm : live'.Perm live := (List.perm_ext_iff_of_nodup h'.nodup h.nodup).mpr hlive
  have hlinks : links next' live' p = links next live p := by
    unfold links
    rw [hperm.countP_eq]
    exact List.countP_congr fun q hq => by rw [hnext q hq]
  rw [h.count p hp, h'.count p ((hlive p).mpr hp), hlinks]

/-- **Without a pointer of a client nothing is left.** -/
theorem Counted.eq_nil (h : Counted next ref live []) : live = [] :=
  List.eq_nil_iff_forall_not_mem.mpr fun p hp =>
    h.not_mem (P := fun _ => True) nofun (fun _ _ _ _ _ => trivial) p hp trivial

end Stm32TcpServer.Lib.Refcount
