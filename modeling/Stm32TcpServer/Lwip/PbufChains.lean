import Stm32TcpServer.Lwip.PbufRefs

/-! # Chains of pbufs that are joined and cut (pbuf.c)

`pbufCat_spec`, `pbufDechain_spec`, `pbufRealloc_good`, `pbufHeader_good`: these functions keep the
counts right. They keep the total lengths right, too (`pbufCat_total`, `pbufDechain_spec`,
`pbufRealloc_total`, `pbufHeader_total`), if no other pbuf is linked into the chain that they change
(`Own`). -/

namespace Stm32TcpServer.Lwip.PbufRefs

open Stm32TcpServer.Lib.FreeList Stm32TcpServer.Lib.Refcount

section
variable {m : Pools} {s s' : Store} {held hs l lt : List Addr} {p q r t : Addr} {f : Pbuf → Pbuf}

/-- No pbuf outside of the chain is linked into it. -/
def Own (s : Store) (l : List Addr) : Prop :=
  ∀ q ∈ s.live, q ∉ l → ∀ x ∈ l, s.next q ≠ some x

/-! ### `pbuf_ref` -/

theorem Good.take (h : Good m s held) (hp : p ∈ s.live) (hlt : s.ref p < 65535) :
    Good m (pbufRef s p) (p :: held) := by
  have hlt' : (s.pbuf p).ref < 65535 := hlt
  have href : ((s.pbuf p).ref + 1) % 65536 = s.ref p + 1 := Nat.mod_eq_of_lt (by omega)
  unfold pbufRef
  refine h.of_counted ?_ (fun q hq => ?_) rfl rfl (modify_type s p fun _ => rfl)
  · rw [modify_next_eq s rfl, modify_ref, href]
    exact h.counted.take hp
  · have hsmall := h.small q hq
    rw [modify_ref, href]
    rcases eq_or_ne q p with rfl | hne
    · rw [Function.update_self]
      dsimp only
      omega
    · rw [Function.update_of_ne hne]
      exact hsmall

theorem kept_ref (s : Store) (p : Addr) : Kept s (pbufRef s p) := by
  refine ⟨fun _ hq => hq, fun q _ => ?_⟩
  unfold Store.ref pbufRef
  rcases eq_or_ne q p with rfl | hne
  · rw [modify_self]
  · rw [modify_of_ne s _ hne]

/-! ### `pbuf_cat` -/

theorem next_ne_none : ∀ {l : List Addr} {o : Option Addr}, Chain s.next o (l ++ [p]) →
    s.next p = none ∧ ∀ x ∈ l, s.next x ≠ none
  | [], o, hc => ⟨hc.2, nofun⟩
  | x :: l, o, hc => by
    obtain ⟨hp, hrest⟩ := next_ne_none (o := s.next x) (l := l) hc.2
    refine ⟨hp, fun y hy => ?_⟩
    rcases List.mem_cons.mp hy with rfl | hy
    · intro hnone
      have hc' := hc.2
      rw [hnone] at hc'
      exact List.cons_ne_nil _ _ (List.append_eq_nil_iff.mp hc'.of_none).2
    · exact hrest y hy

/-- What the loop of `pbuf_cat` does to a pbuf of the chain. -/
def catAt (s : Store) (t : Addr) (b : Pbuf) : Pbuf :=
  { b with totLen := (b.totLen + (s.pbuf t).totLen) % 65536, next := b.next.or (some t) }

/-- **The loop of `pbuf_cat`.** -/
theorem catLoop_spec : ∀ {l : List Addr} {fuel : ℕ} {s : Store} {p : Addr},
    Chain s.next (some p) l → l.length ≤ fuel → t ∉ l →
    ∃ s', catLoop fuel s p t = some s' ∧ s'.live = s.live ∧ s'.free = s.free ∧
      (∀ q, q ∉ l → s'.pbuf q = s.pbuf q) ∧ ∀ q ∈ l, s'.pbuf q = catAt s t (s.pbuf q)
  | [], _, _, _, hc, _, _ => nomatch hc
  | _ :: _, 0, _, _, _, hl, _ => absurd hl (Nat.not_succ_le_zero _)
  | x :: l, fuel + 1, s, p, hc, hl, ht => by
    obtain rfl := Option.some.inj hc.1
    have hnd := List.nodup_cons.mp (chain_nodup hc)
    rw [List.mem_cons, not_or] at ht
    unfold catLoop
    dsimp only
    cases hn : (s.pbuf p).next with
    | none =>
      have hc' := hc.2
      unfold Store.next at hc'
      rw [hn] at hc'
      obtain rfl := hc'.of_none
      refine ⟨_, rfl, rfl, rfl, fun q hq => ?_, fun q hq => ?_⟩
      · exact modify_of_ne s _ fun hc => hq (hc ▸ List.mem_singleton_self _)
      · obtain rfl := List.mem_singleton.mp hq
        rw [modify_self, catAt, hn]
        rfl
    | some q =>
      dsimp only
      generalize hs₁ : s.modify p (fun b =>
        { b with totLen := ((s.pbuf p).totLen + (s.pbuf t).totLen) % 65536 }) = s₁
      have hp₁ : s₁.pbuf p =
          { s.pbuf p with totLen := ((s.pbuf p).totLen + (s.pbuf t).totLen) % 65536 } := by
        rw [← hs₁, modify_self]
      have hother : ∀ x, x ≠ p → s₁.pbuf x = s.pbuf x := by
        intro x hx
        rw [← hs₁, modify_of_ne s _ hx]
      have hnext : s₁.next = s.next := by
        rw [← hs₁, modify_next_eq s rfl]
      have hc' : Chain s₁.next (some q) l := by
        have := hc.2
        unfold Store.next at this
        rw [hn] at this
        rw [hnext]
        exact this
      obtain ⟨s', hrun, hlive, hfree, hout, hin⟩ :=
        catLoop_spec hc' (Nat.le_of_succ_le_succ hl) ht.2
      refine ⟨s', hrun, by rw [hlive, ← hs₁]; rfl, by rw [hfree, ← hs₁]; rfl, fun x hx => ?_,
        fun x hx => ?_⟩
      · rw [List.mem_cons, not_or] at hx
        rw [hout x hx.2, hother x hx.1]
      · rcases List.mem_cons.mp hx with rfl | hx
        · rw [hout x hnd.1, hp₁]
          dsimp only [catAt]
          rw [hn]
          rfl
        · rw [hin x hx, catAt, catAt, hother t ht.1, hother x fun hc => hnd.1 (hc ▸ hx)]

/-- **`pbuf_cat`** links the last pbuf of the chain to the other chain. -/
theorem pbufCat_spec (h : Good m s (t :: held)) (hp : p ∈ s.live) (hl : Chain s.next (some p) l)
    (hlt : Chain s.next (some t) lt) (hapart : ∀ x ∈ l, x ∉ lt) :
    ∃ s', pbufCat s p t = some s' ∧ Good m s' held ∧ s'.live = s.live ∧
      (∀ q, q ∉ l → s'.pbuf q = s.pbuf q) ∧ ∀ q ∈ l, s'.pbuf q = catAt s t (s.pbuf q) := by
  have ht : t ∉ l := by
    obtain ⟨lt', rfl, -⟩ := hlt.of_some
    exact fun hc => hapart t hc List.mem_cons_self
  obtain ⟨s', hrun, hlive, hfree, hout, hin⟩ :=
    catLoop_spec hl (h.counted.chain_length hp hl) ht
  refine ⟨s', hrun, ?_, hlive, hout, hin⟩
  have hne : l ≠ [] := fun hc => by
    rw [hc] at hl
    cases hl
  obtain ⟨l₁, z, rfl⟩ : ∃ l₁ z, l = l₁ ++ [z] := ⟨_, _, (List.dropLast_append_getLast hne).symm⟩
  have hz : z ∈ l₁ ++ [z] := by simp
  obtain ⟨hend, hsome⟩ := next_ne_none hl
  have hnext : s'.next = Function.update s.next z (some t) := by
    funext q
    rcases eq_or_ne q z with rfl | hqz
    · rw [Function.update_self]
      unfold Store.next at hend ⊢
      rw [hin q hz, catAt, hend]
      rfl
    · rw [Function.update_of_ne hqz]
      unfold Store.next at hsome ⊢
      by_cases hq : q ∈ l₁ ++ [z]
      · have hq₁ : q ∈ l₁ := by
          rcases List.mem_append.mp hq with hq | hq
          · exact hq
          · exact absurd (List.mem_singleton.mp hq) hqz
        obtain ⟨x, hx⟩ := Option.ne_none_iff_exists'.mp (hsome q hq₁)
        rw [hin q hq, catAt, hx]
        rfl
      · rw [hout q hq]
  have hother : ∀ q, (s'.pbuf q).ref = (s.pbuf q).ref ∧ (s'.pbuf q).type = (s.pbuf q).type := by
    intro q
    by_cases hq : q ∈ l₁ ++ [z]
    · rw [hin q hq]
      exact ⟨rfl, rfl⟩
    · rw [hout q hq]
      exact ⟨rfl, rfl⟩
  have href : s'.ref = s.ref := funext fun q => (hother q).1
  refine h.of_counted ?_ ?_ hlive hfree fun q => (hother q).2
  · rw [hnext, href, hlive]
    exact h.counted.link (h.counted.chain_mem_of hp hl z hz) hend hlt (hapart z hz)
  · rw [href, hlive]
    exact h.small

theorem Store.Total.le (ht : s.Total) : ∀ {l : List Addr} {p : Addr}, Chain s.next (some p) l →
    (∀ x ∈ l, x ∈ s.live) → ∀ x ∈ l, (s.pbuf x).totLen ≤ (s.pbuf p).totLen
  | [], _, hc, _, _, _ => nomatch hc
  | y :: l, p, hc, hmem, x, hx => by
    obtain rfl := Option.some.inj hc.1
    rcases List.mem_cons.mp hx with rfl | hx
    · exact Nat.le_refl _
    · have hp := ht.sum p (hmem p List.mem_cons_self)
      have hc' := hc.2
      unfold Store.TotalAt at hp
      cases hn : s.next p with
      | none =>
        rw [hn] at hc'
        rw [hc'.of_none] at hx
        cases hx
      | some q =>
        rw [hn] at hc' hp
        have hle := ht.le hc' (fun x hx => hmem x (List.mem_cons_of_mem _ hx)) x hx
        rw [Option.elim_some] at hp
        omega

theorem pbufCat_total (h : Good m s held) (ht : s.Total) (hp : p ∈ s.live)
    (hl : Chain s.next (some p) l) (hown : Own s l) (htl : t ∉ l)
    (hshort : (s.pbuf p).totLen + (s.pbuf t).totLen < 65536) (hlive : s'.live = s.live)
    (hout : ∀ q, q ∉ l → s'.pbuf q = s.pbuf q) (hin : ∀ q ∈ l, s'.pbuf q = catAt s t (s.pbuf q)) :
    s'.Total := by
  have hmem := h.counted.chain_mem_of hp hl
  have htot : ∀ q ∈ l, (s'.pbuf q).totLen = (s.pbuf q).totLen + (s.pbuf t).totLen := by
    intro q hq
    have hle := ht.le hl hmem q hq
    rw [hin q hq]
    exact Nat.mod_eq_of_lt (by omega)
  refine ⟨fun q hq => ?_, fun q hq => ?_⟩
  · rw [hlive] at hq
    have hsum := ht.sum q hq
    by_cases hql : q ∈ l
    · unfold Store.TotalAt Store.next at *
      rw [htot q hql, hin q hql]
      dsimp only [catAt]
      cases hn : (s.pbuf q).next with
      | none =>
        rw [hn] at hsum
        rw [hsum, Option.none_or, Option.elim_some, hout t htl]
        rfl
      | some x =>
        rw [hn] at hsum
        have hx : x ∈ l := by
          obtain ⟨l₁, l₂, rfl⟩ := List.append_of_mem hql
          have hc := hl.split
          rw [hn] at hc
          obtain ⟨l₃, rfl, -⟩ := hc.of_some
          simp
        rw [hsum, Option.some_or, Option.elim_some, Option.elim_some, htot x hx]
        omega
    · refine totalAt_of_eq (hout q hql) (fun x hx => ?_) hsum
      rw [hout x fun hc => hown q hq hql x hc hx]
  · rw [hlive] at hq
    by_cases hql : q ∈ l
    · have hle := ht.le hl hmem q hql
      rw [htot q hql]
      omega
    · rw [hout q hql]
      exact ht.short q hq

/-! ### `pbuf_dechain` -/

theorem Good.unlink (h : Good m s held) (hp : p ∈ s.live) (hq : s.next p = some q)
    (hnext : (f (s.pbuf p)).next = none) (href : (f (s.pbuf p)).ref = (s.pbuf p).ref)
    (htype : ∀ b, (f b).type = b.type) : Good m (s.modify p f) (q :: held) := by
  have hr := modify_ref_eq s href
  refine h.of_counted ?_ ?_ rfl rfl (modify_type s p htype)
  · rw [hr, modify_next, hnext]
    exact h.counted.unlink hp hq
  · rw [hr]
    exact h.small

theorem Good.next_ne (h : Good m s held) (hp : p ∈ s.live) (hq : s.next p = some q) : q ≠ p := by
  rintro rfl
  obtain ⟨l, hl⟩ := h.counted.chain q hp
  obtain ⟨l', rfl, -⟩ := hl.of_some
  exact chain_ne_head hl List.mem_cons_self hq

/-- The store after `pbuf_dechain` has cut `p` off from `q`, before it frees `q`. -/
def Store.detach (s : Store) (p q : Addr) : Store :=
  let total := ((s.pbuf p).totLen + 65536 - (s.pbuf p).len) % 65536
  (s.modify q fun b => { b with totLen := total }).modify p
    fun b => { b with next := none, totLen := b.len }

theorem pbufDechain_none (hn : s.next p = none) : pbufDechain s p = some (s, none) := by
  unfold pbufDechain
  have hn' : (s.pbuf p).next = none := hn
  rw [hn']

theorem pbufDechain_some (hn : s.next p = some q) : pbufDechain s p =
    (pbufFree (s.detach p q) q).map fun x => (x.1, if 0 < x.2 then none else some q) := by
  unfold pbufDechain
  have hn' : (s.pbuf p).next = some q := hn
  rw [hn']
  rfl

theorem detach_self (s : Store) (hqp : q ≠ p) :
    (s.detach p q).pbuf p = { s.pbuf p with next := none, totLen := (s.pbuf p).len } := by
  unfold Store.detach
  rw [modify_self, modify_of_ne s _ hqp.symm]

theorem Good.detach (h : Good m s held) (hp : p ∈ s.live) (hn : s.next p = some q) :
    Good m (s.detach p q) (q :: held) := by
  have hqp := h.next_ne hp hn
  have h₁ := h.modify (p := q)
    (f := fun b => { b with totLen := ((s.pbuf p).totLen + 65536 - (s.pbuf p).len) % 65536 })
    rfl rfl fun _ => rfl
  have hn₁ : (s.modify q fun b =>
      { b with totLen := ((s.pbuf p).totLen + 65536 - (s.pbuf p).len) % 65536 }).next p = some q := by
    unfold Store.next
    rw [modify_of_ne s _ hqp.symm]
    exact hn
  exact h₁.unlink (f := fun b => { b with next := none, totLen := b.len }) hp hn₁ rfl rfl
    fun _ => rfl

/-- The total length that is written into the rest of the chain is the one that is there. -/
theorem Store.Total.detach_of_ne (ht : s.Total) (hp : p ∈ s.live) (hq : q ∈ s.live)
    (hn : s.next p = some q) {x : Addr} (hxp : x ≠ p) : (s.detach p q).pbuf x = s.pbuf x := by
  unfold Store.detach
  rw [modify_of_ne _ _ hxp]
  rcases eq_or_ne x q with rfl | hxq
  · have hsum := ht.sum p hp
    have hshort := ht.short x hq
    unfold Store.TotalAt at hsum
    rw [hn, Option.elim_some] at hsum
    rw [modify_self]
    have hval : ((s.pbuf p).totLen + 65536 - (s.pbuf p).len) % 65536 = (s.pbuf x).totLen := by omega
    rw [hval]
  · rw [modify_of_ne s _ hxq]

theorem Store.Total.detach (ht : s.Total) (hp : p ∈ s.live) (hq : q ∈ s.live) (hqp : q ≠ p)
    (hn : s.next p = some q) (hown : ∀ x ∈ s.live, s.next x ≠ some p) : (s.detach p q).Total := by
  have hself := detach_self s hqp
  have hother : ∀ x, x ≠ p → (s.detach p q).pbuf x = s.pbuf x := fun x hxp =>
    ht.detach_of_ne hp hq hn hxp
  refine ⟨fun x hx => ?_, fun x hx => ?_⟩
  · rcases eq_or_ne x p with rfl | hxp
    · have hnone : (s.detach x q).next x = none := by
        unfold Store.next
        rw [hself]
      unfold Store.TotalAt
      rw [hnone, hself]
      rfl
    · refine totalAt_of_eq (hother x hxp) (fun y hy => ?_) (ht.sum x hx)
      rw [hother y fun hc => hown x hx (hc ▸ hy)]
  · rcases eq_or_ne x p with rfl | hxp
    · have hsum := ht.sum x hp
      have hshort := ht.short x hp
      unfold Store.TotalAt at hsum
      rw [hself]
      dsimp only
      omega
    · rw [hother x hxp]
      exact ht.short x hx

/-- The count of `pbuf_free` tells whether the pbuf is freed. It is a u8. -/
theorem Kept.freed_iff {n : ℕ} (hk : Kept s s') (hnd : s.live.Nodup) (hnd' : s'.live.Nodup)
    (hq : q ∈ s.live) (hfew : s.live.length < 256) (hrun : pbufFree s q = some (s', n)) :
    0 < n ↔ q ∉ s'.live := by
  obtain ⟨k, hlen, hn, hgone⟩ := pbufFree_count hnd hrun
  have hnk : n = k := by omega
  rw [hnk]
  refine ⟨hgone, fun hout => ?_⟩
  by_contra hzero
  have hsame : s'.live.Perm s.live :=
    (List.subperm_of_subset hnd' hk.live).perm_of_length_le (by omega)
  exact hout (hsame.mem_iff.mpr hq)

/-- **`pbuf_dechain`** keeps the total lengths right if nothing is linked to the pbuf. It returns
the rest of the chain, or NULL if that is freed. -/
theorem pbufDechain_spec (h : Good m s held) (hp : p ∈ s.live) :
    ∃ s' o, pbufDechain s p = some (s', o) ∧ Good m s' held ∧
      (s.Total → (∀ x ∈ s.live, s.next x ≠ some p) → s'.Total) ∧
      (s.live.length < 256 → ∀ q, o = some q ↔ s.next p = some q ∧ q ∈ s'.live) := by
  cases hn : s.next p with
  | none =>
    exact ⟨s, none, pbufDechain_none hn, h, fun ht _ => ht, fun _ q => iff_of_false nofun nofun⟩
  | some q =>
    have hq := h.counted.next_mem p hp q hn
    have hgood₁ := h.detach hp hn
    obtain ⟨l, hl⟩ := hgood₁.counted.chain q (hgood₁.counted.mem q List.mem_cons_self)
    obtain ⟨s', n, hrun, hgood, hkept, -⟩ := pbufFree_spec hgood₁ hl
    refine ⟨s', if 0 < n then none else some q, by rw [pbufDechain_some hn, hrun]; rfl, hgood,
      fun ht hown => ?_, fun hfew r => ?_⟩
    · have htotal := ht.detach hp hq (h.next_ne hp hn) hn hown
      exact hkept.total hgood fun x hx =>
        ⟨htotal.sum x (hkept.live x hx), htotal.short x (hkept.live x hx)⟩
    · have hfreed := hkept.freed_iff hgood₁.counted.nodup hgood.counted.nodup hq hfew hrun
      split_ifs with hpos
      · refine iff_of_false nofun ?_
        rintro ⟨hr, hin⟩
        obtain rfl := Option.some.inj hr
        exact hfreed.mp hpos hin
      · refine ⟨fun hr => ⟨hr, ?_⟩, And.left⟩
        obtain rfl := Option.some.inj hr
        exact not_not.mp (mt hfreed.mpr hpos)

/-! ### `pbuf_realloc` -/

theorem dealloc_modify_of_ne (s : Store) (hpq : p ≠ q) (f : Pbuf → Pbuf) :
    (s.modify q f).dealloc p = (s.dealloc p).modify q f := by
  unfold Store.dealloc
  dsimp only
  rw [modify_of_ne s f hpq]
  split <;> rfl

/-- The loop of `pbuf_free` does not care for a pbuf outside of the chain. -/
theorem freeLoop_modify (f : Pbuf → Pbuf) : ∀ {fuel : ℕ} {l : List Addr} {s : Store}
    {o : Option Addr} (count : ℕ), Chain s.next o l → q ∉ l →
    freeLoop fuel (s.modify q f) o count =
      (freeLoop fuel s o count).map fun x => (x.1.modify q f, x.2)
  | fuel, l, s, none, count, _, _ => by
    rw [freeLoop_none, freeLoop_none]
    rfl
  | 0, l, s, some p, count, _, _ => rfl
  | fuel + 1, l, s, some p, count, hc, hq => by
    obtain ⟨l', rfl, hc'⟩ := hc.of_some
    rw [List.mem_cons, not_or] at hq
    have hpq : p ≠ q := Ne.symm hq.1
    unfold freeLoop
    rw [modify_live]
    by_cases hp : p ∈ s.live
    · rw [if_pos hp, if_pos hp]
      dsimp only
      rw [modify_of_ne s f hpq, modify_comm s hpq.symm, dealloc_modify_of_ne _ hpq,
        modify_of_ne _ f hpq]
      split_ifs
      · refine freeLoop_modify f _ (l := l') ?_ hq.2
        rw [modify_self]
        have hnext : ((s.modify p fun b =>
            { b with ref := ((s.pbuf p).ref + 65535) % 65536 }).dealloc p).next = s.next := by
          unfold Store.next
          rw [dealloc_pbuf]
          exact modify_next_eq s rfl
        rw [hnext]
        exact hc'
      · rfl
    · rw [if_neg hp, if_neg hp]
      rfl

/-- The end of `pbuf_realloc`: what is behind the last pbuf is freed, and then the link is taken
away. -/
theorem cut_spec (h : Good m s held) (hq : q ∈ s.live) (hr : s.next q = some r) :
    ∃ s', (pbufFree s r).map (fun x => x.1.modify q fun b => { b with next := none }) = some s' ∧
      Good m s' held ∧ Kept (s.modify q fun b => { b with next := none }) s' := by
  have hgood := h.unlink (f := fun b => { b with next := none }) hq hr rfl rfl fun _ => rfl
  obtain ⟨l, hl⟩ := h.counted.chain q hq
  obtain ⟨l', rfl, hl'⟩ := hl.of_some
  have hql := (List.nodup_cons.mp (chain_nodup hl)).1
  rw [hr] at hl'
  have hl₂ : Chain (s.modify q fun b => { b with next := none }).next (some r) l' := by
    rw [modify_next]
    exact (chain_update _ hql).mpr hl'
  obtain ⟨s', n, hrun, hgood', hkept, -⟩ := pbufFree_spec hgood hl₂
  refine ⟨s', ?_, hgood', hkept⟩
  have hcomm : freeLoop s.live.length (s.modify q fun b => { b with next := none }) (some r) 0 =
      (freeLoop s.live.length s (some r) 0).map fun x =>
        (x.1.modify q fun b => { b with next := none }, x.2) := freeLoop_modify _ 0 hl' hql
  unfold pbufFree at hrun ⊢
  rw [modify_live, hcomm] at hrun
  cases hfree : freeLoop s.live.length s (some r) 0 with
  | none =>
    rw [hfree] at hrun
    cases hrun
  | some x =>
    rw [hfree] at hrun
    exact congrArg some (congrArg Prod.fst (Option.some.inj hrun))

theorem reallocLoop_good : ∀ {fuel : ℕ} {s : Store} {q : Addr} {rem shrink : ℕ}, Good m s held →
    q ∈ s.live → reallocLoop fuel s q rem shrink = some s' → Good m s' held
  | 0, _, _, _, _, _, _, hrun => nomatch hrun
  | fuel + 1, s, q, rem, shrink, h, hq, hrun => by
    unfold reallocLoop at hrun
    split_ifs at hrun with hlt
    · cases hn : (s.pbuf q).next with
      | none =>
        rw [hn] at hrun
        cases hrun
      | some r =>
        rw [hn] at hrun
        dsimp only at hrun
        exact reallocLoop_good (h.modify (f := fun b => { b with
          totLen := ((s.pbuf q).totLen + 65536 - shrink) % 65536 }) rfl rfl fun _ => rfl)
          (h.counted.next_mem q hq r hn) hrun
    · dsimp only at hrun
      have hgood : Good m (s.modify q fun b => { b with len := rem, totLen := rem }) held :=
        h.modify rfl rfl fun _ => rfl
      rw [modify_self] at hrun
      cases hn : (s.pbuf q).next with
      | none =>
        rw [hn] at hrun
        obtain rfl := Option.some.inj hrun
        exact hgood
      | some r =>
        rw [hn] at hrun
        have hr : (s.modify q fun b => { b with len := rem, totLen := rem }).next q = some r := by
          unfold Store.next
          rw [modify_self, hn]
        obtain ⟨s'', hrun', hgood', -⟩ := cut_spec hgood hq hr
        obtain rfl := Option.some.inj (hrun'.symm.trans hrun)
        exact hgood'

/-- **The total lengths in the loop of `pbuf_realloc`**: what is linked to `q` counts the bytes that
go from `q` on no more. -/
structure Shrinking (s : Store) (q : Addr) (shrink : ℕ) : Prop where
  sum : ∀ x ∈ s.live, (s.pbuf x).totLen = (s.pbuf x).len +
    (s.next x).elim 0 fun y => if y = q then (s.pbuf y).totLen - shrink else (s.pbuf y).totLen
  short : ∀ x ∈ s.live, (s.pbuf x).totLen < 65536

theorem Shrinking.step {shrink total : ℕ} (h : Shrinking s q shrink) (hq : q ∈ s.live)
    (hr : s.next q = some r) (hrq : r ≠ q) (htotal : total = (s.pbuf q).totLen - shrink)
    (hle : shrink ≤ (s.pbuf r).totLen) (hown : ∀ x ∈ s.live, x ≠ q → s.next x ≠ some r) :
    Shrinking (s.modify q fun b => { b with totLen := total }) r shrink := by
  have hnext : (s.modify q fun b => { b with totLen := total }).next = s.next :=
    modify_next_eq s rfl
  refine ⟨fun x hx => ?_, fun x hx => ?_⟩
  · have hsum := h.sum x hx
    rw [hnext]
    rcases eq_or_ne x q with rfl | hxq
    · rw [hr, Option.elim_some, if_neg hrq] at hsum
      rw [hr, Option.elim_some, if_pos rfl, modify_self, modify_of_ne s _ hrq]
      dsimp only
      omega
    · rw [modify_of_ne s _ hxq, hsum]
      cases hn : s.next x with
      | none => rfl
      | some y =>
        have hyr : y ≠ r := by
          rintro rfl
          exact hown x hx hxq hn
        rw [Option.elim_some, Option.elim_some, if_neg hyr]
        rcases eq_or_ne y q with rfl | hyq
        · rw [if_pos rfl, modify_self, htotal]
        · rw [if_neg hyq, modify_of_ne s _ hyq]
  · have hshort := h.short x hx
    rcases eq_or_ne x q with rfl | hxq
    · rw [modify_self]
      dsimp only
      omega
    · rw [modify_of_ne s _ hxq]
      exact hshort

theorem Shrinking.last {rem shrink : ℕ} (h : Shrinking s q shrink)
    (hrem : rem + shrink = (s.pbuf q).totLen)
    (hself : s'.pbuf q = { s.pbuf q with len := rem, totLen := rem, next := none })
    (hother : ∀ x, x ≠ q → s'.pbuf x = s.pbuf x) {x : Addr} (hx : x ∈ s.live) :
    s'.TotalAt x ∧ (s'.pbuf x).totLen < 65536 := by
  have hsum := h.sum x hx
  have hshort := h.short x hx
  unfold Store.TotalAt Store.next at *
  rcases eq_or_ne x q with rfl | hxq
  · rw [hself]
    exact ⟨rfl, by dsimp only; omega⟩
  · rw [hother x hxq]
    refine ⟨hsum.trans ?_, hshort⟩
    cases (s.pbuf x).next with
    | none => rfl
    | some y =>
      rw [Option.elim_some, Option.elim_some]
      rcases eq_or_ne y q with rfl | hyq
      · rw [if_pos rfl, hself]
        dsimp only
        omega
      · rw [if_neg hyq, hother y hyq]

/-- The last pbuf that stays: it is cut, and what is behind it freed. -/
theorem Shrinking.stop {rem shrink : ℕ} (hsh : Shrinking s q shrink) (h : Good m s held)
    (hq : q ∈ s.live) (hrem : rem + shrink = (s.pbuf q).totLen) (hle : ¬ (s.pbuf q).len < rem)
    (fuel : ℕ) : ∃ s', reallocLoop (fuel + 1) s q rem shrink = some s' ∧ s'.Total := by
  unfold reallocLoop
  rw [if_neg hle]
  dsimp only
  rw [modify_self]
  have hgood : Good m (s.modify q fun b => { b with len := rem, totLen := rem }) held :=
    h.modify rfl rfl fun _ => rfl
  have hother : ∀ x, x ≠ q → (s.modify q fun b => { b with len := rem, totLen := rem }).pbuf x =
      s.pbuf x := fun x hx => modify_of_ne s _ hx
  cases hn : (s.pbuf q).next with
  | none =>
    have hself : (s.modify q fun b => { b with len := rem, totLen := rem }).pbuf q =
        { s.pbuf q with len := rem, totLen := rem, next := none } := by rw [modify_self, hn]
    exact ⟨_, rfl, fun x hx => (hsh.last hrem hself hother hx).1,
      fun x hx => (hsh.last hrem hself hother hx).2⟩
  | some r =>
    have hr : (s.modify q fun b => { b with len := rem, totLen := rem }).next q = some r := by
      unfold Store.next
      rw [modify_self, hn]
    obtain ⟨s', hrun, hgood', hkept⟩ := cut_spec hgood hq hr
    refine ⟨s', hrun, hkept.total hgood' fun x hx => ?_⟩
    refine hsh.last hrem ?_ (fun x hx => ?_) (hkept.live x hx)
    · rw [modify_self, modify_self]
    · rw [modify_of_ne _ _ hx, hother x hx]

/-- **The loop of `pbuf_realloc`** ends and leaves the total lengths right. -/
theorem reallocLoop_total : ∀ {fuel : ℕ} {l : List Addr} {s : Store} {q : Addr} {rem shrink : ℕ},
    Good m s held → q ∈ s.live → Chain s.next (some q) l → l.length ≤ fuel →
    (∀ x ∈ s.live, x ∉ l → ∀ y ∈ l.tail, s.next x ≠ some y) → Shrinking s q shrink →
    rem + shrink = (s.pbuf q).totLen → ∃ s', reallocLoop fuel s q rem shrink = some s' ∧ s'.Total
  | _, [], _, _, _, _, _, _, hc, _, _, _, _ => nomatch hc
  | 0, _ :: _, _, _, _, _, _, _, _, hl, _, _, _ => absurd hl (Nat.not_succ_le_zero _)
  | fuel + 1, y :: l, s, q, rem, shrink, h, hq, hc, hl, hown, hsh, hrem => by
    obtain rfl := Option.some.inj hc.1
    have hnd := chain_nodup hc
    have hsum := hsh.sum q hq
    have hshort := hsh.short q hq
    by_cases hlt : (s.pbuf q).len < rem
    · unfold reallocLoop
      rw [if_pos hlt]
      cases hn : (s.pbuf q).next with
      | none =>
        have hn' : s.next q = none := hn
        rw [hn', Option.elim_none] at hsum
        omega
      | some r =>
        have hr : s.next q = some r := hn
        have hrq := h.next_ne hq hr
        have hc' := hc.2
        rw [hr, Option.elim_some, if_neg hrq] at hsum
        rw [hr] at hc'
        obtain ⟨l', rfl, -⟩ := hc'.of_some
        have hrl : r ∈ q :: r :: l' := by simp
        dsimp only
        have hstep : Shrinking (s.modify q fun b => { b with
            totLen := ((s.pbuf q).totLen + 65536 - shrink) % 65536 }) r shrink :=
          hsh.step hq hr hrq (by omega) (by omega) fun x hx hxq hxr => by
            by_cases hxl : x ∈ q :: r :: l'
            · exact hxq (chain_inj hc hxl List.mem_cons_self (hxr.trans hr.symm))
            · exact hown x hx hxl r List.mem_cons_self hxr
        have hgood := h.modify (p := q) (f := fun b => { b with
          totLen := ((s.pbuf q).totLen + 65536 - shrink) % 65536 }) rfl rfl fun _ => rfl
        have hnext : (s.modify q fun b => { b with
            totLen := ((s.pbuf q).totLen + 65536 - shrink) % 65536 }).next = s.next :=
          modify_next_eq s rfl
        refine reallocLoop_total (l := r :: l') hgood (h.counted.next_mem q hq r hr) ?_
          (Nat.le_of_succ_le_succ hl) (fun x hx hxl z hz => ?_) hstep ?_
        · rw [hnext]
          exact hc'
        · rw [hnext]
          rcases eq_or_ne x q with rfl | hxq
          · rw [hr]
            rintro hrz
            obtain rfl := Option.some.inj hrz
            exact (List.nodup_cons.mp (List.nodup_cons.mp hnd).2).1 hz
          · refine hown x hx (fun hc => ?_) z (List.mem_cons_of_mem _ hz)
            exact hxl ((List.mem_cons.mp hc).resolve_left hxq)
        · rw [modify_of_ne s _ hrq]
          omega
    · exact hsh.stop h hq hrem hlt fuel

/-- **`pbuf_realloc`**, if it comes to an end. -/
theorem pbufRealloc_good (h : Good m s held) (hp : p ∈ s.live) {newLen : ℕ}
    (hrun : pbufRealloc s p newLen = some s') : Good m s' held := by
  unfold pbufRealloc at hrun
  split_ifs at hrun with hle
  · obtain rfl := Option.some.inj hrun
    exact h
  · exact reallocLoop_good h hp hrun

theorem pbufRealloc_total (h : Good m s held) (ht : s.Total) (hp : p ∈ s.live)
    (hl : Chain s.next (some p) l) (hown : Own s l) (newLen : ℕ) :
    ∃ s', pbufRealloc s p newLen = some s' ∧ s'.Total := by
  unfold pbufRealloc
  split_ifs with hle
  · exact ⟨s, rfl, ht⟩
  · obtain ⟨l', rfl, -⟩ := hl.of_some
    refine reallocLoop_total h hp hl (h.counted.chain_length hp hl)
      (fun x hx hxl y hy => hown x hx hxl y (List.mem_of_mem_tail hy))
      ⟨fun x hx => (ht.sum x hx).trans ?_, ht.short⟩ (by omega)
    cases hn : s.next x with
    | none => rfl
    | some y =>
      rw [Option.elim_some, Option.elim_some, if_neg]
      rintro rfl
      by_cases hxl : x ∈ y :: l'
      · exact chain_ne_head hl hxl hn
      · exact hown x hx hxl y List.mem_cons_self hn

/-! ### `pbuf_header` -/

theorem pbufHeader_cases (s : Store) (p : Addr) (inc : ℤ) : pbufHeader s p inc = (s, false) ∨
    pbufHeader s p inc = (s, true) ∨ (-inc ≤ (s.pbuf p).len ∧ pbufHeader s p inc =
      (s.modify p fun b => { b with
        offset := (b.offset - inc).toNat
        len := addU16 b.len inc
        totLen := addU16 b.totLen inc }, false)) := by
  unfold pbufHeader
  dsimp only
  split_ifs with h₁ h₂
  · exact Or.inl rfl
  · exact Or.inr (Or.inl rfl)
  · exact Or.inr (Or.inl rfl)
  · exact Or.inr (Or.inl rfl)
  · refine Or.inr (Or.inr ⟨?_, rfl⟩)
    omega

/-- **`pbuf_header`.** -/
theorem pbufHeader_good (h : Good m s held) (p : Addr) (inc : ℤ) :
    Good m (pbufHeader s p inc).1 held := by
  rcases pbufHeader_cases s p inc with hrun | hrun | ⟨-, hrun⟩
  · rw [hrun]
    exact h
  · rw [hrun]
    exact h
  · rw [hrun]
    exact h.modify (f := fun b => { b with
      offset := (b.offset - inc).toNat
      len := addU16 b.len inc
      totLen := addU16 b.totLen inc }) rfl rfl fun _ => rfl

theorem pbufHeader_total (ht : s.Total) (hp : p ∈ s.live) (hown : ∀ x ∈ s.live, s.next x ≠ some p)
    {inc : ℤ} (hshort : (s.pbuf p).totLen + inc < 65536) : (pbufHeader s p inc).1.Total := by
  rcases pbufHeader_cases s p inc with hrun | hrun | ⟨hle, hrun⟩
  · rw [hrun]
    exact ht
  · rw [hrun]
    exact ht
  · rw [hrun]
    dsimp only
    generalize hf : (fun b : Pbuf => { b with
      offset := (b.offset - inc).toNat
      len := addU16 b.len inc
      totLen := addU16 b.totLen inc }) = f
    have hsum := ht.sum p hp
    have hlen : ((f (s.pbuf p)).len : ℤ) = (s.pbuf p).len + inc ∧
        ((f (s.pbuf p)).totLen : ℤ) = (s.pbuf p).totLen + inc := by
      unfold Store.TotalAt at hsum
      rw [← hf]
      dsimp only [addU16]
      constructor <;> omega
    have hnext : (s.modify p f).next = s.next := by rw [← hf, modify_next_eq s rfl]
    refine ⟨fun x hx => ?_, fun x hx => ?_⟩
    · have hx' := ht.sum x hx
      unfold Store.TotalAt at *
      have hothers : ((s.next x).elim 0 fun q => ((s.modify p f).pbuf q).totLen) =
          (s.next x).elim 0 fun q => (s.pbuf q).totLen := by
        cases hn : s.next x with
        | none => rfl
        | some y =>
          have hyp : y ≠ p := by
            rintro rfl
            exact hown x hx hn
          rw [Option.elim_some, Option.elim_some, modify_of_ne s f hyp]
      rw [hnext, hothers]
      rcases eq_or_ne x p with rfl | hxp
      · rw [modify_self]
        omega
      · rw [modify_of_ne s f hxp]
        exact hx'
    · rcases eq_or_ne x p with rfl | hxp
      · rw [modify_self]
        omega
      · rw [modify_of_ne s f hxp]
        exact ht.short x hx

end

end Stm32TcpServer.Lwip.PbufRefs
