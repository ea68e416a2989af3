import Mathlib.Algebra.BigOperators.Group.List.Basic
import Mathlib.Algebra.GroupWithZero.Nat
import Stm32TcpServer.Lib.Runs
import Stm32TcpServer.Lwip.PbufChains

/-! # Pbufs over whole runs (pbuf.c)

The memory and its clients, which call the functions of pbuf.c in any order: they free, link and
count only what they have a pointer to, and change only what is allocated. `refs_exact`,
`only_reachable`, `free_exact`: each pbuf counts the pointers to itself, and is freed with the last
one. `totLen_sums`: the total lengths are right if nobody changes a chain in the middle. -/

namespace Stm32TcpServer.Lwip.PbufRefs

open Stm32TcpServer.Lib.FreeList Stm32TcpServer.Lib.Refcount Stm32TcpServer.Lib.Runs
open Stm32TcpServer.Lwip.Pbuf

/-- **The memory, and the pointers of the clients.** -/
structure Clients where
  store : Store
  held : List Addr

/-- A call of one of the functions; `ram` is what `mem_malloc` returns. -/
inductive Event
  | alloc (layer : PbufLayer) (length : ℕ) (type : PbufType) (ram : Option Addr)
  | free (p : Addr)
  | ref (p : Addr)
  | cat (h t : Addr)
  | chain (h t : Addr)
  | dechain (p : Addr)
  | realloc (p : Addr) (newLen : ℕ)
  | header (p : Addr) (inc : ℤ)

/-- At the beginning nothing is allocated, whatever the memory holds. -/
def init (m : Pools) (b : Addr → Pbuf) : Clients :=
  { store := { pbuf := b, live := [], free := m.elems }, held := [] }

/-- What `mem_malloc` returns is not allocated, and no element of a pool. -/
def FreshRam (m : Pools) (s : Store) (ram : Option Addr) : Prop :=
  ∀ p ∈ ram, p ∉ s.live ∧ p ∉ m.elems .pbuf ∧ p ∉ m.elems .pbufPool

instance (m : Pools) (s : Store) (ram : Option Addr) : Decidable (FreshRam m s ram) := by
  unfold FreshRam
  infer_instance

/-- `pbuf_cat` and `pbuf_chain` are called for two chains without a common pbuf, and for a pointer
to the second that the client has. -/
def Joinable (c : Clients) (h t : Addr) : Prop :=
  h ∈ c.store.live ∧ t ∈ c.held ∧ ∀ x ∈ c.store.chain h, x ∉ c.store.chain t

instance (c : Clients) (h t : Addr) : Decidable (Joinable c h t) := by
  unfold Joinable
  infer_instance

/-- **A step.** -/
def step (m : Pools) (c : Clients) : Event → Option Clients
  | .alloc layer length type ram =>
    if length < 65536 ∧ FreshRam m c.store ram then
      (pbufAlloc c.store layer length type ram).map fun x => ⟨x.1, x.2.toList ++ c.held⟩
    else none
  | .free p =>
    if p ∈ c.held then (pbufFree c.store p).map fun x => ⟨x.1, c.held.erase p⟩ else none
  | .ref p =>
    if p ∈ c.store.live ∧ c.store.ref p < 65535 then some ⟨pbufRef c.store p, p :: c.held⟩ else none
  | .cat h t =>
    if Joinable c h t then (pbufCat c.store h t).map fun s => ⟨s, c.held.erase t⟩ else none
  | .chain h t =>
    if Joinable c h t ∧ c.store.ref t < 65535 then
      (pbufChain c.store h t).map fun s => ⟨s, c.held⟩
    else none
  | .dechain p =>
    if p ∈ c.store.live then (pbufDechain c.store p).map fun x => ⟨x.1, c.held⟩ else none
  | .realloc p newLen =>
    if p ∈ c.store.live ∧ newLen < 65536 then
      (pbufRealloc c.store p newLen).map fun s => ⟨s, c.held⟩
    else none
  | .header p inc =>
    if p ∈ c.store.live ∧ -32768 ≤ inc ∧ inc < 32768 then
      some ⟨(pbufHeader c.store p inc).1, c.held⟩
    else none

/-- No pbuf is linked to `p`. -/
def First (s : Store) (p : Addr) : Prop := ∀ x ∈ s.live, s.next x ≠ some p

instance (s : Store) (p : Addr) : Decidable (First s p) := by
  unfold First
  infer_instance

instance (s : Store) (l : List Addr) : Decidable (Own s l) := by
  unfold Own
  infer_instance

/-- **Nobody changes a chain in the middle**, and no chain gets 65536 bytes long. -/
def Tidy (c : Clients) : Event → Prop
  | .cat h t | .chain h t =>
    Own c.store (c.store.chain h) ∧ (c.store.pbuf h).totLen + (c.store.pbuf t).totLen < 65536
  | .dechain p => First c.store p
  | .realloc p _ => Own c.store (c.store.chain p)
  | .header p inc => First c.store p ∧ (c.store.pbuf p).totLen + inc < 65536
  | _ => True

instance (c : Clients) (e : Event) : Decidable (Tidy c e) := by
  unfold Tidy
  split <;> infer_instance

section
variable {m : Pools} {s s' : Store} {held l : List Addr} {p t : Addr} {c c' : Clients} {e : Event}
  {es : List Event} {b : Addr → Pbuf}

/-! ### Chains -/

theorem chainOf_eq : ∀ {l : List Addr} {fuel : ℕ} {o : Option Addr}, Chain s.next o l →
    l.length ≤ fuel → chainOf fuel s o = l
  | [], fuel, o, hc, _ => by
    cases o with
    | none => cases fuel <;> rfl
    | some p => cases hc
  | _ :: _, 0, _, _, hl => absurd hl (Nat.not_succ_le_zero _)
  | p :: l, fuel + 1, o, hc, hl => by
    obtain rfl := hc.1
    exact congrArg (p :: ·) (chainOf_eq hc.2 (Nat.le_of_succ_le_succ hl))

theorem Good.chain (h : Good m s held) (hp : p ∈ s.live) : Chain s.next (some p) (s.chain p) := by
  obtain ⟨l, hl⟩ := h.counted.chain p hp
  have he : s.chain p = l := chainOf_eq hl (h.counted.chain_length hp hl)
  rw [he]
  exact hl

theorem FreshRam.fresh {ram : Option Addr} (h : FreshRam m s ram) :
    ∀ p ∈ ram, p ∉ s.live ∧ ∀ k, p ∉ m.elems k := by
  intro p hp
  obtain ⟨hl, h₁, h₂⟩ := h p hp
  exact ⟨hl, fun k => by cases k <;> assumption⟩

theorem Good.held_cons (h : Good m s held) (hp : p ∈ held) : Good m s (p :: held.erase p) :=
  h.perm (List.perm_cons_erase hp)

/-! ### One step -/

theorem good_init (m : Pools) (b : Addr → Pbuf) : Good m (init m b).store (init m b).held :=
  ⟨counted_nil _ _, nofun, fun k => by rw [init, List.filter_nil, List.append_nil], nofun⟩

/-- `pbuf_cat` in a run. -/
theorem Good.cat (h : Good m c.store c.held) {hd : Addr} (hj : Joinable c hd t) :
    ∃ s', pbufCat c.store hd t = some s' ∧ Good m s' (c.held.erase t) ∧ s'.live = c.store.live ∧
      s'.ref t = c.store.ref t ∧ (c.store.Total → Own c.store (c.store.chain hd) →
        (c.store.pbuf hd).totLen + (c.store.pbuf t).totLen < 65536 → s'.Total) := by
  obtain ⟨hhd, ht, hapart⟩ := hj
  have hchain := h.chain hhd
  have htchain := h.chain (h.counted.mem t ht)
  have htl : t ∉ c.store.chain hd := by
    obtain ⟨lt, hlt, -⟩ := htchain.of_some
    exact fun hc => hapart t hc (hlt ▸ List.mem_cons_self)
  obtain ⟨s', hrun, hgood, hlive, hout, hin⟩ :=
    pbufCat_spec (h.held_cons ht) hhd hchain htchain hapart
  refine ⟨s', hrun, hgood, hlive, ?_, fun htotal hown hshort =>
    pbufCat_total h htotal hhd hchain hown htl hshort hlive hout hin⟩
  unfold Store.ref
  rw [hout t htl]

/-- **What one step keeps.** -/
theorem Good.step (h : Good m c.store c.held) (hs : step m c e = some c') :
    Good m c'.store c'.held := by
  cases e with
  | alloc layer length type ram =>
    obtain ⟨hg, hs⟩ := Option.ite_none_right_eq_some.mp hs
    obtain ⟨s', o, hrun, hall⟩ := pbufAlloc_spec h layer hg.1 type hg.2.fresh
    rw [hrun] at hs
    obtain rfl := Option.some.inj hs
    exact hall.good
  | free p =>
    obtain ⟨hp, hs⟩ := Option.ite_none_right_eq_some.mp hs
    obtain ⟨s', n, hrun, hgood, -⟩ := pbufFree_spec (h.held_cons hp) (h.chain (h.counted.mem p hp))
    rw [hrun] at hs
    obtain rfl := Option.some.inj hs
    exact hgood
  | ref p =>
    obtain ⟨hp, rfl⟩ := guard_eq_some hs
    exact h.take hp.1 hp.2
  | cat hd t =>
    obtain ⟨hj, hs⟩ := Option.ite_none_right_eq_some.mp hs
    obtain ⟨s', hrun, hgood, -⟩ := h.cat hj
    rw [hrun] at hs
    obtain rfl := Option.some.inj hs
    exact hgood
  | chain hd t =>
    obtain ⟨hj, hs⟩ := Option.ite_none_right_eq_some.mp hs
    unfold pbufChain at hs
    obtain ⟨s', hrun, hgood, hlive, href, -⟩ := h.cat hj.1
    rw [hrun] at hs
    obtain rfl := Option.some.inj hs
    have ht : t ∈ s'.live := hlive ▸ h.counted.mem t hj.1.2.1
    exact (hgood.take ht (href ▸ hj.2)).perm (List.perm_cons_erase hj.1.2.1).symm
  | dechain p =>
    obtain ⟨hp, hs⟩ := Option.ite_none_right_eq_some.mp hs
    obtain ⟨s', o, hrun, hgood, -⟩ := pbufDechain_spec h hp
    rw [hrun] at hs
    obtain rfl := Option.some.inj hs
    exact hgood
  | realloc p newLen =>
    obtain ⟨hp, hs⟩ := Option.ite_none_right_eq_some.mp hs
    obtain ⟨s', hrun, rfl⟩ := Option.map_eq_some_iff.mp hs
    exact pbufRealloc_good h hp.1 hrun
  | header p inc =>
    obtain ⟨hp, rfl⟩ := guard_eq_some hs
    exact pbufHeader_good h p inc

theorem Good.run (hr : run (PbufRefs.step m) (init m b) es = some c) : Good m c.store c.held :=
  invariant' (fun c => Good m c.store c.held) (fun _ _ _ h hs => h.step hs) (good_init m b) hr

/-- **What one step keeps of the total lengths**, if nobody changes a chain in the middle. -/
theorem Store.Total.step (ht : c.store.Total) (h : Good m c.store c.held) (hG : Tidy c e)
    (hs : step m c e = some c') : c'.store.Total := by
  cases e with
  | alloc layer length type ram =>
    obtain ⟨hg, hs⟩ := Option.ite_none_right_eq_some.mp hs
    obtain ⟨s', o, hrun, hall⟩ := pbufAlloc_spec h layer hg.1 type hg.2.fresh
    rw [hrun] at hs
    obtain rfl := Option.some.inj hs
    exact hall.total ht
  | free p =>
    obtain ⟨hp, hs⟩ := Option.ite_none_right_eq_some.mp hs
    obtain ⟨s', n, hrun, hgood, hkept, -⟩ :=
      pbufFree_spec (h.held_cons hp) (h.chain (h.counted.mem p hp))
    rw [hrun] at hs
    obtain rfl := Option.some.inj hs
    exact hkept.total hgood fun x hx => ⟨ht.sum x (hkept.live x hx), ht.short x (hkept.live x hx)⟩
  | ref p =>
    obtain ⟨hp, rfl⟩ := guard_eq_some hs
    exact (kept_ref c.store p).total (h.take hp.1 hp.2) fun x hx => ⟨ht.sum x hx, ht.short x hx⟩
  | cat hd t =>
    obtain ⟨hj, hs⟩ := Option.ite_none_right_eq_some.mp hs
    obtain ⟨s', hrun, -, -, -, htotal⟩ := h.cat hj
    rw [hrun] at hs
    obtain rfl := Option.some.inj hs
    exact htotal ht hG.1 hG.2
  | chain hd t =>
    obtain ⟨hj, hs⟩ := Option.ite_none_right_eq_some.mp hs
    unfold pbufChain at hs
    obtain ⟨s', hrun, hgood, hlive, href, htotal⟩ := h.cat hj.1
    rw [hrun] at hs
    obtain rfl := Option.some.inj hs
    have htl : t ∈ s'.live := hlive ▸ h.counted.mem t hj.1.2.1
    have ht' := htotal ht hG.1 hG.2
    exact (kept_ref s' t).total (hgood.take htl (href ▸ hj.2))
      fun x hx => ⟨ht'.sum x hx, ht'.short x hx⟩
  | dechain p =>
    obtain ⟨hp, hs⟩ := Option.ite_none_right_eq_some.mp hs
    obtain ⟨s', o, hrun, -, htotal, -⟩ := pbufDechain_spec h hp
    rw [hrun] at hs
    obtain rfl := Option.some.inj hs
    exact htotal ht hG
  | realloc p newLen =>
    obtain ⟨hp, hs⟩ := Option.ite_none_right_eq_some.mp hs
    obtain ⟨s', hrun, htotal⟩ := pbufRealloc_total h ht hp.1 (h.chain hp.1) hG newLen
    rw [hrun] at hs
    obtain rfl := Option.some.inj hs
    exact htotal
  | header p inc =>
    obtain ⟨hp, rfl⟩ := guard_eq_some hs
    exact pbufHeader_total ht hp.1 hG.1 hG.2

theorem Store.Total.run (hG : Along (PbufRefs.step m) Tidy (init m b) es)
    (hr : run (PbufRefs.step m) (init m b) es = some c) : Good m c.store c.held ∧ c.store.Total :=
  invariant (fun c => Good m c.store c.held ∧ c.store.Total)
    (fun _ _ _ h hG hs => ⟨h.1.step hs, h.2.step h.1 hG hs⟩)
    ⟨good_init m b, ⟨nofun, nofun⟩⟩ hG hr

/-! ### Results -/

theorem Good.live_iff (h : Good m s held) : p ∈ s.live ↔ ∃ x ∈ held, p ∈ s.chain x := by
  constructor
  · intro hp
    obtain ⟨x, hx, hall⟩ := h.counted.reached hp
    exact ⟨x, hx, hall _ (h.chain (h.counted.mem x hx))⟩
  · rintro ⟨x, hx, hp⟩
    have hlive := h.counted.mem x hx
    exact h.counted.chain_mem_of hlive (h.chain hlive) p hp

theorem Kept.chain_eq {hs : List Addr} (hk : Kept s s') (h : Good m s held) (h' : Good m s' hs)
    (hp : p ∈ s'.live) : s'.chain p = s.chain p := by
  have hc := h'.chain hp
  refine (chain_congr (fun x hx => ?_) hc).unique (h.chain (hk.live p hp))
  unfold Store.next
  rw [hk.pbuf x (h'.counted.chain_mem_of hp hc x hx)]

theorem Store.Total.sums (ht : s.Total) : ∀ {l : List Addr} {p : Addr}, Chain s.next (some p) l →
    (∀ x ∈ l, x ∈ s.live) → (s.pbuf p).totLen = (l.map fun q => (s.pbuf q).len).sum
  | [], _, hc, _ => nomatch hc
  | x :: l, p, hc, hmem => by
    obtain rfl := Option.some.inj hc.1
    have hp := ht.sum p (hmem p List.mem_cons_self)
    have hc' := hc.2
    unfold Store.TotalAt at hp
    rw [hp, List.map_cons, List.sum_cons]
    cases hn : s.next p with
    | none =>
      rw [hn] at hc'
      rw [hc'.of_none]
      rfl
    | some q =>
      rw [hn] at hc'
      rw [Option.elim_some, ht.sums hc' fun x hx => hmem x (List.mem_cons_of_mem _ hx)]

/-- The pools of the board. -/
def board : Pools where
  elems
    | .pbuf => List.range 10
    | .pbufPool => (List.range pbufPoolSize).map (· + 10)
  nodup k := by cases k <;> decide
  apart k k' p hp hp' := by
    have hne : ∀ p ∈ List.range 10, p ∉ (List.range pbufPoolSize).map (· + 10) := by decide
    cases k <;> cases k'
    · rfl
    · exact absurd hp' (hne p hp)
    · exact absurd hp (hne p hp')
    · rfl

/-- The memory before anything is written to it. -/
def blank : Addr → Pbuf := fun _ => ⟨none, 0, 0, 0, .ram, 0⟩

/-- A chain of three pbufs is put behind a header, and one client keeps a pointer to it. -/
def shared : List Event :=
  [.alloc .raw 1460 .pool none, .ref 10, .alloc .transport 100 .ram (some 100), .cat 100 10,
    .realloc 100 500, .header 100 20]

theorem exists_shared : ∃ c, run (step board) (init board blank) shared = some c ∧
    c.held = [100, 10] ∧ c.store.live.length = 2 := by
  have hmap : ((run (step board) (init board blank) shared).map fun c =>
      (c.held, c.store.live.length)) = some ([100, 10], 2) := by decide +kernel
  obtain ⟨c, hr, hc⟩ := Option.map_eq_some_iff.mp hmap
  obtain ⟨hheld, hlive⟩ := Prod.mk.inj hc
  exact ⟨c, hr, hheld, hlive⟩

/-- **The reference count of a pbuf is the number of the pointers to it**, those of the clients and
those in other pbufs; all of them are to allocated pbufs. -/
theorem refs_exact (hr : run (step m) (init m b) es = some c) :
    (∀ p ∈ c.store.live, 0 < c.store.ref p ∧
      c.store.ref p = c.held.count p + links c.store.next c.store.live p) ∧
    (∀ p ∈ c.held, p ∈ c.store.live) ∧
    ∀ p ∈ c.store.live, ∀ q, c.store.next p = some q → q ∈ c.store.live := by
  have h := Good.run hr
  exact ⟨fun p hp => ⟨h.counted.pos p hp, h.counted.count p hp⟩, h.counted.mem, h.counted.next_mem⟩

theorem refs_exact_shared : ∃ c, run (step board) (init board blank) shared = some c ∧
    ∀ p ∈ c.store.live, 0 < c.store.ref p ∧
      c.store.ref p = c.held.count p + links c.store.next c.store.live p := by
  obtain ⟨c, hr, -⟩ := exists_shared
  exact ⟨c, hr, (refs_exact hr).1⟩

/-- **Nothing leaks**: what is allocated is what the pointers of the clients lead to, and without
them all elements are back in their pools. -/
theorem only_reachable (hr : run (step m) (init m b) es = some c) :
    (∀ p, p ∈ c.store.live ↔ ∃ x ∈ c.held, p ∈ c.store.chain x) ∧
    (c.held = [] → ∀ k, (c.store.free k).Perm (m.elems k)) := by
  have h := Good.run hr
  refine ⟨fun p => h.live_iff, fun hnone k => ?_⟩
  have hpool := h.pool k
  have hcounted := h.counted
  rw [hnone] at hcounted
  rw [hcounted.eq_nil, List.filter_nil, List.append_nil] at hpool
  exact hpool

theorem only_reachable_shared : ∃ c,
    run (step board) (init board blank) (shared ++ [.free 10, .free 100]) = some c ∧
    (c.store.free .pbufPool).Perm (board.elems .pbufPool) := by
  have hmap : ((run (step board) (init board blank) (shared ++ [.free 10, .free 100])).map
      Clients.held) = some [] := by decide +kernel
  obtain ⟨c, hr, hheld⟩ := Option.map_eq_some_iff.mp hmap
  exact ⟨c, hr, (only_reachable hr).2 hheld .pbufPool⟩

/-- **`pbuf_free` frees exactly what no other pointer leads to**, and returns how many pbufs that
are, in 8 bits. -/
theorem free_exact (hr : run (step m) (init m b) es = some c) (hp : p ∈ c.held) :
    ∃ s' n, pbufFree c.store p = some (s', n) ∧
      (∀ q, q ∈ s'.live ↔ ∃ x ∈ c.held.erase p, q ∈ c.store.chain x) ∧
      s'.live.length ≤ c.store.live.length ∧
      n = (c.store.live.length - s'.live.length) % 256 := by
  have h := Good.run hr
  obtain ⟨s', n, hrun, hgood, hkept, -⟩ :=
    pbufFree_spec (h.held_cons hp) (h.chain (h.counted.mem p hp))
  obtain ⟨k, hlen, hn, -⟩ := pbufFree_count h.counted.nodup hrun
  refine ⟨s', n, hrun, fun q => hgood.live_iff.trans ?_, by omega, by rw [hn]; congr 1; omega⟩
  refine exists_congr fun x => and_congr_right fun hx => ?_
  rw [hkept.chain_eq h hgood (hgood.counted.mem x hx)]

theorem free_exact_shared : ∃ c, run (step board) (init board blank) shared = some c ∧
    ∃ s' n, pbufFree c.store 100 = some (s', n) ∧
      ∀ q, q ∈ s'.live ↔ ∃ x ∈ c.held.erase 100, q ∈ c.store.chain x := by
  obtain ⟨c, hr, hheld, -⟩ := exists_shared
  obtain ⟨s', n, hrun, hiff, -⟩ := free_exact (p := 100) hr (by rw [hheld]; decide)
  exact ⟨c, hr, s', n, hrun, hiff⟩

/-- **The total length of a pbuf is the sum of the lengths of its chain**, if nobody changes a chain
in the middle; then `pbuf_realloc` finds enough pbufs. -/
theorem totLen_sums (hG : Along (step m) Tidy (init m b) es)
    (hr : run (step m) (init m b) es = some c) (hp : p ∈ c.store.live) :
    (c.store.pbuf p).totLen = ((c.store.chain p).map fun q => (c.store.pbuf q).len).sum ∧
    (Own c.store (c.store.chain p) → ∀ newLen, pbufRealloc c.store p newLen ≠ none) := by
  obtain ⟨h, ht⟩ := Store.Total.run hG hr
  have hc := h.chain hp
  refine ⟨ht.sums hc (h.counted.chain_mem_of hp hc), fun hown newLen hnone => ?_⟩
  obtain ⟨s', hrun, -⟩ := pbufRealloc_total h ht hp hc hown newLen
  rw [hrun] at hnone
  cases hnone

theorem totLen_sums_shared : ∃ c, run (step board) (init board blank) shared = some c ∧
    ∃ p ∈ c.store.live,
      (c.store.pbuf p).totLen = ((c.store.chain p).map fun q => (c.store.pbuf q).len).sum := by
  obtain ⟨c, hr, hheld, -⟩ := exists_shared
  have hp : 100 ∈ c.store.live := (Good.run hr).counted.mem 100 (by rw [hheld]; decide)
  exact ⟨c, hr, 100, hp, (totLen_sums (by decide +kernel) hr hp).1⟩

/-- **`pbuf_alloc` fails for pbufs of the pool only if the pool has too few**, and then it leaves
all as it is. -/
theorem pool_null_iff (hr : run (step m) (init m b) es = some c) (layer : PbufLayer) {length : ℕ}
    (hlen : length < 65536) (ram : Option Addr) :
    ∃ s' o, pbufAlloc c.store layer length .pool ram = some (s', o) ∧
      (o = none ↔ ¬ (0 < (c.store.free .pbufPool).length ∧ length + lwipMemAlignSize layer.offset ≤
        (c.store.free .pbufPool).length * pbufPoolBufsize)) ∧
      (o = none → (∀ q, q ∈ s'.live ↔ q ∈ c.store.live) ∧
        (∀ q ∈ c.store.live, s'.pbuf q = c.store.pbuf q) ∧
        ∀ k, (s'.free k).Perm (c.store.free k)) := by
  have h := Good.run hr
  obtain ⟨s', o, hrun, hall, hnull, -⟩ := pbufAlloc_pool h layer hlen ram
  refine ⟨s', o, hrun, hnull, fun hnone => ?_⟩
  obtain ⟨hlive, hsame⟩ := hall.same hnone
  refine ⟨hlive, hsame, fun k => ?_⟩
  have hperm : s'.live.Perm c.store.live :=
    (List.perm_ext_iff_of_nodup hall.good.counted.nodup h.counted.nodup).mpr hlive
  have hfilter : (s'.live.filter fun p => (s'.pbuf p).type.memp = some k).Perm
      (c.store.live.filter fun p => (c.store.pbuf p).type.memp = some k) := by
    have he : (s'.live.filter fun p => (s'.pbuf p).type.memp = some k) =
        s'.live.filter fun p => (c.store.pbuf p).type.memp = some k :=
      List.filter_congr fun q hq => by rw [hsame q ((hlive q).mp hq)]
    rw [he]
    exact hperm.filter _
  have hpool := (hall.good.pool k).trans (h.pool k).symm
  exact (List.perm_append_right_iff _).mp ((hfilter.symm.append_left _).trans hpool)

theorem pool_null_iff_shared : ∃ c, run (step board) (init board blank) shared = some c ∧
    ∃ s' o, pbufAlloc c.store .ip 60000 .pool none = some (s', o) ∧
      (o = none → ∀ q, q ∈ s'.live ↔ q ∈ c.store.live) := by
  obtain ⟨c, hr, -⟩ := exists_shared
  obtain ⟨s', o, hrun, -, hsame⟩ := pool_null_iff hr .ip (by decide : 60000 < 65536) none
  exact ⟨c, hr, s', o, hrun, fun hnone => (hsame hnone).1⟩

/-- **The chain that `pbuf_alloc` makes of pbufs of the pool** has the lengths that `Pbuf.pbufAlloc`
computes from the number of free pbufs. -/
theorem pool_lens (hr : run (step m) (init m b) es = some c) {length : ℕ} (hlen : length < 65536)
    (ram : Option Addr) : ∃ s' o, pbufAlloc c.store .raw length .pool ram = some (s', o) ∧
      (o.map fun p => (s'.chain p).map fun q => (s'.pbuf q).len) =
        Pbuf.pbufAlloc (c.store.free .pbufPool).length length := by
  obtain ⟨s', o, hrun, hall, -, hlens⟩ := pbufAlloc_pool (Good.run hr) .raw hlen ram
  refine ⟨s', o, hrun, ?_⟩
  cases o with
  | none => exact hlens rfl [] rfl
  | some p => exact hlens rfl _ (hall.good.chain (hall.good.counted.mem p List.mem_cons_self))

theorem pool_lens_shared : ∃ c, run (step board) (init board blank) shared = some c ∧
    ∃ s' o, pbufAlloc c.store .raw 600 .pool none = some (s', o) ∧
      (o.map fun p => (s'.chain p).map fun q => (s'.pbuf q).len) =
        Pbuf.pbufAlloc (c.store.free .pbufPool).length 600 := by
  obtain ⟨c, hr, -⟩ := exists_shared
  exact ⟨c, hr, pool_lens hr (by decide) none⟩

/-- **`pbuf_dechain` returns the rest of the chain, or NULL if that is freed**, as long as fewer
than 256 pbufs are allocated, which is what `pbuf_free` can count. -/
theorem dechain_rest (hr : run (step m) (init m b) es = some c) (hp : p ∈ c.store.live)
    (hfew : c.store.live.length < 256) : ∃ s' o, pbufDechain c.store p = some (s', o) ∧
      ∀ q, o = some q ↔ c.store.next p = some q ∧ q ∈ s'.live := by
  obtain ⟨s', o, hrun, -, -, hrest⟩ := pbufDechain_spec (Good.run hr) hp
  exact ⟨s', o, hrun, hrest hfew⟩

theorem dechain_rest_shared : ∃ c, run (step board) (init board blank) shared = some c ∧
    ∃ s' o, pbufDechain c.store 100 = some (s', o) ∧
      ∀ q, o = some q ↔ c.store.next 100 = some q ∧ q ∈ s'.live := by
  obtain ⟨c, hr, hheld, hlive⟩ := exists_shared
  have hp : 100 ∈ c.store.live := (Good.run hr).counted.mem 100 (by rw [hheld]; decide)
  exact ⟨c, hr, dechain_rest hr hp (by omega)⟩

end

end Stm32TcpServer.Lwip.PbufRefs
