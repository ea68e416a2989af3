import Stm32TcpServer.Lwip.EtharpCache

/-! # The ARP cache over time (etharp.c)

A host sends packets, ARP packets arrive and the timer ticks, in any order.

* `table_kept`: no address has two entries, only a pending entry has a packet that waits, and no
  entry is too old.
* `sent_where_heard`: a packet goes to the Ethernet address that the last ARP packet of its next hop
  has named, less than `ARP_MAXAGE` ticks ago.
* `sent_once`: no packet is sent more often than it has been given to `etharp_output`, also if it
  waits meanwhile.
* `sent_when_resolved`: a packet that waits is sent when an ARP packet of its next hop arrives, and
  the next packet for that host right away. -/

namespace Stm32TcpServer.Lwip.Etharp

open Stm32TcpServer.Lib.Runs
open Stm32TcpServer.Lwip.IpAddr Stm32TcpServer.Lwip.Pbuf

section
variable {netif : Netif}

/-! ### The invariant -/

/-- **What the table has to do with the history**: a stable entry has the Ethernet address of the
last ARP packet, which came `ctime` ticks ago; what waits has been given and not been sent. -/
structure Inv (netif : Netif) (h : Host) : Prop where
  table : TableOk netif h.arp.arpTable
  fresh : ∀ i, (h.arp.arpTable i).state.atLeastStable = true →
    ∃ r, h.last (h.arp.arpTable i).ipaddr = some r ∧ r.ethaddr = (h.arp.arpTable i).ethaddr ∧
      h.now = r.tick + (h.arp.arpTable i).ctime.toNat
  queued : ∀ i p, (h.arp.arpTable i).q = some p →
    ∃ d, (d, p) ∈ h.given ∧ nextHop netif d = some (h.arp.arpTable i).ipaddr
  count : ∀ p, h.sent.countP (Frame.carries p) + waiting h.arp.arpTable p ≤
    h.given.countP fun g => g.2 = p

theorem Inv.init (netif : Netif) : Inv netif Host.init :=
  ⟨⟨fun _ => ⟨fun hq => absurd rfl hq, nofun, nofun, fun hs => absurd rfl hs⟩,
    fun _ _ hs => absurd rfl hs⟩, nofun, nofun, fun p => by
      have hw : waiting Host.init.arp.arpTable p = 0 := Finset.sum_eq_zero fun i _ => rfl
      rw [hw]
      exact Nat.zero_le _⟩

/-- A packet to the destination `d` belongs on a frame to `dest`. -/
def RightAddress (netif : Netif) (h : Host) (d : IpAddrT) (dest : EthAddr) : Prop :=
  (∃ x r, nextHop netif d = some x ∧ h.last x = some r ∧ r.ethaddr = dest ∧ h.now < r.tick + 240) ∨
    (ip4AddrIsbroadcast d netif = true ∧ dest = ethbroadcast) ∨
    (ipAddrIsmulticast d = true ∧ dest = mcastaddr d)

/-- What one step keeps and sends. -/
def Keeps (netif : Netif) (h h' : Host) : Prop :=
  Inv netif h' ∧ ∃ fs, h'.sent = h.sent ++ fs ∧
    ∀ dest p, .ip dest p ∈ fs → ∃ d, (d, p) ∈ h'.given ∧ RightAddress netif h' d dest

theorem countP_given (g : List (IpAddrT × Chain)) (d : IpAddrT) (q p : Chain) :
    ((d, q) :: g).countP (fun g => g.2 = p) =
      g.countP (fun g => g.2 = p) + if q = p then 1 else 0 := by
  rw [List.countP_cons]
  simp only [decide_eq_true_eq]

section
variable {h h' : Host} {d x : IpAddrT} {q : Chain} {m : Mem} {ethaddr : EthAddr} {fs : List Frame}
  {a : Arp}

theorem Inv.sends (hi : Inv netif h) (hhop : nextHop netif d = some x)
    (hsend : Sends netif h.arp.arpTable a.arpTable x q fs) :
    Keeps netif h { h with arp := a, given := (d, q) :: h.given, sent := h.sent ++ fs } := by
  refine ⟨⟨hsend.ok, fun i hs => ?_, fun i p hq => ?_, fun p => ?_⟩, fs, rfl, fun dest p hf => ?_⟩
  · obtain ⟨hs', hip, heth, htime⟩ := hsend.stable i hs
    dsimp only
    rw [hip, heth, htime]
    exact hi.fresh i hs'
  · rcases hsend.queued i p hq with ⟨hq', hip⟩ | ⟨rfl, hip⟩
    · obtain ⟨d', hd, hhop'⟩ := hi.queued i p hq'
      exact ⟨d', List.mem_cons_of_mem _ hd, by rw [hhop', hip]⟩
    · exact ⟨d, List.mem_cons_self, by rw [hhop, hip]⟩
  · have hold := hi.count p
    have hnew := hsend.count p
    dsimp only
    rw [List.countP_append, countP_given]
    omega
  · obtain ⟨rfl, i, hs, hip, heth⟩ := hsend.frames dest p hf
    obtain ⟨r, hlast, hr, hnow⟩ := hi.fresh i hs
    have hage := (hi.table.entry i).stable hs
    refine ⟨d, List.mem_cons_self, Or.inl ⟨x, r, hhop, by rw [← hip]; exact hlast, by rw [hr, heth],
      ?_⟩⟩
    dsimp only
    omega

theorem Inv.direct (hi : Inv netif h) (g : List (IpAddrT × Chain))
    (hsub : ∀ e, e ∈ h.given → e ∈ g)
    (hg : ∀ p, fs.countP (Frame.carries p) + h.given.countP (fun e => e.2 = p) ≤
      g.countP fun e => e.2 = p)
    (hfs : ∀ dest p, .ip dest p ∈ fs → ∃ d, (d, p) ∈ g ∧ RightAddress netif h d dest) :
    Keeps netif h { h with given := g, sent := h.sent ++ fs } := by
  refine ⟨⟨hi.table, hi.fresh, fun i p hq => ?_, fun p => ?_⟩, fs, rfl, hfs⟩
  · obtain ⟨d, hd, hhop⟩ := hi.queued i p hq
    exact ⟨d, hsub _ hd, hhop⟩
  · have hold := hi.count p
    have hnew := hg p
    dsimp only
    rw [List.countP_append]
    omega

theorem Inv.output (hi : Inv netif h) (hs : step netif ethaddr h (.output m q d) = some h') :
    Keeps netif h h' := by
  obtain rfl := Option.some.inj hs
  rcases etharpOutput_cases netif h.arp.arpTable m h.arp.etharpCachedEntry q d with
    ⟨-, harp, hfs⟩ | ⟨hm, -, harp, dest, hfs, hdest⟩ | ⟨x, hm, hhop, hout⟩
  · rw [harp, hfs]
    refine hi.direct _ (fun e he => ?_) (fun p => ?_) fun _ _ hf => absurd hf List.not_mem_nil
    · split_ifs
      · exact List.mem_cons_of_mem _ he
      · exact he
    · rw [List.countP_nil, Nat.zero_add]
      split_ifs
      · rw [countP_given]
        exact Nat.le_add_right _ _
      · exact Nat.le_refl _
  · rw [harp, hfs, if_pos hm]
    refine hi.direct _ (fun e he => List.mem_cons_of_mem _ he) (fun p => ?_) fun dest' p hf => ?_
    · rw [countP_given, countP_singleton_carries]
      omega
    · obtain ⟨rfl, rfl⟩ := Frame.ip.inj (List.mem_singleton.mp hf)
      exact ⟨d, List.mem_cons_self, Or.inr hdest⟩
  · rw [hout, if_pos hm]
    exact hi.sends hhop (outputTo_sends hi.table m h.arp.etharpCachedEntry x q)

theorem Inv.tick (hi : Inv netif h) (hs : step netif ethaddr h .tick = some h') :
    Keeps netif h h' := by
  obtain rfl := Option.some.inj hs
  refine ⟨⟨hi.table.tmr, fun i hst => ?_, fun i p hq => ?_, fun p => ?_⟩, [],
    (List.append_nil _).symm, fun _ _ hf => absurd hf List.not_mem_nil⟩
  · rcases tick_cases (hi.table.entry i) with hempty | ⟨-, hip, heth, -, hsame, htime⟩
    · dsimp only at hst
      unfold etharpTmr at hst
      rw [hempty] at hst
      cases hst
    · dsimp only at hst ⊢
      unfold etharpTmr at hst ⊢
      rw [hsame] at hst
      rw [hip, heth, htime]
      obtain ⟨r, hlast, hr, hnow⟩ := hi.fresh i hst
      exact ⟨r, hlast, hr, by omega⟩
  · have hne := (hi.table.tmr.entry i).ne_empty hq
    obtain ⟨-, hip, -, hsame, -⟩ := (tick_cases (hi.table.entry i)).resolve_left hne
    dsimp only at hq ⊢
    unfold etharpTmr at hq ⊢
    rw [hsame] at hq
    rw [hip]
    exact hi.queued i p hq
  · exact (Nat.add_le_add_left (waiting_tmr _ p) _).trans (hi.count p)

theorem Inv.ignored (hi : Inv netif h) (r : Heard)
    (hnone : ∀ j, (h.arp.arpTable j).state ≠ .empty → (h.arp.arpTable j).ipaddr ≠ r.ipaddr)
    (ha : a.arpTable = h.arp.arpTable) :
    Keeps netif h { h with arp := a, heard := r :: h.heard, sent := h.sent ++ [] } := by
  refine ⟨⟨by rw [ha]; exact hi.table, fun i hs => ?_, by rw [ha]; exact hi.queued, fun p => ?_⟩,
    [], rfl, fun _ _ hf => absurd hf List.not_mem_nil⟩
  · dsimp only at hs ⊢
    rw [ha] at hs ⊢
    have hne : (h.arp.arpTable i).state ≠ .empty := by
      intro hc
      rw [hc] at hs
      cases hs
    have hother := hnone i hne
    unfold Host.last
    rw [List.find?_cons_of_neg (by simp only [decide_eq_true_eq]; exact hother.symm)]
    exact hi.fresh i hs
  · dsimp only
    rw [ha, List.append_nil]
    exact hi.count p

theorem Inv.learned (hi : Inv netif h) {i : Idx}
    (hl : Learned netif h.arp.arpTable a.arpTable x ethaddr i fs) :
    Keeps netif h
      { h with arp := a, heard := ⟨x, ethaddr, h.now⟩ :: h.heard, sent := h.sent ++ fs } := by
  have hlast : ∀ y, y ≠ x → ∀ n : List Heard,
      (⟨x, ethaddr, h.now⟩ :: n).find? (fun r => r.ipaddr = y) = n.find? fun r => r.ipaddr = y :=
    fun y hy n => List.find?_cons_of_neg (by simp only [decide_eq_true_eq]; exact hy.symm)
  have hself : ∀ n : List Heard, (⟨x, ethaddr, h.now⟩ :: n).find? (fun r => r.ipaddr = x) =
      some ⟨x, ethaddr, h.now⟩ := fun n => List.find?_cons_of_pos (by simp)
  refine ⟨⟨?_, fun j hs => ?_, fun j p hq => ?_, fun p => ?_⟩, fs, rfl, fun dest p hf => ?_⟩
  · dsimp only
    rw [hl.table]
    exact hi.table.update ⟨fun hq => absurd rfl hq, nofun, fun _ => (by decide : (0 : ℕ) < 240),
      fun _ => hl.unicast⟩ hl.other
  · dsimp only at hs ⊢
    unfold Host.last
    rw [hl.table] at hs ⊢
    rcases eq_or_ne j i with rfl | hji
    · rw [Function.update_self]
      exact ⟨_, hself _, rfl, rfl⟩
    · rw [Function.update_of_ne hji] at hs ⊢
      have hne : (h.arp.arpTable j).state ≠ .empty := by
        intro hc
        rw [hc] at hs
        cases hs
      rw [hlast _ (hl.other j hji hne)]
      exact hi.fresh j hs
  · dsimp only at hq ⊢
    rw [hl.table] at hq ⊢
    rcases eq_or_ne j i with rfl | hji
    · rw [Function.update_self] at hq
      cases hq
    · rw [Function.update_of_ne hji] at hq ⊢
      exact hi.queued j p hq
  · have hold := hi.count p
    have hw := waiting_update h.arp.arpTable i ⟨none, x, ethaddr, .stable, 0⟩ p
    dsimp only at hw ⊢
    rw [hl.table, List.countP_append]
    have hnone : (if (none : Option Chain) = some p then 1 else 0) = 0 := if_neg nofun
    rw [hnone] at hw
    rcases hl.frames with ⟨p', rfl, hq, -⟩ | ⟨rfl, -⟩
    · rw [hq] at hw
      simp only [Option.some.injEq] at hw
      rw [countP_singleton_carries]
      omega
    · rw [List.countP_nil]
      omega
  · rcases hl.frames with ⟨p', rfl, hq, hip⟩ | ⟨rfl, -⟩
    · obtain ⟨rfl, rfl⟩ := Frame.ip.inj (List.mem_singleton.mp hf)
      obtain ⟨d, hd, hhop⟩ := hi.queued i p hq
      rw [hip] at hhop
      exact ⟨d, hd, Or.inl ⟨x, _, hhop, hself _, rfl, Nat.lt_add_of_pos_right (by decide)⟩⟩
    · exact absurd hf List.not_mem_nil

theorem Inv.input (hi : Inv netif h) {len : ℕ} {hdr : EtharpHdr}
    (hs : step netif ethaddr h (.input len hdr) = some h') : Keeps netif h h' := by
  obtain rfl := Option.some.inj hs
  unfold etharpArpInput
  by_cases hbad : malformed len hdr = true
  · simp only [if_pos hbad]
    exact hi.direct _ (fun _ he => he) (fun p => by rw [List.countP_nil, Nat.zero_add])
      fun _ _ hf => absurd hf List.not_mem_nil
  · simp only [if_neg hbad]
    generalize (if forUs netif hdr then etharpFlagTryHard else etharpFlagFindOnly) = flags
    rcases etharpUpdateArpEntry_cases hi.table h.arp.etharpCachedEntry hdr.sipaddr
      hdr.shwaddr flags with ⟨ha, hfs, hnone, -⟩ | ⟨i, hl⟩
    · have hfs' : (etharpUpdateArpEntry netif h.arp hdr.sipaddr hdr.shwaddr flags).2.2 = [] := hfs
      rw [hfs']
      exact hi.ignored _ hnone ha
    · exact hi.learned hl

end

/-! ### Every run -/

/-- **What one step keeps**, and where its frames go. -/
theorem Inv.step {h h' : Host} (hi : Inv netif h) {ethaddr : EthAddr} {ev : Event}
    (hs : step netif ethaddr h ev = some h') : Keeps netif h h' := by
  cases ev with
  | output m q d => exact hi.output hs
  | input len hdr => exact hi.input hs
  | tick => exact hi.tick hs

theorem Inv.run {h h' : Host} (hi : Inv netif h) {ethaddr : EthAddr} {es : List Event}
    (hr : run (Etharp.step netif ethaddr) h es = some h') : Inv netif h' :=
  invariant' (Inv netif) (fun _ _ _ hi hs => (hi.step hs).1) hi hr

end

/-- An interface with the address 192.168.0.10 and the gateway 192.168.0.1. -/
def lan : Netif :=
  initLwipCon
    { ipAddr := ![192, 168, 0, 10]
      subnetMask := ![255, 255, 255, 0]
      gateway := ![192, 168, 0, 1] }

/-- The Ethernet address of the gateway. -/
def gwMac : EthAddr := ![0x02, 0, 0, 0, 0, 1]

/-- The answer of the gateway. -/
def gwReply : EtharpHdr :=
  { hwtype := 1, proto := 0x0800, hwlen := 6, protolen := 4, opcode := arpReply, shwaddr := gwMac
    sipaddr := ip4Addr 192 168 0 1, dhwaddr := fun _ => 2, dipaddr := ip4Addr 192 168 0 10 }

/-- A packet for a host outside the net, and a tick. -/
def asked : List Event := [.output ⟨true, true, true⟩ [[0x45]] (ip4Addr 10 0 0 5), .tick]

theorem exists_asked : ∃ h h', run (step lan fun _ => 2) Host.init asked = some h ∧
    step lan (fun _ => 2) h (.input 42 gwReply) = some h' ∧
    h.sent = [.arpRequest (ip4Addr 192 168 0 1)] ∧ (h.arp.arpTable 0).q = some [[0x45]] ∧
    (h.arp.arpTable 0).ipaddr = ip4Addr 192 168 0 1 ∧
    h'.sent = [.arpRequest (ip4Addr 192 168 0 1), .ip gwMac [[0x45]]] :=
  ⟨_, _, rfl, rfl, rfl, rfl, rfl, rfl⟩

/-- **The table stays in order** in every run: no address has two entries, only a pending entry has
a packet that waits, and no entry is too old. -/
theorem table_kept (netif : Netif) (ethaddr : EthAddr) {es : List Event} {h : Host}
    (hr : run (step netif ethaddr) Host.init es = some h) : TableOk netif h.arp.arpTable :=
  ((Inv.init netif).run hr).table

theorem table_kept_asked : ∃ h, run (step lan fun _ => 2) Host.init asked = some h ∧
    TableOk lan h.arp.arpTable := by
  obtain ⟨h, -, hr, -⟩ := exists_asked
  exact ⟨h, hr, table_kept lan _ hr⟩

/-- **A packet is sent to where its next hop has last been heard**, at any time. -/
theorem sent_where_heard (netif : Netif) (ethaddr : EthAddr) {es : List Event} {ev : Event}
    {h h' : Host} (hr : run (step netif ethaddr) Host.init es = some h)
    (hs : step netif ethaddr h ev = some h') :
    ∃ fs, h'.sent = h.sent ++ fs ∧ ∀ dest p, .ip dest p ∈ fs →
      ∃ d, (d, p) ∈ h'.given ∧ RightAddress netif h' d dest :=
  (((Inv.init netif).run hr).step hs).2

theorem sent_where_heard_asked : ∃ h h', run (step lan fun _ => 2) Host.init asked = some h ∧
    step lan (fun _ => 2) h (.input 42 gwReply) = some h' ∧
    ∃ fs, h'.sent = h.sent ++ fs ∧ ∀ dest p, .ip dest p ∈ fs →
      ∃ d, (d, p) ∈ h'.given ∧ RightAddress lan h' d dest := by
  obtain ⟨h, h', hr, hs, -⟩ := exists_asked
  exact ⟨h, h', hr, hs, sent_where_heard lan _ hr hs⟩

/-- **No packet is sent more often than it has been given** to `etharp_output`. -/
theorem sent_once (netif : Netif) (ethaddr : EthAddr) {es : List Event} {h : Host}
    (hr : run (step netif ethaddr) Host.init es = some h) (p : Chain) :
    h.sent.countP (Frame.carries p) + waiting h.arp.arpTable p ≤
      h.given.countP fun g => g.2 = p :=
  ((Inv.init netif).run hr).count p

theorem sent_once_asked : ∃ h, run (step lan fun _ => 2) Host.init asked = some h ∧
    h.sent.countP (Frame.carries [[0x45]]) + waiting h.arp.arpTable [[0x45]] ≤
      h.given.countP fun g => g.2 = [[0x45]] := by
  obtain ⟨h, -, hr, -⟩ := exists_asked
  exact ⟨h, hr, sent_once lan _ hr [[0x45]]⟩

/-- A stable entry that is new is used without a request. -/
theorem outputTo_new {netif : Netif} {t : ArpTable} {i : Idx} (h : TableOk netif t) (m : Mem)
    (c : Idx) (q : Chain) (hs : (t i).state = .stable) (ht : (t i).ctime = 0) :
    (outputTo netif m ⟨t, c⟩ q (t i).ipaddr).frames = [.ip (t i).ethaddr q] := by
  have hst : (t i).state.atLeastStable = true := by rw [hs]; rfl
  have hne : (t i).state ≠ .empty := by rw [hs]; nofun
  have honly : ∀ j, stableFor t (t i).ipaddr j = true → j = i := by
    intro j hj
    rw [stableFor, Bool.and_eq_true, decide_eq_true_eq] at hj
    refine h.distinct j i (fun hc => ?_) hne hj.2.symm
    rw [hc] at hj
    cases hj.1
  have hself : stableFor t (t i).ipaddr i = true := by
    rw [stableFor, Bool.and_eq_true, decide_eq_true_eq]
    exact ⟨hst, rfl⟩
  have hindex : ∀ c, (etharpOutputToArpIndex m ⟨t, c⟩ q i).frames = [.ip (t i).ethaddr q] := by
    intro c
    have hyoung : ¬ ((t i).state = .stable ∧ arpAgeRerequestUsed ≤ (t i).ctime) := by
      rw [ht]
      exact fun hc => absurd hc.2 (by decide)
    unfold etharpOutputToArpIndex
    rw [if_neg hyoung]
  unfold outputTo
  dsimp only
  split_ifs with hlast
  · obtain rfl := honly c hlast
    exact hindex c
  · split
    · rename_i j hfind
      obtain rfl := honly j (List.find?_some hfind)
      exact hindex j
    · rename_i hnone
      exact absurd hself (List.find?_eq_none.mp hnone i (List.mem_finRange i))

/-- **A packet that waits is sent when its next hop is heard**, if the ARP packet is for this host
or the next hop has an entry; and from then on a packet for that next hop goes out at once. -/
theorem sent_when_resolved (netif : Netif) (ethaddr : EthAddr) {es : List Event} {len : ℕ}
    {hdr : EtharpHdr} {h h' : Host} (hr : run (step netif ethaddr) Host.init es = some h)
    (hs : step netif ethaddr h (.input len hdr) = some h') (hok : malformed len hdr = false)
    (huni : Unicast netif hdr.sipaddr)
    (hknown : forUs netif hdr = true ∨
      ∃ i, (h.arp.arpTable i).state ≠ .empty ∧ (h.arp.arpTable i).ipaddr = hdr.sipaddr) :
    (∀ i p, (h.arp.arpTable i).q = some p → (h.arp.arpTable i).ipaddr = hdr.sipaddr →
        h'.sent = h.sent ++ [.ip hdr.shwaddr p]) ∧
      ∀ m q d h'', m.header = true → nextHop netif d = some hdr.sipaddr →
        step netif ethaddr h' (.output m q d) = some h'' →
        h''.sent = h'.sent ++ [.ip hdr.shwaddr q] := by
  have hi := (Inv.init netif).run hr
  have hi' := (hi.input hs).1
  obtain rfl := Option.some.inj hs
  obtain ⟨i, hl⟩ : ∃ i, Learned netif h.arp.arpTable
      (etharpArpInput netif ethaddr h.arp len hdr).arp.arpTable hdr.sipaddr hdr.shwaddr i
      (etharpArpInput netif ethaddr h.arp len hdr).frames := by
    unfold etharpArpInput
    rw [if_neg (by rw [hok]; exact Bool.false_ne_true)]
    rcases etharpUpdateArpEntry_cases hi.table h.arp.etharpCachedEntry hdr.sipaddr
      hdr.shwaddr (if forUs netif hdr then etharpFlagTryHard else etharpFlagFindOnly) with
      ⟨-, -, hnone, hflags⟩ | hl
    · rcases hknown with hfor | ⟨j, hj, hip⟩
      · exact absurd (if_pos hfor) (hflags huni)
      · exact absurd hip (hnone j hj)
    · exact hl
  refine ⟨fun j p hq hip => ?_, fun m q d h'' hm hhop hs' => ?_⟩
  · rcases hl.frames with ⟨p', hfs, hq', -⟩ | ⟨-, hnone⟩
    · obtain rfl : j = i := by
        by_contra hne
        exact hl.other j hne ((hi.table.entry j).ne_empty hq) hip
      rw [hq] at hq'
      rw [hfs, Option.some.inj hq']
    · exact absurd hip (hnone j p hq)
  · obtain rfl := Option.some.inj hs'
    generalize (etharpArpInput netif ethaddr h.arp len hdr).arp = a at hi' hl ⊢
    have hentry : a.arpTable i = ⟨none, hdr.sipaddr, hdr.shwaddr, .stable, 0⟩ := by
      rw [hl.table, Function.update_self]
    have hnew := outputTo_new (i := i) hi'.table m a.etharpCachedEntry q
      (by dsimp only; rw [hentry]) (by dsimp only; rw [hentry])
    dsimp only at hnew ⊢
    rw [hentry] at hnew
    rcases etharpOutput_cases netif a.arpTable m a.etharpCachedEntry q d with
      ⟨hnone, -⟩ | ⟨-, hnone, -⟩ | ⟨x, -, hhop', hout⟩
    · rw [hnone hm] at hhop
      cases hhop
    · rw [hnone] at hhop
      cases hhop
    · rw [hhop] at hhop'
      obtain rfl := Option.some.inj hhop'
      rw [← hnew, ← hout]

theorem sent_when_resolved_asked : ∃ h h', run (step lan fun _ => 2) Host.init asked = some h ∧
    step lan (fun _ => 2) h (.input 42 gwReply) = some h' ∧
    h'.sent = h.sent ++ [.ip gwMac [[0x45]]] ∧
    ∀ h'', step lan (fun _ => 2) h' (.output ⟨true, true, true⟩ [[0x46]] (ip4Addr 10 0 0 6)) =
        some h'' →
      h''.sent = h'.sent ++ [.ip gwMac [[0x46]]] := by
  obtain ⟨h, h', hr, hs, -, hq, hip, -⟩ := exists_asked
  obtain ⟨hwait, hnext⟩ := sent_when_resolved lan _ hr hs (by decide) ⟨by decide, by decide⟩
    (Or.inl (by decide))
  exact ⟨h, h', hr, hs, hwait 0 _ hq hip, fun h'' => hnext _ _ _ h'' rfl (by decide)⟩

end Stm32TcpServer.Lwip.Etharp
