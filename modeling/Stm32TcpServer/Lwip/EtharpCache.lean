import Mathlib.Algebra.BigOperators.Fin
import Mathlib.Algebra.Order.BigOperators.Group.Finset
import Stm32TcpServer.Lib.Runs
import Stm32TcpServer.Lwip.Etharp

/-! # The ARP cache (etharp.c)

Packets are sent, ARP packets arrive and the timer ticks, in any order. The table learns the
Ethernet address of a host from every ARP packet of that host if it has an entry for it or is asked
itself, and forgets it after `ARP_MAXAGE` ticks.

`TableOk` says when the table is in order. `etharpFindEntry_cases`, `Sends`, `etharpOutput_cases`
and `etharpUpdateArpEntry_cases` say what the calls do with such a table. -/

namespace Stm32TcpServer.Lwip.Etharp

open Stm32TcpServer.Lib.Runs
open Stm32TcpServer.Lwip.IpAddr Stm32TcpServer.Lwip.Pbuf

/-! ### The timer and incoming packets -/

/-- `ARP_MAXAGE`. -/
def arpMaxage : U8 := 240
/-- `ARP_MAXPENDING`. -/
def arpMaxpending : U8 := 2

/-- What `etharp_tmr` does with an entry. -/
def EtharpEntry.tick (e : EtharpEntry) : EtharpEntry :=
  if e.state = .empty then e
  else
    let e := { e with ctime := e.ctime + 1 }
    if arpMaxage ≤ e.ctime ∨ e.state = .pending ∧ arpMaxpending ≤ e.ctime then
      { e with q := none, state := .empty }
    else if e.state = .stableRerequesting then { e with state := .stable }
    else e

/-- **`etharp_tmr()`.** -/
def etharpTmr (t : ArpTable) : ArpTable := fun i => (t i).tick

/-- **`etharp_update_arp_entry(netif, ipaddr, ethaddr, flags)`**: a packet that waits for the
address is sent. -/
def etharpUpdateArpEntry (netif : Netif) (a : Arp) (ipaddr : IpAddrT) (ethaddr : EthAddr)
    (flags : U8) : Arp × Err × List Frame :=
  if ipaddr = ipaddrAny ∨ ip4AddrIsbroadcast ipaddr netif ∨ ipAddrIsmulticast ipaddr then
    (a, .arg, [])
  else
    let (t, found) := etharpFindEntry a.arpTable ipaddr flags
    match found with
    | none => ({ a with arpTable := t }, .mem, [])
    | some i =>
      let e := { t i with q := none, ethaddr := ethaddr, state := .stable, ctime := 0 }
      ({ a with arpTable := Function.update t i e }, .ok,
        (t i).q.elim [] fun p => [.ip ethaddr p])

/-- `struct etharp_hdr`, with its numbers in host order. -/
structure EtharpHdr where
  hwtype : BitVec 16
  proto : BitVec 16
  hwlen : U8
  protolen : U8
  opcode : BitVec 16
  shwaddr : EthAddr
  sipaddr : IpAddrT
  dhwaddr : EthAddr
  dipaddr : IpAddrT

/-- `SIZEOF_ETHARP_PACKET`. -/
def sizeofEtharpPacket : ℕ := 42
/-- `ARP_REQUEST`. -/
def arpRequest : BitVec 16 := 1
/-- `ARP_REPLY`. -/
def arpReply : BitVec 16 := 2

/-- What `etharp_arp_input` has done: the table, the packets it has sent, and the reply with the
Ethernet address it goes to. -/
structure Handled where
  arp : Arp
  frames : List Frame
  reply : Option (EthAddr × EtharpHdr)

/-- The packet is dropped: it is too short, or not about Ethernet and IP. -/
def malformed (len : ℕ) (hdr : EtharpHdr) : Bool :=
  decide (len < sizeofEtharpPacket) || (hdr.hwtype != 1 || hdr.hwlen != 6 || hdr.protolen != 4 ||
    hdr.proto != 0x0800)

/-- `for_us`. -/
def forUs (netif : Netif) (hdr : EtharpHdr) : Bool :=
  if netif.ipAddr = ipaddrAny then false else decide (hdr.dipaddr = netif.ipAddr)

/-- **`etharp_arp_input(netif, ethaddr, p)`**, `len` being `p->len`. -/
def etharpArpInput (netif : Netif) (ethaddr : EthAddr) (a : Arp) (len : ℕ) (hdr : EtharpHdr) :
    Handled :=
  if malformed len hdr then { arp := a, frames := [], reply := none }
  else
    let r := etharpUpdateArpEntry netif a hdr.sipaddr hdr.shwaddr
      (if forUs netif hdr then etharpFlagTryHard else etharpFlagFindOnly)
    { arp := r.1
      frames := r.2.2
      reply :=
        if hdr.opcode = arpRequest ∧ forUs netif hdr then
          some (hdr.shwaddr, { hdr with
            opcode := arpReply
            dipaddr := hdr.sipaddr
            sipaddr := netif.ipAddr
            dhwaddr := hdr.shwaddr
            shwaddr := ethaddr })
        else none }

/-! ### The host -/

/-- An ARP packet that has arrived: whose it is, the Ethernet address that it names, and the tick.
-/
structure Heard where
  ipaddr : IpAddrT
  ethaddr : EthAddr
  tick : ℕ

/-- **The cache with its history**, which is not in the memory: how often the timer has ticked, the
ARP packets that have arrived, the last one first, the packets given to `etharp_output` with their
destinations, and the frames that have been sent. -/
structure Host where
  arp : Arp
  now : ℕ
  heard : List Heard
  given : List (IpAddrT × Chain)
  sent : List Frame

/-- Which address `etharp_output` looks up, if any. -/
def nextHop (netif : Netif) (d : IpAddrT) : Option IpAddrT :=
  if ip4AddrIsbroadcast d netif ∨ ipAddrIsmulticast d then none
  else if ¬ ipAddrNetcmp d netif.ipAddr netif.netmask ∧ ¬ ipAddrIslinklocal d then
    if netif.gw ≠ ipaddrAny then some netif.gw else none
  else some d

/-- What happens: a packet is sent, an ARP packet of `len` bytes arrives, the timer ticks. -/
inductive Event
  | output (m : Mem) (q : Chain) (ipaddr : IpAddrT)
  | input (len : ℕ) (hdr : EtharpHdr)
  | tick

/-- **One step** of the host with the Ethernet address `ethaddr`. -/
def step (netif : Netif) (ethaddr : EthAddr) (h : Host) : Event → Option Host
  | .output m q ipaddr =>
    let r := etharpOutput netif m h.arp q ipaddr
    some { h with
      arp := r.arp
      given := if m.header then (ipaddr, q) :: h.given else h.given
      sent := h.sent ++ r.frames }
  | .input len hdr =>
    let r := etharpArpInput netif ethaddr h.arp len hdr
    some { h with
      arp := r.arp
      heard := if malformed len hdr then h.heard
        else ⟨hdr.sipaddr, hdr.shwaddr, h.now⟩ :: h.heard
      sent := h.sent ++ r.frames }
  | .tick =>
    some { h with arp := { h.arp with arpTable := etharpTmr h.arp.arpTable }, now := h.now + 1 }

/-- The host at the start. -/
def Host.init : Host := ⟨Arp.init, 0, [], [], []⟩

/-- The last ARP packet of `x`. -/
def Host.last (h : Host) (x : IpAddrT) : Option Heard := h.heard.find? fun r => r.ipaddr = x

section
variable {netif : Netif} {t t' : ArpTable} {i j : Idx} {e : EtharpEntry} {ipaddr : IpAddrT}
  {flags : U8}

/-! ### Entries -/

/-- **An entry** that is not too old, of a unicast address; a packet waits only for an address that
is pending. -/
structure EntryOk (netif : Netif) (e : EtharpEntry) : Prop where
  queue : e.q ≠ none → e.state = .pending
  pending : e.state = .pending → e.ctime.toNat < 2
  stable : e.state.atLeastStable = true → e.ctime.toNat < 240
  unicast : e.state ≠ .empty → Unicast netif e.ipaddr

/-- **The table**: no address has two entries. -/
structure TableOk (netif : Netif) (t : ArpTable) : Prop where
  entry : ∀ i, EntryOk netif (t i)
  distinct : ∀ i j, (t i).state ≠ .empty → (t j).state ≠ .empty →
    (t i).ipaddr = (t j).ipaddr → i = j

theorem TableOk.update (h : TableOk netif t) (he : EntryOk netif e)
    (hnew : ∀ j, j ≠ i → (t j).state ≠ .empty → (t j).ipaddr ≠ e.ipaddr) :
    TableOk netif (Function.update t i e) := by
  refine ⟨fun j => ?_, fun j k hj hk hip => ?_⟩
  · rcases eq_or_ne j i with rfl | hne
    · rw [Function.update_self]
      exact he
    · rw [Function.update_of_ne hne]
      exact h.entry j
  · rcases eq_or_ne j i with rfl | hji <;> rcases eq_or_ne k j with rfl | hkj
    · rfl
    · rw [Function.update_self, Function.update_of_ne hkj] at hip
      rw [Function.update_of_ne hkj] at hk
      exact absurd hip.symm (hnew k hkj hk)
    · rfl
    · rw [Function.update_of_ne hji] at hip hj
      rcases eq_or_ne k i with rfl | hki
      · rw [Function.update_self] at hip
        exact absurd hip (hnew j hji hj)
      · rw [Function.update_of_ne hki] at hip hk
        exact h.distinct j k hj hk hip

theorem EntryOk.tick (h : EntryOk netif e) : EntryOk netif e.tick := by
  unfold EtharpEntry.tick
  dsimp only
  split_ifs with hempty hold hre
  · exact h
  · exact ⟨fun hq => absurd rfl hq, nofun, nofun, fun hs => absurd rfl hs⟩
  all_goals
    rw [not_or, not_and, BitVec.not_le, BitVec.not_le, BitVec.lt_def, BitVec.lt_def] at hold
    have hmax : (e.ctime + 1).toNat < 240 := hold.1
    have hpend : e.state = .pending → (e.ctime + 1).toNat < 2 := hold.2
  · refine ⟨fun hq => ?_, nofun, fun _ => hmax, fun _ => h.unicast hempty⟩
    have hpending := h.queue hq
    rw [hre] at hpending
    cases hpending
  · exact ⟨h.queue, hpend, fun _ => hmax, h.unicast⟩

theorem tick_cases (h : EntryOk netif e) : e.tick.state = .empty ∨
    (e.state ≠ .empty ∧ e.tick.ipaddr = e.ipaddr ∧ e.tick.ethaddr = e.ethaddr ∧ e.tick.q = e.q ∧
      e.tick.state.atLeastStable = e.state.atLeastStable ∧
      e.tick.ctime.toNat = e.ctime.toNat + 1) := by
  have hsmall : e.state ≠ .empty → (e.ctime + 1).toNat = e.ctime.toNat + 1 := by
    intro hne
    have hlt : e.ctime.toNat < 255 := by
      have hp := h.pending
      have hst := h.stable
      cases hs : e.state with
      | empty => exact absurd hs hne
      | pending => have := hp hs; omega
      | stable => have := hst (by rw [hs]; rfl); omega
      | stableRerequesting => have := hst (by rw [hs]; rfl); omega
    have hone : (1 : U8).toNat = 1 := rfl
    rw [BitVec.toNat_add, hone]
    omega
  unfold EtharpEntry.tick
  dsimp only
  split_ifs with hempty hold hre
  · exact Or.inl hempty
  · exact Or.inl rfl
  · exact Or.inr ⟨hempty, rfl, rfl, rfl, by rw [hre]; rfl, hsmall hempty⟩
  · exact Or.inr ⟨hempty, rfl, rfl, rfl, rfl, hsmall hempty⟩

theorem TableOk.tmr (h : TableOk netif t) : TableOk netif (etharpTmr t) := by
  refine ⟨fun i => (h.entry i).tick, fun i j hi hj hip => ?_⟩
  obtain ⟨hi', hipi, -⟩ := (tick_cases (h.entry i)).resolve_left hi
  obtain ⟨hj', hipj, -⟩ := (tick_cases (h.entry j)).resolve_left hj
  refine h.distinct i j hi' hj' ?_
  rw [← hipi, ← hipj]
  exact hip

/-! ### `etharp_find_entry` -/

theorem sweep_inl_state {is : List Idx} {c : Sweep} (h : sweep t ipaddr is c = .inl i) :
    (t i).state ≠ .empty := by
  induction is generalizing c with
  | nil => cases h
  | cons j is ih =>
    unfold sweep at h
    split_ifs at h with _ hne hip
    · exact ih h
    · obtain rfl := Sum.inl.inj h
      exact hne
    · exact ih h
    · exact ih h

/-- Without a match, no entry has the address, and the empty candidate is empty. -/
theorem sweep_inr_state {is : List Idx} {c c' : Sweep} (h : sweep t ipaddr is c = .inr c')
    (hc : ∀ i, c.empty = some i → (t i).state = .empty) :
    (∀ j ∈ is, (t j).state ≠ .empty → (t j).ipaddr ≠ ipaddr) ∧
      ∀ i, c'.empty = some i → (t i).state = .empty := by
  induction is generalizing c with
  | nil =>
    obtain rfl := Sum.inr.inj h
    exact ⟨fun j hj => absurd hj List.not_mem_nil, hc⟩
  | cons k is ih =>
    unfold sweep at h
    split_ifs at h with hfirst hne hip
    · obtain ⟨h₁, h₂⟩ := ih h fun i hi => by
        obtain rfl := Option.some.inj hi
        exact hfirst.2
      refine ⟨fun j hj hs => ?_, h₂⟩
      rcases List.mem_cons.mp hj with rfl | hj
      · exact absurd hfirst.2 hs
      · exact h₁ j hj hs
    · have hsame : (c.occupied k (t k)).empty = c.empty := by
        unfold Sweep.occupied
        split_ifs <;> rfl
      obtain ⟨h₁, h₂⟩ := ih h (by rw [hsame]; exact hc)
      refine ⟨fun j hj hs => ?_, h₂⟩
      rcases List.mem_cons.mp hj with rfl | hj
      · exact fun heq => hip heq.symm
      · exact h₁ j hj hs
    · obtain ⟨h₁, h₂⟩ := ih h hc
      refine ⟨fun j hj hs => ?_, h₂⟩
      rcases List.mem_cons.mp hj with rfl | hj
      · exact absurd hs hne
      · exact h₁ j hj hs

/-- The entry `i` has been made for the address. -/
structure Made (t t' : ArpTable) (ipaddr : IpAddrT) (i : Idx) : Prop where
  new : ∀ j, (t j).state ≠ .empty → (t j).ipaddr ≠ ipaddr
  table : t' = Function.update t i
    { t i with q := none, ipaddr := ipaddr, state := .empty, ctime := 0 }

/-- **What `etharp_find_entry` finds**: the entry of the address, or, unless it may only search, a
new one. -/
theorem etharpFindEntry_cases (h : TableOk netif t) (ipaddr : IpAddrT) (flags : U8) :
    (∃ i, etharpFindEntry t ipaddr flags = (t, some i) ∧ (t i).state ≠ .empty ∧
        (t i).ipaddr = ipaddr) ∨
      (∃ i t', etharpFindEntry t ipaddr flags = (t', some i) ∧ Made t t' ipaddr i) ∨
      (etharpFindEntry t ipaddr flags = (t, none) ∧
        ∀ j, (t j).state ≠ .empty → (t j).ipaddr ≠ ipaddr) := by
  unfold etharpFindEntry
  cases hsweep : sweep t ipaddr (List.finRange arpTableSize) Sweep.init with
  | inl i => exact Or.inl ⟨i, rfl, sweep_inl_state hsweep, sweep_inl hsweep⟩
  | inr c =>
    obtain ⟨hnew, hempty⟩ := sweep_inr_state hsweep fun i hi => by cases hi
    have hnew' : ∀ j, (t j).state ≠ .empty → (t j).ipaddr ≠ ipaddr :=
      fun j => hnew j (List.mem_finRange j)
    right
    dsimp only
    split_ifs
    · exact Or.inr ⟨rfl, hnew'⟩
    · cases hc : c.empty with
      | some i =>
        have hstate := hempty i hc
        have hq : (t i).q = none := by
          by_contra hne
          have := (h.entry i).queue hne
          rw [hstate] at this
          cases this
        refine Or.inl ⟨i, _, rfl, hnew', ?_⟩
        unfold setEntry
        rw [← hstate, ← hq]
      | none =>
        dsimp only
        cases c.oldStable.or (c.oldPending.or c.oldQueue) with
        | none => exact Or.inr ⟨rfl, hnew'⟩
        | some i =>
          refine Or.inl ⟨i, _, rfl, hnew', ?_⟩
          unfold setEntry etharpFreeEntry
          rw [Function.update_idem, Function.update_self]

/-! ### Packets that wait -/

/-- How many entries the packet waits on. -/
def waiting (t : ArpTable) (p : Chain) : ℕ := ∑ i, if (t i).q = some p then 1 else 0

/-- The frame carries the packet. -/
def Frame.carries (p : Chain) : Frame → Bool
  | .ip _ q => decide (q = p)
  | .arpRequest _ => false

theorem countP_singleton_carries (dest : EthAddr) (q p : Chain) :
    [Frame.ip dest q].countP (Frame.carries p) = if q = p then 1 else 0 := by
  rw [List.countP_singleton, Frame.carries]
  simp only [decide_eq_true_eq]

theorem waiting_update (t : ArpTable) (i : Idx) (e : EtharpEntry) (p : Chain) :
    waiting (Function.update t i e) p + (if (t i).q = some p then 1 else 0) =
      waiting t p + if e.q = some p then 1 else 0 := by
  unfold waiting
  rw [← Finset.add_sum_erase _ _ (Finset.mem_univ i), Function.update_self,
    ← Finset.add_sum_erase Finset.univ (fun j => if (t j).q = some p then 1 else 0)
      (Finset.mem_univ i)]
  have hrest : ∀ j ∈ Finset.univ.erase i,
      (if (Function.update t i e j).q = some p then 1 else 0) =
        if (t j).q = some p then 1 else 0 := by
    intro j hj
    rw [Function.update_of_ne (Finset.ne_of_mem_erase hj)]
  rw [Finset.sum_congr rfl hrest]
  omega

theorem waiting_tmr (t : ArpTable) (p : Chain) : waiting (etharpTmr t) p ≤ waiting t p := by
  refine Finset.sum_le_sum fun i _ => ?_
  have hq : (etharpTmr t i).q = (t i).q ∨ (etharpTmr t i).q = none := by
    unfold etharpTmr EtharpEntry.tick
    dsimp only
    split_ifs
    · exact Or.inl rfl
    · exact Or.inr rfl
    · exact Or.inl rfl
    · exact Or.inl rfl
  rcases hq with hq | hq <;> rw [hq]
  exact Nat.zero_le _

/-! ### Sending a packet -/

/-- **What sending the packet `q` to the address `dst` does** to the table `t`. -/
structure Sends (netif : Netif) (t t' : ArpTable) (dst : IpAddrT) (q : Chain) (fs : List Frame) :
    Prop where
  ok : TableOk netif t'
  stable : ∀ i, (t' i).state.atLeastStable = true → (t i).state.atLeastStable = true ∧
    (t' i).ipaddr = (t i).ipaddr ∧ (t' i).ethaddr = (t i).ethaddr ∧ (t' i).ctime = (t i).ctime
  queued : ∀ i p, (t' i).q = some p →
    ((t i).q = some p ∧ (t' i).ipaddr = (t i).ipaddr) ∨ (p = q ∧ (t' i).ipaddr = dst)
  frames : ∀ dest p, .ip dest p ∈ fs →
    p = q ∧ ∃ i, (t i).state.atLeastStable = true ∧ (t i).ipaddr = dst ∧ (t i).ethaddr = dest
  count : ∀ p, fs.countP (Frame.carries p) + waiting t' p ≤ waiting t p + if q = p then 1 else 0

theorem etharpRequest_frames (m : Mem) (ipaddr : IpAddrT) :
    ∀ f ∈ (etharpRequest m ipaddr).2, ∃ x, f = .arpRequest x := by
  unfold etharpRequest
  split_ifs
  · intro f hf
    exact ⟨ipaddr, List.mem_singleton.mp hf⟩
  · intro f hf
    cases hf

theorem countP_requests {fs : List Frame} (h : ∀ f ∈ fs, ∃ x, f = .arpRequest x) (p : Chain) :
    fs.countP (Frame.carries p) = 0 := by
  rw [List.countP_eq_zero]
  intro f hf
  obtain ⟨x, rfl⟩ := h f hf
  exact Bool.false_ne_true

theorem no_requests : ∀ f ∈ ([] : List Frame), ∃ x, f = .arpRequest x :=
  fun _ hf => absurd hf List.not_mem_nil

theorem Sends.refused (h : TableOk netif t) (dst : IpAddrT) (q : Chain) :
    Sends netif t t dst q [] :=
  ⟨h, fun _ hs => ⟨hs, rfl, rfl, rfl⟩, fun _ _ hq => Or.inl ⟨hq, rfl⟩,
    fun _ _ hf => absurd hf List.not_mem_nil, fun p => by
      rw [List.countP_nil]
      omega⟩

theorem Sends.sent (h : TableOk netif t) (hi : (t i).state.atLeastStable = true) (q : Chain)
    {fs : List Frame} (hf : ∀ f ∈ fs, ∃ x, f = .arpRequest x) {s : EtharpState}
    (hs : s.atLeastStable = true) :
    Sends netif t (Function.update t i { t i with state := s }) (t i).ipaddr q
      (fs ++ [.ip (t i).ethaddr q]) := by
  have hne : (t i).state ≠ .empty := by
    intro hc
    rw [hc] at hi
    cases hi
  have hq : (t i).q = none := by
    by_contra hc
    rw [(h.entry i).queue hc] at hi
    cases hi
  refine ⟨h.update ⟨fun hc => absurd hq hc, fun hc => ?_, fun _ => (h.entry i).stable hi,
    fun _ => (h.entry i).unicast hne⟩ fun j hj hjs hip => hj (h.distinct j i hjs hne hip),
    fun j hj => ?_, fun j p hj => Or.inl ?_, fun dest p hmem => ?_, fun p => ?_⟩
  · dsimp only at hc
    rw [hc] at hs
    cases hs
  · rcases eq_or_ne j i with rfl | hji
    · rw [Function.update_self]
      exact ⟨hi, rfl, rfl, rfl⟩
    · rw [Function.update_of_ne hji] at hj ⊢
      exact ⟨hj, rfl, rfl, rfl⟩
  · rcases eq_or_ne j i with rfl | hji
    · rw [Function.update_self] at hj ⊢
      exact ⟨hj, rfl⟩
    · rw [Function.update_of_ne hji] at hj ⊢
      exact ⟨hj, rfl⟩
  · rcases List.mem_append.mp hmem with hm | hm
    · obtain ⟨x, hx⟩ := hf _ hm
      cases hx
    · obtain ⟨rfl, rfl⟩ := Frame.ip.inj (List.mem_singleton.mp hm)
      exact ⟨rfl, i, hi, rfl, rfl⟩
  · have hw := waiting_update t i { t i with state := s } p
    rw [List.countP_append, countP_requests hf, countP_singleton_carries]
    dsimp only at hw ⊢
    omega

/-- The packet waits on the entry `i`, or is dropped. -/
theorem Sends.waits (h : TableOk netif t) {dst : IpAddrT} {q : Chain} (hdst : Unicast netif dst)
    (hnew : ∀ j, j ≠ i → (t j).state ≠ .empty → (t j).ipaddr ≠ dst)
    {fs : List Frame} (hf : ∀ f ∈ fs, ∃ x, f = .arpRequest x)
    (hstate : e.state = .pending) (hip : e.ipaddr = dst) (htime : e.ctime.toNat < 2)
    (hq : e.q = some q ∨ e.q = none ∨ (e.q = (t i).q ∧ (t i).ipaddr = dst)) :
    Sends netif t (Function.update t i e) dst q fs := by
  refine ⟨h.update ⟨fun _ => hstate, fun _ => htime, fun hc => ?_, fun _ => by rw [hip]; exact hdst⟩
    (by rw [hip]; exact hnew), fun j hj => ?_, fun j p hj => ?_, fun dest p hmem => ?_, fun p => ?_⟩
  · rw [hstate] at hc
    cases hc
  · rcases eq_or_ne j i with rfl | hji
    · rw [Function.update_self, hstate] at hj
      cases hj
    · rw [Function.update_of_ne hji] at hj ⊢
      exact ⟨hj, rfl, rfl, rfl⟩
  · rcases eq_or_ne j i with rfl | hji
    · rw [Function.update_self] at hj ⊢
      rcases hq with hq | hq | ⟨hq, hipi⟩
      · rw [hq] at hj
        exact Or.inr ⟨(Option.some.inj hj).symm, hip⟩
      · rw [hq] at hj
        cases hj
      · exact Or.inl ⟨by rw [← hq]; exact hj, by rw [hip, hipi]⟩
    · rw [Function.update_of_ne hji] at hj ⊢
      exact Or.inl ⟨hj, rfl⟩
  · obtain ⟨x, hx⟩ := hf _ hmem
    cases hx
  · have hw := waiting_update t i e p
    rw [countP_requests hf]
    rcases hq with hq | hq | ⟨hq, -⟩ <;> rw [hq] at hw
    · simp only [Option.some.injEq] at hw
      omega
    · rw [if_neg (Option.some_ne_none p).symm] at hw
      omega
    · omega

theorem eq_pending {s : EtharpState} (hne : s ≠ .empty) (hs : ¬ s.atLeastStable = true) :
    s = .pending := by
  cases s with
  | empty => exact absurd rfl hne
  | pending => rfl
  | stable => exact absurd rfl hs
  | stableRerequesting => exact absurd rfl hs

theorem etharpQuery_sends (h : TableOk netif t) (m : Mem) (c : Idx) (dst : IpAddrT) (q : Chain) :
    Sends netif t (etharpQuery netif m ⟨t, c⟩ dst q).arp.arpTable dst q
      (etharpQuery netif m ⟨t, c⟩ dst q).frames := by
  unfold etharpQuery
  by_cases huni : ip4AddrIsbroadcast dst netif ∨ ipAddrIsmulticast dst ∨ dst = ipaddrAny
  · rw [if_pos huni]
    exact Sends.refused h dst q
  rw [if_neg huni]
  have hdst : Unicast netif dst := by
    rw [not_or, not_or, Bool.not_eq_true, Bool.not_eq_true] at huni
    exact ⟨huni.1, huni.2.1⟩
  have hreq := etharpRequest_frames m dst
  dsimp only
  rcases etharpFindEntry_cases h dst etharpFlagTryHard with
    ⟨i, hfind, hne, hip⟩ | ⟨i, t', hfind, hmade⟩ | ⟨hfind, -⟩ <;> rw [hfind] <;> dsimp only
  · have hother : ∀ j, j ≠ i → (t j).state ≠ .empty → (t j).ipaddr ≠ dst :=
      fun j hj hs heq => hj (h.distinct j i hs hne (heq.trans hip.symm))
    by_cases hstable : (t i).state.atLeastStable = true
    · rw [if_pos hstable]
      have hsent := Sends.sent h hstable q no_requests hstable
      rw [hip, Function.update_eq_self, List.nil_append] at hsent
      exact hsent
    · rw [if_neg hstable]
      have htime := (h.entry i).pending (eq_pending hne hstable)
      split_ifs
      · rw [Function.update_idem, Function.update_self]
        exact Sends.waits h hdst hother hreq rfl hip htime (Or.inl rfl)
      · exact Sends.waits h hdst hother hreq rfl hip htime (Or.inr (Or.inr ⟨rfl, hip⟩))
  · -- the entry that is made is empty and has the age zero
    have hother : ∀ j, j ≠ i → (t j).state ≠ .empty → (t j).ipaddr ≠ dst := fun j _ => hmade.new j
    have hempty : ¬ EtharpState.empty.atLeastStable = true := Bool.false_ne_true
    simp only [hmade.table, Function.update_self, Function.update_idem, if_neg hempty]
    split_ifs
    · exact Sends.waits h hdst hother hreq rfl rfl Nat.zero_lt_two (Or.inl rfl)
    · exact Sends.waits h hdst hother hreq rfl rfl Nat.zero_lt_two (Or.inr (Or.inl rfl))
  · exact Sends.refused h dst q

theorem etharpOutputToArpIndex_sends (h : TableOk netif t) (m : Mem) (c i : Idx) (q : Chain)
    (hi : (t i).state.atLeastStable = true) :
    Sends netif t (etharpOutputToArpIndex m ⟨t, c⟩ q i).arp.arpTable (t i).ipaddr q
      (etharpOutputToArpIndex m ⟨t, c⟩ q i).frames := by
  have hreq := etharpRequest_frames m (t i).ipaddr
  unfold etharpOutputToArpIndex
  dsimp only
  split_ifs
  · exact Sends.sent h hi q hreq rfl
  · have hsent := Sends.sent h hi q hreq hi
    exact hsent
  · have hsent := Sends.sent h hi q no_requests hi
    rw [Function.update_eq_self, List.nil_append] at hsent
    exact hsent

theorem outputTo_sends (h : TableOk netif t) (m : Mem) (c : Idx) (dst : IpAddrT) (q : Chain) :
    Sends netif t (outputTo netif m ⟨t, c⟩ q dst).arp.arpTable dst q
      (outputTo netif m ⟨t, c⟩ q dst).frames := by
  have hfor : ∀ i, stableFor t dst i = true →
      (t i).state.atLeastStable = true ∧ (t i).ipaddr = dst := by
    intro i hi
    rw [stableFor, Bool.and_eq_true, decide_eq_true_eq] at hi
    exact ⟨hi.1, hi.2.symm⟩
  unfold outputTo
  dsimp only
  split_ifs with hlast
  · obtain ⟨hs, rfl⟩ := hfor c hlast
    exact etharpOutputToArpIndex_sends h m c c q hs
  · split
    · rename_i i hfind
      obtain ⟨hs, rfl⟩ := hfor i (List.find?_some hfind)
      exact etharpOutputToArpIndex_sends h m i i q hs
    · exact etharpQuery_sends h m c dst q

/-- **Sending a packet**: it is refused, it goes out directly, or it is for the next hop. -/
theorem etharpOutput_cases (netif : Netif) (t : ArpTable) (m : Mem) (c : Idx) (q : Chain) (d : IpAddrT) :
    ((m.header = true → nextHop netif d = none) ∧ (etharpOutput netif m ⟨t, c⟩ q d).arp = ⟨t, c⟩ ∧
        (etharpOutput netif m ⟨t, c⟩ q d).frames = []) ∨
      (m.header = true ∧ nextHop netif d = none ∧ (etharpOutput netif m ⟨t, c⟩ q d).arp = ⟨t, c⟩ ∧
        ∃ dest, (etharpOutput netif m ⟨t, c⟩ q d).frames = [.ip dest q] ∧
          (ip4AddrIsbroadcast d netif = true ∧ dest = ethbroadcast ∨
            ipAddrIsmulticast d = true ∧ dest = mcastaddr d)) ∨
      ∃ x, m.header = true ∧ nextHop netif d = some x ∧
        etharpOutput netif m ⟨t, c⟩ q d = outputTo netif m ⟨t, c⟩ q x := by
  unfold etharpOutput
  by_cases hm : m.header = false
  · rw [if_pos hm]
    exact Or.inl ⟨fun hm' => absurd (hm.symm.trans hm') Bool.false_ne_true, rfl, rfl⟩
  rw [if_neg hm]
  have hm' : m.header = true := by rwa [Bool.not_eq_false] at hm
  by_cases hb : ip4AddrIsbroadcast d netif = true
  · rw [if_pos hb]
    exact Or.inr (Or.inl ⟨hm', if_pos (Or.inl hb), rfl, _, rfl, Or.inl ⟨hb, rfl⟩⟩)
  rw [if_neg hb]
  by_cases hmc : ipAddrIsmulticast d = true
  · rw [if_pos hmc]
    exact Or.inr (Or.inl ⟨hm', if_pos (Or.inr hmc), rfl, _, rfl, Or.inr ⟨hmc, rfl⟩⟩)
  rw [if_neg hmc]
  have hhop : nextHop netif d =
      if ¬ ipAddrNetcmp d netif.ipAddr netif.netmask ∧ ¬ ipAddrIslinklocal d then
        if netif.gw ≠ ipaddrAny then some netif.gw else none
      else some d := if_neg (not_or.mpr ⟨hb, hmc⟩)
  rw [hhop]
  split_ifs
  · exact Or.inr (Or.inr ⟨_, hm', rfl, rfl⟩)
  · exact Or.inl ⟨fun _ => rfl, rfl, rfl⟩
  · exact Or.inr (Or.inr ⟨_, hm', rfl, rfl⟩)

/-! ### Learning an address -/

/-- **The entry `i` has learned the Ethernet address** of `ipaddr`, and a packet that has waited for
it is sent. -/
structure Learned (netif : Netif) (t t' : ArpTable) (ipaddr : IpAddrT) (ethaddr : EthAddr) (i : Idx)
    (fs : List Frame) : Prop where
  table : t' = Function.update t i ⟨none, ipaddr, ethaddr, .stable, 0⟩
  unicast : Unicast netif ipaddr
  other : ∀ j, j ≠ i → (t j).state ≠ .empty → (t j).ipaddr ≠ ipaddr
  frames : (∃ p, fs = [.ip ethaddr p] ∧ (t i).q = some p ∧ (t i).ipaddr = ipaddr) ∨
    (fs = [] ∧ ∀ j p, (t j).q = some p → (t j).ipaddr ≠ ipaddr)

theorem EntryOk.ne_empty (h : EntryOk netif e) {p : Chain} (hq : e.q = some p) :
    e.state ≠ .empty := by
  have hp := h.queue (by rw [hq]; nofun)
  rw [hp]
  nofun

/-- **`etharp_update_arp_entry`** learns the address, unless there is no entry for it. -/
theorem etharpUpdateArpEntry_cases (h : TableOk netif t) (c : Idx) (ipaddr : IpAddrT)
    (ethaddr : EthAddr) (flags : U8) :
    (etharpUpdateArpEntry netif ⟨t, c⟩ ipaddr ethaddr flags).1.arpTable = t ∧
        (etharpUpdateArpEntry netif ⟨t, c⟩ ipaddr ethaddr flags).2.2 = [] ∧
        (∀ j, (t j).state ≠ .empty → (t j).ipaddr ≠ ipaddr) ∧
        (Unicast netif ipaddr → flags ≠ etharpFlagTryHard) ∨
      ∃ i, Learned netif t (etharpUpdateArpEntry netif ⟨t, c⟩ ipaddr ethaddr flags).1.arpTable
        ipaddr ethaddr i (etharpUpdateArpEntry netif ⟨t, c⟩ ipaddr ethaddr flags).2.2 := by
  unfold etharpUpdateArpEntry
  by_cases huni : ipaddr = ipaddrAny ∨ ip4AddrIsbroadcast ipaddr netif ∨ ipAddrIsmulticast ipaddr
  · rw [if_pos huni]
    have hnot : ¬ Unicast netif ipaddr := by
      rintro hu
      rcases huni with hx | hx | hx
      · exact hu.ne_any hx
      · exact Bool.false_ne_true (hu.1.symm.trans hx)
      · exact Bool.false_ne_true (hu.2.symm.trans hx)
    refine Or.inl ⟨rfl, rfl, fun j hj hip => hnot ?_, fun hu => absurd hu hnot⟩
    rw [← hip]
    exact (h.entry j).unicast hj
  rw [if_neg huni]
  have hu : Unicast netif ipaddr := by
    rw [not_or, not_or, Bool.not_eq_true, Bool.not_eq_true] at huni
    exact huni.2
  dsimp only
  rcases etharpFindEntry_cases h ipaddr flags with
    ⟨i, hfind, hne, hip⟩ | ⟨i, t', hfind, hmade⟩ | ⟨hfind, hnone⟩ <;> rw [hfind] <;> dsimp only
  · refine Or.inr ⟨i, by rw [hip], hu, fun j hj hs heq => ?_, ?_⟩
    · exact hj (h.distinct j i hs hne (heq.trans hip.symm))
    cases hq : (t i).q with
    | some p => exact Or.inl ⟨p, rfl, rfl, hip⟩
    | none =>
      refine Or.inr ⟨rfl, fun j p hj heq => ?_⟩
      obtain rfl := h.distinct j i ((h.entry j).ne_empty hj) hne (heq.trans hip.symm)
      rw [hq] at hj
      cases hj
  · refine Or.inr ⟨i, ?_, hu, fun j _ => hmade.new j, Or.inr ⟨?_, fun j p hj =>
      hmade.new j ((h.entry j).ne_empty hj)⟩⟩
    · simp only [hmade.table, Function.update_self, Function.update_idem]
    · rw [hmade.table, Function.update_self]
      rfl
  · refine Or.inl ⟨rfl, rfl, hnone, fun _ htry => ?_⟩
    obtain ⟨t', i, hfound, -⟩ := etharpFindEntry_tryHard t ipaddr
    rw [htry, hfound] at hfind
    cases hfind

end

end Stm32TcpServer.Lwip.Etharp
