import Stm32TcpServer.Lwip.IpAddr
import Stm32TcpServer.Lwip.Pbuf

/-! # Sending a packet on the Ethernet (etharp.c)

`etharp_output` sends a broadcast or multicast packet directly; for any other it decides on the next
hop, the destination itself or the gateway, and looks that address up in the table of entries. If
there is no stable entry, `etharp_query` finds or makes one, asks for the Ethernet address, and
queues the packet on the entry. `etharp_find_entry` always finds an entry when it may recycle one
(`etharpFindEntry_tryHard`).

`etharpOutput_direct`, `eq_gw_of_outside`, `etharpOutput_gw`: which address is resolved for a
unicast packet, whatever is in the table. -/

namespace Stm32TcpServer.Lwip.Etharp

open Stm32TcpServer.Lwip.IpAddr Stm32TcpServer.Lwip.Pbuf

/-! ### The table -/

/-- `enum etharp_state`. -/
inductive EtharpState
  | empty
  | pending
  | stable
  | stableRerequesting
  deriving DecidableEq

/-- `state >= ETHARP_STATE_STABLE`. -/
def EtharpState.atLeastStable : EtharpState → Bool
  | .stable | .stableRerequesting => true
  | _ => false

/-- `struct eth_addr`. -/
abbrev EthAddr := Fin 6 → U8

/-- `struct etharp_entry`; `q` is the packet that waits for the address. -/
structure EtharpEntry where
  q : Option Chain
  ipaddr : IpAddrT
  ethaddr : EthAddr
  state : EtharpState
  ctime : U8

/-- `ARP_TABLE_SIZE`. -/
abbrev arpTableSize : ℕ := 10

/-- An index of `arp_table`. -/
abbrev Idx := Fin arpTableSize

/-- `arp_table`. -/
abbrev ArpTable := Idx → EtharpEntry

/-- `arp_table` and `etharp_cached_entry`. -/
structure Arp where
  arpTable : ArpTable
  etharpCachedEntry : Idx

/-- The table at the start: all zero. -/
def Arp.init : Arp where
  arpTable _ := { q := none, ipaddr := 0, ethaddr := fun _ => 0, state := .empty, ctime := 0 }
  etharpCachedEntry := 0

/-- `ETHARP_FLAG_TRY_HARD`. -/
def etharpFlagTryHard : U8 := 1
/-- `ETHARP_FLAG_FIND_ONLY`. -/
def etharpFlagFindOnly : U8 := 2

/-- `ARP_AGE_REREQUEST_USED`. -/
def arpAgeRerequestUsed : U8 := 240 - 12

/-- `err_t`, with the codes of etharp.c. -/
inductive Err
  | ok
  | mem
  | buf
  | rte
  | arg
  deriving DecidableEq

/-! ### `etharp_find_entry` -/

/-- The candidates that the sweep of `etharp_find_entry` remembers; `none` stands for
`ARP_TABLE_SIZE`. -/
structure Sweep where
  empty : Option Idx
  oldStable : Option Idx
  oldPending : Option Idx
  oldQueue : Option Idx
  ageStable : U8
  agePending : U8
  ageQueue : U8

/-- The candidates before the sweep. -/
def Sweep.init : Sweep :=
  { empty := none, oldStable := none, oldPending := none, oldQueue := none
    ageStable := 0, agePending := 0, ageQueue := 0 }

/-- A pending or stable entry `e` with the index `i`. -/
def Sweep.occupied (c : Sweep) (i : Idx) (e : EtharpEntry) : Sweep :=
  if e.state = .pending then
    if e.q.isSome then
      if c.ageQueue ≤ e.ctime then { c with oldQueue := some i, ageQueue := e.ctime } else c
    else
      if c.agePending ≤ e.ctime then { c with oldPending := some i, agePending := e.ctime } else c
  else
    if c.ageStable ≤ e.ctime then { c with oldStable := some i, ageStable := e.ctime } else c

/-- The sweep over the entries `is`: the index of the matching entry, or the candidates. -/
def sweep (t : ArpTable) (ipaddr : IpAddrT) : List Idx → Sweep → Idx ⊕ Sweep
  | [], c => .inr c
  | i :: is, c =>
    if c.empty = none ∧ (t i).state = .empty then sweep t ipaddr is { c with empty := some i }
    else if (t i).state ≠ .empty then
      if ipaddr = (t i).ipaddr then .inl i else sweep t ipaddr is (c.occupied i (t i))
    else sweep t ipaddr is c

/-- `etharp_free_entry(i)`. -/
def etharpFreeEntry (t : ArpTable) (i : Idx) : ArpTable :=
  Function.update t i { t i with q := none, state := .empty }

/-- The end of `etharp_find_entry`: the empty entry `i` gets the address. -/
def setEntry (t : ArpTable) (i : Idx) (ipaddr : IpAddrT) : ArpTable :=
  Function.update t i { t i with ipaddr := ipaddr, ctime := 0 }

/-- **`etharp_find_entry(ipaddr, flags)`**, `ipaddr` not being NULL; `none` stands for `ERR_MEM`. -/
def etharpFindEntry (t : ArpTable) (ipaddr : IpAddrT) (flags : U8) : ArpTable × Option Idx :=
  match sweep t ipaddr (List.finRange arpTableSize) Sweep.init with
  | .inl i => (t, some i)
  | .inr c =>
    if flags &&& etharpFlagFindOnly ≠ 0 ∨ c.empty = none ∧ flags &&& etharpFlagTryHard = 0 then
      (t, none)
    else
      match c.empty with
      | some i => (setEntry t i ipaddr, some i)
      | none =>
        match c.oldStable.or (c.oldPending.or c.oldQueue) with
        | some i => (setEntry (etharpFreeEntry t i) i ipaddr, some i)
        | none => (t, none)

/-! ### Sending -/

/-- Whether there is room for the Ethernet header, a pbuf for an ARP request, and a pbuf for the
copy of a packet. -/
structure Mem where
  header : Bool
  request : Bool
  copy : Bool

/-- A frame that is sent: a packet to an Ethernet address, or an ARP request for an address. -/
inductive Frame
  | ip (dest : EthAddr) (q : Chain)
  | arpRequest (ipaddr : IpAddrT)

/-- **What a call has done**: the table it leaves, its result, the frames it has sent, and the entry
of the address that is resolved for the packet. -/
structure Result where
  arp : Arp
  err : Err
  entry : Option Idx
  frames : List Frame

/-- `etharp_request(netif, ipaddr)`: its result and the frame. -/
def etharpRequest (m : Mem) (ipaddr : IpAddrT) : Err × List Frame :=
  if m.request then (.ok, [.arpRequest ipaddr]) else (.mem, [])

/-- **`etharp_query(netif, ipaddr, q)`**, `q` not being NULL. -/
def etharpQuery (netif : Netif) (m : Mem) (a : Arp) (ipaddr : IpAddrT) (q : Chain) : Result :=
  if ip4AddrIsbroadcast ipaddr netif ∨ ipAddrIsmulticast ipaddr ∨ ipaddr = ipaddrAny then
    { arp := a, err := .arg, entry := none, frames := [] }
  else
    let (t, found) := etharpFindEntry a.arpTable ipaddr etharpFlagTryHard
    match found with
    | none => { arp := { a with arpTable := t }, err := .mem, entry := none, frames := [] }
    | some i =>
      if (t i).state.atLeastStable then
        { arp := { arpTable := t, etharpCachedEntry := i }, err := .ok, entry := some i
          frames := [.ip (t i).ethaddr q] }
      else
        let request := (etharpRequest m ipaddr).2
        let t := Function.update t i { t i with state := .pending }
        if m.copy then
          { arp := { a with arpTable := Function.update t i { t i with q := some q } }, err := .ok
            entry := some i, frames := request }
        else
          { arp := { a with arpTable := t }, err := .mem, entry := some i, frames := request }

/-- **`etharp_output_to_arp_index(netif, q, arp_idx)`.** -/
def etharpOutputToArpIndex (m : Mem) (a : Arp) (q : Chain) (i : Idx) : Result :=
  let e := a.arpTable i
  if e.state = .stable ∧ arpAgeRerequestUsed ≤ e.ctime then
    let (err, request) := etharpRequest m e.ipaddr
    let e := if err = .ok then { e with state := .stableRerequesting } else e
    { arp := { a with arpTable := Function.update a.arpTable i e }, err := .ok, entry := some i
      frames := request ++ [.ip e.ethaddr q] }
  else { arp := a, err := .ok, entry := some i, frames := [.ip e.ethaddr q] }

/-- `ethbroadcast`. -/
def ethbroadcast : EthAddr := fun _ => 0xff

/-- The Ethernet address of a multicast address. -/
def mcastaddr (ipaddr : IpAddrT) : EthAddr :=
  ![0x01, 0x00, 0x5e, (ipaddr >>> 8).setWidth 8 &&& 0x7f, (ipaddr >>> 16).setWidth 8,
    (ipaddr >>> 24).setWidth 8]

/-- The entry `i` is stable and has the address `dst`. -/
def stableFor (t : ArpTable) (dst : IpAddrT) (i : Idx) : Bool :=
  (t i).state.atLeastStable && decide (dst = (t i).ipaddr)

/-- The lookup of `dst_addr` in `etharp_output`: the entry used last, the first stable entry, or
`etharp_query`. -/
def outputTo (netif : Netif) (m : Mem) (a : Arp) (q : Chain) (dst : IpAddrT) : Result :=
  if stableFor a.arpTable dst a.etharpCachedEntry then
    etharpOutputToArpIndex m a q a.etharpCachedEntry
  else
    match (List.finRange arpTableSize).find? (stableFor a.arpTable dst) with
    | some i => etharpOutputToArpIndex m { a with etharpCachedEntry := i } q i
    | none => etharpQuery netif m a dst q

/-- **`etharp_output(netif, q, ipaddr)`.** -/
def etharpOutput (netif : Netif) (m : Mem) (a : Arp) (q : Chain) (ipaddr : IpAddrT) : Result :=
  if m.header = false then { arp := a, err := .buf, entry := none, frames := [] }
  else if ip4AddrIsbroadcast ipaddr netif then
    { arp := a, err := .ok, entry := none, frames := [.ip ethbroadcast q] }
  else if ipAddrIsmulticast ipaddr then
    { arp := a, err := .ok, entry := none, frames := [.ip (mcastaddr ipaddr) q] }
  else if ¬ ipAddrNetcmp ipaddr netif.ipAddr netif.netmask ∧ ¬ ipAddrIslinklocal ipaddr then
    if netif.gw ≠ ipaddrAny then outputTo netif m a q netif.gw
    else { arp := a, err := .rte, entry := none, frames := [] }
  else outputTo netif m a q ipaddr

/-! ### The entry that is found -/

@[simp] theorem setEntry_ipaddr (t : ArpTable) (i : Idx) (ipaddr : IpAddrT) :
    (setEntry t i ipaddr i).ipaddr = ipaddr := by
  simp [setEntry]

/-- The oldest entry that may be recycled. -/
def Sweep.recycle (c : Sweep) : Option Idx := c.oldStable.or (c.oldPending.or c.oldQueue)

/-- A candidate is missing only while its age is still zero. -/
structure Sweep.Ages (c : Sweep) : Prop where
  stable : c.oldStable = none → c.ageStable = 0
  pending : c.oldPending = none → c.agePending = 0
  queue : c.oldQueue = none → c.ageQueue = 0

theorem Sweep.Ages.init : Sweep.init.Ages := ⟨fun _ => rfl, fun _ => rfl, fun _ => rfl⟩

theorem isSome_of_age {o : Option Idx} {age n : U8} (h : o = none → age = 0) (hn : ¬ age ≤ n) :
    o.isSome = true := by
  rw [Option.isSome_iff_ne_none]
  intro ho
  rw [h ho] at hn
  exact hn (Nat.zero_le n.toNat)

theorem Sweep.Ages.occupied {c : Sweep} (h : c.Ages) (i : Idx) (e : EtharpEntry) :
    (c.occupied i e).Ages := by
  unfold Sweep.occupied
  split_ifs
  · exact ⟨h.stable, h.pending, nofun⟩
  · exact h
  · exact ⟨h.stable, nofun, h.queue⟩
  · exact h
  · exact ⟨nofun, h.pending, h.queue⟩
  · exact h

/-- After an entry that is not empty there is something to recycle. -/
theorem Sweep.Ages.recycle_occupied {c : Sweep} (h : c.Ages) (i : Idx) (e : EtharpEntry) :
    (c.occupied i e).recycle.isSome = true := by
  unfold Sweep.occupied Sweep.recycle
  split_ifs with _ _ hage hage hage
  · simp
  · simp [isSome_of_age h.queue hage]
  · simp
  · simp [isSome_of_age h.pending hage]
  · simp
  · simp [isSome_of_age h.stable hage]

theorem sweep_inl {t : ArpTable} {ipaddr : IpAddrT} {is : List Idx} {c : Sweep} {i : Idx}
    (h : sweep t ipaddr is c = .inl i) : (t i).ipaddr = ipaddr := by
  induction is generalizing c with
  | nil => cases h
  | cons j is ih =>
    unfold sweep at h
    split_ifs at h with _ _ hip
    · exact ih h
    · obtain rfl := Sum.inl.inj h
      exact hip.symm
    · exact ih h
    · exact ih h

theorem sweep_inr {t : ArpTable} {ipaddr : IpAddrT} {is : List Idx} {c c' : Sweep} (hc : c.Ages)
    (hs : is ≠ [] ∨ c.empty.isSome = true ∨ c.recycle.isSome = true)
    (h : sweep t ipaddr is c = .inr c') :
    c'.empty.isSome = true ∨ c'.recycle.isSome = true := by
  induction is generalizing c with
  | nil =>
    obtain rfl := Sum.inr.inj h
    exact hs.resolve_left (fun hne => hne rfl)
  | cons i is ih =>
    unfold sweep at h
    split_ifs at h with h1 h2
    · exact ih (c := { c with empty := some i }) ⟨hc.stable, hc.pending, hc.queue⟩
        (Or.inr (Or.inl rfl)) h
    · exact ih (hc.occupied i (t i)) (Or.inr (Or.inr (hc.recycle_occupied i (t i)))) h
    · -- an empty entry that is not the first one
      refine ih hc (Or.inr (Or.inl ?_)) h
      rw [Option.isSome_iff_ne_none]
      exact fun hnone => h1 ⟨hnone, not_not.mp h2⟩

/-- **`etharp_find_entry`** finds an entry for every address if it may recycle one. -/
theorem etharpFindEntry_tryHard (t : ArpTable) (ipaddr : IpAddrT) :
    ∃ t' i, etharpFindEntry t ipaddr etharpFlagTryHard = (t', some i) ∧ (t' i).ipaddr = ipaddr := by
  have hflags : etharpFlagTryHard &&& etharpFlagFindOnly = 0 := by decide
  have htry : etharpFlagTryHard &&& etharpFlagTryHard ≠ 0 := by decide
  unfold etharpFindEntry
  cases hsweep : sweep t ipaddr (List.finRange arpTableSize) Sweep.init with
  | inl i => exact ⟨t, i, rfl, sweep_inl hsweep⟩
  | inr c =>
    have hsome := sweep_inr Sweep.Ages.init (Or.inl (by decide)) hsweep
    simp only [hflags, htry, ne_eq, not_true, and_false, or_false, if_false]
    cases hempty : c.empty with
    | some i => exact ⟨_, i, rfl, setEntry_ipaddr _ _ _⟩
    | none =>
      rw [hempty] at hsome
      obtain ⟨i, hi⟩ := Option.isSome_iff_exists.mp (hsome.resolve_left nofun)
      rw [Sweep.recycle] at hi
      simp only [hi]
      exact ⟨_, i, rfl, setEntry_ipaddr _ _ _⟩

/-! ### The address that is resolved -/

/-- **The packet of the call** is resolved to the address `x`. -/
def Result.Resolves (r : Result) (x : IpAddrT) : Prop :=
  ∃ i, r.entry = some i ∧ (r.arp.arpTable i).ipaddr = x

/-- What `etharp_output` treats as unicast. -/
def Unicast (netif : Netif) (d : IpAddrT) : Prop :=
  ip4AddrIsbroadcast d netif = false ∧ ipAddrIsmulticast d = false

theorem Unicast.ne_any {netif : Netif} {d : IpAddrT} (h : Unicast netif d) : d ≠ ipaddrAny := by
  rintro rfl
  have := h.1
  simp [ip4AddrIsbroadcast] at this

theorem Result.Resolves.unique {r : Result} {x y : IpAddrT} (hx : r.Resolves x)
    (hy : r.Resolves y) : x = y := by
  obtain ⟨i, hi, rfl⟩ := hx
  obtain ⟨j, hj, rfl⟩ := hy
  rw [hi] at hj
  rw [Option.some.inj hj]

section Sending
variable {netif : Netif} {m : Mem} {a : Arp} {q : Chain} {d dst x : IpAddrT}

theorem etharpOutputToArpIndex_resolves (m : Mem) (a : Arp) (q : Chain) (i : Idx) :
    (etharpOutputToArpIndex m a q i).Resolves (a.arpTable i).ipaddr := by
  unfold etharpOutputToArpIndex
  simp only
  split_ifs
  · refine ⟨i, rfl, ?_⟩
    simp
  · refine ⟨i, rfl, ?_⟩
    simp
  · exact ⟨i, rfl, rfl⟩

theorem etharpQuery_entry (netif : Netif) (m : Mem) (a : Arp) (dst : IpAddrT) (q : Chain) :
    (etharpQuery netif m a dst q).entry = none ∨ (etharpQuery netif m a dst q).Resolves dst := by
  obtain ⟨t, i, hfind, hip⟩ := etharpFindEntry_tryHard a.arpTable dst
  unfold etharpQuery
  rw [hfind]
  simp only
  split_ifs
  · exact Or.inl rfl
  · exact Or.inr ⟨i, rfl, hip⟩
  · refine Or.inr ⟨i, rfl, ?_⟩
    simp [hip]
  · refine Or.inr ⟨i, rfl, ?_⟩
    simp [hip]

theorem etharpQuery_resolves (hdst : Unicast netif dst) (m : Mem) (a : Arp) (q : Chain) :
    (etharpQuery netif m a dst q).Resolves dst := by
  refine (etharpQuery_entry netif m a dst q).resolve_left fun hnone => ?_
  obtain ⟨t, i, hfind, -⟩ := etharpFindEntry_tryHard a.arpTable dst
  have huni : ¬ (ip4AddrIsbroadcast dst netif = true ∨ ipAddrIsmulticast dst = true ∨
      dst = ipaddrAny) := by
    rintro (h | h | h)
    · exact Bool.false_ne_true (hdst.1.symm.trans h)
    · exact Bool.false_ne_true (hdst.2.symm.trans h)
    · exact hdst.ne_any h
  unfold etharpQuery at hnone
  rw [if_neg huni, hfind] at hnone
  simp only at hnone
  split_ifs at hnone

/-- A stable entry of the address is used, whether it was the last one or not. -/
theorem outputTo_cases (netif : Netif) (m : Mem) (a : Arp) (q : Chain) (dst : IpAddrT) :
    (outputTo netif m a q dst).Resolves dst ∨
      outputTo netif m a q dst = etharpQuery netif m a dst q := by
  have hstable : ∀ i, stableFor a.arpTable dst i = true → (a.arpTable i).ipaddr = dst := by
    intro i hi
    rw [stableFor, Bool.and_eq_true, decide_eq_true_eq] at hi
    exact hi.2.symm
  unfold outputTo
  split_ifs with hlast
  · rw [← hstable _ hlast]
    exact Or.inl (etharpOutputToArpIndex_resolves m a q _)
  · split
    · rename_i i hfind
      rw [← hstable i (List.find?_some hfind)]
      exact Or.inl (etharpOutputToArpIndex_resolves m { a with etharpCachedEntry := i } q i)
    · exact Or.inr rfl

theorem outputTo_resolves (hdst : Unicast netif dst) (m : Mem) (a : Arp) (q : Chain) :
    (outputTo netif m a q dst).Resolves dst := by
  rcases outputTo_cases netif m a q dst with h | h
  · exact h
  · rw [h]
    exact etharpQuery_resolves hdst m a q

theorem eq_of_outputTo (h : (outputTo netif m a q dst).Resolves x) : x = dst := by
  rcases outputTo_cases netif m a q dst with hr | hr
  · exact h.unique hr
  · rw [hr] at h
    rcases etharpQuery_entry netif m a dst q with hnone | hq
    · obtain ⟨i, hi, -⟩ := h
      rw [hnone] at hi
      cases hi
    · exact h.unique hq

theorem etharpOutput_unicast (hm : m.header = true) (hd : Unicast netif d) :
    etharpOutput netif m a q d =
      if ¬ ipAddrNetcmp d netif.ipAddr netif.netmask ∧ ¬ ipAddrIslinklocal d then
        if netif.gw ≠ ipaddrAny then outputTo netif m a q netif.gw
        else { arp := a, err := .rte, entry := none, frames := [] }
      else outputTo netif m a q d := by
  unfold etharpOutput
  simp only [hm, hd.1, hd.2, Bool.true_eq_false, Bool.false_eq_true, if_false]

/-- **A destination of the net** is resolved itself. -/
theorem etharpOutput_direct (hm : m.header = true) (hd : Unicast netif d)
    (hnet : ipAddrNetcmp d netif.ipAddr netif.netmask = true) :
    (etharpOutput netif m a q d).Resolves d := by
  rw [etharpOutput_unicast hm hd, if_neg fun h => h.1 hnet]
  exact outputTo_resolves hd m a q

/-- For any other one it is the gateway that is looked up. -/
theorem etharpOutput_outside (hm : m.header = true) (hd : Unicast netif d)
    (hnet : ipAddrNetcmp d netif.ipAddr netif.netmask = false) (hll : ipAddrIslinklocal d = false) :
    etharpOutput netif m a q d =
      if netif.gw ≠ ipaddrAny then outputTo netif m a q netif.gw
      else { arp := a, err := .rte, entry := none, frames := [] } := by
  rw [etharpOutput_unicast hm hd, hnet, hll]
  exact if_pos ⟨Bool.false_ne_true, Bool.false_ne_true⟩

/-- **For a destination outside the net** nothing but the gateway is resolved. -/
theorem eq_gw_of_outside (hm : m.header = true) (hd : Unicast netif d)
    (hnet : ipAddrNetcmp d netif.ipAddr netif.netmask = false)
    (hll : ipAddrIslinklocal d = false) (hx : (etharpOutput netif m a q d).Resolves x) :
    x = netif.gw := by
  rw [etharpOutput_outside hm hd hnet hll] at hx
  split_ifs at hx
  · exact eq_of_outputTo hx
  · obtain ⟨i, hi, -⟩ := hx
    cases hi

theorem etharpOutput_gw (hm : m.header = true) (hd : Unicast netif d)
    (hnet : ipAddrNetcmp d netif.ipAddr netif.netmask = false)
    (hll : ipAddrIslinklocal d = false) (hgw : Unicast netif netif.gw) :
    (etharpOutput netif m a q d).Resolves netif.gw := by
  rw [etharpOutput_outside hm hd hnet hll, if_pos hgw.ne_any]
  exact outputTo_resolves hgw m a q

end Sending

end Stm32TcpServer.Lwip.Etharp
