import Stm32TcpServer.Lwip.Etharp

/-! # The next hop (etharp.c) with the addresses of the board (dp83848.c)

A host is reached directly if `etharp_output` resolves the address of the host itself, otherwise it
is reached through the gateway. `PrefixTest` says that the choice is made by a prefix of the address
of the board; then what lies between two hosts that are reached directly is reached directly
(`PrefixTest.convex`).

`prefixTest_of_valid`: so it is with every netmask that `ip4_addr_netmask_valid` accepts, and a
gateway of the net. `prefixTest_never`: so it is with no address and no gateway if the netmask is
the `subnetMask` of the board, which is 192.168.0.1. -/

namespace Stm32TcpServer.Lwip.NextHop

open Stm32TcpServer.Lib.Prefix Stm32TcpServer.Lwip.IpAddr Stm32TcpServer.Lwip.Pbuf
open Stm32TcpServer.Lwip.Etharp

/-! ### The prefix test -/

/-- The addresses agree in the `k` most significant bits of the dotted notation. -/
def Agree (k : ℕ) (x y : IpAddrT) : Prop := SamePrefix (32 - k) (lwipHtonl x) (lwipHtonl y)

/-- A destination that `etharp_output` treats as unicast and that is not link-local. -/
structure Host (netif : Netif) (d : IpAddrT) : Prop where
  unicast : Unicast netif d
  notLinklocal : ipAddrIslinklocal d = false

/-- **The next hop is chosen by a prefix** of `k` bits. -/
def ByPrefix (netif : Netif) (m : Mem) (a : Arp) (q : Chain) (k : ℕ) : Prop :=
  ∀ d, Host netif d →
    ((etharpOutput netif m a q d).Resolves d ↔ Agree k d netif.ipAddr) ∧
      (¬ Agree k d netif.ipAddr →
        (etharpOutput netif m a q d).Resolves netif.gw ∧ Agree k netif.gw netif.ipAddr)

/-- **The next hop is chosen by a prefix.** -/
def PrefixTest (netif : Netif) (m : Mem) (a : Arp) (q : Chain) : Prop :=
  ∃ k ≤ 32, ByPrefix netif m a q k

/-- **What lies between two hosts** that are reached directly is reached directly. -/
def Convex (netif : Netif) (m : Mem) (a : Arp) (q : Chain) : Prop :=
  ∀ d₁ d d₂, Host netif d₁ → Host netif d → Host netif d₂ →
    (etharpOutput netif m a q d₁).Resolves d₁ → (etharpOutput netif m a q d₂).Resolves d₂ →
    lwipHtonl d₁ ≤ lwipHtonl d → lwipHtonl d ≤ lwipHtonl d₂ →
    (etharpOutput netif m a q d).Resolves d

section
variable {netif : Netif} {m : Mem} {a : Arp} {q : Chain}

theorem PrefixTest.convex (h : PrefixTest netif m a q) : Convex netif m a q := by
  obtain ⟨k, -, hk⟩ := h
  intro d₁ d d₂ h₁ hd h₂ hr₁ hr₂ hle₁ hle₂
  have ha₁ := (hk d₁ h₁).1.mp hr₁
  have ha₂ := (hk d₂ h₂).1.mp hr₂
  exact (hk d hd).1.mpr (ha₁.between ha₂ hle₁ hle₂)

/-! ### A netmask that is valid -/

/-- **With a valid netmask** and a gateway of the net the next hop is chosen by a prefix. -/
theorem prefixTest_of_valid (hm : m.header = true)
    (hmask : ip4AddrNetmaskValid netif.netmask = true) (hgw : Unicast netif netif.gw)
    (hnet : ipAddrNetcmp netif.gw netif.ipAddr netif.netmask = true) : PrefixTest netif m a q := by
  obtain ⟨j, hj, hprefix⟩ := (ip4AddrNetmaskValid_iff _).mp hmask
  have hagree : ∀ x, ipAddrNetcmp x netif.ipAddr netif.netmask = true ↔
      Agree (32 - j) x netif.ipAddr := by
    intro x
    rw [ipAddrNetcmp_iff, hprefix.and_eq_iff, Agree, Nat.sub_sub_self hj]
  refine ⟨32 - j, Nat.sub_le _ _, fun d hd => ?_⟩
  by_cases hdirect : ipAddrNetcmp d netif.ipAddr netif.netmask = true
  · have hr := etharpOutput_direct (a := a) (q := q) hm hd.unicast hdirect
    have had := (hagree d).mp hdirect
    exact ⟨iff_of_true hr had, fun hnot => absurd had hnot⟩
  · have had := mt (hagree d).mpr hdirect
    rw [Bool.not_eq_true] at hdirect
    have hr := etharpOutput_gw (a := a) (q := q) hm hd.unicast hdirect hd.notLinklocal hgw
    have hgwAgree := (hagree _).mp hnet
    refine ⟨iff_of_false (fun hd' => ?_) had, fun _ => ⟨hr, hgwAgree⟩⟩
    -- the gateway is in the net, the destination is not
    rw [hd'.unique hr] at had
    exact had hgwAgree

/-! ### A netmask that leaves a gap -/

/-- A host outside the net between two hosts of the net. -/
theorem not_convex {d₁ d d₂ : IpAddrT} (hm : m.header = true) (h₁ : Host netif d₁)
    (hd : Host netif d) (h₂ : Host netif d₂)
    (hin₁ : ipAddrNetcmp d₁ netif.ipAddr netif.netmask = true)
    (hin₂ : ipAddrNetcmp d₂ netif.ipAddr netif.netmask = true)
    (hout : ipAddrNetcmp d netif.ipAddr netif.netmask = false) (hgw : d ≠ netif.gw)
    (hle₁ : lwipHtonl d₁ ≤ lwipHtonl d) (hle₂ : lwipHtonl d ≤ lwipHtonl d₂) :
    ¬ Convex netif m a q := by
  intro hconv
  have hr := hconv d₁ d d₂ h₁ hd h₂ (etharpOutput_direct hm h₁.unicast hin₁)
    (etharpOutput_direct hm h₂.unicast hin₂) hle₁ hle₂
  exact hgw (eq_gw_of_outside hm hd.unicast hout hd.notLinklocal hr)

/-- Two bits that are enough for a host: 16 in the first number of the notation is in neither a
multicast nor a link-local address, 8 is in every broadcast address of such a netmask. -/
theorem host_of_bits {d : IpAddrT} (h4 : d.getLsbD 4 = true) (h3 : d.getLsbD 3 = false)
    (hmask : netif.netmask.getLsbD 3 = false) : Host netif d := by
  have hne : ∀ {x y : BitVec 32} (i : ℕ), x.getLsbD i ≠ y.getLsbD i → x ≠ y := by
    rintro x _ i hi rfl
    exact hi rfl
  refine ⟨⟨?_, ?_⟩, ?_⟩
  · have hones : ~~~d ≠ ipaddrAny := hne 3 (by rw [BitVec.getLsbD_not, h3]; decide)
    have hzero : d ≠ ipaddrAny := hne 4 (by rw [h4]; decide)
    have hsubnet : d &&& ~~~netif.netmask ≠ ipaddrBroadcast &&& ~~~netif.netmask := by
      refine hne 3 ?_
      rw [BitVec.getLsbD_and, BitVec.getLsbD_and, BitVec.getLsbD_not, h3, hmask]
      decide
    simp [ip4AddrIsbroadcast, hones, hzero, hsubnet]
  · exact decide_eq_false (hne 4 (by rw [BitVec.getLsbD_and, h4]; decide))
  · exact decide_eq_false (hne 4 (by rw [BitVec.getLsbD_and, h4]; decide))

end

/-! ### The netmask of the board -/

/-- A word with the bits of `own` under 192.168.0.0, the bit of `host_of_bits`, a bit that `gw` does
not have, and the last two bits `n`. -/
def gapWord (own gw : BitVec 32) (n : BitVec 2) : BitVec 32 :=
  ((own &&& 0xc0a80000) ||| (0x10000000 ||| (~~~gw &&& 4))) ||| n.setWidth 32

theorem toNat_gapWord (own gw : BitVec 32) (n : BitVec 2) :
    (gapWord own gw n).toNat = (gapWord own gw 0).toNat + n.toNat := by
  have hlow : gapWord own gw 0 &&& n.setWidth 32 = 0 := by
    have hmask : ∀ n : BitVec 2, 3 &&& n.setWidth 32 = n.setWidth 32 := by decide
    have hfree : gapWord own gw 0 &&& 3 = 0 := by
      simp [gapWord, BitVec.and_or_distrib_right, BitVec.and_assoc]
    rw [← hmask, ← BitVec.and_assoc, hfree]
    exact BitVec.zero_and
  have hor : gapWord own gw n = gapWord own gw 0 ||| n.setWidth 32 := by
    simp [gapWord]
  rw [hor, ← BitVec.add_eq_or_of_and_eq_zero _ _ hlow, BitVec.toNat_add_of_and_eq_zero hlow,
    BitVec.toNat_setWidth_of_le (by decide)]

theorem gapWord_and (own gw : BitVec 32) (n : BitVec 2) :
    gapWord own gw n &&& 0xc0a80001 = own &&& 0xc0a80001 ↔ n.getLsbD 0 = own.getLsbD 0 := by
  have hlast : (gapWord own gw n).getLsbD 0 = n.getLsbD 0 := by
    simp [gapWord]
  rw [and_eq_and_iff, ← hlast]
  constructor
  · intro h
    exact h 0 (by decide) (by decide)
  · intro h i hi hbit
    have hset : ∀ i < 32, (0xc0a80001 : BitVec 32).getLsbD i = true →
        i = 0 ∨ i = 19 ∨ i = 21 ∨ i = 23 ∨ i = 30 ∨ i = 31 := by
      decide
    rcases hset i hi hbit with rfl | rfl | rfl | rfl | rfl | rfl
    · exact h
    all_goals simp [gapWord]

theorem gapWord_ne (own gw : BitVec 32) (n : BitVec 2) : gapWord own gw n ≠ gw := by
  intro h
  have h2 := congrArg (fun v : BitVec 32 => v.getLsbD 2) h
  simp [gapWord] at h2

/-- **Four hosts** next to each other, none of them the gateway. -/
def gapHost (netif : Netif) (n : BitVec 2) : IpAddrT :=
  lwipHtonl (gapWord (lwipHtonl netif.ipAddr) (lwipHtonl netif.gw) n)

theorem gapHost_le (netif : Netif) {n n' : BitVec 2} (h : n ≤ n') :
    lwipHtonl (gapHost netif n) ≤ lwipHtonl (gapHost netif n') := by
  rw [gapHost, gapHost, lwipHtonl_lwipHtonl, lwipHtonl_lwipHtonl, BitVec.le_def, toNat_gapWord,
    toNat_gapWord _ _ n']
  exact Nat.add_le_add_left h _

theorem gapHost_ne (netif : Netif) (n : BitVec 2) : gapHost netif n ≠ netif.gw := by
  rw [gapHost, ← lwipHtonl_lwipHtonl netif.gw, Ne, lwipHtonl_inj, lwipHtonl_lwipHtonl]
  exact gapWord_ne _ _ n

section
variable {netif : Netif} {m : Mem} {a : Arp} {q : Chain}

theorem host_gapHost (hmask : lwipHtonl netif.netmask = 0xc0a80001) (n : BitVec 2) :
    Host netif (gapHost netif n) := by
  have hbits : netif.netmask = lwipHtonl 0xc0a80001 := by
    rw [← hmask, lwipHtonl_lwipHtonl]
  refine host_of_bits ?_ ?_ ?_
  · rw [gapHost, getLsbD_lwipHtonl _ (by decide)]
    simp [gapWord]
  · rw [gapHost, getLsbD_lwipHtonl _ (by decide)]
    simp [gapWord]
  · rw [hbits]
    decide

theorem ipAddrNetcmp_gapHost (hmask : lwipHtonl netif.netmask = 0xc0a80001) (n : BitVec 2) :
    ipAddrNetcmp (gapHost netif n) netif.ipAddr netif.netmask = true ↔
      n.getLsbD 0 = (lwipHtonl netif.ipAddr).getLsbD 0 := by
  rw [ipAddrNetcmp_iff, hmask, gapHost, lwipHtonl_lwipHtonl]
  exact gapWord_and _ _ n

/-- **With the netmask 192.168.0.1** some host between two hosts of the net is not reached directly,
whatever the address and the gateway are. -/
theorem not_convex_of_netmask (hm : m.header = true)
    (hmask : lwipHtonl netif.netmask = 0xc0a80001) : ¬ Convex netif m a q := by
  have hgap : ∀ n₁ n n₂ : BitVec 2, n₁ ≤ n → n ≤ n₂ →
      n₁.getLsbD 0 = (lwipHtonl netif.ipAddr).getLsbD 0 →
      n₂.getLsbD 0 = (lwipHtonl netif.ipAddr).getLsbD 0 →
      n.getLsbD 0 ≠ (lwipHtonl netif.ipAddr).getLsbD 0 → ¬ Convex netif m a q := by
    intro n₁ n n₂ hle₁ hle₂ hin₁ hin₂ hout
    refine not_convex hm (host_gapHost hmask n₁) (host_gapHost hmask n) (host_gapHost hmask n₂)
      ((ipAddrNetcmp_gapHost hmask n₁).mpr hin₁) ((ipAddrNetcmp_gapHost hmask n₂).mpr hin₂) ?_
      (gapHost_ne netif n) (gapHost_le netif hle₁) (gapHost_le netif hle₂)
    rw [← Bool.not_eq_true, ipAddrNetcmp_gapHost hmask n]
    exact hout
  cases hlast : (lwipHtonl netif.ipAddr).getLsbD 0 with
  | false =>
    rw [hlast] at hgap
    exact hgap 0 1 2 (by decide) (by decide) rfl rfl (by decide)
  | true =>
    rw [hlast] at hgap
    exact hgap 1 2 3 (by decide) (by decide) rfl rfl (by decide)

end

/-! ### The addresses of the board -/

/-- **With the `subnetMask` of the board** the next hop is not chosen by a prefix, and there is a
gap between hosts that are reached directly, whatever `ipAddr`, `gateway`, the table and the packet
are. -/
theorem prefixTest_never (ipAddr gateway : Fin 4 → U8) (request copy : Bool) (a : Arp) (q : Chain) :
    ¬ PrefixTest (initLwipCon { ipAddr, subnetMask := Config.init.subnetMask, gateway })
        { header := true, request, copy } a q ∧
      ¬ Convex (initLwipCon { ipAddr, subnetMask := Config.init.subnetMask, gateway })
        { header := true, request, copy } a q := by
  have hmask : lwipHtonl (ip4Addr 192 168 0 1) = 0xc0a80001 := by decide
  have hgap : ¬ Convex (initLwipCon { ipAddr, subnetMask := Config.init.subnetMask, gateway })
      { header := true, request, copy } a q := not_convex_of_netmask rfl hmask
  exact ⟨mt PrefixTest.convex hgap, hgap⟩

/-- Two hosts that are reached directly, and the one between them that is not. -/
theorem host203_through_gateway :
    (etharpOutput (initLwipCon Config.init) ⟨true, true, true⟩ Arp.init [[0x45]]
        (ip4Addr 192 168 0 202)).Resolves (ip4Addr 192 168 0 202) ∧
      (etharpOutput (initLwipCon Config.init) ⟨true, true, true⟩ Arp.init [[0x45]]
        (ip4Addr 192 168 0 204)).Resolves (ip4Addr 192 168 0 204) ∧
      (etharpOutput (initLwipCon Config.init) ⟨true, true, true⟩ Arp.init [[0x45]]
        (ip4Addr 192 168 0 203)).Resolves (ip4Addr 255 255 255 0) ∧
      ¬ PrefixTest (initLwipCon Config.init) ⟨true, true, true⟩ Arp.init [[0x45]] ∧
      ¬ Convex (initLwipCon Config.init) ⟨true, true, true⟩ Arp.init [[0x45]] := by
  have hhost : ∀ n ∈ [202, 203, 204], Host (initLwipCon Config.init) (ip4Addr 192 168 0 n) := by
    intro n hn
    simp only [List.mem_cons, List.not_mem_nil, or_false] at hn
    rcases hn with rfl | rfl | rfl
    all_goals exact ⟨⟨by decide, by decide⟩, by decide⟩
  have hout : ipAddrNetcmp (ip4Addr 192 168 0 203) (initLwipCon Config.init).ipAddr
      (initLwipCon Config.init).netmask = false := by decide
  have hgap : ¬ Convex (initLwipCon Config.init) ⟨true, true, true⟩ Arp.init [[0x45]] :=
    not_convex rfl (hhost 202 (by decide)) (hhost 203 (by decide)) (hhost 204 (by decide))
      (by decide) (by decide) hout (by decide) (by decide) (by decide)
  exact ⟨etharpOutput_direct rfl (hhost 202 (by decide)).unicast (by decide),
    etharpOutput_direct rfl (hhost 204 (by decide)).unicast (by decide),
    etharpOutput_gw rfl (hhost 203 (by decide)).unicast hout (hhost 203 (by decide)).notLinklocal
      ⟨by decide, by decide⟩,
    mt PrefixTest.convex hgap, hgap⟩

end Stm32TcpServer.Lwip.NextHop
