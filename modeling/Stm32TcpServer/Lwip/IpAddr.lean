import Mathlib.Data.Fin.VecNotation
import Mathlib.Tactic.IntervalCases
import Stm32TcpServer.Lib.Prefix

/-! # Addresses (ip_addr.h, ip_addr.c, def.c) and the interface (netif.c, dp83848.c)

An address is a word in network order: on this little-endian processor the first number of the
dotted notation is in the low byte. `lwipHtonl` puts the four bytes in the order of the notation, so
that prefixes are compared on `lwipHtonl` of the addresses.

`ip4AddrNetmaskValid_iff`: the test of `ip4_addr_netmask_valid` accepts the prefix masks. -/

namespace Stm32TcpServer.Lwip.IpAddr

open Stm32TcpServer.Lib.Prefix

/-- `u8`. -/
abbrev U8 := BitVec 8

/-- `ip_addr_t`. -/
abbrev IpAddrT := BitVec 32

/-! ### The code -/

/-- `lwip_htonl`, `PP_HTONL`. -/
def lwipHtonl (n : BitVec 32) : BitVec 32 :=
  ((n &&& 0xff) <<< 24) ||| ((n &&& 0xff00) <<< 8) ||| ((n &&& 0xff0000) >>> 8) |||
    ((n &&& 0xff000000) >>> 24)

/-- `IP4_ADDR(ipaddr, a, b, c, d)`. -/
def ip4Addr (a b c d : U8) : IpAddrT :=
  ((d.setWidth 32 &&& 0xff) <<< 24) ||| ((c.setWidth 32 &&& 0xff) <<< 16) |||
    ((b.setWidth 32 &&& 0xff) <<< 8) ||| (a.setWidth 32 &&& 0xff)

/-- `IPADDR_ANY`. -/
def ipaddrAny : IpAddrT := 0x00000000
/-- `IPADDR_BROADCAST`. -/
def ipaddrBroadcast : IpAddrT := 0xffffffff

/-- `ip_addr_netcmp(addr1, addr2, mask)`. -/
def ipAddrNetcmp (addr1 addr2 mask : IpAddrT) : Bool := addr1 &&& mask = addr2 &&& mask

/-- `ip_addr_ismulticast(addr1)`. -/
def ipAddrIsmulticast (addr1 : IpAddrT) : Bool :=
  addr1 &&& lwipHtonl 0xf0000000 = lwipHtonl 0xe0000000

/-- `ip_addr_islinklocal(addr1)`. -/
def ipAddrIslinklocal (addr1 : IpAddrT) : Bool :=
  addr1 &&& lwipHtonl 0xffff0000 = lwipHtonl 0xa9fe0000

/-- `NETIF_FLAG_UP`. -/
def netifFlagUp : U8 := 0x01
/-- `NETIF_FLAG_BROADCAST`. -/
def netifFlagBroadcast : U8 := 0x02
/-- `NETIF_FLAG_LINK_UP`. -/
def netifFlagLinkUp : U8 := 0x10
/-- `NETIF_FLAG_ETHARP`. -/
def netifFlagEtharp : U8 := 0x20

/-- **`struct netif`**, as far as the addresses go. -/
structure Netif where
  ipAddr : IpAddrT
  netmask : IpAddrT
  gw : IpAddrT
  flags : U8

/-- **`ip4_addr_isbroadcast(addr, netif)`.** -/
def ip4AddrIsbroadcast (addr : IpAddrT) (netif : Netif) : Bool :=
  if ~~~addr = ipaddrAny ∨ addr = ipaddrAny then true
  else if netif.flags &&& netifFlagBroadcast = 0 then false
  else if addr = netif.ipAddr then false
  else if ipAddrNetcmp addr netif.ipAddr netif.netmask ∧
      addr &&& ~~~netif.netmask = ipaddrBroadcast &&& ~~~netif.netmask then true
  else false

/-- The first loop of `ip4_addr_netmask_valid`, down to the first zero; `b + 1` stands for
`mask == 1 << b`, and 0 for `mask == 0`. -/
def firstZero (nm : BitVec 32) : ℕ → ℕ
  | 0 => 0
  | b + 1 => if nm &&& (1 : BitVec 32) <<< b = 0 then b + 1 else firstZero nm b

/-- Its second loop, which finds no one. -/
def noOne (nm : BitVec 32) : ℕ → Bool
  | 0 => true
  | b + 1 => if nm &&& (1 : BitVec 32) <<< b ≠ 0 then false else noOne nm b

/-- **`ip4_addr_netmask_valid(netmask)`.** -/
def ip4AddrNetmaskValid (netmask : IpAddrT) : Bool :=
  let nmHostorder := lwipHtonl netmask
  noOne nmHostorder (firstZero nmHostorder 32)

/-- The arrays `ipAddr`, `subnetMask` and `gateway`. -/
structure Config where
  ipAddr : Fin 4 → U8
  subnetMask : Fin 4 → U8
  gateway : Fin 4 → U8

/-- Their initial values. -/
def Config.init : Config where
  ipAddr := ![192, 168, 0, 200]
  subnetMask := ![192, 168, 0, 1]
  gateway := ![255, 255, 255, 0]

/-- `netif_add`, with the `init` callback `ethernetif_init`: `netif_set_addr`, then the flags of
`low_level_init`. -/
def netifAdd (ipaddr netmask gw : IpAddrT) : Netif :=
  { ipAddr := ipaddr, netmask := netmask, gw := gw
    flags := netifFlagBroadcast ||| netifFlagEtharp ||| netifFlagLinkUp }

/-- `netif_set_up`. -/
def netifSetUp (netif : Netif) : Netif := { netif with flags := netif.flags ||| netifFlagUp }

/-- **`InitLwipCon()`**: the interface `DP83848_netif`. -/
def initLwipCon (c : Config) : Netif :=
  let ipaddr := ip4Addr (c.ipAddr 0) (c.ipAddr 1) (c.ipAddr 2) (c.ipAddr 3)
  let netmask := ip4Addr (c.subnetMask 0) (c.subnetMask 1) (c.subnetMask 2) (c.subnetMask 3)
  let gw := ip4Addr (c.gateway 0) (c.gateway 1) (c.gateway 2) (c.gateway 3)
  netifSetUp (netifAdd ipaddr netmask gw)

/-! ### The order of the bytes -/

theorem getLsbD_lwipHtonl (n : BitVec 32) {i : ℕ} (hi : i < 32) :
    (lwipHtonl n).getLsbD i = n.getLsbD (24 - 8 * (i / 8) + i % 8) := by
  unfold lwipHtonl
  simp only [BitVec.getLsbD_or, BitVec.getLsbD_shiftLeft, BitVec.getLsbD_ushiftRight,
    BitVec.getLsbD_and]
  interval_cases i <;> simp

theorem lwipHtonl_and (x y : BitVec 32) : lwipHtonl (x &&& y) = lwipHtonl x &&& lwipHtonl y := by
  apply BitVec.eq_of_getLsbD_eq
  intro i hi
  rw [BitVec.getLsbD_and, getLsbD_lwipHtonl _ hi, getLsbD_lwipHtonl _ hi, getLsbD_lwipHtonl _ hi,
    BitVec.getLsbD_and]

theorem lwipHtonl_lwipHtonl (n : BitVec 32) : lwipHtonl (lwipHtonl n) = n := by
  apply BitVec.eq_of_getLsbD_eq
  intro i hi
  rw [getLsbD_lwipHtonl _ hi, getLsbD_lwipHtonl _ (by omega)]
  congr 1
  omega

theorem lwipHtonl_inj {x y : BitVec 32} : lwipHtonl x = lwipHtonl y ↔ x = y := by
  constructor
  · intro h
    rw [← lwipHtonl_lwipHtonl x, h, lwipHtonl_lwipHtonl]
  · rintro rfl
    rfl

theorem ipAddrNetcmp_iff {x y m : IpAddrT} :
    ipAddrNetcmp x y m = true ↔ lwipHtonl x &&& lwipHtonl m = lwipHtonl y &&& lwipHtonl m := by
  rw [ipAddrNetcmp, decide_eq_true_eq, ← lwipHtonl_and, ← lwipHtonl_and, lwipHtonl_inj]

/-! ### Netmasks -/

theorem and_bit_eq_zero_iff (nm : BitVec 32) {b : ℕ} (hb : b < 32) :
    nm &&& (1 : BitVec 32) <<< b = 0 ↔ nm.getLsbD b = false := by
  have hbit : ∀ i < 32, ((1 : BitVec 32) <<< b).getLsbD i = decide (i = b) := by
    intro i hi
    rw [BitVec.getLsbD_shiftLeft, show (1 : BitVec 32) = 1#32 from rfl, BitVec.getLsbD_one]
    by_cases hib : i = b
    · simp [hib, hb]
    · by_cases hlt : i < b
      · simp [hlt, hib]
      · simp [hib, show i - b ≠ 0 by omega]
  have hzero : ∀ i, (0 : BitVec 32).getLsbD i = false := fun _ => BitVec.getLsbD_zero
  constructor
  · intro h
    have h0 := congrArg (fun v : BitVec 32 => v.getLsbD b) h
    simp only [BitVec.getLsbD_and, hbit b hb, decide_true, Bool.and_true, hzero] at h0
    exact h0
  · intro h
    apply BitVec.eq_of_getLsbD_eq
    intro i hi
    rw [BitVec.getLsbD_and, hbit i hi, hzero]
    by_cases hib : i = b
    · rw [hib, h, Bool.false_and]
    · rw [decide_eq_false hib, Bool.and_false]

/-- The first loop stops behind the first zero. -/
theorem firstZero_spec (nm : BitVec 32) (b : ℕ) (hb : b ≤ 32) :
    firstZero nm b ≤ b ∧ (∀ i < b, firstZero nm b ≤ i → nm.getLsbD i = true) ∧
      ∀ r, firstZero nm b = r + 1 → nm.getLsbD r = false := by
  induction b with
  | zero => exact ⟨Nat.le_refl _, fun i hi => absurd hi (Nat.not_lt_zero i), nofun⟩
  | succ b ih =>
    have hiff := and_bit_eq_zero_iff nm (b := b) hb
    unfold firstZero
    split_ifs with h
    · refine ⟨Nat.le_refl _, fun i hi hle => absurd hi (Nat.not_lt.mpr hle), fun r hr => ?_⟩
      rw [← Nat.succ.inj hr]
      exact hiff.mp h
    · obtain ⟨hle, hones, hzero⟩ := ih (Nat.le_of_succ_le hb)
      refine ⟨Nat.le_succ_of_le hle, fun i hi hri => ?_, hzero⟩
      rcases Nat.lt_succ_iff_lt_or_eq.mp hi with hlt | rfl
      · exact hones i hlt hri
      · exact Bool.not_eq_false _ |>.mp (mt hiff.mpr h)

theorem noOne_iff (nm : BitVec 32) (b : ℕ) (hb : b ≤ 32) :
    noOne nm b = true ↔ ∀ i < b, nm.getLsbD i = false := by
  induction b with
  | zero => simp [noOne]
  | succ b ih =>
    have hiff := and_bit_eq_zero_iff nm (b := b) hb
    unfold noOne
    split_ifs with h
    · refine iff_of_false nofun fun hall => h (hiff.mpr (hall b (Nat.lt_succ_self b)))
    · rw [ih (Nat.le_of_succ_le hb)]
      refine ⟨fun hall i hi => ?_, fun hall i hi => hall i (Nat.lt_succ_of_lt hi)⟩
      rcases Nat.lt_succ_iff_lt_or_eq.mp hi with hlt | rfl
      · exact hall i hlt
      · exact hiff.mp (not_not.mp h)

/-- **`ip4_addr_netmask_valid`** accepts the prefix masks. -/
theorem ip4AddrNetmaskValid_iff (netmask : IpAddrT) :
    ip4AddrNetmaskValid netmask = true ↔ ∃ j ≤ 32, PrefixMask j (lwipHtonl netmask) := by
  obtain ⟨hle, hones, hzero⟩ := firstZero_spec (lwipHtonl netmask) 32 (Nat.le_refl _)
  unfold ip4AddrNetmaskValid
  simp only
  rw [noOne_iff _ _ hle]
  constructor
  · intro h
    refine ⟨_, hle, fun i hi => ?_⟩
    by_cases hj : firstZero (lwipHtonl netmask) 32 ≤ i
    · rw [hones i hi hj, decide_eq_true hj]
    · rw [h i (Nat.not_le.mp hj), decide_eq_false hj]
  · rintro ⟨j, -, hm⟩ i hi
    rw [hm i (Nat.lt_of_lt_of_le hi hle)]
    refine decide_eq_false fun hj => ?_
    -- the bit below the first zero would be a one of the prefix
    obtain ⟨r, hr⟩ := Nat.exists_eq_succ_of_ne_zero (Nat.ne_zero_of_lt hi)
    have hbit := hzero r hr
    rw [hm r (by omega), decide_eq_false_iff_not] at hbit
    omega

end Stm32TcpServer.Lwip.IpAddr
