import Stm32TcpServer.Lwip.TcpOutOps

/-! # What `tcp_write` does to the queues

`tcp_write` puts the first bytes behind the last unsent segment, in its spare room and in one new pbuf
(`Inv.extend`), and the others into new segments (`newSegments_spec`, `Inv.append`). Either all the
bytes are accepted, and are then the end of the stream, or nothing changes but a flag
(`tcpWrite_spec`). -/

namespace Stm32TcpServer.Lwip.TcpOut

open Stm32TcpServer.Lib.SeqNo Stm32TcpServer.Lib.Window
open Stm32TcpServer.Lwip.Pbuf

section
variable {iss : U32} {l s m a : ℕ} {pcb pcb' : Pcb} {seg u v : TcpSeg} {segs : List TcpSeg}
  {d arg : List UInt8}

/-! ### New segments -/

/-- **A row of segments** of at most `m` bytes and one pbuf each, which hold the bytes `d` of the
stream, from the position `a` on. -/
structure Row (iss : U32) (m a : ℕ) (d : List UInt8) (segs : List TcpSeg) : Prop where
  placed : ∀ seg ∈ segs, Placed iss m (a + d.length) seg ∧ a ≤ seg.pos
  sorted : segs.Pairwise Before
  data : ∀ seg ∈ segs, seg.p.flatten = window d (seg.pos - a) seg.len
  cover : ∀ x, a ≤ x → x < a + d.length → ∃ seg ∈ segs, seg.pos ≤ x ∧ x < seg.stop
  single : clen segs = segs.length

theorem Row.nil (iss : U32) (m a : ℕ) : Row iss m a [] [] where
  placed seg hseg := by cases hseg
  sorted := List.Pairwise.nil
  data seg hseg := by cases hseg
  cover x hx hx' := by
    rw [List.length_nil] at hx'
    omega
  single := rfl

theorem Row.cons (hseqno : seg.seqno = seq iss (1 + a)) (hpos : seg.pos = a) (hlen : 0 < seg.len)
    (hm : seg.len ≤ m) (hd : seg.len ≤ d.length) (hp : seg.p = [d.take seg.len])
    (h : Row iss m (a + seg.len) (d.drop seg.len) segs) : Row iss m a d (seg :: segs) := by
  have hend : a + seg.len + (d.drop seg.len).length = a + d.length := by
    rw [List.length_drop]
    omega
  have hflat : seg.p.flatten = d.take seg.len := by
    rw [hp]
    simp
  refine ⟨?_, List.pairwise_cons.mpr ⟨fun t ht => ?_, h.sorted⟩, ?_, ?_, ?_⟩
  · intro t ht
    rcases List.mem_cons.mp ht with rfl | ht
    · refine ⟨⟨by rw [hpos]; exact hseqno, ?_, hlen, hm, ?_⟩, hpos.ge⟩
      · rw [hflat, List.length_take]
        omega
      · unfold TcpSeg.stop
        omega
    · obtain ⟨hpl, hle⟩ := h.placed t ht
      rw [hend] at hpl
      exact ⟨hpl, by omega⟩
  · have hle := (h.placed t ht).2
    unfold Before TcpSeg.stop
    omega
  · intro t ht
    rcases List.mem_cons.mp ht with rfl | ht
    · rw [hflat, hpos, Nat.sub_self, window_zero_left]
    · have hle := (h.placed t ht).2
      have hsplit : seg.len + (t.pos - (a + seg.len)) = t.pos - a := by omega
      rw [h.data t ht, window, window, List.drop_drop, hsplit]
  · intro x hx hx'
    rcases Nat.lt_or_ge x (a + seg.len) with hlt | hge
    · refine ⟨seg, List.mem_cons_self, by omega, ?_⟩
      unfold TcpSeg.stop
      omega
    · obtain ⟨t, ht, hin⟩ := h.cover x hge (by omega)
      exact ⟨t, List.mem_cons_of_mem _ ht, hin⟩
  · have hsingle := h.single
    have hone : seg.p.length = 1 := by
      rw [hp]
      rfl
    unfold clen at hsingle ⊢
    rw [List.map_cons, List.sum_cons, hsingle, hone, List.length_cons]
    omega

theorem tcpPbufPrealloc_le (pcb : Pcb) (length maxLength : ℕ) (firstSeg : Bool) :
    tcpPbufPrealloc pcb length maxLength firstSeg ≤ maxLength - length := by
  unfold tcpPbufPrealloc
  dsimp only
  split_ifs
  · exact Nat.sub_le_sub_right (min_le_left _ _) _
  · omega

/-- **The loop of phase 3** makes a row. -/
theorem newSegments_spec (hlbb : pcb.sndLbb = seq iss (1 + pcb.written.length)) {room pos o o' : ℕ}
    {firstSeg : Bool} (h : newSegments pcb room arg pos o firstSeg = some (segs, o')) :
    Row iss pcb.mssLocal (pcb.written.length + pos) arg segs ∧ segs.length ≤ room ∧
      (segs = [] → o' = o) ∧
      ∀ v, segs.getLast? = some v → o' ≤ v.left ∧ v.len + o' ≤ pcb.mssLocal := by
  induction room generalizing arg pos o o' firstSeg segs with
  | zero =>
    cases arg with
    | nil =>
      obtain ⟨rfl, rfl⟩ := Prod.mk.inj (Option.some.inj h)
      exact ⟨Row.nil _ _ _, Nat.le_refl _, fun _ => rfl, fun v hv => by cases hv⟩
    | cons b arg => cases h
  | succ room ih =>
    cases arg with
    | nil =>
      obtain ⟨rfl, rfl⟩ := Prod.mk.inj (Option.some.inj h)
      exact ⟨Row.nil _ _ _, Nat.zero_le _, fun _ => rfl, fun v hv => by cases hv⟩
    | cons b arg =>
      rw [newSegments, Option.map_eq_some_iff] at h
      obtain ⟨⟨queue, o₁⟩, hrest, heq⟩ := h
      rw [Prod.mk.injEq] at heq
      obtain ⟨rfl, rfl⟩ := heq
      rw [← List.length_cons (a := b)] at hrest ⊢
      generalize hd : b :: arg = d at hrest ⊢
      have hne : 0 < d.length := by
        rw [← hd]
        exact Nat.succ_pos _
      obtain ⟨hrow, hlen, hnil, hlast⟩ := ih hrest
      have hk : min d.length pcb.mssLocal ≤ d.length := min_le_left _ _
      have hm : min d.length pcb.mssLocal ≤ pcb.mssLocal := min_le_right _ _
      -- a window that allows no byte in a segment: the loop does not come to an end
      have hpos : 0 < min d.length pcb.mssLocal := by
        by_contra h0
        obtain ⟨t, ht, -⟩ := hrow.cover (pcb.written.length + (pos + min d.length pcb.mssLocal))
          le_rfl (by rw [List.length_drop]; omega)
        have hp := (hrow.placed t ht).1
        have := hp.pos.trans_le hp.le
        omega
      have hover := tcpPbufPrealloc_le pcb (min d.length pcb.mssLocal) pcb.mssLocal firstSeg
      generalize min d.length pcb.mssLocal = k at *
      dsimp only
      refine ⟨Row.cons ?_ rfl hpos hm hk rfl ?_, by rw [List.length_cons]; omega,
        fun hc => absurd hc (List.cons_ne_nil _ _), fun v hv => ?_⟩
      · rw [hlbb, seq_add_nat]
        push_cast
        rw [add_assoc]
      · rw [add_assoc]
        exact hrow
      · cases queue with
        | nil =>
          rw [List.getLast?_singleton] at hv
          obtain rfl := Option.some.inj hv
          rw [hnil rfl]
          dsimp only
          omega
        | cons t queue =>
          rw [List.getLast?_cons_cons] at hv
          exact hlast v hv

/-! ### The last segment grows -/

theorem appendLast_spec {p : Chain} (hp : p ≠ []) (d : List UInt8) :
    (appendLast p d).flatten = p.flatten ++ d ∧ (appendLast p d).length = p.length := by
  induction p with
  | nil => exact absurd rfl hp
  | cons q p ih =>
    cases p with
    | nil => simp [appendLast]
    | cons q' p =>
      obtain ⟨h₁, h₂⟩ := ih (List.cons_ne_nil _ _)
      rw [appendLast, List.flatten_cons, h₁, List.length_cons, h₂]
      simp

/-- What phases 1 and 2 may do with the last unsent segment `v`, for `k` bytes. -/
structure Fits (m k : ℕ) (v : TcpSeg) (x : Extension) : Prop where
  used : x.used ≤ v.left
  some : x.used + x.seglen ≤ k
  room : v.len + x.used + x.seglen + x.oversize ≤ m
  left : x.seglen = 0 → x.oversize + x.used ≤ v.left

theorem extension_spec (h : Inv iss l s pcb) (hv : pcb.unsent.getLast? = some v) (k : ℕ) :
    Fits pcb.mssLocal k v (pcb.extension k) := by
  obtain ⟨hleft, hlocal⟩ := h.oversize v hv
  have hm := h.mssLocal_le
  unfold tcpMss at hm
  unfold Pcb.extension
  rw [hv]
  dsimp only
  have hused : min pcb.unsentOversize k ≤ pcb.unsentOversize := min_le_left _ _
  have hk : min pcb.unsentOversize k ≤ k := min_le_right _ _
  have hall : min pcb.unsentOversize k < k → min pcb.unsentOversize k = pcb.unsentOversize := by
    omega
  generalize min pcb.unsentOversize k = used at *
  have hspace : ((pcb.mssLocal + 65536 - v.len) % 65536 + 65536 - used) % 65536 =
      pcb.mssLocal - v.len - used := by omega
  rw [hspace]
  generalize hw : pcb.mssLocal - v.len - used = space
  split_ifs with hc
  · have hover := tcpPbufPrealloc_le pcb (min space (k - used)) space true
    have hs : min space (k - used) ≤ space := min_le_left _ _
    have hs' : min space (k - used) ≤ k - used := min_le_right _ _
    have hpos : 0 < min space (k - used) := by omega
    generalize min space (k - used) = seglen at *
    exact ⟨by dsimp only; omega, by dsimp only; omega, by dsimp only; omega,
      fun h0 => by dsimp only at h0; omega⟩
  · exact ⟨by dsimp only; omega, by dsimp only; omega, by dsimp only; omega,
      fun _ => by dsimp only; omega⟩

/-- The segment afterwards. -/
structure Extended (v v' : TcpSeg) (arg : List UInt8) (x : Extension) : Prop where
  seqno : v'.seqno = v.seqno
  pos : v'.pos = v.pos
  len : v'.len = v.len + (x.used + x.seglen)
  data : v'.p.flatten = v.p.flatten ++ arg.take (x.used + x.seglen)
  count : v'.p.length = v.p.length + if 0 < x.seglen then 1 else 0
  left : x.oversize ≤ v'.left

theorem extend_spec {x : Extension} (hx : Fits m arg.length v x) (hm : m ≤ tcpMss)
    (hp : v.p ≠ []) : Extended v (v.extend arg x) arg x := by
  obtain ⟨hused, hsome, hroom, hleft⟩ := hx
  unfold tcpMss at hm
  obtain ⟨hflat, hcount⟩ := appendLast_spec hp (arg.take x.used)
  -- the spare room of the last pbuf
  have h₁ : ∃ v₁, v₁ = (if 0 < x.used then
        { v with
          p := appendLast v.p (arg.take x.used)
          len := (v.len + x.used) % 65536
          left := v.left - x.used }
        else v) ∧ v₁.seqno = v.seqno ∧ v₁.pos = v.pos ∧ v₁.len = v.len + x.used ∧
      v₁.p.flatten = v.p.flatten ++ arg.take x.used ∧ v₁.p.length = v.p.length ∧
      v₁.left = v.left - x.used := by
    refine ⟨_, rfl, ?_⟩
    split_ifs with h0
    · exact ⟨rfl, rfl, by dsimp only; omega, hflat, hcount, rfl⟩
    · have hzero : x.used = 0 := by omega
      rw [hzero]
      simp
  obtain ⟨v₁, hv₁, hseqno, hpos, hlen, hdata, hlength, hspare⟩ := h₁
  unfold TcpSeg.extend
  rw [← hv₁]
  dsimp only
  split_ifs with h0
  · refine ⟨hseqno, hpos, by dsimp only; omega, ?_, by simp [hlength, h0], le_rfl⟩
    dsimp only
    rw [List.flatten_append, hdata, List.flatten_singleton, List.append_assoc, window,
      ← List.take_add]
  · have hzero : x.seglen = 0 := by omega
    have hl := hleft hzero
    refine ⟨hseqno, hpos, by omega, ?_, ?_, by omega⟩
    · rw [hdata, hzero, Nat.add_zero]
    · rw [hlength, if_neg h0, Nat.add_zero]

/-! ### The stream grows -/

/-- What a step that accepts the bytes `d` does besides to the queues. -/
structure Grown (pcb pcb' : Pcb) (d : List UInt8) : Prop where
  lastack : pcb'.lastack = pcb.lastack
  sndNxt : pcb'.sndNxt = pcb.sndNxt
  sndLbb : pcb'.sndLbb = pcb.sndLbb + BitVec.ofNat 32 d.length
  sndBuf : pcb'.sndBuf + d.length = pcb.sndBuf
  mss : pcb'.mss = pcb.mss
  sndWndMax : pcb'.sndWndMax = pcb.sndWndMax
  unacked : pcb'.unacked = pcb.unacked
  written : pcb'.written = pcb.written ++ d

theorem Grown.mssLocal (h : Grown pcb pcb' d) : pcb'.mssLocal = pcb.mssLocal := by
  unfold Pcb.mssLocal
  rw [h.mss, h.sndWndMax]

theorem Grown.length (h : Grown pcb pcb' d) :
    pcb'.written.length = pcb.written.length + d.length := by
  rw [h.written, List.length_append]

/-- What is unsent comes behind what is unacknowledged. -/
def Pcb.Sorted (pcb : Pcb) : Prop := ∀ u ∈ pcb.unacked, ∀ v ∈ pcb.unsent, Before u v

/-- **The rule for steps that accept data.** -/
theorem Inv.grow (h : Inv iss l s pcb) (hg : Grown pcb pcb' d) (hsorted : pcb'.Sorted)
    (hplaced : ∀ v ∈ pcb'.unsent,
      Placed iss pcb.mssLocal (pcb.written.length + d.length) v ∧ l < v.stop)
    (hunsent : pcb'.unsent.Pairwise Before) (hlen : pcb'.sndQueuelen = clen pcb'.queued)
    (hshort : pcb'.sndQueuelen ≤ tcpSndQueuelen)
    (hover : ∀ v, pcb'.unsent.getLast? = some v →
      pcb'.unsentOversize ≤ v.left ∧ v.len + pcb'.unsentOversize ≤ pcb.mssLocal) :
    Inv iss l s pcb' where
  lastack := hg.lastack.trans h.lastack
  sndNxt := hg.sndNxt.trans h.sndNxt
  sndLbb := by
    rw [hg.sndLbb, h.sndLbb, hg.length, seq_add_nat]
    push_cast
    rw [add_assoc]
  acked_le := h.acked_le
  sent_le := by
    have := h.sent_le
    rw [hg.length]
    omega
  sndBuf := by
    have := h.sndBuf
    have := hg.sndBuf
    rw [hg.length]
    omega
  mss := hg.mss.trans_le h.mss
  placed seg hseg := by
    rw [hg.mssLocal, hg.length]
    rcases List.mem_append.mp hseg with hm | hm
    · rw [hg.unacked] at hm
      obtain ⟨hp, hl⟩ := h.placed seg (Inv.mem_unacked hm)
      exact ⟨hp.mono le_rfl (Nat.le_add_right _ _), hl⟩
    · exact hplaced seg hm
  unacked := by
    rw [hg.unacked]
    exact h.unacked
  unsent := hunsent
  apart u hu v hv := Or.inl (hsorted u hu v hv)
  sent u hu := h.sent u (by rwa [hg.unacked] at hu)
  queuelen := hlen
  short := hshort
  oversize := by
    rw [hg.mssLocal]
    exact hover

/-- What the segments held, they hold of the longer stream. -/
theorem Grown.window (hg : Grown pcb pcb' d) {p n : ℕ} (h : p + n ≤ pcb.written.length) :
    window pcb'.written p n = window pcb.written p n := by
  rw [hg.written, window_append_left d h]

theorem Inv.stop_last (h : Inv iss l s pcb) (hh : Holds l pcb) (hs : pcb.Sorted)
    (hv : pcb.unsent.getLast? = some v) : v.stop = pcb.written.length := by
  have hmem := List.mem_of_getLast? hv
  obtain ⟨hp, hl⟩ := h.placed v (Inv.mem_unsent hmem)
  have hstop := hp.stop
  have hnear := h.near (Inv.mem_unsent hmem)
  by_contra hne
  -- otherwise the last byte of the stream is in no segment
  obtain ⟨t, ht, hlo, hhi⟩ := hh.cover (pcb.written.length - 1) (by omega) (by omega)
  have hbefore : t = v ∨ Before t v := by
    rcases List.mem_append.mp ht with hm | hm
    · exact Or.inr (hs t hm v hmem)
    · exact before_getLast h.unsent hv hm
  rcases hbefore with rfl | hbefore
  · omega
  · have : t.stop ≤ v.pos := hbefore
    omega

/-- The result of accepting data. -/
structure Accepts (iss : U32) (l s : ℕ) (pcb pcb' : Pcb) : Prop where
  inv : Inv iss l s pcb'
  sorted : pcb'.Sorted
  holds : Holds l pcb → Holds l pcb'

/-- The segments that were there hold what they held; the new bytes are in segments too. -/
theorem Holds.grow (h : Inv iss l s pcb) (hh : Holds l pcb) (hg : Grown pcb pcb' d)
    (hdata : ∀ t ∈ pcb'.queued,
      t ∈ pcb.queued ∨ t.p.flatten = window pcb'.written t.pos t.len)
    (hstays : ∀ t ∈ pcb.queued, ∃ t' ∈ pcb'.queued, t'.pos ≤ t.pos ∧ t.stop ≤ t'.stop)
    (hnew : ∀ y, pcb.written.length ≤ y → y < pcb.written.length + d.length →
      ∃ t ∈ pcb'.queued, t.pos ≤ y ∧ y < t.stop) : Holds l pcb' := by
  refine ⟨fun t ht => ?_, fun y hy hy' => ?_⟩
  · rcases hdata t ht with hm | hw
    · rw [hh.data t hm, hg.window (h.placed t hm).1.stop]
    · exact hw
  · rw [hg.length] at hy'
    rcases Nat.lt_or_ge y pcb.written.length with hlt | hge
    · obtain ⟨t, ht, hlo, hhi⟩ := hh.cover y hy hlt
      obtain ⟨t', ht', hlo', hhi'⟩ := hstays t ht
      exact ⟨t', ht', hlo'.trans hlo, hhi.trans_le hhi'⟩
    · exact hnew y hge hy'

section
variable {t v' : TcpSeg} {x : Extension} {k n : ℕ}

theorem Extended.stop (he : Extended v v' arg x) : v'.stop = v.stop + (x.used + x.seglen) := by
  unfold TcpSeg.stop
  rw [he.pos, he.len]
  omega

theorem Extended.before (he : Extended v v' arg x) (h : Before t v) : Before t v' := by
  unfold Before at h ⊢
  rw [he.pos]
  exact h

theorem Fits.length_take (hx : Fits m arg.length v x) :
    (arg.take (x.used + x.seglen)).length = x.used + x.seglen := by
  have := hx.some
  rw [List.length_take]
  omega

theorem Extended.placed (he : Extended v v' arg x) (hx : Fits m arg.length v x)
    (hp : Placed iss m n v) : Placed iss m (n + (x.used + x.seglen)) v' := by
  have hroom := hx.room
  have hpos := hp.pos
  have hle := hp.stop
  refine ⟨?_, ?_, ?_, ?_, ?_⟩
  · rw [he.seqno, he.pos]
    exact hp.seqno
  · rw [he.data, List.length_append, hp.len, hx.length_take, he.len]
  · rw [he.len]
    omega
  · rw [he.len]
    omega
  · rw [he.stop]
    omega

theorem Extended.clen (he : Extended v v' arg x) (segs : List TcpSeg) :
    clen (segs ++ [v']) = clen (segs ++ [v]) + if 0 < x.seglen then 1 else 0 := by
  have hcount := he.count
  unfold TcpOut.clen
  simp only [List.map_append, List.sum_append, List.map_cons, List.map_nil, List.sum_cons,
    List.sum_nil]
  omega

/-- The segment still holds its part of the stream, which it has been the end of. -/
theorem Extended.window (he : Extended v v' arg x)
    (hg : Grown pcb pcb' (arg.take (x.used + x.seglen)))
    (hv : v.p.flatten = window pcb.written v.pos v.len) (hend : v.stop = pcb.written.length) :
    v'.p.flatten = window pcb'.written v'.pos v'.len := by
  unfold TcpSeg.stop at hend
  rw [he.data, hv, he.pos, he.len, window_add, hg.window hend.le, hg.written,
    window_append_right _ _ hend.ge, hend, Nat.sub_self, window_zero_left, List.take_take,
    Nat.min_self]

/-- **Phases 1 and 2**: the last unsent segment grows. -/
theorem Inv.extend (h : Inv iss l s pcb) (hs : pcb.Sorted)
    (hg : Grown pcb pcb' (arg.take (x.used + x.seglen))) (hv : pcb.unsent.getLast? = some v)
    (hx : Fits pcb.mssLocal arg.length v x) (he : Extended v v' arg x)
    (hunsent : pcb'.unsent = pcb.unsent.dropLast ++ [v'])
    (hover : pcb'.unsentOversize = x.oversize)
    (hlen : pcb'.sndQueuelen = pcb.sndQueuelen + if 0 < x.seglen then 1 else 0)
    (hshort : pcb'.sndQueuelen ≤ tcpSndQueuelen) : Accepts iss l s pcb pcb' := by
  obtain ⟨init, hinit⟩ := List.getLast?_eq_some_iff.mp hv
  rw [hinit, List.dropLast_concat] at hunsent
  have hvmem : v ∈ pcb.unsent := List.mem_of_getLast? hv
  have hold : ∀ t ∈ init, t ∈ pcb.unsent := fun t ht => by
    rw [hinit]
    exact List.mem_append_left _ ht
  have hqueued : pcb.queued = pcb.unacked ++ init ++ [v] := by
    unfold Pcb.queued
    rw [hinit, List.append_assoc]
  have hqueued' : pcb'.queued = pcb.unacked ++ init ++ [v'] := by
    unfold Pcb.queued
    rw [hunsent, hg.unacked, List.append_assoc]
  have hv' : v' ∈ pcb'.queued := by
    rw [hqueued']
    exact List.mem_append_right _ (List.mem_singleton_self v')
  have hsorted : pcb'.Sorted := by
    intro u hu t ht
    rw [hg.unacked] at hu
    rw [hunsent] at ht
    rcases List.mem_append.mp ht with hm | hm
    · exact hs u hu t (hold t hm)
    · rw [List.mem_singleton.mp hm]
      exact he.before (hs u hu v hvmem)
  obtain ⟨hp, hl⟩ := h.placed v (Inv.mem_unsent hvmem)
  refine ⟨h.grow hg hsorted (fun t ht => ?_) ?_ ?_ hshort fun w hw => ?_, hsorted, fun hh => ?_⟩
  · rw [hunsent] at ht
    rcases List.mem_append.mp ht with hm | hm
    · obtain ⟨hpt, hlt⟩ := h.placed t (Inv.mem_unsent (hold t hm))
      exact ⟨hpt.mono le_rfl (Nat.le_add_right _ _), hlt⟩
    · rw [List.mem_singleton.mp hm, hx.length_take]
      exact ⟨he.placed hx hp, hl.trans_le (by rw [he.stop]; omega)⟩
  · have hpair := h.unsent
    rw [hinit, List.pairwise_append] at hpair
    rw [hunsent]
    refine List.pairwise_append.mpr ⟨hpair.1, List.pairwise_singleton _ _, fun t ht w hw => ?_⟩
    rw [List.mem_singleton.mp hw]
    exact he.before (hpair.2.2 t ht v List.mem_cons_self)
  · rw [hlen, h.queuelen, hqueued, hqueued', he.clen]
  · rw [hunsent, List.getLast?_concat] at hw
    obtain rfl := Option.some.inj hw
    have hroom := hx.room
    have hlen' := he.len
    rw [hover]
    exact ⟨he.left, by omega⟩
  · have hend := h.stop_last hh hs hv
    have hnear := h.near (Inv.mem_unsent hvmem)
    have hpos := he.pos
    have hstop := he.stop
    refine Holds.grow h hh hg (fun t ht => ?_) (fun t ht => ?_) fun y hy hy' => ?_
    · rw [hqueued'] at ht
      rw [hqueued]
      rcases List.mem_append.mp ht with hm | hm
      · exact Or.inl (List.mem_append_left _ hm)
      · rw [List.mem_singleton.mp hm]
        exact Or.inr (he.window hg (hh.data v (Inv.mem_unsent hvmem)) hend)
    · rw [hqueued] at ht
      rcases List.mem_append.mp ht with hm | hm
      · exact ⟨t, by rw [hqueued']; exact List.mem_append_left _ hm, le_rfl, le_rfl⟩
      · rw [List.mem_singleton.mp hm]
        exact ⟨v', hv', hpos.le, by omega⟩
    · rw [hx.length_take] at hy'
      exact ⟨v', hv', by omega, by omega⟩

end

/-- **Phase 3**: new segments come behind. -/
theorem Inv.append (h : Inv iss l s pcb) (hs : pcb.Sorted) (hg : Grown pcb pcb' d)
    (hrow : Row iss pcb.mssLocal pcb.written.length d segs)
    (hunsent : pcb'.unsent = pcb.unsent ++ segs)
    (hlen : pcb'.sndQueuelen = pcb.sndQueuelen + segs.length)
    (hshort : pcb'.sndQueuelen ≤ tcpSndQueuelen)
    (hover : ∀ v, pcb'.unsent.getLast? = some v →
      pcb'.unsentOversize ≤ v.left ∧ v.len + pcb'.unsentOversize ≤ pcb.mssLocal) :
    Accepts iss l s pcb pcb' := by
  have hbehind : ∀ t ∈ pcb.queued, ∀ w ∈ segs, Before t w := by
    intro t ht w hw
    have h₁ := (h.placed t ht).1.stop
    have h₂ := (hrow.placed w hw).2
    unfold Before
    omega
  have hqueued : pcb'.queued = pcb.queued ++ segs := by
    unfold Pcb.queued
    rw [hunsent, hg.unacked, List.append_assoc]
  have hsorted : pcb'.Sorted := by
    intro u hu t ht
    rw [hg.unacked] at hu
    rw [hunsent] at ht
    rcases List.mem_append.mp ht with hm | hm
    · exact hs u hu t hm
    · exact hbehind u (Inv.mem_unacked hu) t hm
  refine ⟨h.grow hg hsorted ?_ ?_ ?_ hshort hover, hsorted, fun hh => ?_⟩
  · intro t ht
    rw [hunsent] at ht
    rcases List.mem_append.mp ht with hm | hm
    · obtain ⟨hp, hl⟩ := h.placed t (Inv.mem_unsent hm)
      exact ⟨hp.mono le_rfl (Nat.le_add_right _ _), hl⟩
    · obtain ⟨hp, hle⟩ := hrow.placed t hm
      have := hp.pos
      have := h.acked_le
      have := h.sent_le
      refine ⟨hp, ?_⟩
      unfold TcpSeg.stop
      omega
  · rw [hunsent]
    exact List.pairwise_append.mpr
      ⟨h.unsent, hrow.sorted, fun t ht w hw => hbehind t (Inv.mem_unsent ht) w hw⟩
  · rw [hlen, hqueued, clen_append, hrow.single, h.queuelen]
  · refine Holds.grow h hh hg (fun t ht => ?_) (fun t ht => ?_) fun y hy hy' => ?_
    · rw [hqueued] at ht
      rcases List.mem_append.mp ht with hm | hm
      · exact Or.inl hm
      · right
        rw [hrow.data t hm, hg.written, window_append_right _ _ (hrow.placed t hm).2]
    · exact ⟨t, by rw [hqueued]; exact List.mem_append_left _ ht, le_rfl, le_rfl⟩
    · obtain ⟨t, ht, hin⟩ := hrow.cover y hy hy'
      exact ⟨t, by rw [hqueued]; exact List.mem_append_right _ ht, hin⟩

/-- What phases 1 and 2 commit. -/
theorem Inv.extension (h : Inv iss l s pcb) (hs : pcb.Sorted) {x : Extension}
    (hx : x = pcb.extension arg.length) (hg : Grown pcb pcb' (arg.take (x.used + x.seglen)))
    (hunsent : pcb'.unsent = pcb.extended arg x) (hover : pcb'.unsentOversize = x.oversize)
    (hlen : pcb'.sndQueuelen = pcb.sndQueuelen + if 0 < x.seglen then 1 else 0)
    (hshort : pcb'.sndQueuelen ≤ tcpSndQueuelen) :
    Accepts iss l s pcb pcb' ∧ Tidy pcb' := by
  unfold Pcb.extended at hunsent
  rcases hv : pcb.unsent.getLast? with _ | v
  · rw [hv] at hunsent
    have hzero : x = ⟨0, 0, 0⟩ := by
      rw [hx]
      unfold Pcb.extension
      rw [hv]
    rw [List.getLast?_eq_none_iff] at hv
    rw [hzero] at hg hover hlen
    refine ⟨h.append hs hg (Row.nil _ _ _) (by rw [hunsent, hv]; rfl) hlen hshort fun v hlast => ?_,
      fun _ => hover⟩
    rw [hunsent] at hlast
    cases hlast
  · rw [hv] at hunsent
    have hfits := extension_spec h hv arg.length
    rw [← hx] at hfits
    have hp : v.p ≠ [] := by
      obtain ⟨hpl, -⟩ := h.placed v (Inv.mem_unsent (List.mem_of_getLast? hv))
      have hflat := hpl.len
      have hpos := hpl.pos
      intro hnil
      rw [hnil, List.flatten_nil, List.length_nil] at hflat
      omega
    refine ⟨h.extend hs hg hv hfits (extend_spec hfits h.mssLocal_le hp) hunsent hover hlen hshort,
      fun hnil => ?_⟩
    rw [hunsent] at hnil
    exact absurd hnil (List.append_ne_nil_of_right_ne_nil _ (List.cons_ne_nil _ _))

/-! ### The whole function -/

/-- The bytes `d` are accepted: what is stored, the queue being `unsent` then, with `pbufs` more
pbufs. -/
def Pcb.accept (pcb : Pcb) (d : List UInt8) (unsent : List TcpSeg) (pbufs oversize : ℕ) : Pcb :=
  { pcb with
    unsent := unsent
    unsentOversize := oversize
    sndLbb := pcb.sndLbb + BitVec.ofNat 32 d.length
    sndBuf := pcb.sndBuf - d.length
    sndQueuelen := pcb.sndQueuelen + pbufs
    written := pcb.written ++ d }

theorem accept_accept (pcb : Pcb) (d d' : List UInt8) (u u' : List TcpSeg) (k k' o o' : ℕ) :
    (pcb.accept d u k o).accept d' u' k' o' = pcb.accept (d ++ d') u' (k + k') o' := by
  unfold Pcb.accept
  simp only [List.length_append, BitVec.add_assoc, ← BitVec.ofNat_add, Nat.sub_sub, Nat.add_assoc,
    List.append_assoc]

theorem grown_accept (hd : d.length ≤ pcb.sndBuf) (u : List TcpSeg) (k o : ℕ) :
    Grown pcb (pcb.accept d u k o) d :=
  ⟨rfl, rfl, rfl, Nat.sub_add_cancel hd, rfl, rfl, rfl, rfl⟩

/-- What `tcp_write` can do. -/
theorem tcpWrite_cases (mem : Bool) (pcb : Pcb) (arg : List UInt8) :
    tcpWrite mem pcb arg = pcb.memerr ∨
      ∃ x k queue o, x = pcb.extension arg.length ∧ (k = if 0 < x.seglen then 1 else 0) ∧
        (arg = [] ∨ arg.length ≤ pcb.sndBuf ∧ pcb.sndQueuelen < tcpSndQueuelen) ∧
        newSegments pcb (tcpSndQueuelen - (pcb.sndQueuelen + k)) (arg.drop (x.used + x.seglen))
          (x.used + x.seglen) x.oversize true = some (queue, o) ∧
        tcpWrite mem pcb arg =
          (pcb.accept arg (pcb.extended arg x ++ queue) (k + queue.length) o, .errOk) := by
  unfold tcpWrite
  split_ifs with hcheck
  · exact Or.inl rfl
  dsimp only
  generalize hk : (if 0 < (pcb.extension arg.length).seglen then 1 else 0) = k
  rcases hnew : newSegments pcb _ _ _ _ _ with _ | ⟨queue, o⟩
  · exact Or.inl rfl
  dsimp only
  split_ifs with hmem
  · exact Or.inl rfl
  refine Or.inr ⟨_, k, queue, o, rfl, hk.symm, ?_, hnew, ?_⟩
  · by_contra hc
    rw [not_or, not_and_or] at hc
    exact hcheck ⟨hc.1, hc.2.imp Nat.lt_of_not_le Nat.le_of_not_lt⟩
  · unfold Pcb.accept
    rw [Nat.add_assoc]

theorem extension_le (h : Inv iss l s pcb) (k : ℕ) :
    (pcb.extension k).used + (pcb.extension k).seglen ≤ k := by
  rcases hv : pcb.unsent.getLast? with _ | v
  · rw [Pcb.extension, hv]
    exact Nat.zero_le _
  · exact (extension_spec h hv k).some

/-- Phase 3 behind phases 1 and 2, which `pcb'` is after. -/
theorem Accepts.append {x : Extension} {queue : List TcpSeg} {room o : ℕ}
    (h : Inv iss l s pcb) (hacc : Accepts iss l s pcb pcb') (ht : Tidy pcb')
    (hg : Grown pcb pcb' (arg.take (x.used + x.seglen)))
    (hsome : x.used + x.seglen ≤ arg.length) (hbuf : arg.length ≤ pcb.sndBuf)
    (hover : pcb'.unsentOversize = x.oversize)
    (hnew : newSegments pcb room (arg.drop (x.used + x.seglen)) (x.used + x.seglen) x.oversize true =
      some (queue, o)) (hroom : pcb'.sndQueuelen + room ≤ tcpSndQueuelen) :
    Accepts iss l s pcb'
        (pcb'.accept (arg.drop (x.used + x.seglen)) (pcb'.unsent ++ queue) queue.length o) ∧
      Tidy (pcb'.accept (arg.drop (x.used + x.seglen)) (pcb'.unsent ++ queue) queue.length o) := by
  obtain ⟨hrow, hlen, hnil, hlast⟩ := newSegments_spec h.sndLbb hnew
  have htake : (arg.take (x.used + x.seglen)).length = x.used + x.seglen := by
    rw [List.length_take]
    omega
  have hdrop : (arg.drop (x.used + x.seglen)).length ≤ pcb'.sndBuf := by
    have hsnd := hg.sndBuf
    rw [List.length_drop]
    omega
  refine ⟨hacc.inv.append hacc.sorted (grown_accept hdrop _ _ _) ?_ rfl rfl
    ((Nat.add_le_add_left hlen _).trans hroom) fun v hv => ?_, fun hempty => ?_⟩
  · rw [hg.mssLocal, hg.length, htake]
    exact hrow
  · cases queue with
    | nil =>
      have hv' : pcb'.unsent.getLast? = some v := by
        rw [← hv]
        exact congrArg List.getLast? (List.append_nil _).symm
      have hinv := hacc.inv.oversize v hv'
      rw [hover, ← hnil rfl] at hinv
      exact hinv
    | cons w queue =>
      rw [hg.mssLocal]
      refine hlast v (Eq.trans ?_ hv)
      exact (List.getLast?_append_of_ne_nil _ (List.cons_ne_nil w queue)).symm
  · obtain ⟨hnil', hq⟩ := List.append_eq_nil_iff.mp hempty
    exact (hnil hq).trans (hover.symm.trans (ht hnil'))

/-- **`tcp_write`**: all the bytes are accepted, or nothing changes but a flag. -/
theorem tcpWrite_spec (h : Inv iss l s pcb) (ho : InOrder pcb) (mem : Bool)
    (arg : List UInt8) :
    tcpWrite mem pcb arg = pcb.memerr ∨
      ∃ pcb', tcpWrite mem pcb arg = (pcb', .errOk) ∧ Grown pcb pcb' arg ∧
        Accepts iss l s pcb pcb' ∧ Tidy pcb' := by
  rcases tcpWrite_cases mem pcb arg with hfail | ⟨x, k, queue, o, hx, hk, hcheck, hnew, hrun⟩
  · exact Or.inl hfail
  have hs : pcb.Sorted := fun u hu v hv => h.before_unsent ho hu hv
  have hsome : x.used + x.seglen ≤ arg.length := by
    rw [hx]
    exact extension_le h arg.length
  have hbuf : arg.length ≤ pcb.sndBuf := by
    rcases hcheck with rfl | hc
    · exact Nat.zero_le _
    · exact hc.1
  have hshort : pcb.sndQueuelen + k ≤ tcpSndQueuelen := by
    have hq := h.short
    rcases hcheck with rfl | hc
    · rw [List.length_nil] at hsome
      rw [hk, if_neg (by omega)]
      exact hq
    · have hk1 : k ≤ 1 := by
        rw [hk]
        split_ifs <;> omega
      omega
  have hg₁ : Grown pcb (pcb.accept (arg.take (x.used + x.seglen)) (pcb.extended arg x) k x.oversize)
      (arg.take (x.used + x.seglen)) :=
    grown_accept ((List.length_take_le _ _).trans (hsome.trans hbuf)) _ _ _
  obtain ⟨hacc₁, ht₁⟩ := h.extension hs hx hg₁ rfl rfl (by rw [← hk]; rfl) hshort
  obtain ⟨hacc, ht⟩ := hacc₁.append h ht₁ hg₁ hsome hbuf rfl hnew
    (Nat.add_sub_cancel' hshort).le
  rw [accept_accept, List.take_append_drop] at hacc ht
  exact Or.inr ⟨_, hrun, grown_accept hbuf _ _ _,
    ⟨hacc.inv, hacc.sorted, fun hh => hacc.holds (hacc₁.holds hh)⟩, ht⟩

end

end Stm32TcpServer.Lwip.TcpOut
