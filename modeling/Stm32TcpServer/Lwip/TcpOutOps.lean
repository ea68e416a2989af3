import Mathlib.Data.List.TakeWhile
import Stm32TcpServer.Lwip.TcpOut

/-! # What the functions of the send side do to the queues

The segments on the two queues are pieces of the stream, apart from each other, with all that is not
acknowledged among them (`Inv`, `Holds`). `tcp_output`, `tcp_rexmit` and `tcp_rexmit_rto` only move
segments from one queue to the other; `tcp_write` adds to them, `tcp_receive` takes away. -/

namespace Stm32TcpServer.Lwip.TcpOut

open Stm32TcpServer.Lib.SeqNo Stm32TcpServer.Lib.Window
open Stm32TcpServer.Lwip.Pbuf

/-- The segments on both queues. -/
def Pcb.queued (pcb : Pcb) : List TcpSeg := pcb.unacked ++ pcb.unsent

/-- The position behind the segment. -/
def TcpSeg.stop (seg : TcpSeg) : ℕ := seg.pos + seg.len

/-- The segment `s` ends before the segment `t` begins. -/
def Before (s t : TcpSeg) : Prop := s.stop ≤ t.pos

/-- **A segment of the stream**, of at most `m` bytes, among the first `n` ones. -/
structure Placed (iss : U32) (m n : ℕ) (seg : TcpSeg) : Prop where
  seqno : seg.seqno = seq iss (1 + seg.pos)
  len : seg.p.flatten.length = seg.len
  pos : 0 < seg.len
  le : seg.len ≤ m
  stop : seg.stop ≤ n

/-- **The queues of a connection** that has got an acknowledgment for the first `l` bytes, and has
sent the first `s`. -/
structure Inv (iss : U32) (l s : ℕ) (pcb : Pcb) : Prop where
  lastack : pcb.lastack = seq iss (1 + l)
  sndNxt : pcb.sndNxt = seq iss (1 + s)
  sndLbb : pcb.sndLbb = seq iss (1 + pcb.written.length)
  acked_le : l ≤ s
  sent_le : s ≤ pcb.written.length
  sndBuf : pcb.sndBuf + pcb.written.length = tcpSndBuf + l
  mss : pcb.mss ≤ tcpMss
  placed : ∀ seg ∈ pcb.queued, Placed iss pcb.mssLocal pcb.written.length seg ∧ l < seg.stop
  unacked : pcb.unacked.Pairwise Before
  unsent : pcb.unsent.Pairwise Before
  apart : ∀ u ∈ pcb.unacked, ∀ v ∈ pcb.unsent, Before u v ∨ Before v u
  sent : ∀ u ∈ pcb.unacked, u.stop ≤ s
  queuelen : pcb.sndQueuelen = clen pcb.queued
  short : pcb.sndQueuelen ≤ tcpSndQueuelen
  oversize : ∀ v, pcb.unsent.getLast? = some v →
    pcb.unsentOversize ≤ v.left ∧ v.len + pcb.unsentOversize ≤ pcb.mssLocal

/-- There is no oversize without an unsent segment. -/
def Tidy (pcb : Pcb) : Prop := pcb.unsent = [] → pcb.unsentOversize = 0

/-- **Nothing is forgotten**: the segments hold what has been written, and every byte that is not
acknowledged is in one of them. -/
structure Holds (l : ℕ) (pcb : Pcb) : Prop where
  data : ∀ seg ∈ pcb.queued, seg.p.flatten = window pcb.written seg.pos seg.len
  cover : ∀ x, l ≤ x → x < pcb.written.length → ∃ seg ∈ pcb.queued, seg.pos ≤ x ∧ x < seg.stop

/-- What is unsent comes behind what is unacknowledged: no segment of a fast retransmit is held back
by the window. -/
def InOrder (pcb : Pcb) : Prop :=
  ∀ u ∈ pcb.unacked.getLast?, ∀ v ∈ pcb.unsent.head?, lt u.seqno v.seqno = true

section
variable {iss : U32} {l s m n : ℕ} {pcb pcb' : Pcb} {seg u v : TcpSeg} {segs rest : List TcpSeg}

theorem clen_append (a b : List TcpSeg) : clen (a ++ b) = clen a + clen b := by simp [clen]

theorem clen_perm {a b : List TcpSeg} (h : a.Perm b) : clen a = clen b :=
  (h.map _).sum_nat

theorem Before.trans (h : Before u v) (h' : Before v seg) : Before u seg := by
  unfold Before TcpSeg.stop at *
  omega

theorem Placed.mono {m' n' : ℕ} (h : Placed iss m n seg) (hm : m ≤ m') (hn : n ≤ n') :
    Placed iss m' n' seg :=
  ⟨h.seqno, h.len, h.pos, h.le.trans hm, h.stop.trans hn⟩

/-! ### Places -/

theorem Inv.mssLocal_le (h : Inv iss l s pcb) : pcb.mssLocal ≤ tcpMss :=
  (min_le_left _ _).trans h.mss

theorem Inv.near (h : Inv iss l s pcb) (hseg : seg ∈ pcb.queued) :
    seg.stop ≤ l + 5840 ∧ l < seg.pos + 1460 ∧ seg.pos < seg.stop ∧ seg.stop ≤ seg.pos + 1460 := by
  obtain ⟨hp, hl⟩ := h.placed seg hseg
  have hstop := hp.stop
  have hbuf := h.sndBuf
  have hle := hp.le.trans h.mssLocal_le
  have hpos := hp.pos
  unfold tcpSndBuf tcpMss TcpSeg.stop at *
  omega

theorem Inv.mem_unacked (hu : u ∈ pcb.unacked) : u ∈ pcb.queued := List.mem_append_left _ hu

theorem Inv.mem_unsent (hv : v ∈ pcb.unsent) : v ∈ pcb.queued := List.mem_append_right _ hv

theorem Inv.lt_seqno (h : Inv iss l s pcb) (hu : u ∈ pcb.queued) (hv : v ∈ pcb.queued) :
    lt u.seqno v.seqno = true ↔ u.pos < v.pos := by
  have hnu := h.near hu
  have hnv := h.near hv
  rw [(h.placed u hu).1.seqno, (h.placed v hv).1.seqno, lt_seq (by decide) (by omega) (by omega)]
  omega

theorem before_of_lt (hv : v.pos < v.stop) (h : Before u v ∨ Before v u) (hlt : u.pos < v.pos) :
    Before u v := by
  unfold Before at *
  omega

/-! ### Insertion -/

theorem insertSeg_perm (seg : TcpSeg) (segs : List TcpSeg) :
    (insertSeg seg segs).Perm (seg :: segs) := List.perm_orderedInsert _ _ _

theorem insertSeg_cons (seg cur : TcpSeg) (segs : List TcpSeg) :
    insertSeg seg (cur :: segs) =
      if lt cur.seqno seg.seqno = true then cur :: insertSeg seg segs else seg :: cur :: segs := by
  unfold insertSeg
  rw [List.orderedInsert_cons]
  split_ifs <;> rfl

theorem insertSeg_pairwise (hs : segs.Pairwise Before) (hseg : seg.pos < seg.stop)
    (hpos : ∀ t ∈ segs, t.pos < t.stop) (hapart : ∀ t ∈ segs, Before t seg ∨ Before seg t)
    (hlt : ∀ t ∈ segs, lt t.seqno seg.seqno = true ↔ t.pos < seg.pos) :
    (insertSeg seg segs).Pairwise Before := by
  induction segs with
  | nil => exact List.pairwise_singleton _ _
  | cons cur segs ih =>
    rw [insertSeg_cons]
    rw [List.pairwise_cons] at hs
    have hcur := hapart cur List.mem_cons_self
    have hcurpos := hpos cur List.mem_cons_self
    have hiff := hlt cur List.mem_cons_self
    split_ifs with h
    · have hbefore := before_of_lt hseg hcur (hiff.mp h)
      refine List.pairwise_cons.mpr ⟨fun t ht => ?_, ih hs.2
        (fun t ht => hpos t (List.mem_cons_of_mem _ ht))
        (fun t ht => hapart t (List.mem_cons_of_mem _ ht))
        (fun t ht => hlt t (List.mem_cons_of_mem _ ht))⟩
      rcases List.mem_cons.mp ((insertSeg_perm seg segs).mem_iff.mp ht) with rfl | ht
      · exact hbefore
      · exact hs.1 t ht
    · have hbefore : Before seg cur := by
        rcases hcur with hc | hc
        · have := hiff.mpr (by unfold Before at hc; omega)
          contradiction
        · exact hc
      refine List.pairwise_cons.mpr ⟨fun t ht => ?_, List.pairwise_cons.mpr hs⟩
      rcases List.mem_cons.mp ht with rfl | ht
      · exact hbefore
      · exact hbefore.trans (hs.1 t ht)

theorem insertSeg_getLast? (seg : TcpSeg) (segs : List TcpSeg) :
    (insertSeg seg segs).getLast? =
      if segs.all (fun cur => lt cur.seqno seg.seqno) = true then some seg
      else segs.getLast? := by
  induction segs with
  | nil => rfl
  | cons cur segs ih =>
    rw [insertSeg_cons]
    cases hc : lt cur.seqno seg.seqno with
    | true =>
      rw [if_pos rfl, List.all_cons, hc, Bool.true_and]
      have hne : insertSeg seg segs ≠ [] := by
        intro h
        have := (insertSeg_perm seg segs).length_eq
        rw [h] at this
        simp at this
      rw [List.getLast?_cons_of_ne_nil hne, ih]
      cases segs with
      | nil => rfl
      | cons c segs => rw [List.getLast?_cons_cons]
    | false =>
      rw [if_neg Bool.false_ne_true, List.all_cons, hc, Bool.false_and, if_neg Bool.false_ne_true,
        List.getLast?_cons_cons]

theorem insertUnacked_perm (seg : TcpSeg) (segs : List TcpSeg) :
    (insertUnacked seg segs).Perm (seg :: segs) := by
  unfold insertUnacked
  split
  · rename_i h
    rw [List.getLast?_eq_none_iff] at h
    rw [h]
  · split_ifs
    · exact insertSeg_perm seg segs
    · exact List.perm_append_singleton seg segs

theorem before_getLast (hs : segs.Pairwise Before) (hlast : segs.getLast? = some v) (hu : u ∈ segs) :
    u = v ∨ Before u v := by
  obtain ⟨init, rfl⟩ : ∃ init, segs = init ++ [v] := by
    rw [List.getLast?_eq_some_iff] at hlast
    exact hlast
  rw [List.pairwise_append] at hs
  rcases List.mem_append.mp hu with h | h
  · exact Or.inr (hs.2.2 u h v List.mem_cons_self)
  · exact Or.inl (List.mem_singleton.mp h)

theorem insertUnacked_pairwise (hs : segs.Pairwise Before) (hseg : seg.pos < seg.stop)
    (hpos : ∀ t ∈ segs, t.pos < t.stop) (hapart : ∀ t ∈ segs, Before t seg ∨ Before seg t)
    (hlt : ∀ t ∈ segs, lt t.seqno seg.seqno = true ↔ t.pos < seg.pos)
    (hlt' : ∀ t ∈ segs, lt seg.seqno t.seqno = true ↔ seg.pos < t.pos) :
    (insertUnacked seg segs).Pairwise Before := by
  unfold insertUnacked
  split
  · exact List.pairwise_singleton _ _
  · rename_i useg hlast
    have hmem := List.mem_of_getLast? hlast
    split_ifs with h
    · exact insertSeg_pairwise hs hseg hpos hapart hlt
    · have hle : Before useg seg := by
        rcases hapart useg hmem with hb | hb
        · exact hb
        · have := (hlt' useg hmem).mpr (by unfold Before at hb; omega)
          contradiction
      refine List.pairwise_append.mpr ⟨hs, List.pairwise_singleton _ _, fun t ht w hw => ?_⟩
      rw [List.mem_singleton.mp hw]
      rcases before_getLast hs hlast ht with rfl | hb
      · exact hle
      · exact hb.trans hle

/-! ### Segments that move -/

/-- What a step that only moves segments leaves alone. -/
structure Kept (pcb pcb' : Pcb) : Prop where
  lastack : pcb'.lastack = pcb.lastack
  sndLbb : pcb'.sndLbb = pcb.sndLbb
  sndBuf : pcb'.sndBuf = pcb.sndBuf
  mss : pcb'.mss = pcb.mss
  sndWndMax : pcb'.sndWndMax = pcb.sndWndMax
  sndQueuelen : pcb'.sndQueuelen = pcb.sndQueuelen
  written : pcb'.written = pcb.written

theorem Kept.refl (pcb : Pcb) : Kept pcb pcb := ⟨rfl, rfl, rfl, rfl, rfl, rfl, rfl⟩

theorem Kept.trans {pcb'' : Pcb} (h : Kept pcb pcb') (h' : Kept pcb' pcb'') : Kept pcb pcb'' :=
  ⟨h'.lastack.trans h.lastack, h'.sndLbb.trans h.sndLbb, h'.sndBuf.trans h.sndBuf,
    h'.mss.trans h.mss, h'.sndWndMax.trans h.sndWndMax, h'.sndQueuelen.trans h.sndQueuelen,
    h'.written.trans h.written⟩

theorem Kept.mssLocal (h : Kept pcb pcb') : pcb'.mssLocal = pcb.mssLocal := by
  unfold Pcb.mssLocal
  rw [h.mss, h.sndWndMax]

theorem Inv.pairwise (h : Inv iss l s pcb) :
    pcb.queued.Pairwise fun u v => Before u v ∨ Before v u :=
  List.pairwise_append.mpr ⟨h.unacked.imp Or.inl, h.unsent.imp Or.inl, h.apart⟩

/-- **The rule for steps that only move segments.** -/
theorem Inv.moved (h : Inv iss l s pcb) (hk : Kept pcb pcb') (hperm : pcb'.queued.Perm pcb.queued)
    {s' : ℕ} (hnxt : pcb'.sndNxt = seq iss (1 + s')) (hle : s ≤ s')
    (hsent_le : s' ≤ pcb.written.length) (hunacked : pcb'.unacked.Pairwise Before)
    (hunsent : pcb'.unsent.Pairwise Before) (hsent : ∀ u ∈ pcb'.unacked, u.stop ≤ s')
    (hover : ∀ v, pcb'.unsent.getLast? = some v →
      pcb'.unsentOversize ≤ v.left ∧ v.len + pcb'.unsentOversize ≤ pcb.mssLocal) :
    Inv iss l s' pcb' where
  lastack := hk.lastack.trans h.lastack
  sndNxt := hnxt
  sndLbb := by rw [hk.sndLbb, hk.written, h.sndLbb]
  acked_le := h.acked_le.trans hle
  sent_le := by rwa [hk.written]
  sndBuf := by rw [hk.sndBuf, hk.written, h.sndBuf]
  mss := hk.mss.trans_le h.mss
  placed seg hseg := by
    rw [hk.mssLocal, hk.written]
    exact h.placed seg (hperm.mem_iff.mp hseg)
  unacked := hunacked
  unsent := hunsent
  apart u hu v hv := by
    have hsymm : ∀ {u v : TcpSeg}, Before u v ∨ Before v u → Before v u ∨ Before u v := Or.symm
    have hpair := (hperm.pairwise_iff hsymm).mpr h.pairwise
    exact (List.pairwise_append.mp hpair).2.2 u hu v hv
  sent := hsent
  queuelen := by rw [hk.sndQueuelen, h.queuelen, clen_perm hperm]
  short := hk.sndQueuelen.trans_le h.short
  oversize := by
    rw [hk.mssLocal]
    exact hover

theorem Holds.moved (h : Holds l pcb) (hk : Kept pcb pcb')
    (hperm : pcb'.queued.Perm pcb.queued) : Holds l pcb' := by
  refine ⟨fun seg hseg => ?_, fun x hl hx => ?_⟩
  · rw [hk.written]
    exact h.data seg (hperm.mem_iff.mp hseg)
  · rw [hk.written] at hx
    obtain ⟨seg, hseg, hin⟩ := h.cover x hl hx
    exact ⟨seg, hperm.mem_iff.mpr hseg, hin⟩

/-- A step that moves segments, with what is always true between two steps. -/
structure Moved (iss : U32) (l s : ℕ) (pcb pcb' : Pcb) : Prop where
  inv : Inv iss l s pcb'
  tidy : Tidy pcb'
  kept : Kept pcb pcb'
  perm : pcb'.queued.Perm pcb.queued

theorem Moved.refl (h : Inv iss l s pcb) (ht : Tidy pcb) : Moved iss l s pcb pcb :=
  ⟨h, ht, Kept.refl pcb, List.Perm.refl _⟩

theorem Inv.send (h : Inv iss l s pcb) (hu : pcb.unsent = seg :: rest) :
    Inv iss l (max s seg.stop) (pcb.send seg rest) ∧ Kept pcb (pcb.send seg rest) ∧
      (pcb.send seg rest).queued.Perm pcb.queued := by
  have hmem : seg ∈ pcb.queued := Inv.mem_unsent (by rw [hu]; exact List.mem_cons_self)
  have hnear := h.near hmem
  obtain ⟨hp, hl⟩ := h.placed seg hmem
  have hls := h.acked_le
  have hsn := h.sent_le
  have hbuf := h.sndBuf
  have hstop := hp.stop
  have hpos := hp.pos
  have hunsent := h.unsent
  rw [hu, List.pairwise_cons] at hunsent
  have hqueued : (pcb.send seg rest).unacked = insertUnacked seg pcb.unacked := if_pos hpos
  have hperm : (pcb.send seg rest).queued.Perm pcb.queued := by
    unfold Pcb.queued
    rw [hqueued, hu]
    exact ((insertUnacked_perm seg pcb.unacked).append_right rest).trans
      List.perm_middle.symm
  have hkept : Kept pcb (pcb.send seg rest) := ⟨rfl, rfl, rfl, rfl, rfl, rfl, rfl⟩
  refine ⟨h.moved hkept hperm ?_ (Nat.le_max_left _ _) (max_le h.sent_le hstop) ?_ hunsent.2 ?_ ?_,
    hkept, hperm⟩
  · -- `snd_nxt`
    have hend : seg.seqno + BitVec.ofNat 32 seg.len = seq iss (1 + seg.stop) := by
      rw [hp.seqno, seq_add_nat]
      unfold TcpSeg.stop
      push_cast
      rw [add_assoc]
    have hlt : lt pcb.sndNxt (seq iss (1 + seg.stop)) = true ↔ s < seg.stop := by
      unfold tcpSndBuf at hbuf
      rw [h.sndNxt, lt_seq (by decide) (by omega) (by omega)]
      omega
    unfold Pcb.send
    dsimp only
    rw [hend]
    split_ifs with hc
    · rw [max_eq_right (hlt.mp hc).le]
    · rw [h.sndNxt, max_eq_left (by_contra fun hlt' => hc (hlt.mpr (by omega)))]
  · rw [hqueued]
    refine insertUnacked_pairwise h.unacked (by omega) (fun t ht => ?_) (fun t ht => ?_)
      (fun t ht => ?_) (fun t ht => ?_)
    · exact (h.near (Inv.mem_unacked ht)).2.2.1
    · exact h.apart t ht seg (by rw [hu]; exact List.mem_cons_self)
    · exact h.lt_seqno (Inv.mem_unacked ht) hmem
    · exact h.lt_seqno hmem (Inv.mem_unacked ht)
  · intro u hmem'
    rw [hqueued, (insertUnacked_perm seg pcb.unacked).mem_iff, List.mem_cons] at hmem'
    rcases hmem' with rfl | hmem'
    · exact Nat.le_max_right _ _
    · exact (h.sent u hmem').trans (Nat.le_max_left _ _)
  · intro v hv
    refine h.oversize v ?_
    rw [hu]
    have hv' : rest.getLast? = some v := hv
    rw [List.getLast?_cons_of_ne_nil (by rintro rfl; cases hv'), hv']

/-- The wire carries a piece of the stream. -/
def Genuine (iss : U32) (m : ℕ) (written : List UInt8) (w : Wire) : Prop :=
  w.seqno = seq iss (1 + w.pos) ∧ w.pos + w.data.length ≤ written.length ∧
    w.data = window written w.pos w.data.length ∧ w.data.length ≤ m

theorem Holds.genuine (h : Inv iss l s pcb) (hh : Holds l pcb) (hseg : seg ∈ pcb.queued) :
    Genuine iss pcb.mssLocal pcb.written ⟨seg.seqno, seg.p.flatten, seg.pos⟩ := by
  obtain ⟨hp, -⟩ := h.placed seg hseg
  refine ⟨hp.seqno, ?_, ?_, ?_⟩
  · dsimp only
    rw [hp.len]
    exact hp.stop
  · dsimp only
    rw [hp.len]
    exact hh.data seg hseg
  · dsimp only
    rw [hp.len]
    exact hp.le

/-- **The loop of `tcp_output`** moves segments to the `unacked` queue, and sends what they hold. -/
theorem outputLoop_spec (h : Inv iss l s pcb) :
    ∃ s', s ≤ s' ∧ Inv iss l s' (outputLoop pcb.unsent pcb).1 ∧
      Kept pcb (outputLoop pcb.unsent pcb).1 ∧
      (outputLoop pcb.unsent pcb).1.queued.Perm pcb.queued ∧
      (Holds l pcb → ∀ w ∈ (outputLoop pcb.unsent pcb).2,
        Genuine iss pcb.mssLocal pcb.written w) := by
  generalize hq : pcb.unsent = queue
  induction queue generalizing pcb s with
  | nil => exact ⟨s, le_rfl, h, Kept.refl pcb, List.Perm.refl _, fun _ w hw => by cases hw⟩
  | cons seg rest ih =>
    rw [outputLoop]
    split_ifs
    · obtain ⟨hi, hk, hperm⟩ := h.send hq
      obtain ⟨s', hle, hi', hk', hperm', hout⟩ := ih hi rfl
      refine ⟨s', (Nat.le_max_left _ _).trans hle, hi', hk.trans hk', hperm'.trans hperm,
        fun hh w hw => ?_⟩
      rcases List.mem_cons.mp hw with rfl | hw
      · exact hh.genuine h (Inv.mem_unsent (by rw [hq]; exact List.mem_cons_self))
      · rw [← hk.mssLocal, ← hk.written]
        exact hout (hh.moved hk hperm) w hw
    · exact ⟨s, le_rfl, h, Kept.refl pcb, List.Perm.refl _, fun _ w hw => by cases hw⟩

/-- The queues are the same. -/
structure SameQueues (pcb pcb' : Pcb) : Prop extends Kept pcb pcb' where
  unsent : pcb'.unsent = pcb.unsent
  unacked : pcb'.unacked = pcb.unacked
  sndNxt : pcb'.sndNxt = pcb.sndNxt
  unsentOversize : pcb'.unsentOversize = pcb.unsentOversize

theorem Inv.same (h : Inv iss l s pcb) (ht : Tidy pcb) (hs : SameQueues pcb pcb') :
    Moved iss l s pcb pcb' := by
  have hperm : pcb'.queued.Perm pcb.queued := by
    unfold Pcb.queued
    rw [hs.unacked, hs.unsent]
  refine ⟨h.moved hs.toKept hperm (hs.sndNxt.trans h.sndNxt) le_rfl h.sent_le ?_ ?_ ?_ ?_, ?_,
    hs.toKept, hperm⟩
  · rw [hs.unacked]
    exact h.unacked
  · rw [hs.unsent]
    exact h.unsent
  · rw [hs.unacked]
    exact h.sent
  · rw [hs.unsent, hs.unsentOversize]
    exact h.oversize
  · unfold Tidy
    rw [hs.unsent, hs.unsentOversize]
    exact ht

theorem Moved.trans {s' : ℕ} {pcb'' : Pcb} (h : Moved iss l s pcb pcb')
    (h' : Moved iss l s' pcb' pcb'') : Moved iss l s' pcb pcb'' :=
  ⟨h'.inv, h'.tidy, h.kept.trans h'.kept, h'.perm.trans h.perm⟩

/-- **`tcp_output`.** -/
theorem tcpOutput_spec (h : Inv iss l s pcb) (ht : Tidy pcb) (ackNow : Bool) :
    ∃ s', s ≤ s' ∧ Moved iss l s' pcb (tcpOutput ackNow pcb).1 ∧
      (Holds l pcb → ∀ w ∈ (tcpOutput ackNow pcb).2,
        Genuine iss pcb.mssLocal pcb.written w) := by
  unfold tcpOutput
  split_ifs with hack
  · exact ⟨s, le_rfl, Moved.refl h ht, fun _ w hw => by cases hw⟩
  · obtain ⟨s', hle, hi, hk, hperm, hout⟩ := outputLoop_spec h
    dsimp only
    refine ⟨s', hle, ⟨hi.moved ?_ ?_ ?_ le_rfl hi.sent_le ?_ ?_ ?_ ?_, ?_, ?_, hperm⟩, hout⟩
    · exact ⟨rfl, rfl, rfl, rfl, rfl, rfl, rfl⟩
    · exact List.Perm.refl _
    · exact hi.sndNxt
    · exact hi.unacked
    · exact hi.unsent
    · exact hi.sent
    · intro v hv
      dsimp only at hv ⊢
      have hne : (outputLoop pcb.unsent pcb).1.unsent ≠ [] := by
        intro hnil
        rw [hnil] at hv
        cases hv
      rw [if_neg hne]
      exact hi.oversize v hv
    · intro hnil
      exact if_pos hnil
    · exact ⟨hk.lastack, hk.sndLbb, hk.sndBuf, hk.mss, hk.sndWndMax, hk.sndQueuelen, hk.written⟩

/-- **`tcp_rexmit`.** -/
theorem tcpRexmit_spec (h : Inv iss l s pcb) (ht : Tidy pcb) :
    Moved iss l s pcb (tcpRexmit pcb) := by
  unfold tcpRexmit
  cases hu : pcb.unacked with
  | nil => exact Moved.refl h ht
  | cons seg rest =>
    dsimp only
    have hmem : seg ∈ pcb.queued := Inv.mem_unacked (by rw [hu]; exact List.mem_cons_self)
    have hunacked := h.unacked
    rw [hu, List.pairwise_cons] at hunacked
    have hperm : (rest ++ insertSeg seg pcb.unsent).Perm pcb.queued := by
      unfold Pcb.queued
      rw [hu]
      exact ((insertSeg_perm seg pcb.unsent).append_left rest).trans List.perm_middle
    refine ⟨h.moved ?_ ?_ ?_ le_rfl h.sent_le ?_ ?_ ?_ ?_, ?_,
      ⟨rfl, rfl, rfl, rfl, rfl, rfl, rfl⟩, hperm⟩
    · exact ⟨rfl, rfl, rfl, rfl, rfl, rfl, rfl⟩
    · exact hperm
    · exact h.sndNxt
    · exact hunacked.2
    · refine insertSeg_pairwise h.unsent (h.near hmem).2.2.1 (fun t htm => ?_) (fun t htm => ?_)
        (fun t htm => ?_)
      · exact (h.near (Inv.mem_unsent htm)).2.2.1
      · exact (h.apart seg (by rw [hu]; exact List.mem_cons_self) t htm).symm
      · exact h.lt_seqno (Inv.mem_unsent htm) hmem
    · intro u humem
      exact h.sent u (by rw [hu]; exact List.mem_cons_of_mem _ humem)
    · intro v hv
      dsimp only at hv ⊢
      rw [insertSeg_getLast?] at hv
      split_ifs at hv ⊢ with hall
      · obtain rfl := Option.some.inj hv
        exact ⟨Nat.zero_le _, (h.placed _ hmem).1.le⟩
      · exact h.oversize v hv
    · intro hnil
      have hlen := (insertSeg_perm seg pcb.unsent).length_eq
      dsimp only at hnil
      rw [hnil] at hlen
      simp at hlen

/-- **`tcp_rexmit_fast`.** -/
theorem tcpRexmitFast_spec (h : Inv iss l s pcb) (ht : Tidy pcb) :
    Moved iss l s pcb (tcpRexmitFast pcb) := by
  unfold tcpRexmitFast
  split_ifs
  · have hm := tcpRexmit_spec h ht
    exact hm.trans (hm.inv.same hm.tidy ⟨⟨rfl, rfl, rfl, rfl, rfl, rfl, rfl⟩, rfl, rfl, rfl, rfl⟩)
  · exact Moved.refl h ht

theorem Inv.before_unsent (h : Inv iss l s pcb) (ho : InOrder pcb) (hu : u ∈ pcb.unacked)
    (hv : v ∈ pcb.unsent) : Before u v := by
  obtain ⟨ulast, hulast⟩ : ∃ ulast, pcb.unacked.getLast? = some ulast :=
    ⟨_, List.getLast?_eq_some_getLast (List.ne_nil_of_mem hu)⟩
  obtain ⟨vhead, vrest, hvhead⟩ : ∃ vhead vrest, pcb.unsent = vhead :: vrest :=
    List.exists_cons_of_ne_nil (List.ne_nil_of_mem hv)
  have humem := List.mem_of_getLast? hulast
  have hvmem : vhead ∈ pcb.unsent := by
    rw [hvhead]
    exact List.mem_cons_self
  have hlt := ho ulast hulast vhead (by rw [hvhead]; rfl)
  rw [h.lt_seqno (Inv.mem_unacked humem) (Inv.mem_unsent hvmem)] at hlt
  have hmid : Before ulast vhead :=
    before_of_lt (h.near (Inv.mem_unsent hvmem)).2.2.1 (h.apart ulast humem vhead hvmem) hlt
  have hfirst : u = ulast ∨ Before u ulast := before_getLast h.unacked hulast hu
  have hlast : v = vhead ∨ Before vhead v := by
    have hpair := h.unsent
    rw [hvhead, List.pairwise_cons] at hpair
    rw [hvhead] at hv
    rcases List.mem_cons.mp hv with rfl | hv
    · exact Or.inl rfl
    · exact Or.inr (hpair.1 v hv)
  rcases hfirst with rfl | hfirst <;> rcases hlast with rfl | hlast
  · exact hmid
  · exact hmid.trans hlast
  · exact hfirst.trans hmid
  · exact (hfirst.trans hmid).trans hlast

theorem requeue_spec (h : Inv iss l s pcb) (ht : Tidy pcb) (ho : InOrder pcb) :
    Moved iss l s pcb (requeue pcb) := by
  unfold requeue
  split_ifs with hnil
  · exact Moved.refl h ht
  · refine ⟨h.moved ?_ ?_ ?_ le_rfl h.sent_le ?_ ?_ ?_ ?_, fun hnil' => ?_,
      ⟨rfl, rfl, rfl, rfl, rfl, rfl, rfl⟩, List.Perm.refl _⟩
    · exact ⟨rfl, rfl, rfl, rfl, rfl, rfl, rfl⟩
    · exact List.Perm.refl _
    · exact h.sndNxt
    · exact List.Pairwise.nil
    · exact List.pairwise_append.mpr
        ⟨h.unacked, h.unsent, fun u hu v hv => h.before_unsent ho hu hv⟩
    · intro u hu
      cases hu
    · intro v hv
      dsimp only at hv ⊢
      cases hv' : pcb.unsent.getLast? with
      | some w =>
        rw [List.getLast?_append, hv', Option.some_or] at hv
        obtain rfl := Option.some.inj hv
        exact h.oversize w hv'
      | none =>
        rw [List.getLast?_eq_none_iff] at hv'
        rw [hv', List.append_nil] at hv
        rw [ht hv']
        exact ⟨Nat.zero_le _, (h.placed v (Inv.mem_unacked (List.mem_of_getLast? hv))).1.le⟩
    · exact absurd (List.append_eq_nil_iff.mp hnil').1 hnil

/-- **`tcp_slowtmr`** when the retransmission timer has run out. -/
theorem tcpRexmitRto_spec (h : Inv iss l s pcb) (ht : Tidy pcb) (ho : InOrder pcb) (ackNow : Bool) :
    ∃ s', s ≤ s' ∧ Moved iss l s' pcb (tcpRexmitRto ackNow pcb).1 ∧
      (Holds l pcb → ∀ w ∈ (tcpRexmitRto ackNow pcb).2,
        Genuine iss pcb.mssLocal pcb.written w) := by
  unfold tcpRexmitRto
  split_ifs
  · exact ⟨s, le_rfl, Moved.refl h ht, fun _ w hw => by cases hw⟩
  all_goals
    dsimp only
    generalize hp : ({ pcb with ssthresh := _, cwnd := pcb.mss } : Pcb) = pcb₁
    have hm₁ : Moved iss l s pcb pcb₁ := by
      subst hp
      exact h.same ht ⟨⟨rfl, rfl, rfl, rfl, rfl, rfl, rfl⟩, rfl, rfl, rfl, rfl⟩
    have ho₁ : InOrder pcb₁ := by
      subst hp
      exact ho
    have hm₂ := requeue_spec hm₁.inv hm₁.tidy ho₁
    obtain ⟨s', hle, hm₃, hout⟩ := tcpOutput_spec hm₂.inv hm₂.tidy ackNow
    have hm := hm₁.trans hm₂
    refine ⟨s', hle, hm.trans hm₃, fun hh => ?_⟩
    rw [← hm.kept.mssLocal, ← hm.kept.written]
    exact hout (hh.moved hm.kept hm.perm)

/-! ### Segments that are acknowledged -/

theorem lt_stop_of_dropWhile {gone : TcpSeg → Bool} {y : ℕ} (hs : segs.Pairwise Before)
    (hpos : ∀ t ∈ segs, t.pos < t.stop) (hgone : ∀ t ∈ segs, gone t = true ↔ t.stop ≤ y) :
    ∀ t ∈ segs.dropWhile gone, y < t.stop := by
  induction segs with
  | nil => exact fun t ht => by cases ht
  | cons seg segs ih =>
    rw [List.pairwise_cons] at hs
    rw [List.dropWhile_cons]
    split_ifs with hg
    · exact ih hs.2 (fun t ht => hpos t (List.mem_cons_of_mem _ ht))
        (fun t ht => hgone t (List.mem_cons_of_mem _ ht))
    · have hseg : y < seg.stop := by
        by_contra hle
        exact hg ((hgone seg List.mem_cons_self).mpr (by omega))
      intro t ht
      rcases List.mem_cons.mp ht with rfl | htm
      · exact hseg
      · have hb : seg.stop ≤ t.pos := hs.1 t htm
        have := hpos t ht
        omega

theorem clen_dropWhile (gone : TcpSeg → Bool) (segs : List TcpSeg) :
    clen (segs.takeWhile gone) + clen (segs.dropWhile gone) = clen segs := by
  rw [← clen_append, List.takeWhile_append_dropWhile]

/-- **The rule for steps that take segments away**: `l'` bytes are acknowledged now. -/
theorem Inv.acked (h : Inv iss l s pcb) {l' : ℕ} (hl : l' ≤ s)
    (hlastack : pcb'.lastack = seq iss (1 + l')) (hnxt : pcb'.sndNxt = pcb.sndNxt)
    (hlbb : pcb'.sndLbb = pcb.sndLbb) (hwritten : pcb'.written = pcb.written)
    (hbuf : pcb'.sndBuf + pcb.written.length = tcpSndBuf + l') (hmss : pcb'.mss = pcb.mss)
    (hmax : pcb'.sndWndMax = pcb.sndWndMax) (hunacked : pcb'.unacked <:+ pcb.unacked)
    (hunsent : pcb'.unsent <:+ pcb.unsent) (hstop : ∀ seg ∈ pcb'.queued, l' < seg.stop)
    (hlen : pcb'.sndQueuelen = clen pcb'.queued) (hshort : pcb'.sndQueuelen ≤ pcb.sndQueuelen)
    (hover : pcb'.unsent ≠ [] → pcb'.unsentOversize = pcb.unsentOversize) : Inv iss l' s pcb' := by
  have hlocal : pcb'.mssLocal = pcb.mssLocal := by
    unfold Pcb.mssLocal
    rw [hmss, hmax]
  refine ⟨hlastack, hnxt.trans h.sndNxt, by rw [hlbb, hwritten, h.sndLbb], hl,
    by rw [hwritten]; exact h.sent_le, by rw [hwritten]; exact hbuf, hmss.trans_le h.mss, ?_,
    h.unacked.sublist hunacked.sublist, h.unsent.sublist hunsent.sublist,
    fun u hu v hv => h.apart u (hunacked.mem hu) v (hunsent.mem hv),
    fun u hu => h.sent u (hunacked.mem hu), hlen, hshort.trans h.short, fun v hv => ?_⟩
  · intro seg hseg
    rw [hlocal, hwritten]
    refine ⟨(h.placed seg ?_).1, hstop seg hseg⟩
    rcases List.mem_append.mp hseg with hm | hm
    · exact Inv.mem_unacked (hunacked.mem hm)
    · exact Inv.mem_unsent (hunsent.mem hm)
  · have hne : pcb'.unsent ≠ [] := by
      intro hnil
      rw [hnil] at hv
      cases hv
    obtain ⟨t, ht⟩ := hunsent
    rw [hover hne, hlocal]
    refine h.oversize v ?_
    rw [← ht, List.getLast?_append, hv, Option.some_or]

/-- `ackno` is less than half of the sequence space from what has been acknowledged. -/
def Sane (pcb : Pcb) (ackno : U32) : Prop :=
  -2 ^ 30 ≤ (ackno - pcb.lastack).toInt ∧ (ackno - pcb.lastack).toInt ≤ 2 ^ 30

theorem Placed.stop_eq (h : Placed iss m n seg) :
    seg.seqno + BitVec.ofNat 32 seg.len = seq iss (1 + seg.stop) := by
  rw [h.seqno, seq_add_nat]
  unfold TcpSeg.stop
  push_cast
  rw [add_assoc]

theorem Inv.isNew_iff (h : Inv iss l s pcb) {y : ℤ} (hlo : -2 ^ 31 ≤ y - l)
    (hhi : y - l < 2 ^ 31) :
    leq (seq iss (1 + y)) pcb.lastack = false ∧
        between (seq iss (1 + y)) (pcb.lastack + 1) pcb.sndNxt = true ↔
      l < y ∧ y ≤ s := by
  have hls := h.acked_le
  have hsn := h.sent_le
  have hbuf := h.sndBuf
  have hone : pcb.lastack + 1 = seq iss (1 + l + 1) := by
    rw [h.lastack]
    exact seq_add_nat iss (1 + l) 1
  have hleq : leq (seq iss (1 + y)) pcb.lastack = true ↔ y ≤ l := by
    rw [h.lastack, leq_seq (by decide) (by omega) (by omega)]
    omega
  unfold tcpSndBuf at hbuf
  by_cases hy : y ≤ l
  · rw [hleq.mpr hy]
    constructor
    · rintro ⟨hf, -⟩
      cases hf
    · omega
  · have hfalse : leq (seq iss (1 + y)) pcb.lastack = false := by
      rw [Bool.eq_false_iff]
      exact fun hc => hy (hleq.mp hc)
    rw [hfalse, hone, h.sndNxt, between_seq (by decide) (by omega) (by omega) (by omega) (by omega),
      and_iff_right rfl]
    omega

/-- What `newData` changes. -/
structure NewData (pcb pcb' : Pcb) (ackno : U32) : Prop where
  lastack : pcb'.lastack = ackno
  sndBuf : pcb'.sndBuf = (pcb.sndBuf + (ackno - pcb.lastack).toNat % 65536) % 65536
  unacked : pcb'.unacked = pcb.unacked.dropWhile (·.ackedBy ackno)
  sndQueuelen : pcb'.sndQueuelen =
    pcb.sndQueuelen - clen (pcb.unacked.takeWhile (·.ackedBy ackno))
  unsent : pcb'.unsent = pcb.unsent
  unsentOversize : pcb'.unsentOversize = pcb.unsentOversize
  sndNxt : pcb'.sndNxt = pcb.sndNxt
  sndLbb : pcb'.sndLbb = pcb.sndLbb
  mss : pcb'.mss = pcb.mss
  sndWndMax : pcb'.sndWndMax = pcb.sndWndMax
  written : pcb'.written = pcb.written

theorem SameQueues.refl (pcb : Pcb) : SameQueues pcb pcb :=
  ⟨Kept.refl pcb, rfl, rfl, rfl, rfl⟩

theorem inflate_sameQueues (pcb : Pcb) : SameQueues pcb (inflate pcb) := by
  unfold inflate
  dsimp only
  split_ifs
  · exact ⟨⟨rfl, rfl, rfl, rfl, rfl, rfl, rfl⟩, rfl, rfl, rfl, rfl⟩
  · exact SameQueues.refl pcb

theorem openCwnd_sameQueues (pcb : Pcb) : SameQueues pcb (openCwnd pcb) := by
  unfold openCwnd
  dsimp only
  split_ifs
  · exact inflate_sameQueues pcb
  · exact ⟨⟨rfl, rfl, rfl, rfl, rfl, rfl, rfl⟩, rfl, rfl, rfl, rfl⟩
  · exact SameQueues.refl pcb

theorem newData_spec (pcb : Pcb) (seg : Incoming) : NewData pcb (newData pcb seg) seg.ackno := by
  have hsame : ∃ pcb₁, pcb₁ = (if pcb.infr then { pcb with infr := false, cwnd := pcb.ssthresh }
      else pcb) ∧ SameQueues pcb pcb₁ := by
    refine ⟨_, rfl, ?_⟩
    split_ifs <;> exact ⟨⟨rfl, rfl, rfl, rfl, rfl, rfl, rfl⟩, rfl, rfl, rfl, rfl⟩
  obtain ⟨pcb₁, hpcb₁, hs₁⟩ := hsame
  unfold newData
  dsimp only
  rw [← hpcb₁]
  have hs := openCwnd_sameQueues { pcb₁ with
    acked := (seg.ackno - pcb₁.lastack).toNat % 65536
    sndBuf := (pcb₁.sndBuf + (seg.ackno - pcb₁.lastack).toNat % 65536) % 65536
    dupacks := 0
    lastack := seg.ackno }
  generalize openCwnd _ = pcb₂ at hs
  refine ⟨hs.lastack, ?_, ?_, ?_, hs.unsent.trans hs₁.unsent,
    hs.unsentOversize.trans hs₁.unsentOversize, hs.sndNxt.trans hs₁.sndNxt,
    hs.sndLbb.trans hs₁.sndLbb, hs.mss.trans hs₁.mss, hs.sndWndMax.trans hs₁.sndWndMax,
    hs.written.trans hs₁.written⟩
  · rw [← hs₁.sndBuf, ← hs₁.lastack]
    exact hs.sndBuf
  · dsimp only
    rw [hs.unacked, ← hs₁.unacked]
  · dsimp only
    rw [hs.sndQueuelen, hs.unacked, ← hs₁.unacked, ← hs₁.sndQueuelen]

theorem mem_dropWhile_of_not {gone : TcpSeg → Bool} (hseg : seg ∈ segs) (hg : gone seg = false) :
    seg ∈ segs.dropWhile gone := by
  rw [← List.takeWhile_append_dropWhile (p := gone) (l := segs)] at hseg
  rcases List.mem_append.mp hseg with hm | hm
  · rw [List.mem_takeWhile_imp hm] at hg
    cases hg
  · exact hm

theorem Inv.ackedBy_iff (h : Inv iss l s pcb) {ackno : U32} {y : ℕ}
    (hack : ackno = seq iss (1 + y)) (hl : l ≤ y) (hs : y ≤ s) (hseg : seg ∈ pcb.queued) :
    (seg.ackedBy ackno = true ↔ seg.stop ≤ y) ∧
      (seg.ackedUpTo ackno pcb.sndNxt = true ↔ seg.stop ≤ y) := by
  have hnear := h.near hseg
  have hsn := h.sent_le
  have hbuf := h.sndBuf
  unfold tcpSndBuf at hbuf
  unfold TcpSeg.ackedBy TcpSeg.ackedUpTo
  rw [(h.placed seg hseg).1.stop_eq, hack, h.sndNxt, leq_seq (by decide) (by omega) (by omega),
    between_seq (by decide) (by omega) (by omega) (by omega) (by omega)]
  omega

/-- What is left of the queues after an ACK for new data. -/
structure Remaining (pcb pcb' : Pcb) (ackno : U32) : Prop where
  unacked : pcb'.unacked = pcb.unacked.dropWhile (·.ackedBy ackno)
  unsent : pcb'.unsent = pcb.unsent.dropWhile (·.ackedUpTo ackno pcb.sndNxt)
  sndQueuelen : pcb'.sndQueuelen =
    pcb.sndQueuelen - clen (pcb.unacked.takeWhile (·.ackedBy ackno)) -
      clen (pcb.unsent.takeWhile (·.ackedUpTo ackno pcb.sndNxt))
  unsentOversize : pcb'.unsentOversize =
    if pcb'.unsent = [] ∧ pcb.unsent ≠ [] then 0 else pcb.unsentOversize

theorem remaining_newData (pcb : Pcb) (x : Incoming) :
    Remaining pcb (ackUnsent (newData pcb x) x) x.ackno := by
  have hd := newData_spec pcb x
  generalize newData pcb x = pcb₁ at hd
  have hunsent : (ackUnsent pcb₁ x).unsent =
      pcb.unsent.dropWhile (·.ackedUpTo x.ackno pcb.sndNxt) := by
    unfold ackUnsent
    dsimp only
    rw [hd.unsent, hd.sndNxt]
  refine ⟨hd.unacked, hunsent, ?_, ?_⟩
  · unfold ackUnsent
    dsimp only
    rw [hd.sndQueuelen, hd.unsent, hd.sndNxt]
  · rw [hunsent]
    unfold ackUnsent
    dsimp only
    rw [hd.unsent, hd.sndNxt, hd.unsentOversize]

section
variable {ackno : U32} {l' : ℕ}

theorem Remaining.subset (hr : Remaining pcb pcb' ackno) (hseg : seg ∈ pcb'.queued) :
    seg ∈ pcb.queued := by
  unfold Pcb.queued at hseg
  rw [hr.unacked, hr.unsent] at hseg
  rcases List.mem_append.mp hseg with hm | hm
  · exact Inv.mem_unacked ((List.dropWhile_suffix _).mem hm)
  · exact Inv.mem_unsent ((List.dropWhile_suffix _).mem hm)

theorem Remaining.lt_stop (hr : Remaining pcb pcb' ackno) (h : Inv iss l s pcb)
    (hack : ackno = seq iss (1 + l')) (hl : l ≤ l') (hs : l' ≤ s) (hseg : seg ∈ pcb'.queued) :
    l' < seg.stop := by
  unfold Pcb.queued at hseg
  rw [hr.unacked, hr.unsent] at hseg
  rcases List.mem_append.mp hseg with hm | hm
  · exact lt_stop_of_dropWhile h.unacked (fun t ht => (h.near (Inv.mem_unacked ht)).2.2.1)
      (fun t ht => (h.ackedBy_iff hack hl hs (Inv.mem_unacked ht)).1) seg hm
  · exact lt_stop_of_dropWhile h.unsent (fun t ht => (h.near (Inv.mem_unsent ht)).2.2.1)
      (fun t ht => (h.ackedBy_iff hack hl hs (Inv.mem_unsent ht)).2) seg hm

theorem Remaining.mem (hr : Remaining pcb pcb' ackno) (h : Inv iss l s pcb)
    (hack : ackno = seq iss (1 + l')) (hl : l ≤ l') (hs : l' ≤ s) (hseg : seg ∈ pcb.queued)
    (hstop : l' < seg.stop) : seg ∈ pcb'.queued := by
  obtain ⟨h₁, h₂⟩ := h.ackedBy_iff hack hl hs hseg
  unfold Pcb.queued
  rw [hr.unacked, hr.unsent]
  rcases List.mem_append.mp hseg with hm | hm
  · refine List.mem_append_left _ (mem_dropWhile_of_not hm ?_)
    exact Bool.eq_false_iff.mpr fun hc => by have := h₁.mp hc; omega
  · refine List.mem_append_right _ (mem_dropWhile_of_not hm ?_)
    exact Bool.eq_false_iff.mpr fun hc => by have := h₂.mp hc; omega

theorem Remaining.queuelen (hr : Remaining pcb pcb' ackno) (h : pcb.sndQueuelen = clen pcb.queued) :
    pcb'.sndQueuelen = clen pcb'.queued ∧ pcb'.sndQueuelen ≤ pcb.sndQueuelen := by
  have h₁ := clen_dropWhile (·.ackedBy ackno) pcb.unacked
  have h₂ := clen_dropWhile (·.ackedUpTo ackno pcb.sndNxt) pcb.unsent
  have hq := hr.sndQueuelen
  unfold Pcb.queued at h ⊢
  rw [clen_append] at h
  rw [hr.unacked, hr.unsent, clen_append]
  omega

end

/-- **An ACK for new data**, through both queues: what it acknowledges is removed. -/
theorem newData_ackUnsent (h : Inv iss l s pcb) (ht : Tidy pcb) {x : Incoming} {l' : ℕ}
    (hack : x.ackno = seq iss (1 + l')) (hl : l < l') (hs : l' ≤ s) :
    Inv iss l' s (ackUnsent (newData pcb x) x) ∧ Tidy (ackUnsent (newData pcb x) x) ∧
      (Holds l pcb → Holds l' (ackUnsent (newData pcb x) x)) := by
  have hd := newData_spec pcb x
  have hr := remaining_newData pcb x
  obtain ⟨hlen, hshort⟩ := hr.queuelen h.queuelen
  have hacked : (x.ackno - pcb.lastack).toNat = l' - l := by
    have hsn := h.sent_le
    have hbuf := h.sndBuf
    unfold tcpSndBuf at hbuf
    have := toNat_seq_sub (s := iss) (x := 1 + l') (y := 1 + l) (by omega) (by omega)
    rw [hack, h.lastack]
    omega
  refine ⟨h.acked hs (hd.lastack.trans hack) hd.sndNxt hd.sndLbb hd.written ?_ hd.mss hd.sndWndMax
    ?_ ?_ (fun t htm => hr.lt_stop h hack hl.le hs htm) hlen hshort ?_, ?_, fun hh => ⟨?_, ?_⟩⟩
  · have hb : (ackUnsent (newData pcb x) x).sndBuf = _ := hd.sndBuf
    have hbuf := h.sndBuf
    have hsn := h.sent_le
    unfold tcpSndBuf at hbuf ⊢
    rw [hb, hacked]
    omega
  · rw [hr.unacked]
    exact List.dropWhile_suffix _
  · rw [hr.unsent]
    exact List.dropWhile_suffix _
  · intro hne
    rw [hr.unsentOversize, if_neg fun hc => hne hc.1]
  · intro hnil
    rw [hr.unsentOversize]
    by_cases hne : pcb.unsent = []
    · rw [if_neg fun hc => hc.2 hne]
      exact ht hne
    · rw [if_pos ⟨hnil, hne⟩]
  · intro t htm
    have hw : (ackUnsent (newData pcb x) x).written = pcb.written := hd.written
    rw [hw]
    exact hh.data t (hr.subset htm)
  · intro y hy hn
    have hw : (ackUnsent (newData pcb x) x).written = pcb.written := hd.written
    rw [hw] at hn
    obtain ⟨t, htm, hlo, hhi⟩ := hh.cover y (by omega) hn
    exact ⟨t, hr.mem h hack hl.le hs htm (by omega), hlo, hhi⟩

/-- **Any other ACK**, at the unsent queue. -/
theorem ackUnsent_old (h : Inv iss l s pcb) (ht : Tidy pcb) (x : Incoming) :
    Inv iss l s (ackUnsent pcb x) ∧ Tidy (ackUnsent pcb x) := by
  have hquelen := h.queuelen
  have hsuf : (ackUnsent pcb x).unsent <:+ pcb.unsent := List.dropWhile_suffix _
  refine ⟨h.acked h.acked_le h.lastack rfl rfl rfl h.sndBuf rfl rfl (List.suffix_refl _) hsuf
    (fun t htm => ?_) ?_ (Nat.sub_le _ _) ?_, ?_⟩
  · refine (h.placed t ?_).2
    rcases List.mem_append.mp htm with hm | hm
    · exact Inv.mem_unacked hm
    · exact Inv.mem_unsent (hsuf.mem hm)
  · have h₁ := clen_dropWhile (·.ackedUpTo x.ackno pcb.sndNxt) pcb.unsent
    unfold Pcb.queued at hquelen ⊢
    rw [clen_append] at hquelen
    unfold ackUnsent
    dsimp only
    rw [clen_append]
    omega
  · intro hne
    exact if_neg fun hc => hne hc.1
  · intro hnil
    unfold ackUnsent at hnil ⊢
    dsimp only at hnil ⊢
    by_cases hne : pcb.unsent = []
    · rw [if_neg fun hc => hc.2 hne]
      exact ht hne
    · rw [if_pos ⟨hnil, hne⟩]

/-- An ACK that is sane, but not for new data, removes nothing from the unsent queue. -/
theorem ackUnsent_keeps (h : Inv iss l s pcb) {x : Incoming} {y : ℤ}
    (hack : x.ackno = seq iss (1 + y)) (hlo : l - y ≤ 2 ^ 30) (hhi : y - l ≤ 2 ^ 30)
    (hold : ¬ (l < y ∧ y ≤ s)) (hh : Holds l pcb) : Holds l (ackUnsent pcb x) := by
  have hls := h.acked_le
  have hsn := h.sent_le
  have hbuf := h.sndBuf
  unfold tcpSndBuf at hbuf
  have hunsent : (ackUnsent pcb x).unsent = pcb.unsent := by
    unfold ackUnsent
    dsimp only
    cases hu : pcb.unsent with
    | nil => rfl
    | cons t rest =>
      have htm : t ∈ pcb.queued := Inv.mem_unsent (by rw [hu]; exact List.mem_cons_self)
      have hnear := h.near htm
      obtain ⟨hp, hl⟩ := h.placed t htm
      refine List.dropWhile_cons_of_neg ?_
      unfold TcpSeg.ackedUpTo
      rw [hp.stop_eq, hack, h.sndNxt,
        between_seq (by decide) (by omega) (by omega) (by omega) (by omega)]
      omega
  have hqueued : (ackUnsent pcb x).queued = pcb.queued := by
    unfold Pcb.queued
    rw [hunsent]
    rfl
  refine ⟨?_, ?_⟩
  · rw [hqueued]
    exact hh.data
  · rw [hqueued]
    exact hh.cover

theorem Sane.exists_seq (h : Inv iss l s pcb) {ackno : U32} (hs : Sane pcb ackno) :
    ∃ y : ℤ, ackno = seq iss (1 + y) ∧ l - y ≤ 2 ^ 30 ∧ y - l ≤ 2 ^ 30 := by
  obtain ⟨z, hz, hlo, hhi⟩ := Lib.SeqNo.exists_seq iss ackno (1 + l)
  unfold Sane at hs
  rw [hz, h.lastack, toInt_seq_sub (by decide) hlo hhi] at hs
  refine ⟨z - 1, ?_, by omega, by omega⟩
  rw [add_sub_cancel]
  exact hz

/-- Duplicate ACKs: at most, the first unacked segment is moved. -/
theorem noNewData_spec (h : Inv iss l s pcb) (ht : Tidy pcb) (x : Incoming) (edge : U32) :
    Moved iss l s pcb (noNewData pcb x edge) := by
  have hsame : ∀ {q q' : Pcb}, Moved iss l s pcb q → SameQueues q q' → Moved iss l s pcb q' :=
    fun hm hq => hm.trans (hm.inv.same hm.tidy hq)
  have h₁ : ∀ n, Moved iss l s pcb { pcb with acked := 0, dupacks := n } :=
    fun n => h.same ht ⟨⟨rfl, rfl, rfl, rfl, rfl, rfl, rfl⟩, rfl, rfl, rfl, rfl⟩
  unfold noNewData
  dsimp only
  generalize (if pcb.dupacks < 255 then pcb.dupacks + 1 else pcb.dupacks) = n
  split_ifs
  · exact hsame (h₁ n) (inflate_sameQueues _)
  · exact (h₁ n).trans (tcpRexmitFast_spec (h₁ n).inv (h₁ n).tidy)
  · exact h₁ n
  · exact h₁ 0

/-- The window of the peer may only allow larger segments than before. -/
theorem updateWindow_spec (h : Inv iss l s pcb) (ht : Tidy pcb) (x : Incoming) :
    Inv iss l s (updateWindow pcb x) ∧ Tidy (updateWindow pcb x) ∧
      (Holds l pcb → Holds l (updateWindow pcb x)) ∧
      (updateWindow pcb x).mss = pcb.mss ∧ (updateWindow pcb x).written = pcb.written ∧
      (updateWindow pcb x).lastack = pcb.lastack := by
  unfold updateWindow
  by_cases hup : lt pcb.sndWl1 x.seqno ∨ (pcb.sndWl1 = x.seqno ∧ lt pcb.sndWl2 x.ackno) ∨
      (pcb.sndWl2 = x.ackno ∧ pcb.sndWnd < x.wnd)
  · rw [if_pos hup]
    have hmax : pcb.sndWndMax ≤ if pcb.sndWndMax < x.wnd then x.wnd else pcb.sndWndMax := by
      split_ifs <;> omega
    generalize (if pcb.sndWndMax < x.wnd then x.wnd else pcb.sndWndMax) = sndWndMax at hmax
    have hle : pcb.mssLocal ≤ min pcb.mss (sndWndMax / 2) :=
      min_le_min_left _ (Nat.div_le_div_right hmax)
    refine ⟨⟨h.lastack, h.sndNxt, h.sndLbb, h.acked_le, h.sent_le, h.sndBuf, h.mss, ?_, h.unacked,
      h.unsent, h.apart, h.sent, h.queuelen, h.short, ?_⟩, ht, fun hh => ⟨hh.data, hh.cover⟩, rfl,
      rfl, rfl⟩
    · intro seg hseg
      obtain ⟨hp, hl⟩ := h.placed seg hseg
      exact ⟨hp.mono hle le_rfl, hl⟩
    · intro v hv
      obtain ⟨h₁, h₂⟩ := h.oversize v hv
      exact ⟨h₁, h₂.trans hle⟩
  · rw [if_neg hup]
    exact ⟨h, ht, id, rfl, rfl, rfl⟩

/-- **`tcp_receive`**: an ACK moves `lastack` forward, if at all, to a byte that has been sent. As
long as ACKs are sane, nothing is forgotten that they do not acknowledge. -/
theorem tcpReceive_spec (h : Inv iss l s pcb) (ht : Tidy pcb) (x : Incoming) :
    ∃ l', l ≤ l' ∧ Inv iss l' s (tcpReceive pcb x) ∧ Tidy (tcpReceive pcb x) ∧
      (tcpReceive pcb x).written = pcb.written ∧ (tcpReceive pcb x).mss = pcb.mss ∧
      (l' = l ∨ x.ackno = seq iss (1 + l')) ∧
      (Sane pcb x.ackno → Holds l pcb → Holds l' (tcpReceive pcb x)) := by
  obtain ⟨hi, htidy, hholds, hmss, hwritten, hlastack⟩ := updateWindow_spec h ht x
  have hsane : Sane pcb x.ackno → Sane (updateWindow pcb x) x.ackno := by
    unfold Sane
    rw [hlastack]
    exact id
  unfold tcpReceive
  dsimp only
  generalize updateWindow pcb x = pcb₁ at *
  obtain ⟨z, hz, hlo, hhi⟩ := Lib.SeqNo.exists_seq iss x.ackno (1 + l)
  -- an ACK that is no news
  have hold : ∀ pcb₂, Moved iss l s pcb₁ pcb₂ →
      ¬ (leq x.ackno pcb₁.lastack = false ∧
        between x.ackno (pcb₁.lastack + 1) pcb₁.sndNxt = true) →
      ∃ l', l ≤ l' ∧ Inv iss l' s (ackUnsent pcb₂ x) ∧ Tidy (ackUnsent pcb₂ x) ∧
        (ackUnsent pcb₂ x).written = pcb.written ∧ (ackUnsent pcb₂ x).mss = pcb.mss ∧
        (l' = l ∨ x.ackno = seq iss (1 + l')) ∧
        (Sane pcb x.ackno → Holds l pcb → Holds l' (ackUnsent pcb₂ x)) := by
    intro pcb₂ hm hno
    obtain ⟨hi₂, ht₂⟩ := ackUnsent_old hm.inv hm.tidy x
    refine ⟨l, le_rfl, hi₂, ht₂, hm.kept.written.trans hwritten, hm.kept.mss.trans hmss, Or.inl rfl,
      fun hs hh => ?_⟩
    obtain ⟨y, hy, hylo, hyhi⟩ := (hsane hs).exists_seq hi
    refine ackUnsent_keeps hm.inv hy hylo hyhi (fun hc => hno ?_)
      ((hholds hh).moved hm.kept hm.perm)
    rw [hy]
    exact (hi.isNew_iff (by omega) (by omega)).mpr hc
  cases hleq : leq x.ackno pcb₁.lastack with
  | true =>
    rw [if_pos rfl]
    exact hold _ (noNewData_spec hi htidy x _) (by simp [hleq])
  | false =>
    rw [if_neg Bool.false_ne_true]
    split_ifs with hbetween
    · have hnew := (hi.isNew_iff (y := z - 1) (by omega) (by omega)).mp
        ⟨by rwa [add_sub_cancel, ← hz], by rwa [add_sub_cancel, ← hz]⟩
      obtain ⟨l', rfl⟩ : ∃ l' : ℕ, z = 1 + l' := ⟨(z - 1).toNat, by omega⟩
      obtain ⟨hi', ht', hh'⟩ := newData_ackUnsent hi htidy hz (by omega) (by omega)
      have hd := newData_spec pcb₁ x
      exact ⟨l', by omega, hi', ht', hd.written.trans hwritten, hd.mss.trans hmss, Or.inr hz,
        fun _ hh => hh' (hholds hh)⟩
    · exact hold _ (hi.same htidy
        ⟨⟨rfl, rfl, rfl, rfl, rfl, rfl, rfl⟩, rfl, rfl, rfl, rfl⟩) (fun hc => hbetween hc.2)

end

end Stm32TcpServer.Lwip.TcpOut
