import Stm32TcpServer.Lib.Runs
import Stm32TcpServer.Lwip.TcpWrite

/-! # The data that a connection sends, over any run

The application writes, `tcp_output` is called, segments arrive and timers run out, in any order. What
arrives need not make sense.

* `books_kept`: whatever arrives, `snd_buf` and `snd_queuelen` are what is free and what is queued, the
  numbers of a connection stay in order, and `unsent_oversize` is room that there is.
* `sent_genuine`: as long as acknowledgments are sane, every segment that is sent has the bytes that
  belong to its number.
* `nothing_forgotten`: and every byte that has been accepted and not been acknowledged is in exactly
  one segment on the queues. -/

namespace Stm32TcpServer.Lwip.TcpOut

open Stm32TcpServer.Lib.Runs Stm32TcpServer.Lib.SeqNo Stm32TcpServer.Lib.Window
open Stm32TcpServer.Lwip.Pbuf

/-- **A connection**, with the segments with data that it has sent, the oldest one first. -/
structure Conn where
  pcb : Pcb
  wire : List Wire
  deriving DecidableEq

/-- What happens to a connection: the application writes, `tcp_output` is called, a segment arrives,
the retransmission timer or the persist timer runs out. -/
inductive Event
  | write (mem : Bool) (arg : List UInt8)
  | output (ackNow : Bool)
  | receive (seg : Incoming)
  | rexmit (ackNow : Bool)
  | persist

/-- **One step.** -/
def step (c : Conn) : Event → Option Conn
  | .write mem arg => some { c with pcb := (tcpWrite mem c.pcb arg).1 }
  | .output ackNow =>
    let r := tcpOutput ackNow c.pcb
    some ⟨r.1, c.wire ++ r.2⟩
  | .receive seg => some { c with pcb := tcpReceive c.pcb seg }
  | .rexmit ackNow =>
    let r := tcpRexmitRto ackNow c.pcb
    some ⟨r.1, c.wire ++ r.2⟩
  | .persist => some { c with wire := c.wire ++ tcpZeroWindowProbe c.pcb }

/-- The handshake is over: nothing has been written, and the SYN is acknowledged. -/
structure Fresh (iss : U32) (pcb : Pcb) : Prop where
  sndNxt : pcb.sndNxt = seq iss 1
  lastack : pcb.lastack = seq iss 1
  sndLbb : pcb.sndLbb = seq iss 1
  mss_pos : 0 < pcb.mss
  mss : pcb.mss ≤ tcpMss
  cwnd : pcb.mss ≤ pcb.cwnd ∧ pcb.cwnd < 65536
  infr : pcb.infr = false
  sndBuf : pcb.sndBuf = tcpSndBuf
  sndQueuelen : pcb.sndQueuelen = 0
  unsentOversize : pcb.unsentOversize = 0
  unsent : pcb.unsent = []
  unacked : pcb.unacked = []
  written : pcb.written = []

/-- The application writes and the retransmission timer runs out only while no segment of a fast
retransmit is held back. -/
def Timely (c : Conn) : Event → Prop
  | .write _ _ | .rexmit _ => InOrder c.pcb
  | _ => True

/-- Besides, acknowledgments are sane. -/
def Orderly (c : Conn) : Event → Prop
  | .receive seg => Sane c.pcb seg.ackno
  | e => Timely c e

instance (pcb : Pcb) : Decidable (InOrder pcb) :=
  inferInstanceAs (Decidable (∀ u ∈ pcb.unacked.getLast?, ∀ v ∈ pcb.unsent.head?, _))

instance (c : Conn) : ∀ e : Event, Decidable (Timely c e)
  | .write _ _ | .rexmit _ => inferInstanceAs (Decidable (InOrder c.pcb))
  | .output _ | .receive _ | .persist => instDecidableTrue

instance (c : Conn) : ∀ e : Event, Decidable (Orderly c e)
  | .receive _ => inferInstanceAs (Decidable (_ ∧ _))
  | .write mem arg => inferInstanceAs (Decidable (Timely c (.write mem arg)))
  | .output ackNow => inferInstanceAs (Decidable (Timely c (.output ackNow)))
  | .rexmit ackNow => inferInstanceAs (Decidable (Timely c (.rexmit ackNow)))
  | .persist => inferInstanceAs (Decidable (Timely c .persist))

/-- The state after the handshake: the peer has announced the window `wnd`. -/
def Pcb.init (iss : U32) (mss wnd : ℕ) : Pcb where
  mss := mss
  sndNxt := seq iss 1
  lastack := seq iss 1
  sndLbb := seq iss 1
  sndWnd := wnd
  sndWndMax := wnd
  sndWl1 := 0
  sndWl2 := seq iss 1
  cwnd := 2 * mss
  ssthresh := 10 * mss
  sndBuf := tcpSndBuf
  sndQueuelen := 0
  unsentOversize := 0
  unsent := []
  unacked := []
  acked := 0
  dupacks := 0
  rtime := false
  infr := false
  nagleMemErr := false
  written := []

theorem fresh_init (iss : U32) {mss : ℕ} (wnd : ℕ) (hpos : 0 < mss) (hle : mss ≤ tcpMss) :
    Fresh iss (Pcb.init iss mss wnd) :=
  ⟨rfl, rfl, rfl, hpos, hle, ⟨by unfold Pcb.init; dsimp only; omega,
    by unfold Pcb.init tcpMss at *; dsimp only; omega⟩, rfl, rfl, rfl, rfl, rfl, rfl, rfl⟩

section
variable {iss : U32} {l s m : ℕ} {pcb : Pcb} {c c' : Conn} {e : Event}

theorem Orderly.timely (c : Conn) (e : Event) (h : Orderly c e) : Timely c e := by
  cases e with
  | receive seg => trivial
  | write mem arg => exact h
  | output ackNow => exact h
  | rexmit ackNow => exact h
  | persist => exact h

theorem Fresh.inv (h : Fresh iss pcb) : Inv iss 0 0 pcb ∧ Tidy pcb ∧ Holds 0 pcb := by
  have hqueued : pcb.queued = [] := by
    unfold Pcb.queued
    rw [h.unacked, h.unsent, List.append_nil]
  refine ⟨⟨by simpa using h.lastack, by simpa using h.sndNxt, ?_, le_rfl, Nat.zero_le _, ?_, h.mss,
    ?_, ?_, ?_, ?_, ?_, ?_, ?_, ?_⟩, fun _ => h.unsentOversize, ?_, ?_⟩
  · rw [h.written]
    simpa using h.sndLbb
  · rw [h.written, h.sndBuf]
    rfl
  · rw [hqueued]
    intro seg hseg
    cases hseg
  · rw [h.unacked]
    exact List.Pairwise.nil
  · rw [h.unsent]
    exact List.Pairwise.nil
  · rw [h.unacked]
    intro u hu
    cases hu
  · rw [h.unacked]
    intro u hu
    cases hu
  · rw [hqueued, h.sndQueuelen]
    rfl
  · rw [h.sndQueuelen]
    exact Nat.zero_le _
  · rw [h.unsent]
    intro v hv
    cases hv
  · rw [hqueued]
    intro seg hseg
    cases hseg
  · rw [h.written]
    intro x _ hx
    exact absurd hx (Nat.not_lt_zero x)

theorem Genuine.mono {w : Wire} {m' : ℕ} {written written' : List UInt8}
    (h : Genuine iss m written w) (hm : m ≤ m') (hw : written <+: written') :
    Genuine iss m' written' w := by
  obtain ⟨hseqno, hle, hdata, hlen⟩ := h
  obtain ⟨more, rfl⟩ := hw
  refine ⟨hseqno, ?_, ?_, hlen.trans hm⟩
  · rw [List.length_append]
    omega
  · rw [window_append_left more hle]
    exact hdata

theorem tcpZeroWindowProbe_spec (h : Inv iss l s pcb) (hh : Holds l pcb) :
    ∀ w ∈ tcpZeroWindowProbe pcb, Genuine iss pcb.mssLocal pcb.written w := by
  intro w hw
  unfold tcpZeroWindowProbe at hw
  rcases hhead : (pcb.unacked ++ pcb.unsent).head? with _ | seg
  · rw [hhead] at hw
    cases hw
  · rw [hhead] at hw
    obtain rfl := List.mem_singleton.mp hw
    have hseg : seg ∈ pcb.queued := List.mem_of_head? hhead
    obtain ⟨hp, -⟩ := h.placed seg hseg
    have hpos := hp.pos
    have hstop := hp.stop
    have hle := hp.le
    unfold TcpSeg.stop at hstop
    have hone : (window seg.p.flatten 0 1).length = 1 := length_window (by rw [hp.len]; omega)
    rw [hp.len, Nat.sub_self]
    refine ⟨hp.seqno, ?_, ?_, ?_⟩ <;> dsimp only <;> rw [hone]
    · omega
    · rw [hh.data seg hseg, window_window _ _ (by omega), Nat.add_zero]
    · omega

/-- What one step leads to. -/
structure Led (iss : U32) (l l' s' : ℕ) (c c' : Conn) : Prop where
  forward : l ≤ l'
  inv : Inv iss l' s' c'.pcb
  tidy : Tidy c'.pcb
  mss : c'.pcb.mss = c.pcb.mss
  written : c.pcb.written <+: c'.pcb.written

theorem Moved.led {c' : Conn} (h : Moved iss l s c.pcb c'.pcb) : Led iss l l s c c' :=
  ⟨le_rfl, h.inv, h.tidy, h.kept.mss, by rw [h.kept.written]⟩

/-- **One step** keeps the books; if acknowledgments are sane, it forgets nothing, and sends what is
genuine. -/
theorem step_spec (h : Inv iss l s c.pcb) (ht : Tidy c.pcb) (ho : Timely c e)
    (hs : step c e = some c') :
    ∃ l' s', Led iss l l' s' c c' ∧
      (l' = l ∨ ∃ seg, e = .receive seg ∧ seg.ackno = seq iss (1 + l')) ∧
      (Orderly c e → Holds l c.pcb → Holds l' c'.pcb ∧
        ∀ w ∈ c'.wire, w ∈ c.wire ∨ Genuine iss c.pcb.mss c.pcb.written w) := by
  have hlocal : c.pcb.mssLocal ≤ c.pcb.mss := min_le_left _ _
  cases e with
  | write mem arg =>
    obtain rfl := Option.some.inj hs
    rcases tcpWrite_spec h ho mem arg with hmem | ⟨pcb', heq, hg, hacc, htidy⟩
    · have hm : Moved iss l s c.pcb (tcpWrite mem c.pcb arg).1 := by
        rw [hmem]
        exact h.same ht ⟨⟨rfl, rfl, rfl, rfl, rfl, rfl, rfl⟩, rfl, rfl, rfl, rfl⟩
      exact ⟨l, s, Moved.led hm, Or.inl rfl,
        fun _ hh => ⟨hh.moved hm.kept hm.perm, fun w hw => Or.inl hw⟩⟩
    · refine ⟨l, s, ⟨le_rfl, ?_, ?_, ?_, ?_⟩, Or.inl rfl, fun _ hh => ⟨?_, fun w hw => Or.inl hw⟩⟩
        <;> dsimp only <;> rw [heq]
      · exact hacc.inv
      · exact htidy
      · exact hg.mss
      · rw [hg.written]
        exact List.prefix_append _ _
      · exact hacc.holds hh
  | output ackNow =>
    obtain rfl := Option.some.inj hs
    obtain ⟨s', -, hm, hout⟩ := tcpOutput_spec h ht ackNow
    refine ⟨l, s', Moved.led hm, Or.inl rfl, fun _ hh => ⟨hh.moved hm.kept hm.perm, fun w hw => ?_⟩⟩
    rcases List.mem_append.mp hw with hw | hw
    · exact Or.inl hw
    · exact Or.inr ((hout hh w hw).mono hlocal (List.prefix_refl _))
  | receive seg =>
    obtain rfl := Option.some.inj hs
    obtain ⟨l', hle, hi, ht', hwritten, hmss, hack, hhold⟩ := tcpReceive_spec h ht seg
    refine ⟨l', s, ⟨hle, hi, ht', hmss, by rw [hwritten]⟩, ?_,
      fun ho hh => ⟨hhold ho hh, fun w hw => Or.inl hw⟩⟩
    exact hack.imp id fun ha => ⟨seg, rfl, ha⟩
  | rexmit ackNow =>
    obtain rfl := Option.some.inj hs
    obtain ⟨s', -, hm, hout⟩ := tcpRexmitRto_spec h ht ho ackNow
    refine ⟨l, s', Moved.led hm, Or.inl rfl, fun _ hh => ⟨hh.moved hm.kept hm.perm, fun w hw => ?_⟩⟩
    rcases List.mem_append.mp hw with hw | hw
    · exact Or.inl hw
    · exact Or.inr ((hout hh w hw).mono hlocal (List.prefix_refl _))
  | persist =>
    obtain rfl := Option.some.inj hs
    refine ⟨l, s, ⟨le_rfl, h, ht, rfl, List.prefix_refl _⟩, Or.inl rfl,
      fun _ hh => ⟨hh, fun w hw => ?_⟩⟩
    rcases List.mem_append.mp hw with hw | hw
    · exact Or.inl hw
    · exact Or.inr ((tcpZeroWindowProbe_spec h hh w hw).mono hlocal (List.prefix_refl _))

/-- What is true in every state of a run whose acknowledgments are sane. -/
structure Sound (iss : U32) (m : ℕ) (c : Conn) : Prop where
  exists_inv : ∃ l s, Inv iss l s c.pcb ∧ Holds l c.pcb
  tidy : Tidy c.pcb
  mss : c.pcb.mss = m
  wire : ∀ w ∈ c.wire, Genuine iss m c.pcb.written w

theorem Fresh.sound (h : Fresh iss pcb) : Sound iss pcb.mss ⟨pcb, []⟩ := by
  obtain ⟨hi, ht, hh⟩ := h.inv
  exact ⟨⟨0, 0, hi, hh⟩, ht, rfl, fun w hw => by cases hw⟩

theorem sound_step (h : Sound iss m c) (ho : Orderly c e) (hs : step c e = some c') :
    Sound iss m c' := by
  obtain ⟨l, s, hi, hh⟩ := h.exists_inv
  obtain ⟨l', s', hled, -, hmore⟩ := step_spec hi h.tidy (ho.timely c e) hs
  obtain ⟨hh', hwire⟩ := hmore ho hh
  refine ⟨⟨l', s', hled.inv, hh'⟩, hled.tidy, hled.mss.trans h.mss, fun w hw => ?_⟩
  rcases hwire w hw with hw | hw
  · exact (h.wire w hw).mono le_rfl hled.written
  · rw [h.mss] at hw
    exact hw.mono le_rfl hled.written

/-- **Over a run.** -/
theorem sound_run {es : List Event} (h : Fresh iss pcb) (hG : Along step Orderly ⟨pcb, []⟩ es)
    (hr : run step ⟨pcb, []⟩ es = some c) : Sound iss pcb.mss c :=
  invariant (Sound iss pcb.mss) (fun _ _ _ h ho hs => sound_step h ho hs) h.sound hG hr

end

/-! ### The results -/

section
variable {iss : U32} {l s : ℕ} {pcb : Pcb}

/-- **The books of a connection.** -/
structure Books (pcb : Pcb) : Prop where
  /-- What is not acknowledged takes up the rest of the send buffer. -/
  sndBuf : pcb.sndBuf + (pcb.sndLbb - pcb.lastack).toNat = tcpSndBuf
  sent : (pcb.sndNxt - pcb.lastack).toNat ≤ (pcb.sndLbb - pcb.lastack).toNat
  /-- All pbufs on the queues are counted. -/
  queuelen : pcb.sndQueuelen = clen pcb.queued
  short : pcb.sndQueuelen ≤ tcpSndQueuelen
  nonempty : pcb.sndQueuelen = 0 ↔ pcb.unacked = [] ∧ pcb.unsent = []
  /-- The segments are not empty, not too long and not acknowledged, and hold what has been written. -/
  segs : ∀ seg ∈ pcb.queued, seg.p.flatten.length = seg.len ∧ 0 < seg.len ∧ seg.len ≤ pcb.mssLocal ∧
    0 < (seg.seqno + BitVec.ofNat 32 seg.len - pcb.lastack).toNat ∧
    (seg.seqno + BitVec.ofNat 32 seg.len - pcb.lastack).toNat ≤ (pcb.sndLbb - pcb.lastack).toNat
  /-- Both queues are sorted. -/
  unacked : pcb.unacked.Pairwise fun u v => leq (u.seqno + BitVec.ofNat 32 u.len) v.seqno = true
  unsent : pcb.unsent.Pairwise fun u v => leq (u.seqno + BitVec.ofNat 32 u.len) v.seqno = true
  /-- `unsent_oversize` is room behind the last unsent segment. -/
  oversize : ∀ v, pcb.unsent.getLast? = some v →
    pcb.unsentOversize ≤ v.left ∧ v.len + pcb.unsentOversize ≤ pcb.mssLocal
  tidy : pcb.unsent = [] → pcb.unsentOversize = 0

theorem Inv.books (h : Inv iss l s pcb) (ht : Tidy pcb) : Books pcb := by
  have hls := h.acked_le
  have hsn := h.sent_le
  have hbuf := h.sndBuf
  unfold tcpSndBuf at hbuf
  have hlbb := toNat_seq_sub (s := iss) (x := 1 + pcb.written.length) (y := 1 + l)
    (by omega) (by omega)
  have hnxt := toNat_seq_sub (s := iss) (x := 1 + s) (y := 1 + l) (by omega) (by omega)
  rw [← h.sndLbb, ← h.lastack] at hlbb
  rw [← h.sndNxt, ← h.lastack] at hnxt
  have hsorted : ∀ {segs : List TcpSeg}, segs.Pairwise Before → (∀ t ∈ segs, t ∈ pcb.queued) →
      segs.Pairwise fun u v => leq (u.seqno + BitVec.ofNat 32 u.len) v.seqno = true := by
    intro segs hp hin
    refine hp.imp_of_mem fun {u v} hu hv hb => ?_
    have hnu := h.near (hin u hu)
    have hnv := h.near (hin v hv)
    have hb' : u.stop ≤ v.pos := hb
    rw [(h.placed u (hin u hu)).1.stop_eq, (h.placed v (hin v hv)).1.seqno,
      leq_seq (by decide) (by omega) (by omega)]
    omega
  refine ⟨?_, by omega, h.queuelen, h.short, ?_, fun seg hseg => ?_,
    hsorted h.unacked fun t ht => Inv.mem_unacked ht, hsorted h.unsent fun t ht => Inv.mem_unsent ht,
    h.oversize, ht⟩
  · unfold tcpSndBuf
    omega
  · rw [h.queuelen]
    constructor
    · intro hzero
      -- a segment has at least one pbuf
      have hnone : ∀ seg ∈ pcb.queued, False := by
        intro seg hseg
        obtain ⟨hp, -⟩ := h.placed seg hseg
        have hnil : seg.p = [] := List.length_eq_zero_iff.mp
          (List.sum_eq_zero_iff_forall_eq_nat.mp hzero _ (List.mem_map_of_mem hseg))
        have hlen := hp.len
        have hpos := hp.pos
        rw [hnil, List.flatten_nil, List.length_nil] at hlen
        omega
      exact List.append_eq_nil_iff.mp (List.eq_nil_iff_forall_not_mem.mpr hnone)
    · rintro ⟨hu, hv⟩
      unfold Pcb.queued
      rw [hu, hv]
      rfl
  · obtain ⟨hp, hl⟩ := h.placed seg hseg
    have hstop := hp.stop
    have hd := toNat_seq_sub (s := iss) (x := 1 + seg.stop) (y := 1 + l) (by omega) (by omega)
    rw [← hp.stop_eq, ← h.lastack] at hd
    exact ⟨hp.len, hp.pos, hp.le, by omega, by omega⟩

/-- **Whatever arrives, the books are kept.** -/
theorem books_kept (iss : U32) {pcb : Pcb} {es : List Event} {c : Conn} (h : Fresh iss pcb)
    (hG : Along step Timely ⟨pcb, []⟩ es) (hr : run step ⟨pcb, []⟩ es = some c) : Books c.pcb := by
  obtain ⟨hi, ht, -⟩ := h.inv
  obtain ⟨⟨l, s, hi'⟩, ht'⟩ := invariant (fun c => (∃ l s, Inv iss l s c.pcb) ∧ Tidy c.pcb)
    (by
      rintro c e c' ⟨⟨l, s, hi⟩, ht⟩ ho hs
      obtain ⟨l', s', hled, -, -⟩ := step_spec hi ht ho hs
      exact ⟨⟨l', s', hled.inv⟩, hled.tidy⟩)
    ⟨⟨0, 0, hi⟩, ht⟩ hG hr
  exact hi'.books ht'

/-- Four duplicate acknowledgments make the first of two segments go out again; it arrives, but the
second one is lost, goes out again when the timer runs out, and more is written behind it. The numbers
of the bytes wrap. -/
def resent : List Event :=
  [.write true [1, 2, 3, 4, 5, 6], .output false, .write true [7], .output false,
    .receive ⟨100, 4294967295, 40, 0⟩, .receive ⟨100, 4294967295, 40, 0⟩,
    .receive ⟨100, 4294967295, 40, 0⟩, .receive ⟨100, 4294967295, 40, 0⟩, .output false,
    .receive ⟨100, 3, 40, 0⟩, .rexmit true, .write true [8, 9, 10], .persist]

/-- The state at the end. -/
def resentEnd : Conn where
  pcb := { Pcb.init 4294967294 4 40 with
    sndNxt := 6
    lastack := 3
    sndLbb := 9
    sndWl1 := 100
    sndWl2 := 3
    cwnd := 4
    ssthresh := 8
    sndBuf := 5834
    sndQueuelen := 2
    unsentOversize := 1
    unsent := [⟨6, 3, [[8, 9, 10]], 1, 7⟩]
    unacked := [⟨3, 3, [[5, 6, 7]], 1, 4⟩]
    acked := 4
    rtime := true
    written := [1, 2, 3, 4, 5, 6, 7, 8, 9, 10] }
  wire := [⟨4294967295, [1, 2, 3, 4], 0⟩, ⟨4294967295, [1, 2, 3, 4], 0⟩, ⟨3, [5, 6, 7], 4⟩,
    ⟨3, [5, 6, 7], 4⟩, ⟨3, [5], 4⟩]

theorem resent_run : run step ⟨Pcb.init 4294967294 4 40, []⟩ resent = some resentEnd := by
  decide +kernel

theorem resent_orderly : Along step Orderly ⟨Pcb.init 4294967294 4 40, []⟩ resent := by decide

theorem resent_fresh : Fresh 4294967294 (Pcb.init 4294967294 4 40) :=
  fresh_init 4294967294 40 (by decide) (by decide)

theorem books_kept_resent : Books resentEnd.pcb :=
  books_kept 4294967294 resent_fresh (resent_orderly.mono Orderly.timely) resent_run

theorem Holds.byte (hh : Holds l pcb) (hi : Inv iss l s pcb) {x : ℕ} (hl : l ≤ x)
    (hx : x < pcb.written.length) : ∃ seg ∈ pcb.unacked ++ pcb.unsent, ∃ i < seg.len,
      seg.seqno + BitVec.ofNat 32 i = seq iss (1 + x) ∧ seg.p.flatten[i]? = pcb.written[x]? := by
  obtain ⟨seg, hseg, hlo, hhi⟩ := hh.cover x hl hx
  obtain ⟨hp, -⟩ := hi.placed seg hseg
  unfold TcpSeg.stop at hhi
  refine ⟨seg, hseg, x - seg.pos, by omega, ?_, ?_⟩
  · rw [hp.seqno, seq_add_nat]
    congr 1
    omega
  · rw [hh.data seg hseg, window, List.getElem?_take_of_lt (by omega), List.getElem?_drop]
    congr 1
    omega

/-- The segment has the byte with the number `n`. -/
def TcpSeg.has (seg : TcpSeg) (n : U32) : Bool :=
  geq n seg.seqno && lt n (seg.seqno + BitVec.ofNat 32 seg.len)

theorem Inv.has_iff (h : Inv iss l s pcb) {seg : TcpSeg} (hseg : seg ∈ pcb.queued) {x : ℕ}
    (hl : l ≤ x) (hx : x < pcb.written.length) :
    seg.has (seq iss (1 + x)) = true ↔ seg.pos ≤ x ∧ x < seg.stop := by
  have hnear := h.near hseg
  have hbuf := h.sndBuf
  unfold tcpSndBuf at hbuf
  have hp := (h.placed seg hseg).1
  unfold TcpSeg.has
  rw [Bool.and_eq_true, hp.stop_eq, hp.seqno, geq_seq (by decide) (by omega) (by omega),
    lt_seq (by decide) (by omega) (by omega)]
  omega

theorem Inv.pairwise_apart (h : Inv iss l s pcb) :
    pcb.queued.Pairwise fun u v => Before u v ∨ Before v u :=
  List.pairwise_append.mpr ⟨h.unacked.imp Or.inl, h.unsent.imp Or.inl, h.apart⟩

/-- What one element of a list has, and no two have, is counted once. -/
theorem countP_eq_one {α : Type*} {P : α → Bool} : ∀ {as : List α},
    as.Pairwise (fun a b => ¬ (P a = true ∧ P b = true)) → (∃ a ∈ as, P a = true) →
    as.countP P = 1
  | [], _, hex => by
    obtain ⟨a, ha, -⟩ := hex
    cases ha
  | a :: as, hp, hex => by
    obtain ⟨hhead, htail⟩ := List.pairwise_cons.mp hp
    by_cases ha : P a = true
    · rw [List.countP_cons_of_pos ha, List.countP_eq_zero.mpr fun b hb hPb => hhead b hb ⟨ha, hPb⟩]
    · rw [List.countP_cons_of_neg ha]
      obtain ⟨b, hb, hPb⟩ := hex
      rcases List.mem_cons.mp hb with rfl | hb
      · exact absurd hPb ha
      · exact countP_eq_one htail ⟨b, hb, hPb⟩

theorem Holds.once (hh : Holds l pcb) (hi : Inv iss l s pcb) {x : ℕ} (hl : l ≤ x)
    (hx : x < pcb.written.length) :
    (pcb.unacked ++ pcb.unsent).countP (fun seg => seg.has (seq iss (1 + x))) = 1 := by
  refine countP_eq_one (hi.pairwise_apart.imp_of_mem fun {u v} hu hv hapart hboth => ?_) ?_
  · have hux := (hi.has_iff hu hl hx).mp hboth.1
    have hvx := (hi.has_iff hv hl hx).mp hboth.2
    unfold Before at hapart
    omega
  · obtain ⟨seg, hseg, hlo, hhi⟩ := hh.cover x hl hx
    exact ⟨seg, hseg, (hi.has_iff hseg hl hx).mpr ⟨hlo, hhi⟩⟩

/-- **What is sent is genuine**: a segment on the wire has at most `mss` bytes, and they are those that
the application has written, at the place that its number says. -/
theorem sent_genuine (iss : U32) {pcb : Pcb} {es : List Event} {c : Conn} (h : Fresh iss pcb)
    (hG : Along step Orderly ⟨pcb, []⟩ es) (hr : run step ⟨pcb, []⟩ es = some c) :
    ∀ w ∈ c.wire, ∃ a : ℕ, w.seqno = seq iss (1 + a) ∧ a + w.data.length ≤ c.pcb.written.length ∧
      w.data = window c.pcb.written a w.data.length ∧ w.data.length ≤ pcb.mss :=
  fun w hw => ⟨w.pos, (sound_run h hG hr).wire w hw⟩

theorem sent_genuine_resent :
    run step ⟨Pcb.init 4294967294 4 40, []⟩ resent = some resentEnd ∧
      ∀ w ∈ resentEnd.wire, ∃ a : ℕ, w.seqno = seq 4294967294 (1 + a) ∧
        a + w.data.length ≤ resentEnd.pcb.written.length ∧
        w.data = window resentEnd.pcb.written a w.data.length ∧ w.data.length ≤ 4 :=
  ⟨resent_run, sent_genuine 4294967294 resent_fresh resent_orderly resent_run⟩

/-- **Nothing is forgotten**: every byte that has been written and is not acknowledged is on one of the
queues, in a segment that has the right number for it, and in no other one. -/
theorem nothing_forgotten (iss : U32) {pcb : Pcb} {es : List Event} {c : Conn} (h : Fresh iss pcb)
    (hG : Along step Orderly ⟨pcb, []⟩ es) (hr : run step ⟨pcb, []⟩ es = some c) :
    ∃ l : ℕ, c.pcb.lastack = seq iss (1 + l) ∧ l ≤ c.pcb.written.length ∧
      ∀ x, l ≤ x → x < c.pcb.written.length →
        (∃ seg ∈ c.pcb.unacked ++ c.pcb.unsent, ∃ i < seg.len,
          seg.seqno + BitVec.ofNat 32 i = seq iss (1 + x) ∧
          seg.p.flatten[i]? = c.pcb.written[x]?) ∧
        (c.pcb.unacked ++ c.pcb.unsent).countP (fun seg => seg.has (seq iss (1 + x))) = 1 := by
  obtain ⟨l, s, hi, hh⟩ := (sound_run h hG hr).exists_inv
  exact ⟨l, hi.lastack, hi.acked_le.trans hi.sent_le,
    fun x hl hx => ⟨hh.byte hi hl hx, hh.once hi hl hx⟩⟩

theorem nothing_forgotten_resent :
    run step ⟨Pcb.init 4294967294 4 40, []⟩ resent = some resentEnd ∧
    ∃ l : ℕ, resentEnd.pcb.lastack = seq 4294967294 (1 + l) ∧ l ≤ resentEnd.pcb.written.length ∧
      ∀ x, l ≤ x → x < resentEnd.pcb.written.length →
        (∃ seg ∈ resentEnd.pcb.unacked ++ resentEnd.pcb.unsent, ∃ i < seg.len,
          seg.seqno + BitVec.ofNat 32 i = seq 4294967294 (1 + x) ∧
          seg.p.flatten[i]? = resentEnd.pcb.written[x]?) ∧
        (resentEnd.pcb.unacked ++ resentEnd.pcb.unsent).countP
          (fun seg => seg.has (seq 4294967294 (1 + x))) = 1 :=
  ⟨resent_run, nothing_forgotten 4294967294 resent_fresh resent_orderly resent_run⟩

end

end Stm32TcpServer.Lwip.TcpOut
