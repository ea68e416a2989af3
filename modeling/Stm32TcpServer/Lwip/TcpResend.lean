import Stm32TcpServer.Lwip.TcpOutRuns

/-! # A connection does not get stuck

* `cwnd_kept`: whatever arrives, the congestion window allows at least one segment, and does not
  overflow.
* `first_byte_goes_out`: as long as acknowledgments are sane, the first byte that is not acknowledged
  is in the segment that is sent when the retransmission timer runs out, or, if no segment is on the
  way, when `tcp_output` is called; and the persist timer sends the first byte of that segment. -/

namespace Stm32TcpServer.Lwip.TcpOut

open Stm32TcpServer.Lib.Runs Stm32TcpServer.Lib.SeqNo Stm32TcpServer.Lib.Window
open Stm32TcpServer.Lwip.Pbuf

section
variable {iss : U32} {l s : ℕ} {pcb pcb' : Pcb} {c c' : Conn} {e : Event} {seg : TcpSeg}

/-! ### The congestion window -/

/-- **The congestion window** allows one segment, and fits into 16 bits; so does the one for after a
fast retransmit. -/
structure Congested (pcb : Pcb) : Prop where
  mss_pos : 0 < pcb.mss
  mss : pcb.mss ≤ tcpMss
  low : pcb.mss ≤ pcb.cwnd
  high : pcb.cwnd < 65536
  after : pcb.infr = true → pcb.mss ≤ pcb.ssthresh ∧ pcb.ssthresh < 65536

/-- A step that has nothing to do with the congestion window. -/
structure SameCwnd (pcb pcb' : Pcb) : Prop where
  mss : pcb'.mss = pcb.mss
  cwnd : pcb'.cwnd = pcb.cwnd
  ssthresh : pcb'.ssthresh = pcb.ssthresh
  infr : pcb'.infr = pcb.infr

theorem SameCwnd.refl (pcb : Pcb) : SameCwnd pcb pcb := ⟨rfl, rfl, rfl, rfl⟩

theorem SameCwnd.trans {pcb'' : Pcb} (h : SameCwnd pcb pcb') (h' : SameCwnd pcb' pcb'') :
    SameCwnd pcb pcb'' :=
  ⟨h'.mss.trans h.mss, h'.cwnd.trans h.cwnd, h'.ssthresh.trans h.ssthresh, h'.infr.trans h.infr⟩

theorem Congested.same (h : Congested pcb) (hs : SameCwnd pcb pcb') : Congested pcb' := by
  obtain ⟨hpos, hmss, hlow, hhigh, hafter⟩ := h
  obtain ⟨hm, hc, ht, hi⟩ := hs
  rw [← hm] at hpos hmss hlow hafter
  rw [← hc] at hlow hhigh
  rw [← ht, ← hi] at hafter
  exact ⟨hpos, hmss, hlow, hhigh, hafter⟩

theorem tcpWrite_sameCwnd (mem : Bool) (pcb : Pcb) (arg : List UInt8) :
    SameCwnd pcb (tcpWrite mem pcb arg).1 := by
  unfold tcpWrite
  split_ifs
  · exact ⟨rfl, rfl, rfl, rfl⟩
  dsimp only
  generalize newSegments pcb _ _ _ _ _ = r
  rcases r with _ | ⟨queue, oversize⟩
  · exact ⟨rfl, rfl, rfl, rfl⟩
  · dsimp only
    split_ifs <;> exact ⟨rfl, rfl, rfl, rfl⟩

theorem outputLoop_sameCwnd (queue : List TcpSeg) (pcb : Pcb) :
    SameCwnd pcb (outputLoop queue pcb).1 := by
  induction queue generalizing pcb with
  | nil => exact SameCwnd.refl pcb
  | cons seg rest ih =>
    rw [outputLoop]
    split_ifs
    · have hsend : SameCwnd pcb (pcb.send seg rest) := ⟨rfl, rfl, rfl, rfl⟩
      exact hsend.trans (ih _)
    · exact SameCwnd.refl pcb

theorem tcpOutput_sameCwnd (ackNow : Bool) (pcb : Pcb) :
    SameCwnd pcb (tcpOutput ackNow pcb).1 := by
  unfold tcpOutput
  split_ifs
  · exact SameCwnd.refl pcb
  · obtain ⟨h₁, h₂, h₃, h₄⟩ := outputLoop_sameCwnd pcb.unsent pcb
    exact ⟨h₁, h₂, h₃, h₄⟩

theorem requeue_sameCwnd (pcb : Pcb) : SameCwnd pcb (requeue pcb) := by
  unfold requeue
  split_ifs <;> exact ⟨rfl, rfl, rfl, rfl⟩

theorem tcpRexmit_sameCwnd (pcb : Pcb) : SameCwnd pcb (tcpRexmit pcb) := by
  unfold tcpRexmit
  split <;> exact ⟨rfl, rfl, rfl, rfl⟩

theorem updateWindow_sameCwnd (pcb : Pcb) (x : Incoming) : SameCwnd pcb (updateWindow pcb x) := by
  unfold updateWindow
  split_ifs <;> exact ⟨rfl, rfl, rfl, rfl⟩

theorem Congested.rexmit (h : Congested pcb) (ackNow : Bool) :
    Congested (tcpRexmitRto ackNow pcb).1 := by
  obtain ⟨hpos, hmss, hlow, hhigh, hafter⟩ := h
  unfold tcpMss at hmss
  unfold tcpRexmitRto
  by_cases hnil : pcb.unacked = []
  · rw [if_pos hnil]
    exact ⟨hpos, hmss, hlow, hhigh, hafter⟩
  · rw [if_neg hnil]
    dsimp only
    refine Congested.same ?_ ((requeue_sameCwnd _).trans (tcpOutput_sameCwnd ackNow _))
    exact ⟨hpos, hmss, le_rfl, by dsimp only; omega, fun _ => by dsimp only; split_ifs <;> omega⟩

theorem Congested.inflate (h : Congested pcb) : Congested (inflate pcb) := by
  obtain ⟨hpos, hmss, hlow, hhigh, hafter⟩ := h
  unfold TcpOut.inflate
  dsimp only
  split_ifs with hc
  · exact ⟨hpos, hmss, by dsimp only; omega, by dsimp only; omega, hafter⟩
  · exact ⟨hpos, hmss, hlow, hhigh, hafter⟩

theorem Congested.openCwnd (h : Congested pcb) : Congested (openCwnd pcb) := by
  obtain ⟨hpos, hmss, hlow, hhigh, hafter⟩ := h
  unfold TcpOut.openCwnd
  dsimp only
  split_ifs with hslow hc
  · exact Congested.inflate ⟨hpos, hmss, hlow, hhigh, hafter⟩
  · exact ⟨hpos, hmss, by dsimp only; omega, by dsimp only; omega, hafter⟩
  · exact ⟨hpos, hmss, hlow, hhigh, hafter⟩

/-- A fast retransmit leaves room for three segments more. -/
theorem Congested.rexmitFast (h : Congested pcb) : Congested (tcpRexmitFast pcb) := by
  unfold tcpRexmitFast
  by_cases hc : pcb.unacked ≠ [] ∧ pcb.infr = false
  · rw [if_pos hc]
    obtain ⟨hpos, hmss, hlow, hhigh, hafter⟩ := h.same (tcpRexmit_sameCwnd pcb)
    unfold tcpMss at hmss
    dsimp only
    generalize tcpRexmit pcb = q at *
    have hsome : ∀ t, t ≤ q.cwnd / 2 →
        2 * q.mss ≤ (if t < 2 * q.mss then 2 * q.mss else t) ∧
          (if t < 2 * q.mss then 2 * q.mss else t) < 40000 := by
      intro t ht
      split_ifs <;> omega
    obtain ⟨hge, hle⟩ := hsome (if q.sndWnd < q.cwnd then q.sndWnd / 2 else q.cwnd / 2)
      (by split_ifs <;> omega)
    refine ⟨hpos, hmss, ?_, Nat.mod_lt _ (by decide),
      fun _ => ⟨by dsimp only; omega, by dsimp only; omega⟩⟩
    dsimp only
    rw [Nat.mod_eq_of_lt (by omega)]
    omega
  · rw [if_neg hc]
    exact h

theorem Congested.noNewData (h : Congested pcb) (x : Incoming) (edge : U32) :
    Congested (noNewData pcb x edge) := by
  have h₁ : ∀ n, Congested { pcb with acked := 0, dupacks := n } :=
    fun n => h.same ⟨rfl, rfl, rfl, rfl⟩
  unfold TcpOut.noNewData
  dsimp only
  generalize (if pcb.dupacks < 255 then pcb.dupacks + 1 else pcb.dupacks) = n
  split_ifs
  · exact (h₁ n).inflate
  · exact (h₁ n).rexmitFast
  · exact h₁ n
  · exact h₁ 0

theorem Congested.newData (h : Congested pcb) (x : Incoming) : Congested (newData pcb x) := by
  unfold TcpOut.newData
  dsimp only
  generalize hq : (if pcb.infr = true then _ else _ : Pcb) = pcb₁
  have h₁ : Congested pcb₁ := by
    obtain ⟨hpos, hmss, hlow, hhigh, hafter⟩ := h
    rw [← hq]
    split_ifs with hinfr
    · exact ⟨hpos, hmss, (hafter hinfr).1, (hafter hinfr).2, fun hc => by cases hc⟩
    · exact ⟨hpos, hmss, hlow, hhigh, hafter⟩
  have h₂ : Congested { pcb₁ with
      acked := (x.ackno - pcb₁.lastack).toNat % 65536
      sndBuf := (pcb₁.sndBuf + (x.ackno - pcb₁.lastack).toNat % 65536) % 65536
      dupacks := 0
      lastack := x.ackno } := h₁.same ⟨rfl, rfl, rfl, rfl⟩
  exact h₂.openCwnd.same ⟨rfl, rfl, rfl, rfl⟩

theorem Congested.receive (h : Congested pcb) (x : Incoming) : Congested (tcpReceive pcb x) := by
  have h₁ := h.same (updateWindow_sameCwnd pcb x)
  unfold tcpReceive
  dsimp only
  generalize updateWindow pcb x = pcb₁ at h₁
  have hunsent : ∀ q, Congested q → Congested (ackUnsent q x) :=
    fun q hq => hq.same ⟨rfl, rfl, rfl, rfl⟩
  apply hunsent
  split_ifs
  · exact h₁.noNewData x _
  · exact h₁.newData x
  · exact h₁.same ⟨rfl, rfl, rfl, rfl⟩

theorem congested_step (h : Congested c.pcb) (hs : step c e = some c') : Congested c'.pcb := by
  cases e with
  | write mem arg =>
    obtain rfl := Option.some.inj hs
    exact h.same (tcpWrite_sameCwnd mem c.pcb arg)
  | output ackNow =>
    obtain rfl := Option.some.inj hs
    exact h.same (tcpOutput_sameCwnd ackNow c.pcb)
  | receive seg =>
    obtain rfl := Option.some.inj hs
    exact h.receive seg
  | rexmit ackNow =>
    obtain rfl := Option.some.inj hs
    exact h.rexmit ackNow
  | persist =>
    obtain rfl := Option.some.inj hs
    exact h

theorem Congested.run {es : List Event} (h : Fresh iss pcb)
    (hr : run step ⟨pcb, []⟩ es = some c) : Congested c.pcb :=
  invariant' (fun c => Congested c.pcb) (fun _ _ _ h hs => congested_step h hs)
    ⟨h.mss_pos, h.mss, h.cwnd.1, h.cwnd.2, fun hc => by rw [h.infr] at hc; cases hc⟩ hr

/-- **The congestion window is never closed**: whatever arrives, it is between one segment and the
largest number of 16 bits. -/
theorem cwnd_kept (iss : U32) {pcb : Pcb} {es : List Event} {c : Conn} (h : Fresh iss pcb)
    (hr : run step ⟨pcb, []⟩ es = some c) :
    0 < c.pcb.mss ∧ c.pcb.mss ≤ c.pcb.cwnd ∧ c.pcb.cwnd < 65536 := by
  have hc := Congested.run h hr
  exact ⟨hc.mss_pos, hc.low, hc.high⟩

theorem cwnd_kept_resent :
    0 < resentEnd.pcb.mss ∧ resentEnd.pcb.mss ≤ resentEnd.pcb.cwnd ∧ resentEnd.pcb.cwnd < 65536 :=
  cwnd_kept 4294967294 resent_fresh resent_run

/-! ### The first byte that is not acknowledged -/

/-- The first segment of the queues holds the first byte that is not acknowledged. -/
theorem Inv.first (h : Inv iss l s pcb) (hh : Holds l pcb) (hs : pcb.Sorted)
    (hl : l < pcb.written.length) :
    ∃ seg rest, pcb.queued = seg :: rest ∧ seg.pos ≤ l ∧ l < seg.stop := by
  obtain ⟨t, ht, hlo, hhi⟩ := hh.cover l le_rfl hl
  obtain ⟨seg, rest, hq⟩ := List.exists_cons_of_ne_nil (List.ne_nil_of_mem ht)
  have hpair : pcb.queued.Pairwise Before := List.pairwise_append.mpr ⟨h.unacked, h.unsent, hs⟩
  have hmem : seg ∈ pcb.queued := by
    rw [hq]
    exact List.mem_cons_self
  have hle : seg.pos ≤ t.pos := by
    rw [hq] at hpair ht
    rcases List.mem_cons.mp ht with rfl | hm
    · exact le_rfl
    · have hb : seg.stop ≤ t.pos := (List.pairwise_cons.mp hpair).1 t hm
      unfold TcpSeg.stop at hb
      omega
  exact ⟨seg, rest, hq, hle.trans hlo, (h.placed seg hmem).2⟩

/-- A segment that begins with acknowledged bytes, or at the first other byte, fits if the window has
room for it. -/
theorem Inv.fits (h : Inv iss l s pcb) (hseg : seg ∈ pcb.queued) (hpos : seg.pos ≤ l)
    (hwnd : seg.len ≤ pcb.sndWnd) (hcwnd : seg.len ≤ pcb.cwnd) : pcb.fits seg = true := by
  have hnear := h.near hseg
  obtain ⟨hp, hl⟩ := h.placed seg hseg
  have hd := toNat_seq_sub (s := iss) (x := 1 + seg.stop) (y := 1 + l) (by omega) (by omega)
  have hcomm : seg.seqno - pcb.lastack + BitVec.ofNat 32 seg.len =
      seg.seqno + BitVec.ofNat 32 seg.len - pcb.lastack := by
    rw [BitVec.sub_add_comm]
  unfold Pcb.fits
  rw [decide_eq_true_iff, hcomm, hp.stop_eq, h.lastack]
  unfold TcpSeg.stop at hd ⊢
  omega

/-- The loop sends the first unsent segment if it fits and nothing is on the way. -/
theorem tcpOutput_first {rest : List TcpSeg} (hunsent : pcb.unsent = seg :: rest)
    (hunacked : pcb.unacked = []) (hfits : pcb.fits seg = true) (ackNow : Bool) :
    ∃ ws, (tcpOutput ackNow pcb).2 = ⟨seg.seqno, seg.p.flatten, seg.pos⟩ :: ws := by
  have hnagle : tcpDoOutputNagle pcb = true := by
    unfold tcpDoOutputNagle
    rw [hunacked]
    rfl
  unfold tcpOutput
  rw [hunsent, List.head?_cons, Option.all_some, hfits, if_neg (by simp), outputLoop,
    if_pos ⟨hfits, Or.inl hnagle⟩]
  exact ⟨_, rfl⟩

/-- **The first byte that is not acknowledged goes out**, with the segment that it is in. -/
theorem first_byte_goes_out (iss : U32) {pcb : Pcb} {es : List Event} {c : Conn}
    (h : Fresh iss pcb) (hG : Along step Orderly ⟨pcb, []⟩ es)
    (hr : run step ⟨pcb, []⟩ es = some c) (ho : InOrder c.pcb)
    (hmore : c.pcb.lastack ≠ c.pcb.sndLbb) :
    ∃ (seg : TcpSeg) (i : ℕ), i < seg.len ∧ seg.seqno + BitVec.ofNat 32 i = c.pcb.lastack ∧
      tcpZeroWindowProbe c.pcb = [⟨seg.seqno, seg.p.flatten.take 1, seg.pos⟩] ∧
      (seg.len ≤ c.pcb.sndWnd → ∀ ackNow,
        (c.pcb.unacked ≠ [] →
          ∃ ws, (tcpRexmitRto ackNow c.pcb).2 = ⟨seg.seqno, seg.p.flatten, seg.pos⟩ :: ws) ∧
        (c.pcb.unacked = [] →
          ∃ ws, (tcpOutput ackNow c.pcb).2 = ⟨seg.seqno, seg.p.flatten, seg.pos⟩ :: ws)) := by
  obtain ⟨l, s, hi, hh⟩ := (sound_run h hG hr).exists_inv
  have ht := (sound_run h hG hr).tidy
  have hc := Congested.run h hr
  generalize c.pcb = pcb at *
  have hs : pcb.Sorted := fun u hu v hv => hi.before_unsent ho hu hv
  have hl : l < pcb.written.length := by
    by_contra hge
    have hls := hi.acked_le
    have hsn := hi.sent_le
    have heq : l = pcb.written.length := by omega
    rw [hi.lastack, hi.sndLbb, heq] at hmore
    exact hmore rfl
  obtain ⟨seg, rest, hq, hlo, hhi⟩ := hi.first hh hs hl
  have hseg : seg ∈ pcb.queued := by
    rw [hq]
    exact List.mem_cons_self
  obtain ⟨hp, -⟩ := hi.placed seg hseg
  have hlen := hp.le.trans (min_le_left _ _)
  unfold TcpSeg.stop at hhi
  refine ⟨seg, l - seg.pos, by omega, ?_, ?_, fun hwnd ackNow => ⟨fun hne => ?_, fun hnil => ?_⟩⟩
  · rw [hp.seqno, hi.lastack, seq_add_nat]
    congr 1
    omega
  · have hq' : pcb.unacked ++ pcb.unsent = seg :: rest := hq
    unfold tcpZeroWindowProbe
    rw [hq']
    dsimp only [List.head?_cons]
    rw [hp.len, Nat.sub_self, window_zero_left]
  · -- all is unsent again, and the congestion window is one segment
    unfold tcpRexmitRto
    rw [if_neg hne]
    dsimp only
    generalize hp₁ : ({ pcb with ssthresh := _, cwnd := pcb.mss } : Pcb) = pcb₁
    have hm₁ : Moved iss l s pcb pcb₁ := by
      subst hp₁
      exact hi.same ht ⟨⟨rfl, rfl, rfl, rfl, rfl, rfl, rfl⟩, rfl, rfl, rfl, rfl⟩
    have ho₁ : InOrder pcb₁ := by
      subst hp₁
      exact ho
    have hm₂ := requeue_spec hm₁.inv hm₁.tidy ho₁
    have hback : (requeue pcb₁).unsent = seg :: rest ∧ (requeue pcb₁).unacked = [] ∧
        (requeue pcb₁).sndWnd = pcb.sndWnd ∧ (requeue pcb₁).cwnd = pcb.mss := by
      subst hp₁
      unfold requeue
      rw [if_neg hne]
      exact ⟨hq, rfl, rfl, rfl⟩
    obtain ⟨hunsent, hunacked, hw, hcw⟩ := hback
    refine tcpOutput_first hunsent hunacked (hm₂.inv.fits (Inv.mem_unsent ?_) hlo ?_ ?_) ackNow
    · rw [hunsent]
      exact List.mem_cons_self
    · rw [hw]
      exact hwnd
    · rw [hcw]
      exact hlen
  · have hunsent : pcb.unsent = seg :: rest := by
      have hq' : pcb.unacked ++ pcb.unsent = seg :: rest := hq
      rwa [hnil] at hq'
    exact tcpOutput_first hunsent hnil (hi.fits hseg hlo hwnd (hlen.trans hc.low)) ackNow

theorem first_byte_goes_out_resent :
    ∃ (seg : TcpSeg) (i : ℕ), i < seg.len ∧
      seg.seqno + BitVec.ofNat 32 i = resentEnd.pcb.lastack ∧
      tcpZeroWindowProbe resentEnd.pcb = [⟨seg.seqno, seg.p.flatten.take 1, seg.pos⟩] ∧
      (seg.len ≤ resentEnd.pcb.sndWnd → ∀ ackNow,
        (resentEnd.pcb.unacked ≠ [] →
          ∃ ws, (tcpRexmitRto ackNow resentEnd.pcb).2 = ⟨seg.seqno, seg.p.flatten, seg.pos⟩ :: ws) ∧
        (resentEnd.pcb.unacked = [] →
          ∃ ws, (tcpOutput ackNow resentEnd.pcb).2 = ⟨seg.seqno, seg.p.flatten, seg.pos⟩ :: ws)) :=
  first_byte_goes_out 4294967294 resent_fresh resent_orderly resent_run (by decide) (by decide)

end

end Stm32TcpServer.Lwip.TcpOut
