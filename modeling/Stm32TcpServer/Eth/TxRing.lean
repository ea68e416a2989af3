import Stm32TcpServer.Eth.TxOutput
import Stm32TcpServer.Lib.Ring
import Stm32TcpServer.Lib.Runs

/-! # The transmit ring

The descriptors of the DMA form a queue, from the one on that it processes next (`Queued`). What
holds before each statement of a call is `At`; a call puts its frame behind the queue when it hands
its descriptor over.

* `sent_accepted`: in a run whose steps are all `Exclusive`, the wire carries the accepted frames in
  their order, and all of them once the ring is drained.
* `sixth_frame_overwrites`: a burst of six frames that is faster than the DMA. -/

namespace Stm32TcpServer.Eth.TxRing

open Stm32TcpServer.Lib.Ring Stm32TcpServer.Lib.Runs Stm32TcpServer.Lib.Window
open Stm32TcpServer.Eth.Desc Stm32TcpServer.Eth.TxOutput Stm32TcpServer.Lwip.Pbuf

/-! ### The queue of the DMA -/

/-- The frame in a descriptor of the DMA. -/
def slot (s : Tx) (d : Desc) : Option Frame :=
  if Owned (s.status d) then some (content s d) else none

/-- **The ring holds the frames `q`**, from the descriptor on that the DMA processes next. -/
structure Queued (s : Tx) (q : List Frame) : Prop where
  holds : Holds (slot s) (· = none) buffer2NextDescAddr ethTxBufNb s.dma (q.map some)
  size : ∀ d, Owned (s.status d) → (s.controlBufferSize d).toNat ≤ ethMaxPacketSize
  buff : s.txBuff.length = ethTxBufNb * ethMaxPacketSize

/-- The descriptor behind the queue. -/
def tail (s : Tx) (q : List Frame) : Desc := buffer2NextDescAddr^[q.length] s.dma

theorem slot_eq_none_iff {s : Tx} {d : Desc} : slot s d = none ↔ ¬ Owned (s.status d) := by
  unfold slot
  split_ifs with h <;> simp [h]

theorem buffer1Addr_disjoint {d d' : Desc} (h : d' ≠ d) :
    buffer1Addr d' + ethMaxPacketSize ≤ buffer1Addr d ∨
      buffer1Addr d + ethMaxPacketSize ≤ buffer1Addr d' := by
  have hne : d'.val ≠ d.val := fun heq => h (Fin.ext heq)
  simp only [buffer1Addr, ethMaxPacketSize]
  omega

theorem window_set_other (l : List UInt8) {d d' : Desc} {i n : ℕ} (b : UInt8) (h : d' ≠ d)
    (hi : i < ethMaxPacketSize) (hn : n ≤ ethMaxPacketSize) :
    window (l.set (buffer1Addr d + i) b) (buffer1Addr d') n = window l (buffer1Addr d') n := by
  rcases buffer1Addr_disjoint h with hle | hle
  · exact window_set_of_le l b (by omega)
  · exact window_set_of_lt l n b (by omega)

theorem buffer1Addr_add_lt (d : Desc) {i : ℕ} (hi : i < ethMaxPacketSize) :
    buffer1Addr d + i < ethTxBufNb * ethMaxPacketSize := by
  have hd := d.isLt
  simp only [buffer1Addr, ethMaxPacketSize, ethTxBufNb] at *
  omega

theorem Queued.congr {s s' : Tx} {q : List Frame} (h : Queued s q) (hdma : s'.dma = s.dma)
    (hown : ∀ d, Owned (s'.status d) ↔ Owned (s.status d))
    (hcontent : ∀ d, Owned (s.status d) → content s' d = content s d)
    (hsize : ∀ d, Owned (s.status d) → s'.controlBufferSize d = s.controlBufferSize d)
    (hbuff : s'.txBuff.length = s.txBuff.length) : Queued s' q := by
  have hslot : slot s' = slot s := by
    funext d
    unfold slot
    by_cases hd : Owned (s.status d)
    · rw [if_pos hd, if_pos ((hown d).mpr hd), hcontent d hd]
    · rw [if_neg hd, if_neg fun hd' => hd ((hown d).mp hd')]
  refine ⟨by rw [hslot, hdma]; exact h.holds, fun d hd => ?_, by rw [hbuff]; exact h.buff⟩
  have hd' := (hown d).mp hd
  rw [hsize d hd']
  exact h.size d hd'

/-- **The DMA sends** the first frame of the queue. -/
theorem Queued.send {s s' : Tx} {q : List Frame} (h : Queued s q) (hs : step s .send = some s') :
    ∃ f q', q = f :: q' ∧ s'.wire = s.wire ++ [f] ∧ tail s' q' = tail s q ∧ Queued s' q' := by
  obtain ⟨hown, rfl⟩ := guard_eq_some hs
  cases q with
  | nil =>
    have hfree := h.holds.free_of_nil (by decide)
    exact absurd hown (slot_eq_none_iff.mp hfree)
  | cons f q' =>
    have hhead : slot s s.dma = some f := h.holds.head
    rw [slot, if_pos hown] at hhead
    refine ⟨f, q', rfl, by rw [← Option.some.inj hhead], rfl, ?_, fun d hd => ?_, h.buff⟩
    · have hpop := h.holds.pop isRing (rfl : (none : Option Frame) = none)
      convert hpop using 1
      funext d
      by_cases hd : d = s.dma
      · subst hd
        rw [Function.update_self, slot_eq_none_iff]
        simp only [Function.update_self]
        exact not_owned_sent _
      · simp only [slot, Function.update_of_ne hd]
        rfl
    · by_cases hds : d = s.dma
      · subst hds
        simp only [Function.update_self] at hd
        exact absurd hd (not_owned_sent _)
      · simp only [Function.update_of_ne hds] at hd
        exact h.size d hd

/-- **A descriptor is handed over**: its content goes to the end of the queue. -/
theorem Queued.handOver {s s' : Tx} {q : List Frame} (h : Queued s q)
    (htail : s.dmaTxDescToSet = tail s q) (hown : ¬ Owned (s.status s.dmaTxDescToSet))
    (hsize : (s.controlBufferSize s.dmaTxDescToSet).toNat ≤ ethMaxPacketSize)
    (hstatus : s'.status = Function.update s.status s.dmaTxDescToSet
      (s.status s.dmaTxDescToSet ||| ethDmaTxDescOwn))
    (hcbs : s'.controlBufferSize = s.controlBufferSize) (hbuff : s'.txBuff = s.txBuff)
    (hdma : s'.dma = s.dma) : Queued s' (q ++ [content s s.dmaTxDescToSet]) := by
  have hlen : (q.map some).length = q.length := List.length_map _
  have hlt : (q.map some).length < ethTxBufNb :=
    h.holds.length_lt isRing (by decide) fun hmem => by
      rw [hlen, ← tail, ← htail, slot_eq_none_iff.mpr hown] at hmem
      obtain ⟨f, -, hf⟩ := List.mem_map.mp hmem
      exact Option.some_ne_none f hf
  have hpush := h.holds.push isRing hlt (some (content s s.dmaTxDescToSet))
  rw [hlen, ← tail, ← htail] at hpush
  refine ⟨?_, fun d hd => ?_, by rw [hbuff]; exact h.buff⟩
  · rw [List.map_append, List.map_singleton, hdma]
    convert hpush using 1
    funext d
    have hcontent : content s' d = content s d := by rw [content, content, hcbs, hbuff]
    by_cases hd : d = s.dmaTxDescToSet
    · subst hd
      rw [Function.update_self, slot, hstatus, Function.update_self, if_pos (owned_handOver _),
        hcontent]
    · simp only [slot, hstatus, Function.update_of_ne hd, hcontent]
  · rw [hcbs]
    by_cases hds : d = s.dmaTxDescToSet
    · rw [hds]
      exact hsize
    · rw [hstatus, Function.update_of_ne hds] at hd
      exact h.size d hd

/-! ### The call in progress -/

/-- What holds of the call `c` as long as it has not handed its descriptor over. -/
structure Filling (s : Tx) (q : List Frame) (c : Call) : Prop where
  tail : s.dmaTxDescToSet = tail s q
  buffer : c.buffer = buffer1Addr s.dmaTxDescToSet
  le : c.p.flatten.length ≤ ethMaxPacketSize
  accepted : accepted s = s.wire ++ q

/-- **What holds before each statement** of the only call in progress. -/
def At (s : Tx) (q : List Frame) (c : Call) : Stmt → Prop
  | .memcpy l rest => Filling s q c ∧ l + rest.flatten.length = c.p.flatten.length ∧
      window s.txBuff c.buffer l ++ rest.flatten = c.p.flatten
  | .own n => Filling s q c ∧ n.toNat = c.p.flatten.length ∧
      window s.txBuff c.buffer n.toNat = c.p.flatten
  | .size n => Filling s q c ∧ n.toNat = c.p.flatten.length ∧
      window s.txBuff c.buffer n.toNat = c.p.flatten ∧ ¬ Owned (s.status s.dmaTxDescToSet)
  | .segments | .handOver => Filling s q c ∧ ¬ Owned (s.status s.dmaTxDescToSet) ∧
      content s s.dmaTxDescToSet = c.p.flatten ∧
      (s.controlBufferSize s.dmaTxDescToSet).toNat ≤ ethMaxPacketSize
  | .resume | .advance => buffer2NextDescAddr s.dmaTxDescToSet = tail s q ∧
      accepted s ++ [c.p.flatten] = s.wire ++ q
  | .ret result => s.dmaTxDescToSet = tail s q ∧ accepted s ++ [c.p.flatten] = s.wire ++ q ∧
      result = ethSuccess

/-- **The invariant**: at most one call is in progress, and the frames that have been handed over
are those sent and those queued. -/
def Inv (s : Tx) : Prop :=
  ∃ q, Queued s q ∧
    (s.calls = [] ∧ s.dmaTxDescToSet = tail s q ∧ accepted s = s.wire ++ q ∨
      ∃ c, s.calls = [c] ∧ At s q c c.stmt)

theorem inv_init : Inv Tx.init := by
  have hfree : ∀ d, ¬ Owned (Tx.init.status d) := fun d => by
    show ¬ Owned (ethDmaTxDescTch ||| ethDmaTxDescChecksumTcpUdpIcmpFull)
    decide
  refine ⟨[], ⟨⟨Nat.zero_le _, fun _ h => absurd h (Nat.not_lt_zero _), fun _ _ _ => ?_⟩,
    fun d hd => absurd hd (hfree d), List.length_replicate⟩, Or.inl ⟨rfl, rfl, rfl⟩⟩
  exact slot_eq_none_iff.mpr (hfree _)

theorem At.mono {s s' : Tx} {q q' : List Frame} {c : Call} {stmt : Stmt} (h : At s q c stmt)
    (hbuff : s'.txBuff = s.txBuff) (hcbs : s'.controlBufferSize = s.controlBufferSize)
    (hset : s'.dmaTxDescToSet = s.dmaTxDescToSet) (hret : s'.returned = s.returned)
    (htail : tail s' q' = tail s q) (hwire : s'.wire ++ q' = s.wire ++ q)
    (hown : ∀ d, Owned (s'.status d) → Owned (s.status d)) : At s' q' c stmt := by
  have hacc : accepted s' = accepted s := by rw [accepted, accepted, hret]
  have hfill : Filling s q c → Filling s' q' c := fun hf =>
    ⟨by rw [hset, htail]; exact hf.tail, by rw [hset]; exact hf.buffer, hf.le,
      by rw [hacc, hwire]; exact hf.accepted⟩
  have hfree : ¬ Owned (s.status s.dmaTxDescToSet) → ¬ Owned (s'.status s'.dmaTxDescToSet) := by
    rw [hset]
    exact fun hn ho => hn (hown _ ho)
  cases stmt with
  | memcpy l rest => exact ⟨hfill h.1, h.2.1, by rw [hbuff]; exact h.2.2⟩
  | own n => exact ⟨hfill h.1, h.2.1, by rw [hbuff]; exact h.2.2⟩
  | size n => exact ⟨hfill h.1, h.2.1, by rw [hbuff]; exact h.2.2.1, hfree h.2.2.2⟩
  | segments =>
    refine ⟨hfill h.1, hfree h.2.1, ?_, ?_⟩
    · rw [content, hbuff, hcbs, hset]
      exact h.2.2.1
    · rw [hcbs, hset]
      exact h.2.2.2
  | handOver =>
    refine ⟨hfill h.1, hfree h.2.1, ?_, ?_⟩
    · rw [content, hbuff, hcbs, hset]
      exact h.2.2.1
    · rw [hcbs, hset]
      exact h.2.2.2
  | resume => exact ⟨by rw [hset, htail]; exact h.1, by rw [hacc, hwire]; exact h.2⟩
  | advance => exact ⟨by rw [hset, htail]; exact h.1, by rw [hacc, hwire]; exact h.2⟩
  | ret result =>
    exact ⟨by rw [hset, htail]; exact h.1, by rw [hacc, hwire]; exact h.2.1, h.2.2⟩

/-- **A byte is stored** in the buffer of a descriptor that is not the DMA's. -/
theorem inv_store {s : Tx} {q : List Frame} {c : Call} {l : ℕ} {b : UInt8} {bs : List UInt8}
    {rest : Chain} (hq : Queued s q) (h : At s q c (.memcpy l ((b :: bs) :: rest)))
    (hown : ¬ Owned (s.status s.dmaTxDescToSet)) :
    Inv { s with
      txBuff := s.txBuff.set (c.buffer + l) b
      calls := [{ c with stmt := .memcpy (l + 1) (bs :: rest) }] } := by
  obtain ⟨hf, hlen, hwin⟩ := h
  have hle := hf.le
  rw [List.flatten_cons, List.cons_append, List.length_cons] at hlen
  have hl : l < ethMaxPacketSize := by omega
  refine ⟨q, hq.congr rfl (fun _ => Iff.rfl) (fun d hd => ?_) (fun _ _ => rfl) ?_,
    Or.inr ⟨_, rfl, ⟨hf.tail, hf.buffer, hf.le, hf.accepted⟩, ?_, ?_⟩⟩
  · have hne : d ≠ s.dmaTxDescToSet := fun heq => hown (heq ▸ hd)
    rw [content, content, hf.buffer]
    exact window_set_other s.txBuff b hne hl (hq.size d hd)
  · exact List.length_set
  · show l + 1 + (bs :: rest).flatten.length = c.p.flatten.length
    rw [List.flatten_cons]
    omega
  · have hlt : c.buffer + l < s.txBuff.length := by
      rw [hf.buffer, hq.buff]
      exact buffer1Addr_add_lt s.dmaTxDescToSet hl
    rw [List.flatten_cons, List.cons_append] at hwin
    rw [List.flatten_cons, window_set_last b hlt, List.append_assoc]
    exact hwin

/-- **The size is written** into a descriptor that is not the DMA's. -/
theorem inv_size {s : Tx} {q : List Frame} {c : Call} {n : BitVec 16} (hq : Queued s q)
    (h : At s q c (.size n)) :
    Inv { s with
      controlBufferSize := Function.update s.controlBufferSize s.dmaTxDescToSet
        (n.setWidth 32 &&& ethDmaTxDescTbs1)
      calls := [{ c with stmt := .segments }] } := by
  obtain ⟨hf, hlen, hwin, hown⟩ := h
  have hn : n.toNat ≤ ethMaxPacketSize := by rw [hlen]; exact hf.le
  have hother : ∀ d, Owned (s.status d) → Function.update s.controlBufferSize s.dmaTxDescToSet
      (n.setWidth 32 &&& ethDmaTxDescTbs1) d = s.controlBufferSize d := fun d hd =>
    Function.update_of_ne (fun heq => hown (by rw [← heq]; exact hd)) _ _
  refine ⟨q, hq.congr rfl (fun _ => Iff.rfl) (fun d hd => ?_) hother rfl,
    Or.inr ⟨_, rfl, ⟨hf.tail, hf.buffer, hf.le, hf.accepted⟩, hown, ?_, ?_⟩⟩
  · simp only [content, hother d hd]
  · simp only [content, Function.update_self, toNat_size hn]
    rw [← hf.buffer]
    exact hwin
  · simp only [Function.update_self, toNat_size hn]
    exact hn

/-- **A statement** of the only call in progress. -/
theorem inv_exec {s : Tx} {q : List Frame} {c : Call} (hq : Queued s q) (hc : s.calls = [c])
    (h : At s q c c.stmt) (hG : Exclusive s .stmt) : Inv (exec s c []) := by
  obtain ⟨p, buffer, stmt⟩ := c
  have hkeep : ∀ calls, Queued { s with calls := calls } q := fun _ => ⟨hq.holds, hq.size, hq.buff⟩
  have huses : s.uses = true → ¬ Owned (s.status s.dmaTxDescToSet) := hG
  rw [Tx.uses, hc] at huses
  cases stmt with
  | memcpy l rest =>
    match rest, h with
    | [], ⟨hf, hlen, hwin⟩ =>
      have hle := hf.le
      have hl : (BitVec.ofNat 16 l).toNat = l := by
        rw [BitVec.toNat_ofNat]
        simp only [List.flatten_nil, List.length_nil, ethMaxPacketSize] at hlen hle
        omega
      refine ⟨q, hkeep _, Or.inr ⟨_, rfl, ⟨hf.tail, hf.buffer, hf.le, hf.accepted⟩, ?_, ?_⟩⟩
      · rw [hl]
        exact hlen
      · rw [hl]
        exact (List.append_nil _).symm.trans hwin
    | [] :: rest, ⟨hf, hlen, hwin⟩ =>
      exact ⟨q, hkeep _, Or.inr ⟨_, rfl, ⟨hf.tail, hf.buffer, hf.le, hf.accepted⟩, hlen, hwin⟩⟩
    | (b :: bs) :: rest, h => exact inv_store hq h (huses rfl)
  | own n =>
    have hown := huses rfl
    have hexec : exec s ⟨p, buffer, .own n⟩ [] =
        { s with calls := [⟨p, buffer, .size n⟩] } := by
      simp only [exec]
      rw [if_neg (show ¬ s.status s.dmaTxDescToSet &&& ethDmaTxDescOwn ≠ 0 from hown)]
    rw [hexec]
    obtain ⟨hf, hlen, hwin⟩ := h
    exact ⟨q, hkeep _, Or.inr ⟨_, rfl, ⟨hf.tail, hf.buffer, hf.le, hf.accepted⟩, hlen, hwin, hown⟩⟩
  | size n => exact inv_size hq h
  | segments =>
    obtain ⟨hf, hown, hcontent, hsize⟩ := h
    have hiff : ∀ d, Owned (Function.update s.status s.dmaTxDescToSet
        (s.status s.dmaTxDescToSet ||| (ethDmaTxDescLs ||| ethDmaTxDescFs)) d) ↔
        Owned (s.status d) := by
      intro d
      by_cases hd : d = s.dmaTxDescToSet
      · rw [hd, Function.update_self, owned_segments]
      · rw [Function.update_of_ne hd]
    refine ⟨q, hq.congr rfl hiff (fun _ _ => rfl) (fun _ _ => rfl) rfl,
      Or.inr ⟨_, rfl, ⟨hf.tail, hf.buffer, hf.le, hf.accepted⟩, ?_, hcontent, hsize⟩⟩
    exact fun ho => hown ((hiff _).mp ho)
  | handOver =>
    obtain ⟨hf, hown, hcontent, hsize⟩ := h
    refine ⟨_, hq.handOver hf.tail hown hsize rfl rfl rfl rfl, Or.inr ⟨_, rfl, ?_, ?_⟩⟩
    · show buffer2NextDescAddr s.dmaTxDescToSet = buffer2NextDescAddr^[_] s.dma
      rw [List.length_append, List.length_singleton, Function.iterate_succ_apply', hf.tail]
      rfl
    · show accepted s ++ _ = s.wire ++ _
      rw [hf.accepted, hcontent, List.append_assoc]
  | resume => exact ⟨q, ⟨hq.holds, hq.size, hq.buff⟩, Or.inr ⟨_, rfl, h.1, h.2⟩⟩
  | advance => exact ⟨q, ⟨hq.holds, hq.size, hq.buff⟩, Or.inr ⟨_, rfl, h.1, h.2, rfl⟩⟩
  | ret result =>
    refine ⟨q, ⟨hq.holds, hq.size, hq.buff⟩, Or.inl ⟨rfl, h.1, ?_⟩⟩
    refine Eq.trans ?_ h.2.1
    simp [accepted, exec]

/-- **The step lemma.** -/
theorem inv_step {s s' : Tx} {e : Event} (h : Inv s) (hG : Exclusive s e)
    (hs : step s e = some s') : Inv s' := by
  obtain ⟨q, hq, hcalls⟩ := h
  cases e with
  | lowLevelOutput p =>
    obtain ⟨hle, rfl⟩ := guard_eq_some hs
    rcases hcalls with ⟨hnil, htail, hacc⟩ | ⟨c, hc, -⟩
    · refine ⟨q, ⟨hq.holds, hq.size, hq.buff⟩, Or.inr ⟨_, by rw [hnil], ?_⟩⟩
      exact ⟨⟨htail, rfl, hle, hacc⟩, Nat.zero_add _, by rw [window_zero, List.nil_append]⟩
    · have hnil : s.calls = [] := hG
      rw [hc] at hnil
      exact absurd hnil (List.cons_ne_nil _ _)
  | stmt =>
    rcases hcalls with ⟨hnil, -, -⟩ | ⟨c, hc, hat⟩
    · simp only [step, hnil] at hs
      exact absurd hs (by simp)
    · simp only [step, hc] at hs
      obtain rfl := Option.some.inj hs
      exact inv_exec hq hc hat hG
  | send =>
    obtain ⟨f, q', rfl, hwire, htail, hq'⟩ := hq.send hs
    obtain ⟨-, rfl⟩ := guard_eq_some hs
    have happ : s.wire ++ [content s s.dma] ++ q' = s.wire ++ f :: q' := by
      rw [show s.wire ++ [content s s.dma] = s.wire ++ [f] from hwire, List.append_assoc]
      rfl
    refine ⟨q', hq', hcalls.imp (fun h => ⟨h.1, ?_, ?_⟩) fun ⟨c, hc, hat⟩ => ⟨c, hc, ?_⟩⟩
    · rw [htail]
      exact h.2.1
    · exact h.2.2.trans happ.symm
    · refine hat.mono rfl rfl rfl rfl htail happ fun d hd => ?_
      by_cases hds : d = s.dma
      · rw [hds] at hd
        simp only [Function.update_self] at hd
        exact absurd hd (not_owned_sent _)
      · simp only [Function.update_of_ne hds] at hd
        exact hd
  | idle =>
    obtain ⟨-, rfl⟩ := excluded_eq_some hs
    refine ⟨q, ⟨hq.holds, hq.size, hq.buff⟩, hcalls.imp (fun h => h) fun ⟨c, hc, hat⟩ => ?_⟩
    exact ⟨c, hc, hat.mono rfl rfl rfl rfl rfl rfl fun _ hd => hd⟩

/-! ### Runs -/

theorem txBuff_kept {s s' : Tx} {e : Event} {d : Desc} (h : Inv s) (hG : Exclusive s e)
    (hs : step s e = some s') (hd : Owned (s.status d)) :
    window s'.txBuff (buffer1Addr d) ethMaxPacketSize =
      window s.txBuff (buffer1Addr d) ethMaxPacketSize := by
  obtain ⟨q, -, hcalls⟩ := h
  cases e with
  | stmt =>
    rcases hcalls with ⟨hnil, -, -⟩ | ⟨⟨p, buffer, stmt⟩, hc, hat⟩
    · simp only [step, hnil] at hs
      exact absurd hs (by simp)
    · simp only [step, hc] at hs
      obtain rfl := Option.some.inj hs
      have huses : s.uses = true → ¬ Owned (s.status s.dmaTxDescToSet) := hG
      rw [Tx.uses, hc] at huses
      match stmt, hat with
      | .memcpy l [], _ => rfl
      | .memcpy l ([] :: rest), _ => rfl
      | .memcpy l ((b :: bs) :: rest), ⟨hf, hlen, _⟩ =>
        have hown := huses rfl
        have hne : d ≠ s.dmaTxDescToSet := fun heq => hown (by rw [← heq]; exact hd)
        have hle := hf.le
        rw [List.flatten_cons, List.cons_append, List.length_cons] at hlen
        have hbuffer : buffer = buffer1Addr s.dmaTxDescToSet := hf.buffer
        show window (s.txBuff.set (buffer + l) b) _ _ = _
        rw [hbuffer]
        exact window_set_other s.txBuff b hne (by omega) (Nat.le_refl _)
      | .own _, _ => rfl
      | .size _, _ => rfl
      | .segments, _ => rfl
      | .handOver, _ => rfl
      | .resume, _ => rfl
      | .advance, _ => rfl
      | .ret _, _ => rfl
  | lowLevelOutput p =>
    obtain ⟨-, rfl⟩ := guard_eq_some hs
    rfl
  | send =>
    obtain ⟨-, rfl⟩ := guard_eq_some hs
    rfl
  | idle =>
    obtain ⟨-, rfl⟩ := excluded_eq_some hs
    rfl

theorem Inv.handedOver {s : Tx} (h : Inv s) :
    ∃ q, Queued s q ∧ accepted s ++ handedOver s = s.wire ++ q ∧
      ∀ c ∈ s.calls, c.stmt ≠ .ret ethError := by
  obtain ⟨q, hq, ⟨hnil, -, hacc⟩ | ⟨⟨p, buffer, stmt⟩, hc, hat⟩⟩ := h
  · refine ⟨q, hq, ?_, fun c hmem => ?_⟩
    · rw [TxOutput.handedOver, hnil, List.append_nil, hacc]
    · rw [hnil] at hmem
      exact absurd hmem List.not_mem_nil
  · refine ⟨q, hq, ?_, fun c hmem => ?_⟩
    · rw [TxOutput.handedOver, hc]
      cases stmt with
      | memcpy | own | size | segments | handOver => exact (List.append_nil _).trans hat.1.accepted
      | resume | advance => exact hat.2
      | ret => exact hat.2.1
    · rw [hc, List.mem_singleton] at hmem
      rintro hret
      rw [hmem] at hret
      rw [show stmt = .ret ethError from hret] at hat
      exact absurd hat.2.2 (by decide)

theorem Queued.drained {s : Tx} {q : List Frame} (h : Queued s q)
    (hfree : ∀ d, ¬ Owned (s.status d)) : q = [] := by
  cases q with
  | nil => rfl
  | cons f q' =>
    have hhead : slot s s.dma = some f := h.holds.head
    rw [slot_eq_none_iff.mpr (hfree _)] at hhead
    exact absurd hhead.symm (Option.some_ne_none f)

/-- **The accepted frames are sent.** After a run whose steps are all exclusive, the frames on the
wire are the first ones of those accepted, and all of them if the DMA owns no descriptor; a call
that has handed its descriptor over and has not returned yet counts as accepted. No further
exclusive step changes a buffer that the DMA owns, and no call has found its descriptor owned by the
DMA. -/
theorem sent_accepted {t : Tx} {es : List Event} (hG : Along step Exclusive Tx.init es)
    (hr : run step Tx.init es = some t) :
    t.wire <+: accepted t ++ handedOver t ∧
    ((∀ d, ¬ Owned (t.status d)) → t.wire = accepted t ++ handedOver t) ∧
    (∀ e t', Exclusive t e → step t e = some t' → ∀ d, Owned (t.status d) →
      window t'.txBuff (buffer1Addr d) ethMaxPacketSize =
        window t.txBuff (buffer1Addr d) ethMaxPacketSize) ∧
    ∀ c ∈ t.calls, c.stmt ≠ .ret ethError := by
  have hinv : Inv t := invariant Inv (fun _ _ _ => inv_step) inv_init hG hr
  obtain ⟨q, hq, heq, hret⟩ := hinv.handedOver
  refine ⟨⟨q, heq.symm⟩, fun hfree => ?_, fun e t' he hs d hd => txBuff_kept hinv he hs hd, hret⟩
  rw [heq, hq.drained hfree, List.append_nil]

/-- A frame from three pbufs, one of them empty, and a second one that the DMA has not sent yet. -/
theorem sent_accepted_two : ∃ t, run step Tx.init
      (.lowLevelOutput [[1, 2], [], [3]] :: List.replicate 14 .stmt ++ [.send, .idle] ++
        .lowLevelOutput [[4]] :: List.replicate 8 .stmt) = some t ∧
    t.wire <+: accepted t ++ handedOver t ∧
    (t.wire, accepted t, handedOver t) = ([[1, 2, 3]], [[1, 2, 3]], [[4]]) := by
  obtain ⟨t, hr, heq⟩ := Option.map_eq_some_iff.mp (show (run step Tx.init
      (.lowLevelOutput [[1, 2], [], [3]] :: List.replicate 14 .stmt ++ [.send, .idle] ++
        .lowLevelOutput [[4]] :: List.replicate 8 .stmt)).map
      (fun t => (t.wire, accepted t, handedOver t)) = some ([[1, 2, 3]], [[1, 2, 3]], [[4]]) by
    decide +kernel)
  exact ⟨t, hr, (sent_accepted (by decide +kernel) hr).1, heq⟩

/-- **Six frames in a burst.** The sixth call finds the first descriptor still owned by the DMA: it
has overwritten the first frame, is told `ETH_ERROR`, and returns `ERR_OK`. The DMA then sends the
sixth frame in place of the first one, and the ring is drained. -/
theorem sixth_frame_overwrites : ∃ t, run step Tx.init
      (([1, 2, 3, 4, 5].flatMap fun b => .lowLevelOutput [[b]] :: List.replicate 10 .stmt) ++
        .lowLevelOutput [[6]] :: List.replicate 5 .stmt ++ List.replicate 5 .send) = some t ∧
    t.calls = [] ∧ (∀ d, ¬ Owned (t.status d)) ∧
    accepted t = [[1], [2], [3], [4], [5], [6]] ∧ t.wire = [[6], [2], [3], [4], [5]] ∧
    ¬ t.wire <+: accepted t := by
  obtain ⟨t, hr, heq⟩ := Option.map_eq_some_iff.mp (show (run step Tx.init
      (([1, 2, 3, 4, 5].flatMap fun b => .lowLevelOutput [[b]] :: List.replicate 10 .stmt) ++
        .lowLevelOutput [[6]] :: List.replicate 5 .stmt ++ List.replicate 5 .send)).map
      (fun t => (t.calls, (decide (∀ d, ¬ Owned (t.status d)), accepted t, t.wire))) =
        some ([], true, [[1], [2], [3], [4], [5], [6]], [[6], [2], [3], [4], [5]]) by
    decide +kernel)
  simp only [Prod.mk.injEq, decide_eq_true_eq] at heq
  obtain ⟨hcalls, hfree, hacc, hwire⟩ := heq
  refine ⟨t, hr, hcalls, hfree, hacc, hwire, ?_⟩
  rw [hacc, hwire]
  decide

end Stm32TcpServer.Eth.TxRing
