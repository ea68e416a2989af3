import Mathlib.Data.List.Infix
import Stm32TcpServer.Uart.MainLoop

/-! # Bursts and reads

The bytes come in bursts of 1 to 50, each ended by the idle interrupt, and the main loop polls at
any moment, at least once between an idle interrupt and the next burst. `sCom2ReadFlag` is lowered
only by a poll that finds bytes. So it is left over when all bytes of a burst have been read before
its idle interrupt: by a poll between the last byte and the idle interrupt, when the flag is up
there because the burst has 50 bytes or because it was left over before. A poll inside the next
burst then returns part of it.

`Framed` says that this does not happen, in terms of the bursts and the moments of the polls alone;
`framing_iff`: the reads are the bursts exactly then. -/

namespace Stm32TcpServer.Uart.RxFraming

open Stm32TcpServer.Lib.Runs
open Stm32TcpServer.Uart.Com2Rx Stm32TcpServer.Uart.MainLoop

/-- **A burst** and the polls in it and after it. -/
structure Burst where
  /-- The bytes but the last, each with the number of polls after it. -/
  front : List (UInt8 × ℕ)
  last : UInt8
  /-- The polls between the last byte and the idle interrupt. -/
  polls : ℕ
  /-- The polls after the idle interrupt. -/
  after : ℕ
  short : front.length < uartRecvBuf
  polled : 0 < after

/-- The bytes of a burst. -/
def Burst.bytes (B : Burst) : List UInt8 := B.front.map Prod.fst ++ [B.last]

/-- The main loop polls inside the burst: after its first byte and before its last. -/
def Burst.Split (B : Burst) : Prop := ∃ x ∈ B.front, x.2 ≠ 0

instance (B : Burst) : Decidable B.Split := by unfold Burst.Split; infer_instance

/-- The flag after the burst and its polls, if it was `stale` before. -/
def Burst.stale (stale : Bool) (B : Burst) : Bool :=
  (stale || decide (B.front.length + 1 = uartRecvBuf)) && decide (B.polls ≠ 0)

/-- **No burst is split while a flag is left over.** -/
def Framed : Bool → List Burst → Prop
  | _, [] => True
  | stale, B :: Bs => (stale = true → ¬ B.Split) ∧ Framed (B.stale stale) Bs

instance : ∀ (stale : Bool) (Bs : List Burst), Decidable (Framed stale Bs)
  | _, [] => instDecidableTrue
  | stale, B :: Bs =>
    have : Decidable (Framed (B.stale stale) Bs) := instDecidableFramed (B.stale stale) Bs
    inferInstanceAs (Decidable ((stale = true → ¬ B.Split) ∧ Framed (B.stale stale) Bs))

/-- `k` polls. -/
def pollEvents (k : ℕ) : List Event := List.replicate k .poll

/-- The events of the bytes before the last. -/
def frontEvents : List (UInt8 × ℕ) → List Event
  | [] => []
  | (b, k) :: front => .byte b :: (pollEvents k ++ frontEvents front)

/-- The events of a burst. -/
def Burst.events (B : Burst) : List Event :=
  frontEvents B.front ++ .byte B.last :: (pollEvents B.polls ++ .idle :: pollEvents B.after)

/-- The events of a sequence of bursts. -/
def events (Bs : List Burst) : List Event := (Bs.map Burst.events).flatten

/-! ### The mailbox under polls -/

theorem run_polls (m : Mailbox) : ∀ k : ℕ,
    run Mailbox.step m (pollEvents k) = some (if k = 0 then m else m.poll)
  | 0 => rfl
  | 1 => rfl
  | k + 2 => by
    rw [pollEvents, List.replicate_succ, run_cons_some (show m.step .poll = some m.poll from rfl)]
    have ih := run_polls m.poll (k + 1)
    rw [if_neg (Nat.succ_ne_zero k), Mailbox.poll_poll] at ih
    rw [if_neg (by omega)]
    exact ih

theorem poll_reads (m : Mailbox) : m.reads <+: m.poll.reads := by
  unfold Mailbox.poll
  split_ifs
  · exact List.prefix_append _ _
  · exact List.prefix_refl _

theorem poll_length (m : Mailbox) : m.poll.content.length ≤ m.content.length := by
  unfold Mailbox.poll
  split_ifs <;> simp

/-- The state after the last byte of a burst and the polls that follow it. -/
def tail (m : Mailbox) (B : Burst) : Mailbox :=
  (if B.polls = 0 then m.byte B.last else (m.byte B.last).poll).idle.poll

theorem run_tail {m : Mailbox} {B : Burst} (h : m.content.length < uartRecvBuf) :
    run Mailbox.step m (.byte B.last :: (pollEvents B.polls ++ .idle :: pollEvents B.after)) =
      some (tail m B) := by
  have hb : m.step (.byte B.last) = some (m.byte B.last) := by rw [Mailbox.step, if_pos h]
  rw [run_cons_some hb, run_append, run_polls, Option.bind_some, run_cons_some rfl, run_polls,
    if_neg (Nat.pos_iff_ne_zero.mp B.polled)]
  rfl

theorem tail_content (m : Mailbox) (B : Burst) : (tail m B).content = [] := by
  unfold tail
  generalize (if B.polls = 0 then m.byte B.last else (m.byte B.last).poll) = m'
  unfold Mailbox.poll
  split_ifs with h
  · rfl
  · simpa using h

theorem tail_reads (m : Mailbox) (B : Burst) : m.reads <+: (tail m B).reads := by
  refine List.IsPrefix.trans ?_ (poll_reads _)
  split_ifs
  · exact List.prefix_refl _
  · exact poll_reads (m.byte B.last)

theorem tail_whole {m : Mailbox} {B : Burst} (h : m.content = B.front.map Prod.fst) :
    (tail m B).reads = m.reads ++ [B.bytes] ∧ (tail m B).flag = B.stale m.flag := by
  have hc : (m.byte B.last).content = B.bytes := by rw [Mailbox.byte_content, h]; rfl
  have hne : B.bytes ≠ [] := by simp [Burst.bytes]
  have hf : (m.byte B.last).flag =
      (m.flag || decide (B.front.length + 1 = uartRecvBuf)) := by
    simp [Mailbox.byte, h]
  have hidle (m' : Mailbox) (hc' : m'.content = B.bytes) :
      m'.idle.poll = { flag := false, content := [], reads := m'.reads ++ [B.bytes] } := by
    rw [Mailbox.poll, if_pos ⟨rfl, by rw [Mailbox.idle_content, hc']; exact hne⟩,
      Mailbox.idle_content, hc', Mailbox.idle_reads]
  unfold tail Burst.stale
  by_cases hp : B.polls = 0
  · rw [if_pos hp, hidle _ hc]
    simp [hp]
  · rw [if_neg hp, ← hf]
    cases hfl : (m.byte B.last).flag with
    | false =>
      rw [Mailbox.poll_of_flag hfl, hidle _ hc]
      simp
    | true =>
      have hpoll : (m.byte B.last).poll =
          { flag := false, content := [], reads := m.reads ++ [B.bytes] } := by
        rw [Mailbox.poll, if_pos ⟨hfl, by rw [hc]; exact hne⟩, hc, Mailbox.byte_reads]
      rw [hpoll, Mailbox.poll_of_nil rfl]
      simp [hp]

/-! ### The bytes before the last -/

/-- As long as the flag is down or no poll comes, the bytes gather. -/
theorem run_front_whole : ∀ {front : List (UInt8 × ℕ)} {m : Mailbox},
    m.content.length + front.length < uartRecvBuf → (m.flag = true → ∀ x ∈ front, x.2 = 0) →
    run Mailbox.step m (frontEvents front) =
      some { m with content := m.content ++ front.map Prod.fst }
  | [], m, _, _ => by simp [frontEvents]
  | (b, k) :: front, m, hlt, hfl => by
    rw [List.length_cons] at hlt
    have hb : m.step (.byte b) = some (m.byte b) := by rw [Mailbox.step, if_pos (by omega)]
    have hflag : (m.byte b).flag = m.flag := by
      rw [Mailbox.byte, decide_eq_false (by omega), Bool.or_false]
    have hpoll : (if k = 0 then m.byte b else (m.byte b).poll) = m.byte b := by
      split_ifs with hk
      · rfl
      · refine Mailbox.poll_of_flag (hflag.trans ?_)
        by_contra hne
        exact hk (hfl (by simpa using hne) (b, k) List.mem_cons_self)
    rw [frontEvents, run_cons_some hb, run_append, run_polls, hpoll, Option.bind_some,
      run_front_whole (by simp only [Mailbox.byte_content, List.length_append,
        List.length_singleton]; omega)
        fun h x hx => hfl (hflag ▸ h) x (List.mem_cons_of_mem _ hx)]
    simp [Mailbox.byte, decide_eq_false (show ¬ m.content.length + 1 = uartRecvBuf by omega)]

/-- Whatever the polls, the bytes before the last fit, and what has been read stays read. -/
theorem run_front : ∀ (front : List (UInt8 × ℕ)) (m : Mailbox),
    m.content.length + front.length < uartRecvBuf →
    ∃ m', run Mailbox.step m (frontEvents front) = some m' ∧ m.reads <+: m'.reads ∧
      m'.content.length < uartRecvBuf
  | [], m, hlt => ⟨m, rfl, List.prefix_refl _, hlt⟩
  | (b, k) :: front, m, hlt => by
    rw [List.length_cons] at hlt
    have hb : m.step (.byte b) = some (m.byte b) := by rw [Mailbox.step, if_pos (by omega)]
    set m₁ := if k = 0 then m.byte b else (m.byte b).poll with hm₁
    have hlen : m₁.content.length ≤ m.content.length + 1 := by
      have := poll_length (m.byte b)
      have hc : (m.byte b).content.length = m.content.length + 1 := by simp
      rw [hm₁]
      split_ifs <;> omega
    have hreads : m.reads <+: m₁.reads := by
      rw [hm₁]
      split_ifs
      · exact List.prefix_refl _
      · exact poll_reads (m.byte b)
    obtain ⟨m', hr, hp, hc⟩ := run_front front m₁ (by omega)
    refine ⟨m', ?_, hreads.trans hp, hc⟩
    rw [frontEvents, run_cons_some hb, run_append, run_polls, ← hm₁]
    exact hr

/-- A poll between the bytes while the flag is up takes a part of the burst. -/
theorem run_front_split : ∀ {front : List (UInt8 × ℕ)} {m m' : Mailbox},
    m.content.length + front.length < uartRecvBuf → m.flag = true → (∃ x ∈ front, x.2 ≠ 0) →
    run Mailbox.step m (frontEvents front) = some m' →
    ∃ piece, m.reads ++ [piece] <+: m'.reads ∧
      piece.length ≤ m.content.length + front.length
  | [], _, _, _, _, hs, _ => by simp at hs
  | (b, k) :: front, m, m', hlt, hfl, hs, hr => by
    rw [List.length_cons] at hlt ⊢
    have hb : m.step (.byte b) = some (m.byte b) := by rw [Mailbox.step, if_pos (by omega)]
    have hfl' : (m.byte b).flag = true := by simp [Mailbox.byte, hfl]
    have hlen : (m.byte b).content.length = m.content.length + 1 := by simp
    rw [frontEvents, run_cons_some hb, run_append, run_polls] at hr
    by_cases hk : k = 0
    · rw [if_pos hk, Option.bind_some] at hr
      have hs' : ∃ x ∈ front, x.2 ≠ 0 := by
        obtain ⟨x, hx, hne⟩ := hs
        rcases List.mem_cons.mp hx with rfl | hx
        · exact absurd hk hne
        · exact ⟨x, hx, hne⟩
      obtain ⟨piece, hp, hl⟩ := run_front_split (by omega) hfl' hs' hr
      exact ⟨piece, hp, by omega⟩
    · have hpoll : (m.byte b).poll =
          { flag := false, content := [], reads := m.reads ++ [(m.byte b).content] } := by
        rw [Mailbox.poll, if_pos ⟨hfl', by simp⟩, Mailbox.byte_reads]
      rw [if_neg hk, Option.bind_some, hpoll] at hr
      obtain ⟨m'', hr', hp, -⟩ := run_front front
        { flag := false, content := [], reads := m.reads ++ [(m.byte b).content] }
        (by simp only [List.length_nil]; omega)
      obtain rfl := Option.some.inj (hr'.symm.trans hr)
      exact ⟨_, hp, by omega⟩

/-! ### Bursts -/

theorem run_burst_whole {m : Mailbox} {B : Burst} (hm : m.content = [])
    (h : m.flag = true → ¬ B.Split) : ∃ m', run Mailbox.step m B.events = some m' ∧
      m'.content = [] ∧ m'.reads = m.reads ++ [B.bytes] ∧ m'.flag = B.stale m.flag := by
  have hshort := B.short
  set m₁ : Mailbox := { m with content := m.content ++ B.front.map Prod.fst } with hm₁
  have hfront : run Mailbox.step m (frontEvents B.front) = some m₁ := by
    refine run_front_whole (by rw [hm]; simpa using hshort) fun hf x hx => ?_
    by_contra hne
    exact h hf ⟨x, hx, hne⟩
  have hc : m₁.content = B.front.map Prod.fst := by simp [hm₁, hm]
  obtain ⟨hreads, hflag⟩ := tail_whole hc
  refine ⟨tail m₁ B, ?_, tail_content _ _, hreads, hflag⟩
  rw [Burst.events, run_append, hfront]
  exact run_tail (by rw [hc, List.length_map]; exact hshort)

theorem run_burst_split {m : Mailbox} {B : Burst} (hm : m.content = []) (hf : m.flag = true)
    (hs : B.Split) : ∃ m' piece, run Mailbox.step m B.events = some m' ∧ m'.content = [] ∧
      m.reads ++ [piece] <+: m'.reads ∧ piece.length < B.bytes.length := by
  have hshort := B.short
  have hlt : m.content.length + B.front.length < uartRecvBuf := by rw [hm]; simpa using hshort
  obtain ⟨m₁, hr, -, hc⟩ := run_front B.front m hlt
  obtain ⟨piece, hp, hl⟩ := run_front_split hlt hf hs hr
  refine ⟨tail m₁ B, piece, ?_, tail_content _ _, hp.trans (tail_reads m₁ B), ?_⟩
  · rw [Burst.events, run_append, hr]
    exact run_tail hc
  · rw [hm, List.length_nil, Nat.zero_add] at hl
    simp only [Burst.bytes, List.length_append, List.length_map, List.length_singleton]
    omega

/-- **The reads are the bursts exactly if the bursts are framed.** -/
theorem run_events : ∀ (Bs : List Burst) (m : Mailbox), m.content = [] →
    ∃ m', run Mailbox.step m (events Bs) = some m' ∧ m.reads <+: m'.reads ∧
      (m'.reads = m.reads ++ Bs.map Burst.bytes ↔ Framed m.flag Bs)
  | [], m, _ => ⟨m, rfl, List.prefix_refl _, by simp [Framed]⟩
  | B :: Bs, m, hm => by
    have hev : events (B :: Bs) = B.events ++ events Bs := rfl
    by_cases h : m.flag = true → ¬ B.Split
    · obtain ⟨m₁, hr₁, hc₁, hreads₁, hf₁⟩ := run_burst_whole hm h
      obtain ⟨m', hr', hp, hiff⟩ := run_events Bs m₁ hc₁
      rw [hreads₁] at hp
      refine ⟨m', by rw [hev, run_append, hr₁]; exact hr',
        (List.prefix_append _ _).trans hp, ?_⟩
      rw [hreads₁, hf₁] at hiff
      rw [Framed, and_iff_right h, ← hiff, List.map_cons, List.append_assoc]
      rfl
    · rw [Classical.not_imp, not_not] at h
      obtain ⟨m₁, piece, hr₁, hc₁, hp₁, hlt⟩ := run_burst_split hm h.1 h.2
      obtain ⟨m', hr', hp, -⟩ := run_events Bs m₁ hc₁
      have hp' := hp₁.trans hp
      refine ⟨m', by rw [hev, run_append, hr₁]; exact hr', (List.prefix_append _ _).trans hp', ?_⟩
      refine ⟨fun heq => ?_, fun hfr => absurd h.2 (hfr.1 h.1)⟩
      -- the part that was read stands where the burst should stand
      rw [heq, List.prefix_append_right_inj, List.map_cons, List.cons_prefix_cons] at hp'
      rw [hp'.1] at hlt
      exact absurd hlt (Nat.lt_irrefl _)

/-- **Receive framing.** After any number of polls and then bursts with polls at any moments, the
non-empty reads are the bursts, each returned whole by one call, exactly if no burst is split while
a flag is left over. -/
theorem framing_iff {data : List UInt8} (hd : uartRecvBuf ≤ data.length) (k : ℕ) (Bs : List Burst) :
    ((pollEvents k ++ events Bs).foldl exec (Loop.init data)).reads = Bs.map Burst.bytes ↔
      Framed false Bs := by
  have hpolls : run Mailbox.step Mailbox.init (pollEvents k) = some Mailbox.init := by
    rw [run_polls, Mailbox.poll_of_flag rfl, ite_self]
  obtain ⟨m', hr, -, hiff⟩ := run_events Bs Mailbox.init rfl
  have hrun : run Mailbox.step Mailbox.init (pollEvents k ++ events Bs) = some m' := by
    rw [run_append, hpolls]
    exact hr
  rw [(sim_run (sim_init hd) hrun).reads]
  exact hiff

/-- 50 bytes, polled before the idle interrupt and after it. -/
def full : Burst where
  front := List.replicate 49 (97, 0)
  last := 98
  polls := 1
  after := 1
  short := by decide
  polled := by decide

/-- `xy`, polled between its two bytes and after the idle interrupt. -/
def pair : Burst where
  front := [(120, 1)]
  last := 121
  polls := 0
  after := 1
  short := by decide
  polled := by decide

theorem framing_pair_full :
    ((pollEvents 2 ++ events [pair, full, pair]).foldl exec
        (Loop.init (List.replicate dataSize 0))).reads = [pair, full, pair].map Burst.bytes ↔
      Framed false [pair, full, pair] :=
  framing_iff (by rw [List.length_replicate]; decide) 2 [pair, full, pair]

/-- **A burst is split**: the flag left over from 50 bytes that were read before their idle
interrupt makes a poll inside the next burst return its first byte alone. -/
theorem burst_split :
    ((pollEvents 0 ++ events [full, pair]).foldl exec
      (Loop.init (List.replicate dataSize 0))).reads = [full.bytes, [120], [121]] ∧
    [full.bytes, [120], [121]] ≠ [full, pair].map Burst.bytes := by
  obtain ⟨m, hr, hm⟩ := Option.map_eq_some_iff.mp
    (show (run Mailbox.step Mailbox.init (pollEvents 0 ++ events [full, pair])).map Mailbox.reads =
      some [full.bytes, [120], [121]] by decide)
  rw [(sim_run (sim_init (by rw [List.length_replicate]; decide)) hr).reads]
  exact ⟨hm, by decide⟩

end Stm32TcpServer.Uart.RxFraming
