import Mathlib.Data.List.Count
import Stm32TcpServer.Lib.Runs
import Stm32TcpServer.Lwip.Memp

/-! # The memory pools under preemption

`SYS_LIGHTWEIGHT_PROT` is 0, so nothing protects `memp_malloc` and `memp_free`: `ETH_IRQHandler`,
which allocates and frees elements itself, may come between any two statements of a call of the main
loop. The handler runs to completion, so its calls are those of `mempMalloc` and `mempFree`, any
number of them.

`Owned`: each element of each pool is once in the free list of its pool or is held once.
`owned_iff`: this holds in all states of a run exactly if, whenever a call of the main loop writes
`memp_tab[type]`, it still is what the call has read (`Untouched`). -/

namespace Stm32TcpServer.Lwip.MempPreempt

open Stm32TcpServer.Lib.FreeList Stm32TcpServer.Lib.Runs
open Stm32TcpServer.Lwip.Memp

variable {MempT : Type} [DecidableEq MempT]

/-- A call of the main loop in progress: the statement it comes to, with the local `memp`. -/
inductive Call (MempT : Type)
  /-- `memp = memp_tab[type];` -/
  | mallocRead (type : MempT)
  /-- `if (memp != NULL)` -/
  | mallocTest (type : MempT) (memp : Option (Elem MempT))
  /-- `memp_tab[type] = memp->next;` -/
  | mallocTake (type : MempT) (memp : Elem MempT)
  /-- `memp->next = memp_tab[type];` -/
  | freeLink (memp : Elem MempT)
  /-- `memp_tab[type] = memp;` -/
  | freeHead (memp : Elem MempT)

/-- **The pools, the elements held** by the main loop, the handler or their data structures, and the
call of the main loop in progress. -/
structure Sys (MempT : Type) where
  mem : Mem MempT
  held : List (Elem MempT)
  call : Option (Call MempT)

/-- The element that the call in progress is freeing. -/
def Call.freeing : Call MempT → Option (Elem MempT)
  | .freeLink e | .freeHead e => some e
  | _ => none

/-- A call of the main loop begins or executes a statement, the handler calls `memp_malloc` or
`memp_free`, or the user of an element writes to its first word. -/
inductive Event (MempT : Type)
  | malloc (type : MempT)
  | free (e : Elem MempT)
  | stmt
  | irqMalloc (type : MempT)
  | irqFree (e : Elem MempT)
  | write (e : Elem MempT) (p : Option (Elem MempT))

/-- **One statement of the main loop's call.** -/
def stmt (s : Sys MempT) : Call MempT → Sys MempT
  | .mallocRead type => { s with call := some (.mallocTest type (s.mem.mempTab type)) }
  | .mallocTest _ none => { s with call := none }
  | .mallocTest type (some memp) => { s with call := some (.mallocTake type memp) }
  | .mallocTake type memp =>
    { mem := s.mem.setTab type (s.mem.next memp), held := memp :: s.held, call := none }
  | .freeLink memp =>
    { s with mem := s.mem.setNext memp (s.mem.mempTab memp.1), call := some (.freeHead memp) }
  | .freeHead memp =>
    { mem := s.mem.setTab memp.1 (some memp), held := s.held.erase memp, call := none }

/-- The element is held, and not by the main loop's `memp_free`. -/
def Available (s : Sys MempT) (e : Elem MempT) : Prop :=
  e ∈ s.held ∧ s.call.bind Call.freeing ≠ some e

instance (s : Sys MempT) (e : Elem MempT) : Decidable (Available s e) := by
  unfold Available; infer_instance

/-- **One step.** Only held elements are freed or written to, and none that is being freed. -/
def step (s : Sys MempT) : Event MempT → Option (Sys MempT)
  | .malloc type => if s.call.isNone then some { s with call := some (.mallocRead type) } else none
  | .free e =>
    if s.call.isNone ∧ e ∈ s.held then some { s with call := some (.freeLink e) } else none
  | .stmt => s.call.map (stmt s)
  | .irqMalloc type => some
    { s with mem := (mempMalloc s.mem type).1, held := (mempMalloc s.mem type).2.toList ++ s.held }
  | .irqFree e =>
    if Available s e then some { s with mem := mempFree s.mem e, held := s.held.erase e } else none
  | .write e p => if Available s e then some { s with mem := s.mem.setNext e p } else none

/-- **Each element of each pool is in the free list of its pool once or is held once**, and not
both; the free lists end, so they are no cycles. -/
def Owned (mempNum : MempT → ℕ) (s : Sys MempT) : Prop :=
  ∃ free, FreeLists s.mem free ∧ ∀ type e,
    (free type).count e + (if e.1 = type then s.held.count e else 0) =
      if e.1 = type ∧ e.2 < mempNum type then 1 else 0

/-- Each element of a pool counts once, in the free list of the pool or among the elements held. -/
def Counted (mempNum : MempT → ℕ) (free : MempT → List (Elem MempT)) (held : List (Elem MempT)) :
    Prop :=
  ∀ type e, (free type).count e + (if e.1 = type then held.count e else 0) =
    if e.1 = type ∧ e.2 < mempNum type then 1 else 0

theorem owned_iff_counted {mempNum : MempT → ℕ} {s : Sys MempT} :
    Owned mempNum s ↔ ∃ free, FreeLists s.mem free ∧ Counted mempNum free s.held := Iff.rfl

/-- **`memp_tab[type]` is still what the call has read** when the call writes it. `memp_free` has
kept what it has read in `memp->next`. -/
def Untouched (s : Sys MempT) : Event MempT → Prop
  | .stmt => s.call.elim True fun c =>
    match c with
    | .mallocTake type memp => s.mem.mempTab type = some memp
    | .freeHead memp => s.mem.mempTab memp.1 = s.mem.next memp
    | _ => True
  | _ => True

/-- The element being freed is held. -/
def Calling (s : Sys MempT) : Prop := ∀ e, s.call.bind Call.freeing = some e → e ∈ s.held

/-- **A call whose statements are executed without interruption is `mempMalloc`**; here there is a
free element. -/
theorem run_malloc {s : Sys MempT} {type : MempT} {e : Elem MempT} (hcall : s.call = none)
    (htab : s.mem.mempTab type = some e) :
    run step s [.malloc type, .stmt, .stmt, .stmt] =
      some { mem := (mempMalloc s.mem type).1, held := e :: s.held, call := none } := by
  simp [run, step, stmt, mempMalloc, hcall, htab]

/-- **A call whose statements are executed without interruption is `mempFree`.** -/
theorem run_free {s : Sys MempT} {e : Elem MempT} (hcall : s.call = none) (he : e ∈ s.held) :
    run step s [.free e, .stmt, .stmt] =
      some { mem := mempFree s.mem e, held := s.held.erase e, call := none } := by
  simp [run, step, stmt, mempFree, hcall, he]

/-! ### What a step does to the free lists -/

section
variable {mempNum : MempT → ℕ} {s : Sys MempT} {free : MempT → List (Elem MempT)}

theorem not_free_of_held {e : Elem MempT} (hc : Counted mempNum free s.held) (he : e ∈ s.held)
    (type : MempT) : e ∉ free type := by
  intro hm
  have h := hc type e
  have hpos : 0 < s.held.count e := List.count_pos_iff.mpr he
  have hpos' : 0 < (free type).count e := List.count_pos_iff.mpr hm
  by_cases ht : e.1 = type
  · simp only [ht, if_true, true_and] at h
    split_ifs at h <;> omega
  · simp only [ht, if_false, false_and, Nat.add_zero] at h
    omega

/-- The head of a list is exchanged for the element behind it, which is held from then on. -/
theorem owned_take {type : MempT} {e : Elem MempT} {l : List (Elem MempT)} {mem : Mem MempT}
    {call : Option (Call MempT)} (hc : Counted mempNum free s.held) (hl : free type = e :: l)
    (hm : FreeLists mem (Function.update free type l)) :
    Owned mempNum { mem := mem, held := e :: s.held, call := call } := by
  refine ⟨_, hm, fun t e' => ?_⟩
  have h := hc t e'
  have htype : e.1 = type := by
    by_contra hne
    have := hc type e
    rw [hl, List.count_cons_self] at this
    simp [hne] at this
  by_cases ht : t = type
  · subst ht
    rw [hl, List.count_cons] at h
    rw [Function.update_self, List.count_cons]
    by_cases hee : e = e'
    · subst hee
      simp only [beq_self_eq_true, if_true, htype] at h ⊢
      omega
    · simp only [beq_iff_eq, hee, if_false, Nat.add_zero] at h ⊢
      exact h
  · rw [Function.update_of_ne ht, List.count_cons]
    by_cases hee : e = e'
    · subst hee
      simp only [htype, Ne.symm ht, if_false] at h ⊢
      exact h
    · simp only [beq_iff_eq, hee, if_false, Nat.add_zero]
      exact h

theorem owned_give {e : Elem MempT} {mem : Mem MempT} {call : Option (Call MempT)}
    (hc : Counted mempNum free s.held) (he : e ∈ s.held)
    (hm : FreeLists mem (Function.update free e.1 (e :: free e.1))) :
    Owned mempNum { mem := mem, held := s.held.erase e, call := call } := by
  refine ⟨_, hm, fun t e' => ?_⟩
  have h := hc t e'
  have hpos : 0 < s.held.count e := List.count_pos_iff.mpr he
  by_cases ht : t = e.1
  · subst ht
    rw [Function.update_self, List.count_cons, List.count_erase]
    by_cases hee : e = e'
    · subst hee
      simp only [beq_self_eq_true, if_true] at h ⊢
      omega
    · simp only [beq_iff_eq, hee, if_false, Nat.add_zero, Nat.sub_zero] at h ⊢
      exact h
  · rw [Function.update_of_ne ht, List.count_erase]
    by_cases hee : e = e'
    · subst hee
      simp only [Ne.symm ht, if_false] at h ⊢
      exact h
    · simp only [beq_iff_eq, hee, if_false, Nat.sub_zero]
      exact h

/-- With other lists and other elements held, the pools have the elements they had. -/
theorem perm_of_owned {free' : MempT → List (Elem MempT)} {held' l : List (Elem MempT)}
    {type : MempT} (hc : Counted mempNum free s.held) (hc' : Counted mempNum free' held')
    (hl : ∀ e, e.1 = type → l.count e + s.held.count e = (free' type).count e + held'.count e)
    (hl' : ∀ e, e.1 ≠ type → l.count e = 0) : (free type).Perm l := by
  refine List.perm_iff_count.mpr fun e => ?_
  have h := hc type e
  have h' := hc' type e
  by_cases ht : e.1 = type
  · have := hl e ht
    simp only [ht, if_true] at h h'
    omega
  · rw [hl' e ht]
    simp only [ht, if_false, false_and] at h
    omega

/-- **`memp_malloc` writes `memp_tab[type]`**: the element taken must still be the head of the list. -/
theorem owned_mallocTake {type : MempT} {memp : Elem MempT} (hf : FreeLists s.mem free)
    (hc : Counted mempNum free s.held) :
    Owned mempNum (stmt s (.mallocTake type memp)) ↔ s.mem.mempTab type = some memp := by
  constructor
  · intro ho
    obtain ⟨free', hf', hc'⟩ := owned_iff_counted.mp ho
    have hchain := hf' type
    simp only [stmt, setTab_mempTab, setTab_next, Function.update_self] at hchain
    -- the lists of the other pools are as before, so the element is of this pool
    have htype : memp.1 = type := by
      by_contra hne
      have hother := hf' memp.1
      simp only [stmt, setTab_mempTab, setTab_next, Function.update_of_ne hne] at hother
      have h := hc memp.1 memp
      have h' := hc' memp.1 memp
      rw [← (hf memp.1).unique hother] at h'
      simp only [stmt, List.count_cons_self, if_true] at h h'
      omega
    -- the element taken stands before what is left
    have htaken : Chain _ (some memp) (memp :: free' type) := ⟨rfl, hchain⟩
    refine (hf type).head_eq_of_perm htaken (perm_of_owned hc hc' (fun e _ => ?_) fun e hne => ?_)
    · simp only [stmt, List.count_cons]
      omega
    · have h := hc' type e
      have hme : memp ≠ e := fun he => hne (he ▸ htype)
      simp only [hne, if_false, false_and, Nat.add_zero] at h
      rw [List.count_cons_of_ne hme, h]
  · intro htab
    have ht := hf type
    rw [htab] at ht
    obtain ⟨l, hl, hlc⟩ := ht.of_some
    exact owned_take hc hl (freeLists_setTab hf hlc)

/-- **`memp_free` writes `memp_tab[type]`**: the element given back must point to the head of the
list. -/
theorem owned_freeHead {memp : Elem MempT} (hf : FreeLists s.mem free)
    (hc : Counted mempNum free s.held) (he : memp ∈ s.held) :
    Owned mempNum (stmt s (.freeHead memp)) ↔ s.mem.mempTab memp.1 = s.mem.next memp := by
  constructor
  · intro ho
    obtain ⟨free', hf', hc'⟩ := owned_iff_counted.mp ho
    have hchain := hf' memp.1
    simp only [stmt, setTab_mempTab, setTab_next, Function.update_self] at hchain
    obtain ⟨l, hl, hlc⟩ := hchain.of_some
    refine (hf memp.1).head_eq_of_perm hlc (perm_of_owned hc hc' (fun e _ => ?_) fun e hne => ?_)
    · have hpos : 0 < s.held.count memp := List.count_pos_iff.mpr he
      simp only [stmt, hl, List.count_cons, List.count_erase]
      by_cases hee : memp = e
      · subst hee
        simp only [beq_self_eq_true, if_true]
        omega
      · simp [hee]
    · have h := hc' memp.1 e
      simp only [hl, List.count_cons, hne, if_false, false_and] at h
      omega
  · intro htab
    refine owned_give hc he (freeLists_setTab hf ⟨rfl, ?_⟩)
    rw [← htab]
    exact hf memp.1

end

/-! ### Steps -/

/-- **A step keeps the ownership exactly if it writes no `memp_tab[type]` that has been touched.** -/
theorem owned_step {mempNum : MempT → ℕ} {s s' : Sys MempT} {e : Event MempT}
    (hcall : Calling s) (ho : Owned mempNum s) (hs : step s e = some s') :
    Owned mempNum s' ↔ Untouched s e := by
  obtain ⟨free, hf, hc⟩ := owned_iff_counted.mp ho
  cases e with
  | malloc type =>
    obtain ⟨-, rfl⟩ := guard_eq_some hs
    exact iff_of_true ho trivial
  | free e =>
    obtain ⟨-, rfl⟩ := guard_eq_some hs
    exact iff_of_true ho trivial
  | irqMalloc type =>
    obtain rfl := Option.some.inj hs
    refine iff_of_true ?_ trivial
    rcases freeLists_mempMalloc type hf with ⟨h1, h2, -⟩ | ⟨e, l, h1, h2, h3⟩
    · rw [h1, h2]
      exact ho
    · rw [h1]
      exact owned_take hc h2 h3
  | irqFree e =>
    obtain ⟨ha, rfl⟩ := guard_eq_some hs
    have hnot := not_free_of_held hc ha.1
    exact iff_of_true (owned_give hc ha.1 (freeLists_mempFree hnot hf)) trivial
  | write e p =>
    obtain ⟨ha, rfl⟩ := guard_eq_some hs
    have hnot := not_free_of_held hc ha.1
    exact iff_of_true ⟨free, freeLists_setNext p hnot hf, hc⟩ trivial
  | stmt =>
    obtain ⟨c, hcs, rfl⟩ := Option.map_eq_some_iff.mp hs
    have hheld : ∀ memp, c.freeing = some memp → memp ∈ s.held := fun memp h =>
      hcall memp (by rw [hcs]; exact h)
    simp only [Untouched, hcs, Option.elim_some]
    cases c with
    | mallocRead type => exact iff_of_true ho trivial
    | mallocTest type memp => cases memp <;> exact iff_of_true ho trivial
    | mallocTake type memp => exact owned_mallocTake hf hc
    | freeLink memp =>
      have hnot := not_free_of_held hc (hheld memp rfl)
      exact iff_of_true ⟨free, freeLists_setNext _ hnot hf, hc⟩ trivial
    | freeHead memp => exact owned_freeHead hf hc (hheld memp rfl)

theorem calling_step {s s' : Sys MempT} {e : Event MempT} (h : Calling s)
    (hs : step s e = some s') : Calling s' := by
  cases e with
  | malloc type =>
    obtain ⟨-, rfl⟩ := guard_eq_some hs
    intro e he
    simp [Call.freeing] at he
  | free e =>
    obtain ⟨hg, rfl⟩ := guard_eq_some hs
    intro e' he
    obtain rfl : e = e' := Option.some.inj he
    exact hg.2
  | irqMalloc type =>
    obtain rfl := Option.some.inj hs
    exact fun e he => List.mem_append_right _ (h e he)
  | irqFree e =>
    obtain ⟨ha, rfl⟩ := guard_eq_some hs
    intro e' he
    have hne : e' ≠ e := fun heq => ha.2 (heq ▸ he)
    exact (List.mem_erase_of_ne hne).mpr (h e' he)
  | write e p =>
    obtain ⟨-, rfl⟩ := guard_eq_some hs
    exact h
  | stmt =>
    obtain ⟨c, hcs, rfl⟩ := Option.map_eq_some_iff.mp hs
    intro e he
    cases c with
    | mallocRead type => simp [stmt, Call.freeing] at he
    | mallocTest type memp => cases memp <;> simp [stmt, Call.freeing] at he
    | mallocTake type memp => simp [stmt] at he
    | freeLink memp =>
      refine h e ?_
      rw [hcs]
      exact he
    | freeHead memp => simp [stmt] at he

/-! ### Runs -/

/-- **Ownership under preemption.** From a state in which the pools own their elements, they do in
all states of a run if and only if each write of the main loop's calls to `memp_tab[type]` finds it
as the call has read it. -/
theorem owned_iff {mempNum : MempT → ℕ} {s t : Sys MempT} {es : List (Event MempT)}
    (hcall : Calling s) (ho : Owned mempNum s) (hr : run step s es = some t) :
    (∀ n u, run step s (es.take n) = some u → Owned mempNum u) ↔ Along step Untouched s es :=
  always_iff_along Calling (fun _ _ _ hi _ hs => calling_step hi hs)
    (fun _ _ _ hi ho hs => owned_step hi ho hs) hcall ho hr

/-- The state after `memp_init`. -/
def Sys.init (mempNum : MempT → ℕ) (types : List MempT) (m : Mem MempT) : Sys MempT :=
  { mem := mempInit mempNum types m, held := [], call := none }

theorem calling_init (mempNum : MempT → ℕ) (types : List MempT) (m : Mem MempT) :
    Calling (Sys.init mempNum types m) := fun _ h => nomatch h

theorem owned_init (mempNum : MempT → ℕ) {types : List MempT} (m : Mem MempT) (hnd : types.Nodup)
    (hall : ∀ type, type ∈ types) : Owned mempNum (Sys.init mempNum types m) := by
  refine ⟨elems mempNum, fun type => freeLists_mempInit mempNum types m hnd type (hall type), ?_⟩
  intro type e
  simp [elems, count_linked, Sys.init]

/-! ### One pool of two elements -/

/-- A pool of two elements after `memp_init`. -/
def twoElems : Sys Unit :=
  Sys.init (fun _ => 2) [()] { mempTab := fun _ => none, next := fun _ => none }

theorem twoElems_owned : Owned (fun _ => 2) twoElems :=
  owned_init _ _ (List.nodup_singleton _) fun _ => List.mem_singleton.mpr rfl

/-- The handler comes between two statements of `memp_malloc`, takes the last free element and gives
it back. -/
def runUntouched : List (Event Unit) :=
  [.malloc (), .stmt, .irqMalloc (), .irqFree ((), 1), .stmt, .stmt]

theorem owned_iff_untouched :
    (∀ n u, run step twoElems (runUntouched.take n) = some u → Owned (fun _ => 2) u) ↔
      Along step Untouched twoElems runUntouched := by
  obtain ⟨t, ht⟩ := Option.isSome_iff_exists.mp
    (show (run step twoElems runUntouched).isSome = true by decide)
  exact owned_iff (calling_init _ _ _) twoElems_owned ht

/-- The handler calls `memp_malloc` after the main loop's `memp_malloc` has read the head. -/
def runTwice : List (Event Unit) := [.malloc (), .stmt, .stmt, .irqMalloc (), .stmt]

/-- **An element is handed out twice.** -/
theorem element_handed_out_twice : ∃ s, run step twoElems runTwice = some s ∧
    s.held = [((), 1), ((), 1)] ∧ ¬ Owned (fun _ => 2) s := by
  obtain ⟨s, hs, hh⟩ := Option.map_eq_some_iff.mp
    (show (run step twoElems runTwice).map Sys.held = some [((), 1), ((), 1)] by decide)
  refine ⟨s, hs, hh, ?_⟩
  rintro ⟨free, -, hc⟩
  have h := hc () ((), 1)
  rw [hh] at h
  simp at h

end Stm32TcpServer.Lwip.MempPreempt
