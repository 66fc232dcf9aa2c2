import Crosstalk.Interpreter.ProcessSwitch

/-!
# Runs of the scheduler

Between the primitives and the switches the machine does other things, to which the
objects of the scheduler mean nothing. In every run the lists in the memory are the
queues of the priority scheduler.
-/

namespace Crosstalk

open ObjectMemory
open Scheduling (State)

namespace Processor

variable {P : Processor} {process process' : Nat → Prop} {L : Layout} {base : Nat → Nat}
  {a b : State Nat Nat} {l p : Nat} {s t : Interpreter}

/-! ## Runs -/

/-- What a run from `s₀` comes to, with its primitives, the last one first. Other steps of
the machine change anything but the scheduler. -/
inductive Reached (P : Processor) (process₀ : Nat → Prop) (base₀ : Nat → Nat) (s₀ : Interpreter)
    (a₀ : State Nat Nat) : List (Scheduling.Action Nat Nat) → (Nat → Prop) → (Nat → Nat) →
      Interpreter → State Nat Nat → Prop
  | start : Reached P process₀ base₀ s₀ a₀ [] process₀ base₀ s₀ a₀
  | primitive {acts : List (Scheduling.Action Nat Nat)} {process : Nat → Prop} {base : Nat → Nat}
      {s t : Interpreter} {a b : State Nat Nat} (act : Scheduling.Action Nat Nat) :
      Reached P process₀ base₀ s₀ a₀ acts process base s a → P.Allowed process a s act →
      act.run P.policy a = some b → perform act s = some ((), t) →
      Reached P process₀ base₀ s₀ a₀ (act :: acts) (P.Remains process s a b) base t b
  | switch {acts : List (Scheduling.Action Nat Nat)} {process : Nat → Prop} {base : Nat → Nat}
      {s t : Interpreter} {a : State Nat Nat} {L : Layout} :
      Reached P process₀ base₀ s₀ a₀ acts process base s a → P.Managed process base s L a →
      P.Switchable process L s → switchProcess s = some ((), t) →
      Reached P process₀ base₀ s₀ a₀ acts (P.Survives process base s L a) base t a
  | other {acts : List (Scheduling.Action Nat Nat)} {process process' : Nat → Prop}
      {base base' : Nat → Nat} {s t : Interpreter} {a : State Nat Nat} :
      Reached P process₀ base₀ s₀ a₀ acts process base s a →
      (∃ L, P.Managed process' base' t L a) → Reached P process₀ base₀ s₀ a₀ acts process' base' t a

section Runs

variable {process₀ : Nat → Prop} {base₀ : Nat → Nat} {s₀ : Interpreter} {a₀ : State Nat Nat}
  {acts : List (Scheduling.Action Nat Nat)}

theorem Reached.managed (hs : ∃ L, P.Managed process₀ base₀ s₀ L a₀)
    (h : P.Reached process₀ base₀ s₀ a₀ acts process base s a) :
    ∃ L, P.Managed process base s L a := by
  induction h with
  | start => exact hs
  | primitive act _ hact hb hrun ih =>
      obtain ⟨L, hL⟩ := ih
      exact ((hL.wp_step hact hb).toWlp _ _ hrun).2
  | switch _ hs hswitch hrun _ => exact (wp_switchProcess_managed hs hswitch).toWlp _ _ hrun
  | other _ ht => exact ht

/-- Where the processes are, as one reads it in the memory. -/
structure Placed (P : Processor) (s : Interpreter) (queue : Nat → List Nat) (running : Nat) :
    Prop where
  linked : ∀ l, P.list l → Linked (s.memory.chunkWord · (headerSize + nextLinkIndex)) nilPointer
    (s.memory.chunkWord l (headerSize + firstLinkIndex)) (queue l)
  current : P.Current s.memory running s
  once : ∀ l l', P.list l → P.list l' → ∀ p ∈ queue l, p ∈ queue l' → l = l'
  apart : ∀ l, P.list l → running ∉ queue l
  level : s.memory.chunkWord running (headerSize + priorityIndex) =
    integerObjectOf (P.policy.priority running)
  ready : ∀ k, 1 ≤ k → k ≤ P.policy.levels → ∀ p ∈ queue (P.policy.ready k),
    s.memory.chunkWord p (headerSize + priorityIndex) = integerObjectOf k ∧
      k ≤ P.policy.priority running
  excess : ∀ l, P.semaphore l → queue l ≠ [] →
    s.memory.chunkWord l (headerSize + excessSignalsIndex) = integerObjectOf 0

theorem Managed.placed (h : P.Managed process base s L a) : P.Placed s a.queue a.active := by
  refine ⟨h.tracks.queued.linked, h.current, fun l l' _ _ p hp hp' => h.orderly.apart l l' p hp hp',
    fun l _ => h.orderly.active l, (h.sound.priority _ h.active).2, fun k h1 hk p hp => ?_,
    fun l hl hne => ?_⟩
  · have hready := h.sound.policy.ready k h1 hk
    have hlevel := h.orderly.level p (.inr ⟨_, hp⟩)
    have hpk := h.sound.policy.inj _ _ h1 hk hlevel.1 hlevel.2 (h.orderly.place _ p hp hready)
    have hprocess := h.tracks.queued.process _ (h.tracks.listed _ p hp) p hp
    refine ⟨?_, hpk ▸ h.orderly.highest _ p hp hready⟩
    rw [(h.sound.priority p hprocess).2, hpk]
  · rw [(h.tracks.excess l hl).2, (h.orderly.excess l hl).2 hne]

/-- In every run each process is in one place, those that are ready wait in the lists of
their priorities, and none of them has a higher one than the process that runs. -/
theorem reached_placed (hs : ∃ L, P.Managed process₀ base₀ s₀ L a₀)
    (h : P.Reached process₀ base₀ s₀ a₀ acts process base s a) :
    ∃ queue running, P.Placed s queue running := by
  obtain ⟨L, hL⟩ := h.managed hs
  exact ⟨a.queue, a.active, hL.placed⟩

theorem Reached.known (hs : ∃ L, P.Managed process₀ base₀ s₀ L a₀)
    (h : P.Reached process₀ base₀ s₀ a₀ acts process base s a) (hno : .suspend ∉ acts) :
    a.Known p ↔ a₀.Known p ∨ .resume p ∈ acts := by
  induction h with
  | start => simp
  | @primitive acts process base s t a b act hreached hact hb _ ih =>
      obtain ⟨L, hL⟩ := hreached.managed hs
      have hknown := (hL.orderly.action hL.sound.policy (hL.valid hact) hb).2 p
      have ih := ih fun hmem => hno (List.mem_cons_of_mem _ hmem)
      rw [hknown]
      cases act with
      | signal l => simpa [Scheduling.Action.Knows] using ih
      | wait l => simpa [Scheduling.Action.Knows] using ih
      | resume q => simp [Scheduling.Action.Knows, ih]; tauto
      | suspend => exact absurd List.mem_cons_self hno
  | switch _ _ _ _ ih => exact ih hno
  | other _ _ ih => exact ih hno

theorem Reached.balance (hs : ∃ L, P.Managed process₀ base₀ s₀ L a₀)
    (h : P.Reached process₀ base₀ s₀ a₀ acts process base s a) (hl : P.semaphore l)
    (hfits : ∀ past, past <:+ acts →
      a₀.balance l + (past.map (Scheduling.Action.change l)).sum ≤ 16383) :
    a.balance l = a₀.balance l + (acts.map (Scheduling.Action.change l)).sum := by
  induction h with
  | start => simp
  | @primitive acts process base s t a b act hreached hact hb _ ih =>
      obtain ⟨L, hL⟩ := hreached.managed hs
      have ih := ih fun past hpast => hfits past (hpast.trans (List.suffix_cons _ _))
      have hnow := hfits _ List.suffix_rfl
      rw [List.map_cons, List.sum_cons] at hnow ⊢
      rw [Scheduling.balance_action hL.sound.policy hL.orderly (hL.valid hact) hb hl (by
        rw [hL.sound.limit]
        omega), ih]
      omega
  | switch _ _ _ _ ih => exact ih hfits
  | other _ _ ih => exact ih hfits

/-! ## In the words of the memory -/

theorem Managed.queue_eq {queue : Nat → List Nat} {running : Nat}
    (h : P.Managed process base s L a) (hp : P.Placed s queue running) (hl : P.list l) :
    queue l = a.queue l :=
  (hp.linked l hl).unique (h.tracks.queued.linked l hl)

theorem Current.unique {m : ObjectMemory} {q : Nat} (h : P.Current m p s) (h' : P.Current m q s) :
    p = q := by
  rcases h with ⟨hw, hp⟩ | ⟨hw, -, hp⟩
  · rcases h' with ⟨-, hq⟩ | ⟨hw', -, -⟩
    · exact hp.symm.trans hq
    · rw [hw] at hw'
      cases hw'
  · rcases h' with ⟨hw', -⟩ | ⟨-, -, hq⟩
    · rw [hw] at hw'
      cases hw'
    · exact hp.symm.trans hq

theorem Managed.known_iff {queue : Nat → List Nat} {running : Nat}
    (h : P.Managed process base s L a) (hp : P.Placed s queue running) :
    a.Known p ↔ p = running ∨ ∃ l, P.list l ∧ p ∈ queue l := by
  rw [hp.current.unique h.current]
  refine or_congr_right ⟨?_, ?_⟩
  · rintro ⟨l, hl⟩
    have hlist := h.tracks.listed l p hl
    exact ⟨l, hlist, h.queue_eq hp hlist ▸ hl⟩
  · rintro ⟨l, hlist, hl⟩
    exact ⟨l, h.queue_eq hp hlist ▸ hl⟩

section Words

variable {queue₀ queue : Nat → List Nat} {running₀ running : Nat}
  (hs : ∃ L, P.Managed process₀ base₀ s₀ L a₀)
  (h : P.Reached process₀ base₀ s₀ a₀ acts process base s a)
  (hp₀ : P.Placed s₀ queue₀ running₀) (hp : P.Placed s queue running)

include hs h hp₀ hp

/-- In every run without a suspension the processes that run or wait are those that did at the
start, and those that have been resumed since. -/
theorem processes_conserved (hno : .suspend ∉ acts) (p : Nat) :
    (p = running ∨ ∃ l, P.list l ∧ p ∈ queue l) ↔
      (p = running₀ ∨ ∃ l, P.list l ∧ p ∈ queue₀ l) ∨ .resume p ∈ acts := by
  obtain ⟨L, hL⟩ := h.managed hs
  obtain ⟨L₀, hL₀⟩ := hs
  rw [← hL.known_iff hp, ← hL₀.known_iff hp₀]
  exact h.known ⟨L₀, hL₀⟩ hno

/-- No signal is lost or answered twice in a run at each moment of which the signals
that nobody waits for, fewer than the run may have, fit a SmallInteger. -/
theorem signals_accounted (hl : P.semaphore l) {e₀ e : Int}
    (he₀ : isIntegerValue e₀ = true ∧
      s₀.memory.chunkWord l (headerSize + excessSignalsIndex) = integerObjectOf e₀)
    (he : isIntegerValue e = true ∧
      s.memory.chunkWord l (headerSize + excessSignalsIndex) = integerObjectOf e)
    (hfits : ∀ past, past <:+ acts →
      e₀ - (queue₀ l).length + (past.map (Scheduling.Action.change l)).sum ≤ 16383) :
    e - (queue l).length =
      e₀ - (queue₀ l).length + (acts.map (Scheduling.Action.change l)).sum := by
  have hvalue : ∀ {x y : Int}, isIntegerValue x = true → isIntegerValue y = true →
      integerObjectOf x = integerObjectOf y → x = y := by
    intro x y hx hy hxy
    rw [← integerValueOf_integerObjectOf hx, hxy, integerValueOf_integerObjectOf hy]
  obtain ⟨L, hL⟩ := h.managed hs
  obtain ⟨L₀, hL₀⟩ := hs
  have hx := hL.tracks.excess l hl
  have hx₀ := hL₀.tracks.excess l hl
  rw [hvalue he.1 hx.1 (he.2.symm.trans hx.2), hL.queue_eq hp (.inl hl)]
  rw [hvalue he₀.1 hx₀.1 (he₀.2.symm.trans hx₀.2), hL₀.queue_eq hp₀ (.inl hl)] at hfits ⊢
  exact h.balance ⟨L₀, hL₀⟩ hl hfits

end Words

end Runs

end Processor

/-! ## The wait for the Semaphore -/

theorem reached_afterWait : ∃ t, twoLevels.Reached twoObjects otherRegisters (twoState .runs)
    (twoQueues .runs) [.wait 12] (twoLevels.Remains twoObjects (twoState .runs) (twoQueues .runs)
      afterWait) otherRegisters t afterWait := by
  obtain ⟨⟨⟩, t, hrun, -⟩ := managed_twoState.wp_step allowed_twoState run_twoQueues
  exact ⟨t, .primitive (.wait 12) .start allowed_twoState run_twoQueues hrun⟩

theorem reached_placed_afterWait : ∃ t queue running, twoLevels.Reached twoObjects otherRegisters
    (twoState .runs) (twoQueues .runs) [.wait 12] (twoLevels.Remains twoObjects (twoState .runs)
      (twoQueues .runs) afterWait) otherRegisters t afterWait ∧
    twoLevels.Placed t queue running := by
  obtain ⟨t, ht⟩ := reached_afterWait
  obtain ⟨queue, running, hplaced⟩ := Processor.reached_placed ⟨_, managed_twoState⟩ ht
  exact ⟨t, queue, running, ht, hplaced⟩

/-- The two processes are there. -/
theorem processes_conserved_afterWait : ∃ t queue running, twoLevels.Placed t queue running ∧
    ∀ p, (p = running ∨ ∃ l, twoLevels.list l ∧ p ∈ queue l) ↔ p = 18 ∨ p = 20 := by
  obtain ⟨t, ht⟩ := reached_afterWait
  obtain ⟨L, hL⟩ := ht.managed ⟨_, managed_twoState⟩
  refine ⟨t, _, _, hL.placed, fun p => ?_⟩
  rw [Processor.processes_conserved ⟨_, managed_twoState⟩ ht managed_twoState.placed hL.placed
    (by simp) p]
  constructor
  · rintro ((rfl | ⟨l, -, hl⟩) | hmem)
    · exact .inl rfl
    · rcases mem_twoQueues hl with ⟨-, rfl, -⟩ | ⟨-, rfl, -⟩
      · exact .inl rfl
      · exact .inr rfl
    · simp at hmem
  · rintro (rfl | rfl)
    · exact .inl (.inl rfl)
    · exact .inl (.inr ⟨14, .inr ⟨1, by decide, by decide, rfl⟩, List.mem_singleton_self 20⟩)

/-- One process waits for a signal that has not come. -/
theorem signals_accounted_afterWait : ∃ t queue running e, twoLevels.Placed t queue running ∧
    t.memory.chunkWord 12 (headerSize + excessSignalsIndex) = integerObjectOf e ∧
    e - (queue 12).length = -1 := by
  obtain ⟨t, ht⟩ := reached_afterWait
  obtain ⟨L, hL⟩ := ht.managed ⟨_, managed_twoState⟩
  have he := hL.tracks.excess 12 rfl
  refine ⟨t, _, _, _, hL.placed, he.2, Processor.signals_accounted ⟨_, managed_twoState⟩ ht
    managed_twoState.placed hL.placed rfl (tracks_twoProcesses.excess 12 rfl) he ?_⟩
  intro past hpast
  rcases List.suffix_cons_iff.mp hpast with rfl | hnil
  · decide
  · rw [List.suffix_nil.mp hnil]
    decide

end Crosstalk
