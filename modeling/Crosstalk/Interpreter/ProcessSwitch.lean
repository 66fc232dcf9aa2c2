import Crosstalk.Interpreter.SchedulerState

/-!
# Process switches

Before a bytecode the machine switches to the process that waits for it. The context of
the one that ran until then is stored into its process, with the registers, and the
registers are fetched from the context of the other one.
-/

namespace Crosstalk

open ObjectMemory
open Scheduling (State)

/-! ## The registers of a context -/

/-- The context with the receiver and the method: that of a block is elsewhere. -/
def homeOf (g : Nat → Nat → Nat) (c : Nat) : Nat :=
  if g c (headerSize + methodIndex) % 2 = 1 then g c (headerSize + homeIndex) else c

/-- The object `c` is a context, with its registers. -/
structure Activation (m : ObjectMemory) (L : Layout) (g : Nat → Nat → Nat) (c : Nat) : Prop where
  context : PointerField m L c (headerSize + homeIndex)
  home : PointerField m L (homeOf g c) (headerSize + receiverIndex)
  instructionPointer : g c (headerSize + instructionPointerIndex) % 2 = 1
  stackPointer : g c (headerSize + stackPointerIndex) % 2 = 1

/-- The registers are those of the context `c`. -/
def Interpreter.resumed (s : Interpreter) (g : Nat → Nat → Nat) (c : Nat) : Interpreter :=
  { s with
    activeContext := c
    homeContext := homeOf g c
    receiver := g (homeOf g c) (headerSize + receiverIndex)
    method := g (homeOf g c) (headerSize + methodIndex)
    instructionPointer := integerValueOf (g c (headerSize + instructionPointerIndex)) - 1
    stackPointer :=
      integerValueOf (g c (headerSize + stackPointerIndex)) + tempFrameStart - 1 }

section Registers

variable {m u : ObjectMemory} {L L' : Layout} {regs : Nat → Nat} {g : Nat → Nat → Nat}
  {s : Interpreter} {c i : Nat}

theorem Activation.below (h : Activation m L g c) (hi : i ≤ homeIndex) :
    PointerField m L c (headerSize + i) :=
  h.context.below (Nat.le_add_right headerSize i) (Nat.add_le_add_left hi headerSize)

theorem Activation.home_allocated (h : Activation m L g c) (hw : Written m L regs g L' u)
    (hc : Allocated u L' c) : Allocated u L' (homeOf g c) := by
  have heven := h.home.allocated.inUse.even
  rw [homeOf] at heven ⊢
  split at heven
  · next hblock =>
      rw [if_pos hblock]
      exact hw.value hc h.context heven
  · next hmethod =>
      rw [if_neg hmethod]
      exact hc

theorem wp_fetchContextRegisters (hw : Written m L regs g L' s.memory)
    (hc : Allocated s.memory L' s.activeContext) (h : Activation m L g s.activeContext) :
    Wp fetchContextRegisters (fun _ t => t = s.resumed g s.activeContext) s := by
  have hhome := h.home_allocated hw hc
  have hfetch : Wp fetchHomeContext (fun r t => r = homeOf g s.activeContext ∧ t = s) s := by
    rw [fetchHomeContext, wp_bind, wp_get, wp_bind, isBlockContext, wp_bind,
      wp_fetchField hw hc (h.below (by decide)) (by rfl), wp_pure, homeOf]
    by_cases hblock : g s.activeContext (headerSize + methodIndex) % 2 = 1
    · rw [if_pos (by rw [decide_eq_true_eq]; exact hblock), if_pos hblock,
        wp_fetchField hw hc h.context (by rfl)]
      exact ⟨rfl, rfl⟩
    · rw [if_neg (by rw [decide_eq_true_eq]; exact hblock), if_neg hblock, wp_pure]
      exact ⟨rfl, rfl⟩
  rw [fetchContextRegisters, wp_bind]
  refine hfetch.mono ?_
  rintro _ _ ⟨rfl, rfl⟩
  rw [wp_bind, wp_modify, wp_bind]
  refine (wp_fetchField hw hhome h.home (by rfl)).mpr ?_
  rw [wp_bind, wp_modify, wp_bind]
  refine (wp_fetchField hw hhome (h.home.below (by decide) (by decide)) (by rfl)).mpr ?_
  rw [wp_bind, wp_modify, wp_bind, wp_get, wp_bind]
  refine (wp_fetchInteger hw hc (h.below (by decide)) h.instructionPointer (by rfl)).mpr ?_
  rw [wp_bind, wp_modify, wp_bind]
  refine (wp_fetchInteger hw hc (h.below (by decide)) h.stackPointer (by rfl)).mpr ?_
  rw [wp_modify]
  rfl

end Registers

/-! ## The switch -/

section Registers

variable {m u : ObjectMemory} {L L' : Layout} {regs : Nat → Nat} {g : Nat → Nat → Nat}
  {roots : Nat → Prop} {cut : Nat → Nat → Prop} {s : Interpreter} {c i : Nat} {x : Int}

theorem wp_storeInteger_rooted (h : Written m L regs g L' u) (hroots : ∀ p, roots p → 1 ≤ regs p)
    (hcr : Rooted m L roots g cut c) (hc : PointerField m L c (headerSize + i))
    (hx : isIntegerValue x = true) :
    Wp (storeIntegerOfObjectWithValue i c x) (fun _ t => ∃ L'' u', t = s.withMemory u' ∧
      Written m L regs (put g c (headerSize + i) (integerObjectOf x)) L'' u') (s.withMemory u) := by
  have hodd := integerObjectOf_odd x
  rw [storeIntegerOfObjectWithValue, if_pos hx, wp_inMemory]
  refine (h.wp_store_rooted (f := i) hroots hcr hc (by omega) (integerObjectOf_lt x) (by omega)
    (by omega)).mono ?_
  rintro _ u₁ ⟨L₁, h₁⟩
  exact ⟨L₁, u₁, rfl, h₁⟩

/-- The words with the registers in the context `c`. -/
def stored (g : Nat → Nat → Nat) (c : Nat) (s : Interpreter) : Nat → Nat → Nat :=
  put (put g c (headerSize + instructionPointerIndex) (integerObjectOf (s.instructionPointer + 1)))
    c (headerSize + stackPointerIndex) (integerObjectOf (s.stackPointer - tempFrameStart + 1))

theorem wp_storeContextRegisters (h : Written m L regs g L' u)
    (hc : PointerField m L s.activeContext (headerSize + stackPointerIndex))
    (hroot : 1 ≤ regs s.activeContext)
    (hip : isIntegerValue (s.instructionPointer + 1) = true)
    (hsp : isIntegerValue (s.stackPointer - tempFrameStart + 1) = true) :
    Wp storeContextRegisters (fun _ t => ∃ L'' u', t = s.withMemory u' ∧
      Written m L regs (stored g s.activeContext s) L'' u') (s.withMemory u) := by
  have hcr : ∀ g', Rooted m L (1 ≤ regs ·) g' (fun _ _ => False) s.activeContext := fun _ =>
    .root hc.allocated hroot
  rw [storeContextRegisters, wp_bind, wp_get, wp_bind]
  refine (wp_storeInteger_rooted h (fun _ => id) (hcr g) (hc.below (by decide) (by decide))
    hip).mono ?_
  rintro _ _ ⟨L₁, u₁, rfl, h₁⟩
  exact wp_storeInteger_rooted h₁ (fun _ => id) (hcr _) hc hsp

theorem dropped_held_held (regs : Nat → Nat) (p q : Nat) :
    dropped (held (held regs p) q) p = held regs q := by
  funext r
  simp only [dropped, held]
  split <;> omega

/-- The other context is in a field of the object `p`, which a register holds. -/
theorem wp_newActiveContext_held {p : Nat}
    (h : Written m L (held (held regs s.activeContext) p) g L' u)
    (hc : PointerField m L s.activeContext (headerSize + stackPointerIndex))
    (hip : isIntegerValue (s.instructionPointer + 1) = true)
    (hsp : isIntegerValue (s.stackPointer - tempFrameStart + 1) = true)
    (hp : PointerField m L p i) (hvalue : stored g s.activeContext s p i = c)
    (hnext : Activation m L (stored g s.activeContext s) c) :
    Wp (newActiveContext c) (fun _ t => ∃ L'' u',
      t = (s.withMemory u').resumed (stored g s.activeContext s) c ∧
      Written m L (held (held regs p) c) (stored g s.activeContext s) L'' u') (s.withMemory u) := by
  have hcnext := hnext.context.allocated
  -- what the register of `p` keeps
  have hnext_allocated : ∀ {regs' : Nat → Nat} {L₂ : Layout} {u₂ : ObjectMemory}, 1 ≤ regs' p →
      Written m L regs' (stored g s.activeContext s) L₂ u₂ → Allocated u₂ L₂ c := by
    intro regs' L₂ u₂ hregs h₂
    have hvalue₂ := h₂.value (h₂.root p hp.allocated hregs) hp
      (by rw [hvalue]; exact hcnext.inUse.even)
    rwa [hvalue] at hvalue₂
  have hroot : 1 ≤ held (held regs s.activeContext) p s.activeContext :=
    held_le _ _ _ (one_le_held _ _)
  rw [newActiveContext, wp_bind]
  refine (wp_storeContextRegisters h hc hroot hip hsp).mono ?_
  rintro _ _ ⟨L₁, u₁, rfl, h₁⟩
  rw [wp_bind, wp_get, wp_bind, wp_inMemory, decreaseReferencesTo, wp_bind]
  refine (h₁.wp_countDown_any (h₁.root _ hc.allocated hroot) hroot).mono ?_
  rintro _ u₂ ⟨L₂, h₂⟩
  rw [dropped_held_held] at h₂
  have h₃ := h₂.countedUp (hnext_allocated (one_le_held regs p) h₂)
  have hpc : 1 ≤ held (held regs p) c p := held_le _ _ _ (one_le_held _ _)
  rw [wp_pure, wp_bind, wp_modify, wp_bind, wp_inMemory, increaseReferencesTo, wp_countUp]
  refine ⟨fun _ => hcnext.lt, ?_⟩
  have hfetch := wp_fetchContextRegisters
    (s := { s.withMemory (u₂.countedUp c) with activeContext := c }) h₃ (hnext_allocated hpc h₃) hnext
  refine hfetch.mono ?_
  rintro _ t rfl
  exact ⟨L₂, u₂.countedUp c, rfl, h₃⟩

end Registers

namespace Processor

variable {P : Processor} {process : Nat → Prop} {base : Nat → Nat} {a : State Nat Nat} {L : Layout}
  {s : Interpreter} {c p : Nat}

/-- The context of the process that waits. -/
def nextContext (P : Processor) (s : Interpreter) : Nat :=
  if s.newProcess = P.machine s.memory then s.activeContext
  else s.memory.chunkWord s.newProcess (headerSize + suspendedContextIndex)

/-- The words when the processes have changed. -/
def exchanged (P : Processor) (s : Interpreter) : Nat → Nat → Nat :=
  put (put s.memory.chunkWord (P.machine s.memory) (headerSize + suspendedContextIndex)
    s.activeContext) P.scheduler (headerSize + activeProcessIndex) s.newProcess

/-- The words after the switch. -/
def switched (P : Processor) (s : Interpreter) : Nat → Nat → Nat :=
  stored (P.exchanged s) s.activeContext s

/-- A process waits, it and the active one have contexts, which are no objects of the
scheduler, and the registers fit into SmallIntegers. -/
structure Switchable (P : Processor) (process : Nat → Prop) (L : Layout) (s : Interpreter) :
    Prop where
  waiting : s.newProcessWaiting = true
  active : Activation s.memory L s.memory.chunkWord s.activeContext
  next : Activation s.memory L s.memory.chunkWord (P.nextContext s)
  apart : ∀ c, c = s.activeContext ∨ c = P.nextContext s ∨
    c = homeOf s.memory.chunkWord (P.nextContext s) ∨
    c = homeOf s.memory.chunkWord s.activeContext → ¬(P.list c ∨ process c) ∧
      c ≠ schedulerAssociationPointer ∧ c ≠ P.scheduler ∧ c ≠ P.processLists
  instructionPointer : isIntegerValue (s.instructionPointer + 1) = true
  stackPointer : isIntegerValue (s.stackPointer - tempFrameStart + 1) = true

/-- The fields that the switch stores into. -/
theorem switched_eq {i : Nat}
    (hp : ¬(c = P.machine s.memory ∧ i = headerSize + suspendedContextIndex))
    (hs : ¬(c = P.scheduler ∧ i = headerSize + activeProcessIndex))
    (hc : ¬(c = s.activeContext ∧ (i = headerSize + instructionPointerIndex ∨
      i = headerSize + stackPointerIndex))) : P.switched s c i = s.memory.chunkWord c i := by
  rw [switched, stored, put, if_neg fun hall => hc ⟨hall.1, .inr hall.2⟩, put,
    if_neg fun hall => hc ⟨hall.1, .inl hall.2⟩, exchanged, put, if_neg hs, put, if_neg hp]

theorem switched_stackPointer : P.switched s s.activeContext (headerSize + stackPointerIndex) =
    integerObjectOf (s.stackPointer - tempFrameStart + 1) := by
  rw [switched, stored, put, if_pos ⟨rfl, rfl⟩]

theorem switched_instructionPointer :
    P.switched s s.activeContext (headerSize + instructionPointerIndex) =
      integerObjectOf (s.instructionPointer + 1) := by
  rw [switched, stored, put, if_neg fun hall => absurd hall.2 (by decide), put, if_pos ⟨rfl, rfl⟩]

section Switch

variable (h : P.Managed process base s L a) (hs : P.Switchable process L s)

include h hs

theorem Switchable.context_eq {i : Nat} (hc : c = s.activeContext ∨ c = P.nextContext s ∨
    c = homeOf s.memory.chunkWord (P.nextContext s) ∨
    c = homeOf s.memory.chunkWord s.activeContext)
    (hi : i ≠ headerSize + instructionPointerIndex ∧ i ≠ headerSize + stackPointerIndex) :
    P.switched s c i = s.memory.chunkWord c i := by
  obtain ⟨hapart, -, hscheduler, -⟩ := hs.apart c hc
  refine switched_eq ?_ (fun hall => hscheduler hall.1) fun hall => hall.2.elim hi.1 hi.2
  rintro ⟨rfl, -⟩
  exact hapart (.inr h.machine)

theorem Switchable.homeOf_eq :
    homeOf (P.switched s) (P.nextContext s) = homeOf s.memory.chunkWord (P.nextContext s) := by
  rw [homeOf, homeOf, hs.context_eq h (.inr (.inl rfl)) (by decide),
    hs.context_eq h (.inr (.inl rfl)) (by decide)]

theorem Switchable.activation :
    Activation s.memory L (P.switched s) (P.nextContext s) := by
  have hhome := hs.homeOf_eq h
  obtain ⟨hapart, -, hscheduler, -⟩ := hs.apart _ (.inr (.inl rfl))
  have hmachine : P.nextContext s ≠ P.machine s.memory := by
    intro heq
    exact hapart (.inr (heq ▸ h.machine))
  refine ⟨hs.next.context, hhome ▸ hs.next.home, ?_, ?_⟩
  · by_cases hc : P.nextContext s = s.activeContext
    · rw [hc, switched_instructionPointer]
      exact integerObjectOf_odd _
    · rw [switched_eq (fun hall => hmachine hall.1) (fun hall => hscheduler hall.1)
        fun hall => hc hall.1]
      exact hs.next.instructionPointer
  · by_cases hc : P.nextContext s = s.activeContext
    · rw [hc, switched_stackPointer]
      exact integerObjectOf_odd _
    · rw [switched_eq (fun hall => hmachine hall.1) (fun hall => hscheduler hall.1)
        fun hall => hc hall.1]
      exact hs.next.stackPointer

/-- The process that waits is one of the scheduler's. -/
theorem Switchable.process_new : process s.newProcess ∧ s.newProcess = a.active := by
  rcases h.current with ⟨-, hn⟩ | ⟨hw, -⟩
  · exact ⟨hn ▸ h.active, hn⟩
  · rw [hs.waiting] at hw
    cases hw

/-- The words and the registers after a switch. -/
theorem wp_switchProcess : Wp switchProcess (fun _ t => ∃ L'' u',
    t = { (s.withMemory u').resumed (P.switched s) (P.nextContext s) with
      newProcessWaiting := false
      newProcess := nilPointer } ∧
    Written s.memory L (held base (P.nextContext s)) (P.switched s) L'' u') s := by
  obtain ⟨hnew, -⟩ := hs.process_new h
  have hsound := h.sound
  have hnfield := hsound.kinds.process _ hnew
  have hofield := hsound.kinds.process _ h.machine
  have hw := Written.refl h.counted
  rw [registers_waiting hs.waiting rfl] at hw
  have hbase : ∀ q, 1 ≤ base q → 1 ≤ held (held base s.activeContext) s.newProcess q :=
    fun q hq => held_le _ _ _ (held_le _ _ _ hq)
  have hold := one_le_held (held base s.activeContext) s.newProcess
  have hnm : s.newProcess ≠ P.scheduler := (hsound.fixed _ (.inr hnew)).2.1
  have hassoc := hsound.association
  have hom : schedulerAssociationPointer ≠ P.machine s.memory :=
    (hsound.fixed _ (.inr h.machine)).1.symm
  rw [switchProcess, wp_bind, wp_get, if_pos hs.waiting, wp_bind, wp_modify, wp_bind,
    wp_machine hsound hbase hw h.tracks (by rfl) (by rfl), wp_bind, wp_get, wp_bind, wp_inMemory]
  refine (hw.wp_store_rooted (f := suspendedContextIndex) hbase
    (hsound.rooted_machine h.machine) (hofield.below (by decide) (by decide)) (by omega)
    hs.active.context.allocated.lt (Nat.pos_of_ne_zero hs.active.context.allocated.ne_zero)
    fun _ => hs.active.context.allocated).mono ?_
  rintro _ u₁ ⟨L₁, h₁⟩
  rw [wp_bind, schedulerPointer, wp_fetchField h₁ (h₁.root _ hassoc.1.allocated (hbase _ hassoc.2))
    hassoc.1 (by rfl), put, if_neg fun hall => hom hall.1, hsound.value, wp_bind, wp_get, wp_bind,
    wp_inMemory]
  have hscheduler : Rooted s.memory L (1 ≤ base ·) (put s.memory.chunkWord (P.machine s.memory)
      (headerSize + suspendedContextIndex) s.activeContext) (P.Cut process) P.scheduler := by
    refine hsound.rooted_scheduler.congr fun c i hc => ?_
    rw [put, if_neg]
    rintro ⟨rfl, rfl⟩
    exact hc (.inr (.inr ⟨h.machine, rfl⟩))
  have hnu₁ := h₁.root _ hnfield.allocated hold
  refine (h₁.wp_store_rooted (f := activeProcessIndex) hbase hscheduler hsound.scheduler (by omega)
    hnu₁.lt (Nat.pos_of_ne_zero hnu₁.ne_zero) fun _ => hnu₁).mono ?_
  rintro _ u₂ ⟨L₂, h₂⟩
  have hexchanged : Written s.memory L (held (held base s.activeContext) s.newProcess)
      (P.exchanged s) L₂ u₂ := h₂
  have hvalue : P.exchanged s s.newProcess (headerSize + suspendedContextIndex) =
      P.nextContext s := by
    rw [exchanged, put, if_neg fun hall => hnm hall.1, put, nextContext]
    by_cases hnm' : s.newProcess = P.machine s.memory
    · rw [if_pos ⟨hnm', rfl⟩, if_pos hnm']
    · rw [if_neg fun hall => hnm' hall.1, if_neg hnm']
  have hswitched : P.switched s s.newProcess (headerSize + suspendedContextIndex) =
      P.nextContext s := by
    have hne : s.newProcess ≠ s.activeContext := by
      intro heq
      exact (hs.apart _ (.inl rfl)).1 (.inr (heq ▸ hnew))
    rw [switched, stored, put, if_neg fun hall => hne hall.1, put, if_neg fun hall => hne hall.1,
      hvalue]
  have hnfield' : PointerField s.memory L s.newProcess (headerSize + suspendedContextIndex) :=
    hnfield.below (by decide) (by decide)
  rw [wp_bind, wp_get, wp_bind]
  refine (wp_fetchField hexchanged (hexchanged.root _ hnfield.allocated hold) hnfield'
    (by rfl)).mpr ?_
  rw [hvalue, wp_bind]
  refine (wp_newActiveContext_held (s := { s with newProcessWaiting := false }) hexchanged
    (hs.active.below (by decide)) hs.instructionPointer hs.stackPointer hnfield' hswitched
    (hs.activation h)).mono ?_
  rintro _ _ ⟨L₃, u₃, rfl, h₃⟩
  have hn₃ : 1 ≤ held (held base s.newProcess) (P.nextContext s) s.newProcess :=
    held_le _ _ _ (one_le_held _ _)
  rw [wp_bind, wp_get, wp_bind, wp_inMemory, decreaseReferencesTo, wp_bind]
  refine (h₃.wp_countDown_any (h₃.root _ hnfield.allocated hn₃) hn₃).mono ?_
  rintro _ u₄ ⟨L₄, h₄⟩
  rw [dropped_held_held] at h₄
  rw [wp_pure, wp_modify]
  exact ⟨L₄, u₄, rfl, h₄⟩

/-! ## The scheduler after a switch -/

/-- The objects of the scheduler but for the contexts in its processes. -/
theorem Switchable.object_eq {i : Nat} (hc : P.list c ∨ process c)
    (hi : process c → i ≠ headerSize + suspendedContextIndex) :
    P.switched s c i = s.memory.chunkWord c i := by
  refine switched_eq ?_ (fun hall => (h.sound.fixed c hc).2.1 hall.1) ?_
  · rintro ⟨rfl, rfl⟩
    exact hi h.machine rfl
  · rintro ⟨rfl, -⟩
    exact (hs.apart _ (.inl rfl)).1 hc

theorem Switchable.keeps : P.Keeps process s.memory (P.switched s) := by
  have hactive := hs.apart _ (.inl rfl)
  have hmachine := h.sound.fixed _ (.inr h.machine)
  refine ⟨fun c i hcut heven => ?_, fun i => ?_, fun i => ?_, ?_, fun p hp => ?_⟩
  · refine switched_eq ?_ ?_ ?_
    · rintro ⟨rfl, rfl⟩
      exact hcut (.inr (.inr ⟨h.machine, rfl⟩))
    · rintro ⟨rfl, rfl⟩
      exact hcut (.inr (.inl ⟨rfl, rfl⟩))
    · -- what was there are SmallIntegers
      have hip := hs.active.instructionPointer
      have hsp := hs.active.stackPointer
      rintro ⟨rfl, rfl | rfl⟩ <;> omega
  · exact switched_eq (fun hall => hmachine.1 hall.1.symm)
      (fun hall => h.sound.distinct.1 hall.1.symm) fun hall => hactive.2.1 hall.1.symm
  · exact switched_eq (fun hall => hmachine.2.2 hall.1.symm)
      (fun hall => h.sound.distinct.2 hall.1.symm) fun hall => hactive.2.2.2 hall.1.symm
  · exact switched_eq (fun hall => hmachine.2.1 hall.1.symm)
      (fun hall => absurd hall.2 (by decide)) fun hall => hactive.2.2.1 hall.1.symm
  · exact hs.object_eq h (.inr hp) fun _ => by decide

theorem Switchable.holds : P.Holds process (P.switched s) a := by
  have hqueued := h.tracks.queued
  refine ⟨hqueued.congr (fun _ => id) hqueued.process ?_, h.tracks.listed, fun l hl =>
    ⟨(h.tracks.excess l hl).1, ?_⟩⟩
  · rintro c i (⟨hl, -⟩ | ⟨hp, hi⟩)
    · exact hs.object_eq h (.inl hl) fun hp => absurd hl (h.sound.kinds.apart c hp)
    · refine hs.object_eq h (.inr hp) fun _ => ?_
      rcases hi with rfl | rfl <;> decide
  · rw [hs.object_eq h (.inl (.inl hl)) fun hp => absurd (.inl hl) (h.sound.kinds.apart l hp)]
    exact (h.tracks.excess l hl).2

omit h in
theorem switched_machine : P.switched s P.scheduler (headerSize + activeProcessIndex) =
    s.newProcess := by
  have hscheduler := (hs.apart _ (.inl rfl)).2.2.1
  rw [switched, stored, put, if_neg fun hall => hscheduler hall.1.symm, put,
    if_neg fun hall => hscheduler hall.1.symm, exchanged, put, if_pos ⟨rfl, rfl⟩]

end Switch

/-- A process that only the old context referred to is forgotten. -/
def Survives (P : Processor) (process : Nat → Prop) (base : Nat → Nat) (s : Interpreter)
    (L : Layout) (a : State Nat Nat) (p : Nat) : Prop :=
  process p ∧ (a.Known p ∨
    Rooted s.memory L (1 ≤ base ·) s.memory.chunkWord (P.Cut process) p)

/-- The machine after the switch. -/
def switchedTo (P : Processor) (s : Interpreter) (u : ObjectMemory) : Interpreter :=
  { (s.withMemory u).resumed (P.switched s) (P.nextContext s) with
    newProcessWaiting := false
    newProcess := nilPointer }

theorem Switchable.managed {u : ObjectMemory} {L' : Layout} (h : P.Managed process base s L a)
    (hs : P.Switchable process L s)
    (hw : Written s.memory L (held base (P.nextContext s)) (P.switched s) L' u) :
    P.Managed (P.Survives process base s L a) base (P.switchedTo s u) L' a := by
  have hkeeps := hs.keeps h
  have hholds := hs.holds h
  have hsound := h.sound
  obtain ⟨hnew, hactive⟩ := hs.process_new h
  have hbase := held_le base (P.nextContext s)
  have hsub : ∀ p, P.Survives process base s L a p → process p := fun p hp => hp.1
  have hscheduler : Rooted s.memory L (1 ≤ base ·) (P.switched s) (P.Cut process) P.scheduler :=
    hsound.rooted_scheduler.congr_even hkeeps.pointer
  have hrunning : Rooted s.memory L (1 ≤ base ·) (P.switched s) (P.Changes process) a.active := by
    have hfield := Rooted.field (hscheduler.mono fun _ _ => .inl) hsound.scheduler
      (hsound.unchanged (.inr (.inl rfl)) _) (by
        rw [switched_machine hs]
        exact (hsound.kinds.process _ hnew).allocated.inUse.even)
    rwa [switched_machine hs, hactive] at hfield
  have hlist : ∀ l, P.list l → Rooted s.memory L (1 ≤ base ·) (P.switched s) (fun _ _ => False) l :=
    fun l hl => ((hsound.rooted_list hl).congr_even hkeeps.pointer).mono fun _ _ hf => hf.elim
  have halloc : ∀ p, P.Survives process base s L a p → Allocated u L' p := by
    rintro p ⟨hp, (rfl | ⟨l, hl⟩) | hroot⟩
    · exact hw.rooted hbase hrunning
    · have hl' := hholds.listed l p hl
      exact hw.rooted hbase (hholds.queued.rooted hsound.kinds hl' (hlist l hl') hl)
    · exact hw.rooted hbase (hroot.congr_even hkeeps.pointer)
  have hmachine : P.machine u = a.active := by
    rw [machine, hw.word _ _ (hw.rooted hbase hscheduler) hsound.scheduler.lt_size,
      switched_machine hs, hactive]
  refine ⟨hw.counted, hsound.after hbase hw hkeeps hsub halloc,
    hholds.after hsound hbase hw hkeeps hsub halloc fun l p hp =>
      ⟨hholds.queued.process l (hholds.listed l p hp) p hp, .inl (.inr ⟨l, hp⟩)⟩,
    .inr ⟨rfl, rfl, hmachine⟩, ⟨h.active, .inl (.inl rfl)⟩, ?_, ?_, h.orderly⟩
  · show P.Survives process base s L a (P.machine u)
    rw [hmachine]
    exact ⟨h.active, .inl (.inl rfl)⟩
  · rintro p ⟨hp, hknown⟩
    refine hknown.imp_right fun hroot => .inr ?_
    exact ((hw.rooted_after hbase (hroot.congr_even hkeeps.pointer)).widen hbase).mono
      fun _ _ hc => Cut.mono hsub hc

theorem wp_switchProcess_managed (h : P.Managed process base s L a)
    (hs : P.Switchable process L s) : Wp switchProcess (fun _ t =>
      ∃ L', P.Managed (P.Survives process base s L a) base t L' a) s := by
  refine (wp_switchProcess h hs).mono ?_
  rintro _ t ⟨L', u, rfl, hw⟩
  exact ⟨L', hs.managed h hw⟩

/-! ## There and back -/

/-- The registers for the contexts are those of the active one. -/
structure Fetched (s : Interpreter) : Prop where
  homeContext : s.homeContext = homeOf s.memory.chunkWord s.activeContext
  receiver : s.receiver = s.memory.chunkWord s.homeContext (headerSize + receiverIndex)
  method : s.method = s.memory.chunkWord s.homeContext (headerSize + methodIndex)

/-- What the registers are fetched from is in both memories. -/
structure SameContext (m m' : ObjectMemory) (c : Nat) : Prop where
  context : ∀ i, 1 ≤ i → i ≤ homeIndex →
    m'.chunkWord c (headerSize + i) = m.chunkWord c (headerSize + i)
  home : ∀ i, methodIndex ≤ i → i ≤ receiverIndex →
    m'.chunkWord (homeOf m.chunkWord c) (headerSize + i) =
      m.chunkWord (homeOf m.chunkWord c) (headerSize + i)

structure SameActivation (s t : Interpreter) : Prop where
  activeContext : t.activeContext = s.activeContext
  homeContext : t.homeContext = s.homeContext
  receiver : t.receiver = s.receiver
  method : t.method = s.method
  instructionPointer : t.instructionPointer = s.instructionPointer
  stackPointer : t.stackPointer = s.stackPointer

/-- The scheduler is in the state that it was in, and the process that waited runs in its
context. -/
theorem switch_refines (h : P.Managed process base s L a) (hs : P.Switchable process L s) :
    Wp switchProcess (fun _ t => (∃ L', P.Managed (P.Survives process base s L a) base t L' a) ∧
      t.newProcessWaiting = false ∧ t.activeContext = P.nextContext s ∧ Fetched t) s := by
  refine (wp_switchProcess h hs).mono ?_
  rintro _ t ⟨L', u, rfl, hw⟩
  have hactivation := hs.activation h
  have hcontext : Allocated u L' (P.nextContext s) :=
    hw.root _ hs.next.context.allocated (one_le_held _ _)
  have hhome := hactivation.home_allocated hw hcontext
  have hword : ∀ i ≤ homeIndex, u.chunkWord (P.nextContext s) (headerSize + i) =
      P.switched s (P.nextContext s) (headerSize + i) := fun i hi =>
    hw.word _ _ hcontext (hactivation.below hi).lt_size
  have hhomeOf : homeOf u.chunkWord (P.nextContext s) =
      homeOf (P.switched s) (P.nextContext s) := by
    rw [homeOf, homeOf, hword _ (by decide), hword _ (by decide)]
  refine ⟨⟨L', hs.managed h hw⟩, rfl, rfl, hhomeOf.symm, ?_, ?_⟩
  · exact (hw.word _ _ hhome hactivation.home.lt_size).symm
  · exact (hw.word _ _ hhome (hactivation.home.below (by decide) (by decide)).lt_size).symm

section RoundTrip

variable {process' : Nat → Prop} {base' : Nat → Nat} {a' : State Nat Nat} {L' : Layout}
  {t s' t' : Interpreter} {i : Nat}

/-- What the memory has after the switch, of the process that ran before it. -/
theorem switchProcess_saved (h : P.Managed process base s L a) (hs : P.Switchable process L s)
    (hrun : switchProcess s = some ((), t))
    (hsurvives : P.Survives process base s L a (P.machine s.memory)) :
    t.memory.chunkWord (P.machine s.memory) (headerSize + suspendedContextIndex) =
      s.activeContext ∧
    (∀ i ≤ homeIndex, t.memory.chunkWord s.activeContext (headerSize + i) =
      P.switched s s.activeContext (headerSize + i)) ∧
    ∀ i ≤ receiverIndex,
      t.memory.chunkWord (homeOf s.memory.chunkWord s.activeContext) (headerSize + i) =
        P.switched s (homeOf s.memory.chunkWord s.activeContext) (headerSize + i) := by
  obtain ⟨L₁, u, rfl, hw⟩ := (wp_switchProcess h hs).toWlp _ _ hrun
  have hmanaged := hs.managed h hw
  have hold := (hmanaged.sound.kinds.process _ hsurvives).allocated
  have hofield : PointerField s.memory L (P.machine s.memory)
      (headerSize + suspendedContextIndex) :=
    (h.sound.kinds.process _ h.machine).below (by decide) (by decide)
  have hne : P.machine s.memory ≠ s.activeContext := by
    intro heq
    exact (hs.apart _ (.inl rfl)).1 (.inr (heq ▸ h.machine))
  have hcontext : P.switched s (P.machine s.memory) (headerSize + suspendedContextIndex) =
      s.activeContext := by
    rw [switched, stored, put, if_neg fun hall => hne hall.1, put, if_neg fun hall => hne hall.1,
      exchanged, put, if_neg fun hall => (h.sound.fixed _ (.inr h.machine)).2.1 hall.1, put,
      if_pos ⟨rfl, rfl⟩]
  have hactive : Allocated u L₁ s.activeContext := by
    have hvalue := hw.value hold hofield
      (by rw [hcontext]; exact hs.active.context.allocated.inUse.even)
    rwa [hcontext] at hvalue
  have hwords : homeOf (P.switched s) s.activeContext =
      homeOf s.memory.chunkWord s.activeContext := by
    rw [homeOf, homeOf, hs.context_eq h (.inl rfl) (by decide),
      hs.context_eq h (.inl rfl) (by decide)]
  have hactivation : Activation s.memory L (P.switched s) s.activeContext := by
    refine ⟨hs.active.context, hwords ▸ hs.active.home, ?_, ?_⟩
    · rw [switched_instructionPointer]
      exact integerObjectOf_odd _
    · rw [switched_stackPointer]
      exact integerObjectOf_odd _
  have hhome := hactivation.home_allocated hw hactive
  rw [hwords] at hhome
  refine ⟨(hw.word _ _ hold hofield.lt_size).trans hcontext, fun i hi => ?_, fun i hi => ?_⟩
  · exact hw.word _ _ hactive (hs.active.below hi).lt_size
  · exact hw.word _ _ hhome (hs.active.home.below (Nat.le_add_right headerSize i)
      (Nat.add_le_add_left hi headerSize)).lt_size

/-- A process that the machine switches away from, and later back to, goes on with the
registers that it had, if nobody has stored into its context. -/
theorem switch_round_trip (h : P.Managed process base s L a) (hs : P.Switchable process L s)
    (hfetched : Fetched s) (hrun : switchProcess s = some ((), t))
    (hsurvives : P.Survives process base s L a (P.machine s.memory))
    (h' : P.Managed process' base' s' L' a') (hs' : P.Switchable process' L' s')
    (hback : s'.newProcess = P.machine s.memory) (hother : s'.newProcess ≠ P.machine s'.memory)
    (hcontext : s'.activeContext ≠ s.activeContext)
    (hsuspended : s'.memory.chunkWord s'.newProcess (headerSize + suspendedContextIndex) =
      t.memory.chunkWord s'.newProcess (headerSize + suspendedContextIndex))
    (hsame : SameContext t.memory s'.memory s.activeContext)
    (hrun' : switchProcess s' = some ((), t')) : SameActivation s t' := by
  obtain ⟨hsaved, hwords, hhome⟩ := switchProcess_saved h hs hrun hsurvives
  obtain ⟨L₂, u, rfl, -⟩ := (wp_switchProcess h' hs').toWlp _ _ hrun'
  have hnext : P.nextContext s' = s.activeContext := by
    rw [nextContext, if_neg hother, hsuspended, hback, hsaved]
  -- the words that the registers are fetched from
  have hword : ∀ i, 1 ≤ i → i ≤ homeIndex →
      P.switched s' s.activeContext (headerSize + i) =
        P.switched s s.activeContext (headerSize + i) := by
    intro i h1 hi
    have happart := hs'.apart (P.nextContext s') (.inr (.inl rfl))
    rw [hnext] at happart
    rw [switched_eq, hsame.context i h1 hi, hwords i hi]
    · rintro ⟨heq, -⟩
      exact happart.1 (.inr (heq ▸ h'.machine))
    · exact fun hall => happart.2.2.1 hall.1
    · exact fun hall => hcontext hall.1.symm
  have hsetHome : homeOf (P.switched s') s.activeContext =
      homeOf s.memory.chunkWord s.activeContext := by
    rw [homeOf, homeOf, hword _ (by decide) (by decide), hword _ (by decide) (by decide),
      hs.context_eq h (.inl rfl) (by decide), hs.context_eq h (.inl rfl) (by decide)]
  have hhome' : homeOf s'.memory.chunkWord (P.nextContext s') =
      homeOf s.memory.chunkWord s.activeContext := by
    rw [← hs'.homeOf_eq h', hnext, hsetHome]
  have htHome : homeOf t.memory.chunkWord s.activeContext =
      homeOf s.memory.chunkWord s.activeContext := by
    rw [homeOf, homeOf, hwords _ (by decide), hwords _ (by decide),
      hs.context_eq h (.inl rfl) (by decide), hs.context_eq h (.inl rfl) (by decide)]
  have hhomeWord : ∀ i, methodIndex ≤ i → i ≤ receiverIndex →
      P.switched s' (homeOf s.memory.chunkWord s.activeContext) (headerSize + i) =
        s.memory.chunkWord (homeOf s.memory.chunkWord s.activeContext) (headerSize + i) := by
    intro i h3 hi
    have hindex : headerSize + i ≠ headerSize + instructionPointerIndex ∧
        headerSize + i ≠ headerSize + stackPointerIndex := by
      have hindices : headerSize = 2 ∧ methodIndex = 3 ∧ instructionPointerIndex = 1 ∧
        stackPointerIndex = 2 := ⟨rfl, rfl, rfl, rfl⟩
      omega
    rw [hs'.context_eq h' (.inr (.inr (.inl hhome'.symm))) hindex]
    have hkept := hsame.home i h3 hi
    rw [htHome] at hkept
    rw [hkept, hhome i hi, hs.context_eq h (.inr (.inr (.inr rfl))) hindex]
  have hip : P.switched s' s.activeContext (headerSize + instructionPointerIndex) =
      integerObjectOf (s.instructionPointer + 1) := by
    rw [hword _ (by decide) (by decide), switched_instructionPointer]
  have hsp : P.switched s' s.activeContext (headerSize + stackPointerIndex) =
      integerObjectOf (s.stackPointer - tempFrameStart + 1) := by
    rw [hword _ (by decide) (by decide), switched_stackPointer]
  refine ⟨hnext, ?_, ?_, ?_, ?_, ?_⟩
  · show homeOf (P.switched s') (P.nextContext s') = _
    rw [hnext, hsetHome, hfetched.homeContext]
  · show P.switched s' (homeOf (P.switched s') (P.nextContext s')) _ = _
    rw [hnext, hsetHome, hhomeWord _ (by decide) (by decide), hfetched.receiver,
      hfetched.homeContext]
  · show P.switched s' (homeOf (P.switched s') (P.nextContext s')) _ = _
    rw [hnext, hsetHome, hhomeWord _ (by decide) (by decide), hfetched.method,
      hfetched.homeContext]
  · show integerValueOf (P.switched s' (P.nextContext s') _) - 1 = _
    rw [hnext, hip, integerValueOf_integerObjectOf hs.instructionPointer]
    omega
  · show integerValueOf (P.switched s' (P.nextContext s') _) + tempFrameStart - 1 = _
    rw [hnext, hsp, integerValueOf_integerObjectOf hs.stackPointer]
    omega

end RoundTrip

end Processor

/-! ## Two contexts -/

section TwoContexts

variable {stage : Stage} {c : Nat}

theorem homeOf_twoProcesses (hc : c = 22 ∨ c = 24) :
    homeOf (spread (twoProcesses stage)).chunkWord c = c := by
  rw [homeOf, if_neg]
  rcases hc with rfl | rfl <;> cases stage <;>
    rw [word_twoProcesses (by decide) (by decide)] <;> decide

theorem activation_twoProcesses (hc : c = 22 ∨ c = 24) :
    Activation (spread (twoProcesses stage)) (spreadLayout (twoProcesses stage))
      (spread (twoProcesses stage)).chunkWord c := by
  have hhome : homeOf (spread (twoProcesses stage)).chunkWord c = c := homeOf_twoProcesses hc
  have hfield : PointerField (spread (twoProcesses stage)) (spreadLayout (twoProcesses stage)) c
      (headerSize + homeIndex) := by
    rcases hc with rfl | rfl <;> cases stage <;> exact field_twoProcesses (by decide) (by decide)
  refine ⟨hfield, hhome.symm ▸ hfield, ?_, ?_⟩
  · rcases hc with rfl | rfl <;> cases stage <;>
      rw [word_twoProcesses (by decide) (by decide)] <;> decide
  · rcases hc with rfl | rfl <;> cases stage <;>
      rw [word_twoProcesses (by decide) (by decide)] <;> decide

theorem machine_waits : twoLevels.machine (twoState .waits).memory = 18 :=
  (word_twoProcesses (by decide) (by decide)).trans rfl

theorem machine_returns : twoLevels.machine (twoState .returns).memory = 20 :=
  (word_twoProcesses (by decide) (by decide)).trans rfl

theorem nextContext_waits : twoLevels.nextContext (twoState .waits) = 24 := by
  rw [Processor.nextContext, machine_waits, if_neg (by decide)]
  exact (word_twoProcesses (by decide) (by decide)).trans rfl

theorem nextContext_returns : twoLevels.nextContext (twoState .returns) = 22 := by
  rw [Processor.nextContext, machine_returns, if_neg (by decide)]
  exact (word_twoProcesses (by decide) (by decide)).trans rfl

theorem apart_twoContexts (hc : c = 22 ∨ c = 24) : ¬(twoLevels.list c ∨ twoObjects c) ∧
    c ≠ schedulerAssociationPointer ∧ c ≠ twoLevels.scheduler ∧ c ≠ twoLevels.processLists := by
  refine ⟨?_, by rcases hc with rfl | rfl <;> decide⟩
  rintro (hl | hp)
  · rcases list_twoLevels hl with h | h | h <;> omega
  · rcases hp with h | h <;> omega

theorem switchable_waits : twoLevels.Switchable twoObjects (spreadLayout (twoProcesses .waits))
    (twoState .waits) where
  waiting := rfl
  active := activation_twoProcesses (.inl rfl)
  next := nextContext_waits ▸ activation_twoProcesses (.inr rfl)
  apart := fun c hc => by
    rw [nextContext_waits, show homeOf (twoState .waits).memory.chunkWord 24 = 24 from
      homeOf_twoProcesses (.inr rfl), show homeOf (twoState .waits).memory.chunkWord
      (twoState .waits).activeContext = 22 from homeOf_twoProcesses (.inl rfl)] at hc
    refine apart_twoContexts ?_
    rcases hc with rfl | rfl | rfl | rfl
    · exact .inl rfl
    · exact .inr rfl
    · exact .inr rfl
    · exact .inl rfl
  instructionPointer := by decide
  stackPointer := by decide

theorem switchable_returns : twoLevels.Switchable twoObjects
    (spreadLayout (twoProcesses .returns)) (twoState .returns) where
  waiting := rfl
  active := activation_twoProcesses (.inr rfl)
  next := nextContext_returns ▸ activation_twoProcesses (.inl rfl)
  apart := fun c hc => by
    rw [nextContext_returns, show homeOf (twoState .returns).memory.chunkWord 22 = 22 from
      homeOf_twoProcesses (.inl rfl), show homeOf (twoState .returns).memory.chunkWord
      (twoState .returns).activeContext = 24 from homeOf_twoProcesses (.inr rfl)] at hc
    refine apart_twoContexts ?_
    rcases hc with rfl | rfl | rfl | rfl
    · exact .inr rfl
    · exact .inl rfl
    · exact .inl rfl
    · exact .inr rfl
  instructionPointer := by decide
  stackPointer := by decide

end TwoContexts

theorem switch_refines_waits : Wp switchProcess (fun _ t =>
    (∃ L', twoLevels.Managed (twoLevels.Survives twoObjects otherRegisters (twoState .waits)
      (spreadLayout (twoProcesses .waits)) (twoQueues .waits)) otherRegisters t L'
      (twoQueues .waits)) ∧ t.newProcessWaiting = false ∧
      t.activeContext = twoLevels.nextContext (twoState .waits) ∧ Processor.Fetched t)
    (twoState .waits) :=
  Processor.switch_refines managed_twoState switchable_waits

theorem fetched_waits : Processor.Fetched (twoState .waits) := by
  have hreceiver : (spread (twoProcesses .waits)).chunkWord 22 (headerSize + receiverIndex) =
      nilPointer := (word_twoProcesses (by decide) (by decide)).trans rfl
  have hmethod : (spread (twoProcesses .waits)).chunkWord 22 (headerSize + methodIndex) =
      nilPointer := (word_twoProcesses (by decide) (by decide)).trans rfl
  exact ⟨(homeOf_twoProcesses (.inl rfl)).symm, hreceiver.symm, hmethod.symm⟩

/-- Oop 18 is suspended, and then it goes on. -/
theorem switch_round_trip_waits : ∃ t', switchProcess (twoState .returns) = some ((), t') ∧
    Processor.SameActivation (twoState .waits) t' := by
  obtain ⟨⟨⟩, t, hrun, -⟩ := Processor.wp_switchProcess managed_twoState switchable_waits
  obtain ⟨⟨⟩, t', hrun', -⟩ := Processor.wp_switchProcess managed_twoState switchable_returns
  have hsurvives : twoLevels.Survives twoObjects otherRegisters (twoState .waits)
      (spreadLayout (twoProcesses .waits)) (twoQueues .waits)
      (twoLevels.machine (twoState .waits).memory) := by
    rw [machine_waits]
    exact ⟨.inl rfl, .inl (.inr ⟨12, List.mem_singleton_self 18⟩)⟩
  obtain ⟨hsaved, hwords, -⟩ :=
    Processor.switchProcess_saved managed_twoState switchable_waits hrun hsurvives
  rw [machine_waits] at hsaved
  have hold : ∀ i, 3 ≤ i → i ≤ homeIndex → t.memory.chunkWord 22 (headerSize + i) =
      (twoState .waits).memory.chunkWord 22 (headerSize + i) := by
    intro i h3 hi
    have hindices : headerSize = 2 ∧ instructionPointerIndex = 1 ∧ stackPointerIndex = 2 :=
      ⟨rfl, rfl, rfl⟩
    exact (hwords i hi).trans (switchable_waits.context_eq managed_twoState (.inl rfl) (by omega))
  have hword : ∀ i, 1 ≤ i → i ≤ homeIndex →
      (twoState .returns).memory.chunkWord 22 (headerSize + i) =
        t.memory.chunkWord 22 (headerSize + i) := by
    intro i h1 hi
    have hhomeIndex : homeIndex = 5 := rfl
    obtain rfl | rfl | rfl | rfl | rfl : i = 1 ∨ i = 2 ∨ i = 3 ∨ i = 4 ∨ i = 5 := by omega
    · rw [show t.memory.chunkWord 22 (headerSize + 1) = _ from
        (hwords 1 hi).trans Processor.switched_instructionPointer]
      exact (word_twoProcesses (by decide) (by decide)).trans rfl
    · rw [show t.memory.chunkWord 22 (headerSize + 2) = _ from
        (hwords 2 hi).trans Processor.switched_stackPointer]
      exact (word_twoProcesses (by decide) (by decide)).trans rfl
    all_goals
      rw [hold _ (by decide) hi]
      exact (word_twoProcesses (by decide) (by decide)).trans
        (word_twoProcesses (by decide) (by decide)).symm
  have hhome : homeOf t.memory.chunkWord 22 = 22 := by
    rw [homeOf, hold methodIndex (by decide) (by decide), if_neg]
    rw [show (twoState .waits).memory.chunkWord 22 (headerSize + methodIndex) = _ from
      word_twoProcesses (by decide) (by decide)]
    decide
  refine ⟨t', hrun', Processor.switch_round_trip managed_twoState switchable_waits fetched_waits hrun
    hsurvives managed_twoState switchable_returns machine_waits.symm ?_ (by decide) ?_ ⟨hword, ?_⟩
    hrun'⟩
  · rw [machine_returns]
    decide
  · exact ((word_twoProcesses (by decide) (by decide)).trans rfl).trans hsaved.symm
  · intro i h3 hi
    rw [show homeOf t.memory.chunkWord (twoState .waits).activeContext = 22 from hhome]
    exact hword i (Nat.le_trans (by decide) h3) hi

end Crosstalk
