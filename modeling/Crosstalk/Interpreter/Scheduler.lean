import Crosstalk.Interpreter.ProcessLists
import Crosstalk.Lib.Scheduling

/-!
# The scheduler

The primitives that signal and wait, and that resume and suspend processes. The
ready processes are in the lists of the one scheduler object, those that wait in
the lists of the semaphores. Each primitive does to these objects what an action of a
priority scheduler does to its queues.
-/

namespace Crosstalk

open ObjectMemory

/-! ## The primitives -/

/-- The first `priority` of the lists, from the last one on. One of them has a process. -/
def nonEmptyList (processLists : Nat) : Nat → IM Nat
  | 0 => do
      check False
      return nilPointer
  | priority + 1 => do
      let processList ← inMemory (fetchPointerOfObject priority processLists)
      if ← isEmptyList processList then
        nonEmptyList processLists priority
      else
        return processList

/-- The process keeps a reference, which the caller takes away. -/
def wakeHighestPriority : IM Nat := do
  let processLists ← inMemory (fetchPointerOfObject processListsIndex (← schedulerPointer))
  let priority ← inMemory (fetchWordLengthOf processLists)
  let processList ← nonEmptyList processLists priority.toNat
  removeFirstLinkOfList processList

def suspendActive : IM Unit := do
  let aProcess ← wakeHighestPriority
  transferTo aProcess
  inMemory (decreaseReferencesTo aProcess)

def primitiveSignal : IM Unit := do
  synchronousSignal (← stackTop)

def primitiveWait : IM Unit := do
  let thisReceiver ← stackTop
  let excessSignals ← fetchIntegerOfObject excessSignalsIndex thisReceiver
  if excessSignals > 0 then
    storeIntegerOfObjectWithValue excessSignalsIndex thisReceiver (excessSignals - 1)
  else
    addLastLinkToList (← activeProcess) thisReceiver
    suspendActive

def primitiveResume : IM Unit := do
  resume (← stackTop)

def primitiveSuspend : IM Unit := do
  success (decide ((← stackTop) = (← activeProcess)))
  if (← get).successFlag then
    let _ ← popStack
    push nilPointer
    suspendActive

/-! ## The scheduler object -/

/-- The objects of the scheduler: `policy.ready k` is the list of priority `k`. -/
structure Processor where
  policy : Scheduling.Policy Nat Nat
  semaphore : Nat → Prop
  scheduler : Nat
  processLists : Nat

namespace Processor

def list (P : Processor) (l : Nat) : Prop :=
  P.semaphore l ∨ ∃ k, 1 ≤ k ∧ k ≤ P.policy.levels ∧ P.policy.ready k = l

/-- The fields that the primitives store into. -/
def Changes (P : Processor) (process : Nat → Prop) (c i : Nat) : Prop :=
  Link P.list process c i ∨ P.semaphore c ∧ i = headerSize + excessSignalsIndex

/-- Those that a process switch stores into, too. -/
def Cut (P : Processor) (process : Nat → Prop) (c i : Nat) : Prop :=
  P.Changes process c i ∨ c = P.scheduler ∧ i = headerSize + activeProcessIndex ∨
    process c ∧ i = headerSize + suspendedContextIndex

/-- The objects are there, with the fields that do not change. What refers to the
semaphores are fields that do not change either. -/
structure Sound (P : Processor) (process roots : Nat → Prop) (m : ObjectMemory) (L : Layout) :
    Prop where
  policy : P.policy.Sound P.semaphore
  limit : P.policy.limit = 16383
  levels : P.policy.levels ≤ 16383
  kinds : Kinds m L P.list process
  nil : Allocated m L nilPointer ∧ roots nilPointer
  association : PointerField m L schedulerAssociationPointer (headerSize + valueIndex) ∧
    roots schedulerAssociationPointer
  scheduler : PointerField m L P.scheduler (headerSize + activeProcessIndex)
  processLists : PointerField m L P.processLists (headerSize + (P.policy.levels - 1)) ∧
    m.chunkWord P.processLists 0 = headerSize + P.policy.levels
  fixed : ∀ c, P.list c ∨ process c → c ≠ schedulerAssociationPointer ∧ c ≠ P.scheduler ∧
    c ≠ P.processLists
  distinct : P.scheduler ≠ schedulerAssociationPointer ∧ P.scheduler ≠ P.processLists
  value : m.chunkWord schedulerAssociationPointer (headerSize + valueIndex) = P.scheduler
  lists : m.chunkWord P.scheduler (headerSize + processListsIndex) = P.processLists
  ready : ∀ k < P.policy.levels, m.chunkWord P.processLists (headerSize + k) = P.policy.ready (k + 1)
  priority : ∀ p, process p → (1 ≤ P.policy.priority p ∧ P.policy.priority p ≤ P.policy.levels) ∧
    m.chunkWord p (headerSize + priorityIndex) = integerObjectOf (P.policy.priority p)
  semaphore : ∀ l, P.semaphore l → PointerField m L l (headerSize + excessSignalsIndex) ∧
    Rooted m L roots m.chunkWord (P.Cut process) l

/-- The words `g` have the queues and the excess signals of `a`. -/
structure Tracks (P : Processor) (process : Nat → Prop) (m : ObjectMemory) (g : Nat → Nat → Nat)
    (a : Scheduling.State Nat Nat) : Prop where
  same : ∀ c i, ¬P.Changes process c i → g c i = m.chunkWord c i
  queued : Queued P.list process g a.queue
  listed : ∀ l p, p ∈ a.queue l → P.list l
  excess : ∀ l, P.semaphore l → isIntegerValue (a.excess l) = true ∧
    g l (headerSize + excessSignalsIndex) = integerObjectOf (a.excess l)

end Processor

section Words

variable {lists processes : Nat → Prop} {g : Nat → Nat → Nat} {c i l p : Nat} {q : List Nat}

theorem linkLast_frame (hl : lists l) (hp : processes p) (hq : ∀ a ∈ q, processes a)
    (h : ¬Link lists processes c i) : linkLast g q p l c i = g c i := by
  rw [linkLast, put, if_neg, put, if_neg, put, if_neg]
  · rintro ⟨rfl, rfl⟩
    rcases end_or_head q l with hend | hend
    · exact h (.inl ⟨hend.symm ▸ hl, .inl rfl⟩)
    · exact h (.inr ⟨hq _ hend, .inl rfl⟩)
  · rintro ⟨rfl, rfl⟩
    exact h (.inl ⟨hl, .inr rfl⟩)
  · rintro ⟨rfl, rfl⟩
    exact h (.inr ⟨hp, .inr rfl⟩)

theorem unlinkFirst_frame (hl : lists l) (hp : processes p) (h : ¬Link lists processes c i) :
    unlinkFirst g p l q c i = g c i := by
  have hpn : ¬(c = p ∧ i = headerSize + nextLinkIndex) := by
    rintro ⟨rfl, rfl⟩
    exact h (.inr ⟨hp, .inl rfl⟩)
  have hlf : ¬(c = l ∧ i = headerSize + firstLinkIndex) := by
    rintro ⟨rfl, rfl⟩
    exact h (.inl ⟨hl, .inl rfl⟩)
  have hll : ¬(c = l ∧ i = headerSize + lastLinkIndex) := by
    rintro ⟨rfl, rfl⟩
    exact h (.inl ⟨hl, .inr rfl⟩)
  cases q with
  | nil => rw [unlinkFirst, put, if_neg hpn, put, if_neg hll, put, if_neg hlf]
  | cons b q => rw [unlinkFirst, put, if_neg hpn, put, if_neg hlf]

theorem linkLast_excess : linkLast g q p l c (headerSize + excessSignalsIndex) =
    g c (headerSize + excessSignalsIndex) := by
  simp [linkLast, put]

theorem unlinkFirst_excess : unlinkFirst g p l q c (headerSize + excessSignalsIndex) =
    g c (headerSize + excessSignalsIndex) := by
  cases q <;> simp [unlinkFirst, put]

end Words

section Halts

variable {σ α β : Type} {x : StateT σ Option α} {f : α → StateT σ Option β} {s : σ}

theorem bind_halts (h : Wp x (fun a t => f a t = none) s) : (x >>= f) s = none := by
  obtain ⟨a, t, hx, hf⟩ := h
  rw [bind_of_run hx]
  exact hf

theorem bind_halts_of_left (h : x s = none) : (x >>= f) s = none := by
  show (x s >>= fun r => f r.1 r.2) = none
  rw [h]
  rfl

end Halts

/-- The argument of the primitive is on top of the stack. -/
structure Top (s : Interpreter) (p : Nat) : Prop where
  field : HasField s.memory s.activeContext s.stackPointer
  value : s.memory.chunkWord s.activeContext (headerSize + s.stackPointer.toNat) = p

theorem wp_stackTop {Q : Nat → Interpreter → Prop} {s : Interpreter} {p : Nat} (h : Top s p) :
    Wp stackTop Q s ↔ Q p s := by
  rw [stackTop, wp_bind, wp_get, wp_inMemory, fetchPointerOfObject_eq, wp_fetchWordOfObject,
    and_iff_right h.field, h.value]
  rfl

namespace Processor

open Scheduling (State)

variable {P : Processor} {process roots : Nat → Prop} {m u : ObjectMemory} {L L' : Layout}
  {regs : Nat → Nat} {g : Nat → Nat → Nat} {a b : Scheduling.State Nat Nat} {l p : Nat}
  {q : List Nat} {s : Interpreter}

theorem Tracks.append (hs : P.Sound process roots m L) (h : P.Tracks process m g a)
    (hl : P.list l) (hp : process p) (hout : ∀ l', p ∉ a.queue l') :
    P.Tracks process m (linkLast g (a.queue l) p l) (a.append l p) := by
  refine ⟨fun c i hc => ?_, h.queued.append hs.kinds hl hp fun l' _ => hout l', fun l' b hb => ?_,
    fun l' hl' => ?_⟩
  · rw [linkLast_frame hl hp (h.queued.process l hl) fun hlink => hc (.inl hlink)]
    exact h.same c i hc
  · rcases Scheduling.mem_append.mp hb with hb | ⟨rfl, -⟩
    · exact h.listed l' b hb
    · exact hl
  · rw [linkLast_excess]
    exact h.excess l' hl'

theorem Tracks.tail (hs : P.Sound process roots m L) (h : P.Tracks process m g a)
    (hl : P.list l) (hq : a.queue l = p :: q) :
    P.Tracks process m (unlinkFirst g p l q) (a.setQueue l q) := by
  have hp : process p := h.queued.process l hl p (hq ▸ List.mem_cons_self)
  refine ⟨fun c i hc => ?_, h.queued.tail hs.kinds hl hq, fun l' b hb => ?_, fun l' hl' => ?_⟩
  · rw [unlinkFirst_frame hl hp fun hlink => hc (.inl hlink)]
    exact h.same c i hc
  · rw [Scheduling.queue_setQueue] at hb
    by_cases hll : l' = l
    · rwa [hll]
    · rw [Function.update_of_ne hll] at hb
      exact h.listed l' b hb
  · rw [unlinkFirst_excess]
    exact h.excess l' hl'

theorem Tracks.same_cut (h : P.Tracks process m g a) :
    ∀ c i, ¬P.Cut process c i → g c i = m.chunkWord c i :=
  fun c i hc => h.same c i fun hchange => hc (.inl hchange)

/-- Which process runs is not in these words. -/
theorem Tracks.withActive (h : P.Tracks process m g a) (p : Nat) :
    P.Tracks process m g { a with active := p } :=
  ⟨h.same, h.queued, h.listed, h.excess⟩

theorem Tracks.setExcess {n : Int} (h : P.Tracks process m g a)
    (hl : P.semaphore l) (hn : isIntegerValue n = true) :
    P.Tracks process m (put g l (headerSize + excessSignalsIndex) (integerObjectOf n))
      (a.setExcess l n) := by
  have hput : ∀ c i, i ≠ headerSize + excessSignalsIndex →
      put g l (headerSize + excessSignalsIndex) (integerObjectOf n) c i = g c i := by
    intro c i hi
    rw [put, if_neg fun hall => hi hall.2]
  refine ⟨fun c i hc => ?_, ?_, h.listed, fun l' hl' => ?_⟩
  · rw [put, if_neg, h.same c i hc]
    rintro ⟨rfl, rfl⟩
    exact hc (.inr ⟨hl, rfl⟩)
  · have hq := h.queued
    refine ⟨fun l' hl' => ?_, fun l' hl' b hb => ?_, hq.process, fun l' hl' b hb => ?_,
      fun b hb hno => ?_⟩
    · rw [hput _ _ (by decide)]
      exact (hq.linked l' hl').congr fun b _ => hput _ _ (by decide)
    · rw [hput _ _ (by decide)]
      exact hq.last l' hl' b hb
    · rw [hput _ _ (by decide)]
      exact hq.myList l' hl' b hb
    · rw [hput _ _ (by decide)]
      exact hq.idle b hb hno
  · rw [State.setExcess]
    dsimp only
    by_cases hll : l' = l
    · subst hll
      rw [Function.update_self, put, if_pos ⟨rfl, rfl⟩]
      exact ⟨hn, rfl⟩
    · rw [Function.update_of_ne hll, put, if_neg fun hall => hll hall.1]
      exact h.excess l' hl'

/-! ## The operations -/

theorem Changes.object {c i : Nat} (h : P.Changes process c i) : P.list c ∨ process c := by
  rcases h with (⟨hl, -⟩ | ⟨hp, -⟩) | ⟨hl, -⟩
  · exact .inl hl
  · exact .inr hp
  · exact .inl (.inl hl)

/-- The process whose context is active, until the next switch. -/
def machine (P : Processor) (m : ObjectMemory) : Nat :=
  m.chunkWord P.scheduler (headerSize + activeProcessIndex)

/-- The process that runs, or that will at the next switch. -/
def Current (P : Processor) (m : ObjectMemory) (p : Nat) (s : Interpreter) : Prop :=
  s.newProcessWaiting = true ∧ s.newProcess = p ∨
    s.newProcessWaiting = false ∧ s.newProcess = nilPointer ∧ P.machine m = p

/-- A process that waits for the switch is held by its register. -/
def registers (base : Nat → Nat) (s : Interpreter) : Nat → Nat :=
  if s.newProcessWaiting then held base s.newProcess else base

/-- Of the machine `s` the memory has changed, in which the queues are those of `b`. -/
def Stored (P : Processor) (process : Nat → Prop) (m : ObjectMemory) (L : Layout)
    (regs : Nat → Nat) (s : Interpreter) (b : State Nat Nat) (t : Interpreter) : Prop :=
  ∃ g' L'' u', t = s.withMemory u' ∧ Written m L regs g' L'' u' ∧ P.Tracks process m g' b

/-- A process may wait for the switch, too. -/
structure Scheduled (P : Processor) (process : Nat → Prop) (m : ObjectMemory) (L : Layout)
    (base : Nat → Nat) (s : Interpreter) (b : State Nat Nat) (t : Interpreter) : Prop where
  same : t = { s.withMemory t.memory with
    newProcessWaiting := t.newProcessWaiting
    newProcess := t.newProcess }
  stored : P.Stored process m L (registers base t) t b t
  current : P.Current m b.active t
  active : process b.active

/-- Whether the primitive succeeds is not in these words. -/
theorem Scheduled.ofFlag {base : Nat → Nat} {t : Interpreter}
    (h : P.Scheduled process m L base s b t) :
    P.Scheduled process m L base { s with successFlag := t.successFlag } b t := by
  have hflag : t.successFlag = s.successFlag := (congrArg Interpreter.successFlag h.same).trans rfl
  rw [hflag]
  exact h

namespace Sound

variable (hs : P.Sound process roots m L)

include hs

theorem unchanged {c : Nat} (hc : c = schedulerAssociationPointer ∨ c = P.scheduler ∨
    c = P.processLists) (i : Nat) : ¬P.Changes process c i := by
  intro h
  obtain ⟨h1, h2, h3⟩ := hs.fixed c h.object
  rcases hc with hc | hc | hc
  · exact h1 hc
  · exact h2 hc
  · exact h3 hc

theorem not_cut {c i : Nat} (hc : c = schedulerAssociationPointer ∨ c = P.scheduler ∨
    c = P.processLists) (hi : c = P.scheduler → i ≠ headerSize + activeProcessIndex) :
    ¬P.Cut process c i := by
  rintro (h | ⟨h, rfl⟩ | ⟨hp, -⟩)
  · exact hs.unchanged hc i h
  · exact hi h rfl
  · obtain ⟨h1, h2, h3⟩ := hs.fixed c (.inr hp)
    rcases hc with hc | hc | hc
    · exact h1 hc
    · exact h2 hc
    · exact h3 hc

theorem unchanged_priority (hp : process p) : ¬P.Changes process p (headerSize + priorityIndex) := by
  rintro ((⟨hl, -⟩ | ⟨-, hi⟩) | ⟨hl, -⟩)
  · exact hs.kinds.apart p hp hl
  · exact absurd hi (by decide)
  · exact hs.kinds.apart p hp (.inl hl)

theorem rooted_scheduler : Rooted m L roots m.chunkWord (P.Cut process) P.scheduler := by
  have hassoc := hs.association
  have hroot := Rooted.field (g := m.chunkWord) (.root hassoc.1.allocated hassoc.2) hassoc.1
    (hs.not_cut (.inl rfl) fun h => absurd h.symm hs.distinct.1)
    (by rw [hs.value]; exact hs.scheduler.allocated.inUse.even)
  rwa [hs.value] at hroot

theorem rooted_processLists :
    Rooted m L roots m.chunkWord (P.Cut process) P.processLists := by
  have hroot := Rooted.field hs.rooted_scheduler (i := headerSize + processListsIndex)
    (hs.scheduler.below (by decide) (by decide)) (hs.not_cut (.inr (.inl rfl)) fun _ => by decide)
    (by rw [hs.lists]; exact hs.processLists.1.allocated.inUse.even)
  rwa [hs.lists] at hroot

theorem listField {k : Nat} (hk : k < P.policy.levels) :
    PointerField m L P.processLists (headerSize + k) :=
  hs.processLists.1.below (Nat.le_add_right headerSize k) (by omega)

theorem rooted_list (hl : P.list l) : Rooted m L roots m.chunkWord (P.Cut process) l := by
  rcases hl with hl | ⟨k, h1, hk, rfl⟩
  · exact (hs.semaphore l hl).2
  · have hready := hs.ready (k - 1) (by omega)
    rw [Nat.sub_add_cancel h1] at hready
    have hroot := Rooted.field hs.rooted_processLists (hs.listField (k := k - 1) (by omega))
      (hs.not_cut (.inr (.inr rfl)) fun h => absurd h.symm hs.distinct.2)
      (by rw [hready]; exact (hs.kinds.list _ (.inr ⟨k, h1, hk, rfl⟩)).allocated.inUse.even)
    rwa [hready] at hroot

theorem rooted_machine (hp : process (P.machine m)) :
    Rooted m L roots m.chunkWord (P.Changes process) (P.machine m) := by
  have hsched : Rooted m L roots m.chunkWord (P.Changes process) P.scheduler :=
    hs.rooted_scheduler.mono fun _ _ => .inl
  exact .field hsched hs.scheduler (hs.unchanged (.inr (.inl rfl)) _)
    (hs.kinds.process _ hp).allocated.inUse.even

theorem ready_list (hp : process p) : P.list (P.policy.ready (P.policy.priority p)) := by
  have hlevel := (hs.priority p hp).1
  exact .inr ⟨_, hlevel.1, hlevel.2, rfl⟩

end Sound

section Rules

variable {Q : Nat → Interpreter → Prop} (hs : P.Sound process roots m L)
  (hroots : ∀ p, roots p → 1 ≤ regs p) (h : Written m L regs g L' u) (ht : P.Tracks process m g a)

include hs ht

theorem rooted_link (hl : P.list l) :
    Rooted m L roots g (Link P.list process) l :=
  ((hs.rooted_list hl).congr ht.same_cut).mono fun _ _ hlink => .inl (.inl hlink)

include hroots h

theorem wp_schedulerPointer (hsu : s.memory = u) : Wp schedulerPointer Q s ↔ Q P.scheduler s := by
  have hassoc := hs.association
  rw [schedulerPointer, wp_fetchField h (h.root _ hassoc.1.allocated (hroots _ hassoc.2)) hassoc.1
    hsu, ht.same _ _ (hs.unchanged (.inl rfl) _), hs.value]

theorem wp_processLists (hsu : s.memory = u) :
    Wp (inMemory (fetchPointerOfObject processListsIndex P.scheduler)) Q s ↔
      Q P.processLists s := by
  rw [wp_fetchField h (h.rooted hroots (hs.rooted_scheduler.congr ht.same_cut))
    (hs.scheduler.below (by decide) (by decide)) hsu,
    ht.same _ _ (hs.unchanged (.inr (.inl rfl)) _), hs.lists]

theorem wp_readyList {k : Nat} (hk : k < P.policy.levels) (hsu : s.memory = u) :
    Wp (inMemory (fetchPointerOfObject k P.processLists)) Q s ↔ Q (P.policy.ready (k + 1)) s := by
  rw [wp_fetchField h (h.rooted hroots (hs.rooted_processLists.congr ht.same_cut)) (hs.listField hk)
    hsu, ht.same _ _ (hs.unchanged (.inr (.inr rfl)) _), hs.ready k hk]

theorem wp_machine (hw : s.newProcessWaiting = false) (hsu : s.memory = u) :
    Wp activeProcess Q s ↔ Q (P.machine m) s := by
  rw [activeProcess, wp_bind, wp_get, hw, if_neg Bool.false_ne_true, wp_bind,
    wp_schedulerPointer hs hroots h ht hsu,
    wp_fetchField h (h.rooted hroots (hs.rooted_scheduler.congr ht.same_cut)) hs.scheduler hsu,
    ht.same _ _ (hs.unchanged (.inr (.inl rfl)) _), machine]

theorem wp_activeProcess (hc : P.Current m p s) (hsu : s.memory = u) :
    Wp activeProcess Q s ↔ Q p s := by
  rcases hc with ⟨hw, hp⟩ | ⟨hw, -, hp⟩
  · rw [activeProcess, wp_bind, wp_get, if_pos hw, wp_pure, hp]
  · rw [wp_machine hs hroots h ht hw hsu, hp]

omit hroots in
theorem wp_priority {Q : Int → Interpreter → Prop} (hp : process p) (hpu : Allocated u L' p)
    (hsu : s.memory = u) :
    Wp (fetchIntegerOfObject priorityIndex p) Q s ↔ Q (P.policy.priority p) s := by
  obtain ⟨hlevel, hword⟩ := hs.priority p hp
  have hg : g p (headerSize + priorityIndex) = integerObjectOf (P.policy.priority p) := by
    rw [ht.same _ _ (hs.unchanged_priority hp), hword]
  have hlevels := hs.levels
  rw [wp_fetchInteger h hpu ((hs.kinds.process p hp).below (by decide) (by decide))
    (by rw [hg]; exact integerObjectOf_odd _) hsu, hg, integerValueOf_integerObjectOf
    (isIntegerValue_iff.mpr (by omega))]

theorem wp_excess {Q : Int → Interpreter → Prop} (hl : P.semaphore l) (hsu : s.memory = u) :
    Wp (fetchIntegerOfObject excessSignalsIndex l) Q s ↔ Q (a.excess l) s := by
  obtain ⟨hvalue, hword⟩ := ht.excess l hl
  rw [wp_fetchInteger h (h.rooted hroots (rooted_link hs ht (.inl hl))) (hs.semaphore l hl).1
    (by rw [hword]; exact integerObjectOf_odd _) hsu, hword, integerValueOf_integerObjectOf hvalue]

theorem wp_storeExcess {n : Int} (hl : P.semaphore l) (hn : isIntegerValue n = true) :
    Wp (storeIntegerOfObjectWithValue excessSignalsIndex l n)
      (fun _ => P.Stored process m L regs s (a.setExcess l n)) (s.withMemory u) := by
  have hodd := integerObjectOf_odd n
  rw [storeIntegerOfObjectWithValue, if_pos hn, wp_inMemory]
  refine (h.wp_store_rooted (f := excessSignalsIndex) hroots (rooted_link hs ht (.inl hl))
    (hs.semaphore l hl).1 (by omega) (integerObjectOf_lt n) (by omega) (by omega)).mono ?_
  rintro _ u₁ ⟨L₁, h₁⟩
  exact ⟨_, L₁, u₁, rfl, h₁, ht.setExcess hl hn⟩

/-- A process goes to the end of the list of its priority. -/
theorem wp_sleep (hp : process p) (hpu : Allocated u L' p) (hout : ∀ l, p ∉ a.queue l) :
    Wp (sleep p) (fun _ => P.Stored process m L regs s (Scheduling.sleep P.policy p a))
      (s.withMemory u) := by
  have hlevel := (hs.priority p hp).1
  have hl := hs.ready_list hp
  have hindex : (P.policy.priority p : Int) - 1 = ((P.policy.priority p - 1 : Nat) : Int) := by
    omega
  rw [sleep, wp_bind, wp_priority hs h ht hp hpu (by rfl), wp_bind,
    wp_schedulerPointer hs hroots h ht (by rfl), wp_bind, wp_processLists hs hroots h ht (by rfl),
    wp_bind, hindex, wp_readyList hs hroots h ht (by omega) (by rfl),
    Nat.sub_add_cancel hlevel.1]
  refine (wp_addLastLinkToList hs.kinds hroots h ht.queued hl (rooted_link hs ht hl) hp hpu).mono ?_
  rintro _ _ ⟨L₁, u₁, rfl, h₁⟩
  exact ⟨_, L₁, u₁, rfl, h₁, ht.append hs hl hp hout⟩

/-- The list that the loop ends with is the one of the process that is woken. -/
theorem wp_nonEmptyList (hsu : s.memory = u) : ∀ k ≤ P.policy.levels,
    Scheduling.wake P.policy k a = some b →
    Wp (nonEmptyList P.processLists k) (fun l t => t = s ∧ P.list l ∧ ∃ p q, a.queue l = p :: q ∧
      b = { a.setQueue l q with active := p }) s
  | 0, _, hb => by cases hb
  | k + 1, hk, hb => by
      have hl : P.list (P.policy.ready (k + 1)) := .inr ⟨k + 1, by omega, hk, rfl⟩
      have hempty := wp_isEmptyList (s := s) hs.kinds hroots h ht.queued hl
        (Q := fun c t => Wp (if c then nonEmptyList P.processLists k
          else pure (P.policy.ready (k + 1))) (fun l t => t = s ∧ P.list l ∧ ∃ p q,
            a.queue l = p :: q ∧ b = { a.setQueue l q with active := p }) t)
        (rooted_link hs ht hl)
      have hself : s.withMemory u = s := by
        subst hsu
        rfl
      rw [hself] at hempty
      rw [nonEmptyList, wp_bind, wp_readyList hs hroots h ht (by omega) hsu, wp_bind, hempty]
      rw [Scheduling.wake] at hb
      cases hq : a.queue (P.policy.ready (k + 1)) with
      | nil =>
          rw [hq] at hb
          rw [decide_eq_true rfl, if_pos rfl]
          exact wp_nonEmptyList hsu k (by omega) hb
      | cons p q =>
          rw [hq] at hb
          rw [decide_eq_false (List.cons_ne_nil p q), if_neg Bool.false_ne_true, wp_pure]
          exact ⟨rfl, hl, p, q, hq, (Option.some.inj hb).symm⟩

/-- No list has a process. -/
theorem nonEmptyList_halts (hsu : s.memory = u) : ∀ k ≤ P.policy.levels,
    Scheduling.wake P.policy k a = none → nonEmptyList P.processLists k s = none
  | 0, _, _ => rfl
  | k + 1, hk, hb => by
      have hl : P.list (P.policy.ready (k + 1)) := .inr ⟨k + 1, by omega, hk, rfl⟩
      have hself : s.withMemory u = s := by
        subst hsu
        rfl
      rw [nonEmptyList]
      refine bind_halts ((wp_readyList hs hroots h ht (by omega) hsu).mpr (bind_halts ?_))
      have hempty := (wp_isEmptyList (s := s) (Q := fun c t => (if c then
        nonEmptyList P.processLists k else pure (P.policy.ready (k + 1))) t = none)
        hs.kinds hroots h ht.queued hl (rooted_link hs ht hl)).mpr
      rw [hself] at hempty
      refine hempty ?_
      rw [Scheduling.wake] at hb
      cases hq : a.queue (P.policy.ready (k + 1)) with
      | nil =>
          rw [hq] at hb
          rw [decide_eq_true rfl, if_pos rfl]
          exact nonEmptyList_halts hsu k (by omega) hb
      | cons p q =>
          rw [hq] at hb
          cases hb

/-- The loop starts with the last list. -/
theorem wakeHighestPriority_eq :
    wakeHighestPriority (s.withMemory u) = (do
      let processList ← nonEmptyList P.processLists P.policy.levels
      removeFirstLinkOfList processList : IM Nat) (s.withMemory u) := by
  have hsize := hs.processLists
  have hlu := h.rooted hroots (hs.rooted_processLists.congr ht.same_cut)
  have hfield := h.pointerField hlu hsize.1
  have hlen : u.chunkWord P.processLists 0 = headerSize + P.policy.levels := by
    have hlt := hsize.1.lt_size
    rw [h.word _ _ hlu (by omega), h.size, hsize.2]
  have hentry := hfield.hasField (f := (P.policy.levels - 1 : Nat)) h.counted.heap (by omega)
  have hinside := hentry.inside
  have hlists : (schedulerPointer >>= fun p => inMemory (fetchPointerOfObject processListsIndex p))
      (s.withMemory u) = some (P.processLists, s.withMemory u) := by
    refine Wp.run_eq ((wp_bind _ _ _ _).mpr ?_)
    rw [wp_schedulerPointer hs hroots h ht (by rfl), wp_processLists hs hroots h ht (by rfl)]
    exact ⟨rfl, rfl⟩
  have hlength : inMemory (fetchWordLengthOf P.processLists) (s.withMemory u) =
      some ((P.policy.levels : Int), s.withMemory u) := by
    refine Wp.run_eq (wp_inMemory.mpr (wp_fetchWordLengthOf.mpr ⟨⟨hentry.isEntry, ?_⟩, ?_, rfl⟩))
    · show u.location _ + 0 < _
      omega
    · rw [show ((s.withMemory u).memory).chunkWord P.processLists 0 = _ from hlen]
      omega
  rw [wakeHighestPriority, ← bind_assoc, bind_of_run hlists, bind_of_run hlength, Int.toNat_natCast]

/-- The process that is woken is answered, with a reference for the caller. -/
theorem wp_wakeHighestPriority (hb : Scheduling.suspend P.policy a = some b) :
    Wp wakeHighestPriority (fun r t => r = b.active ∧
      P.Stored process m L (held regs r) s b t ∧ process r) (s.withMemory u) := by
  have heq := wakeHighestPriority_eq hs hroots h ht (s := s)
  rw [Wp, heq, ← Wp, wp_bind]
  refine (wp_nonEmptyList (s := s.withMemory u) hs hroots h ht rfl _ (Nat.le_refl _) hb).mono ?_
  rintro l _ ⟨rfl, hl, p, q, hq, rfl⟩
  refine (wp_removeFirstLinkOfList hs.kinds hroots h ht.queued hl (rooted_link hs ht hl) hs.nil
    hq).mono ?_
  rintro _ _ ⟨rfl, L₁, u₁, rfl, h₁⟩
  exact ⟨rfl, ⟨_, L₁, u₁, rfl, h₁, (ht.tail hs hl hq).withActive _⟩,
    ht.queued.process l hl _ (hq ▸ List.mem_cons_self)⟩

theorem suspendActive_halts (hb : Scheduling.suspend P.policy a = none) :
    suspendActive (s.withMemory u) = none := by
  rw [suspendActive]
  refine bind_halts_of_left ?_
  rw [wakeHighestPriority_eq hs hroots h ht]
  exact bind_halts_of_left (nonEmptyList_halts hs hroots h ht rfl _ (Nat.le_refl _) hb)

omit hroots h in
/-- The process that waits for the switch is another one. -/
theorem wp_transferTo {base : Nat → Nat} {old : Nat} {cut : Nat → Nat → Prop}
    (hc : P.Current m old s) (hold : process old) (h : Written m L (registers base s) g L' u)
    (hp : process p) (hpr : Rooted m L (1 ≤ base ·) g cut p) :
    Wp (transferTo p) (fun _ t => P.Stored process m L (held base p)
      { s with newProcessWaiting := true, newProcess := p } a t) (s.withMemory u) := by
  have hend : ∀ {L₁ : Layout} {u₁ : ObjectMemory}, Written m L base g L₁ u₁ →
      Wp (do
        modify fun s => { s with newProcess := p }
        inMemory (increaseReferencesTo p)) (fun _ t => P.Stored process m L (held base p)
          { s with newProcessWaiting := true, newProcess := p } a t)
        { s.withMemory u₁ with newProcessWaiting := true } := by
    intro L₁ u₁ h₁
    rw [wp_bind, wp_modify, wp_inMemory, increaseReferencesTo, wp_countUp]
    exact ⟨fun _ => (hs.kinds.process p hp).allocated.lt, g, L₁, _, rfl,
      h₁.countedUp (h₁.rooted (fun _ => id) hpr), ht⟩
  rw [transferTo, wp_bind, wp_modify, wp_bind, wp_get]
  rcases hc with ⟨hw, hn⟩ | ⟨hw, hn, -⟩
  · have hne : old ≠ nilPointer := by
      rintro rfl
      exact hs.kinds.nil hold
    rw [registers, if_pos hw, hn] at h
    have holdu : Allocated u L' old :=
      h.root old (hs.kinds.process old hold).allocated (one_le_held _ _)
    dsimp only
    rw [if_pos (show (s.withMemory u).newProcess ≠ nilPointer from hn.symm ▸ hne), wp_bind,
      wp_inMemory, decreaseReferencesTo, wp_bind]
    subst hn
    refine (h.wp_countDown_any holdu (one_le_held _ _)).mono ?_
    rintro _ u₁ ⟨L₁, h₁⟩
    rw [dropped_held] at h₁
    rw [wp_pure]
    exact hend h₁
  · rw [registers, hw, if_neg Bool.false_ne_true] at h
    dsimp only
    rw [if_neg (not_not_intro (show (s.withMemory u).newProcess = nilPointer from hn))]
    exact hend h

end Rules

/-! ## The primitives do what the scheduler says -/

theorem le_registers {base : Nat → Nat} (h : ∀ q, roots q → 1 ≤ base q) :
    ∀ q, roots q → 1 ≤ registers base s q := by
  intro q hq
  have hbase := h q hq
  rw [registers]
  split
  · exact held_le _ _ _ hbase
  · exact hbase

theorem registers_waiting {base : Nat → Nat} (hw : s.newProcessWaiting = true)
    (hp : s.newProcess = p) : registers base s = held base p := by
  rw [registers, if_pos hw, hp]

theorem registers_held (base : Nat → Nat) (p : Nat) (s : Interpreter) :
    registers (held base p) s = held (registers base s) p := by
  funext q
  rw [registers, registers]
  split
  · simp only [held]
    omega
  · rfl

section Primitives

variable {base : Nat → Nat} {t : Interpreter} (hs : P.Sound process roots m L)
  (hbase : ∀ p, roots p → 1 ≤ base p)

include hs

/-- The caller gives its reference up. -/
theorem Scheduled.release (h : P.Scheduled process m L (held base p) s b t) (hp : process p) :
    Wp (inMemory (decreaseReferencesTo p)) (fun _ => P.Scheduled process m L base s b) t := by
  obtain ⟨hsame, ⟨g', L₁, u₁, heq, h₁, ht₁⟩, hcurrent, hactive⟩ := h
  rw [registers_held] at h₁
  have hone := one_le_held (registers base t) p
  rw [wp_inMemory, decreaseReferencesTo, wp_bind, show t.memory = u₁ by rw [heq]; rfl]
  refine (h₁.wp_countDown_any (h₁.root p (hs.kinds.process p hp).allocated hone) hone).mono ?_
  rintro _ u₂ ⟨L₂, h₂⟩
  rw [dropped_held] at h₂
  rw [wp_pure]
  refine ⟨?_, ⟨g', L₂, u₂, rfl, h₂, ht₁⟩, hcurrent, hactive⟩
  rw [hsame]
  rfl

section Words

variable (h : Written m L (registers base s) g L' u) (ht : P.Tracks process m g a)
  (hc : P.Current m p s) (hp : process p)

include h ht hc hp

include hbase in
theorem allocated_current : Allocated u L' p := by
  rcases hc with ⟨hw, hn⟩ | ⟨-, -, hn⟩
  · refine h.root p (hs.kinds.process p hp).allocated ?_
    rw [registers_waiting hw hn, held, if_pos rfl]
    omega
  · subst hn
    exact h.rooted (le_registers hbase) ((hs.rooted_machine hp).congr ht.same)

include hbase in
theorem wp_suspendActive (hb : Scheduling.suspend P.policy a = some b) :
    Wp suspendActive (fun _ => P.Scheduled process m L base s b) (s.withMemory u) := by
  rw [suspendActive, wp_bind]
  refine (wp_wakeHighestPriority hs (le_registers hbase) h ht hb).mono ?_
  rintro r _ ⟨rfl, ⟨g₁, L₁, u₁, rfl, h₁, ht₁⟩, hr⟩
  rw [← registers_held] at h₁
  rw [wp_bind]
  have hroot : Rooted m L (1 ≤ held base b.active ·) g₁ (fun _ _ => False) b.active :=
    .root (hs.kinds.process _ hr).allocated (one_le_held _ _)
  refine (wp_transferTo hs ht₁ hc hp h₁ hr hroot).mono ?_
  rintro _ _ ⟨g₂, L₂, u₂, rfl, h₂, ht₂⟩
  refine Scheduled.release hs ⟨rfl, ⟨g₂, L₂, u₂, rfl, ?_, ht₂⟩, .inl ⟨rfl, rfl⟩, hr⟩ hr
  rwa [registers_waiting rfl rfl]

end Words

section Actions

variable (h : Written m L (registers base s) g L' u) (ht : P.Tracks process m g a)
  (hc : P.Current m a.active s) (hact : process a.active)

include hbase h ht hc hact

/-- The process is one that the scheduler does not know, with a reference from elsewhere. -/
theorem wp_resume (hout : ∀ l, a.active ∉ a.queue l) (hp : process p)
    (hpr : Rooted m L (1 ≤ base ·) m.chunkWord (P.Changes process) p) (hk : ¬a.Known p) :
    Wp (resume p) (fun _ => P.Scheduled process m L base s (Scheduling.resume P.policy p a))
      (s.withMemory u) := by
  have hregs : ∀ q, roots q → 1 ≤ registers base s q := le_registers hbase
  have hpu : Allocated u L' p := h.rooted (le_registers fun _ => id) (hpr.congr ht.same)
  have hau : Allocated u L' a.active := allocated_current hs hbase h ht hc hact
  rw [resume, wp_bind, wp_activeProcess hs hregs h ht (by exact hc) (by rfl), wp_bind,
    wp_priority hs h ht hact hau (by rfl), wp_bind, wp_priority hs h ht hp hpu (by rfl),
    Scheduling.resume]
  by_cases hlt : P.policy.priority a.active < P.policy.priority p
  · rw [if_pos (show (P.policy.priority p : Int) > P.policy.priority a.active by omega),
      if_pos hlt, wp_bind]
    refine (wp_sleep hs hregs h ht hact hau hout).mono ?_
    rintro _ _ ⟨g₁, L₁, u₁, rfl, h₁, ht₁⟩
    refine (wp_transferTo hs ht₁ hc hact h₁ hp (hpr.congr ht₁.same)).mono ?_
    rintro _ _ ⟨g₂, L₂, u₂, rfl, h₂, ht₂⟩
    refine ⟨rfl, ⟨g₂, L₂, u₂, rfl, ?_, ht₂.withActive p⟩, .inl ⟨rfl, rfl⟩, hp⟩
    rwa [registers_waiting rfl rfl]
  · rw [if_neg (show ¬(P.policy.priority p : Int) > P.policy.priority a.active by omega),
      if_neg hlt]
    refine (wp_sleep hs hregs h ht hp hpu fun l hl => hk (.inr ⟨l, hl⟩)).mono ?_
    rintro _ _ ⟨g₁, L₁, u₁, rfl, h₁, ht₁⟩
    exact ⟨rfl, ⟨g₁, L₁, u₁, rfl, h₁, ht₁⟩, hc, hact⟩

/-- Where a signal would not fit in a SmallInteger, it is lost. -/
theorem wp_synchronousSignal (ho : a.Orderly P.policy P.semaphore) (hl : P.semaphore l) :
    Wp (synchronousSignal l) (fun _ t =>
      P.Scheduled process m L base { s with successFlag := t.successFlag }
        (Scheduling.signal P.policy l a) t) (s.withMemory u) := by
  have hregs : ∀ q, roots q → 1 ≤ registers base s q := le_registers hbase
  rw [synchronousSignal, wp_bind, wp_isEmptyList hs.kinds hregs h ht.queued (.inl hl)
    (rooted_link hs ht (.inl hl)), Scheduling.signal]
  cases hq : a.queue l with
  | nil =>
      rw [decide_eq_true rfl, if_pos rfl, wp_bind, wp_excess hs hregs h ht hl (by rfl)]
      have hvalue := isIntegerValue_iff.mp (ht.excess l hl).1
      dsimp only
      rw [hs.limit]
      by_cases hlt : a.excess l < 16383
      · rw [if_pos hlt]
        refine (wp_storeExcess hs hregs h ht hl (isIntegerValue_iff.mpr (by omega))).mono ?_
        rintro _ _ ⟨g₁, L₁, u₁, rfl, h₁, ht₁⟩
        exact ⟨rfl, ⟨g₁, L₁, u₁, rfl, h₁, ht₁⟩, hc, hact⟩
      · rw [if_neg hlt, storeIntegerOfObjectWithValue, if_neg (by rw [isIntegerValue_iff]; omega),
          wp_bind, primitiveFail, wp_bind, wp_modify, wp_pure, wp_pure]
        exact ⟨rfl, ⟨g, L', u, rfl, h, ht⟩, hc, hact⟩
  | cons p ps =>
      rw [decide_eq_false (List.cons_ne_nil p ps), if_neg Bool.false_ne_true, wp_bind]
      refine (wp_removeFirstLinkOfList hs.kinds hregs h ht.queued (.inl hl)
        (rooted_link hs ht (.inl hl)) hs.nil hq).mono ?_
      rintro r _ ⟨hr, L₁, u₁, rfl, h₁⟩
      rw [← registers_held] at h₁
      rw [hr, wp_bind]
      obtain ⟨htail, hknown, -⟩ := ho.tail hq
      have hp : process p := ht.queued.process l (.inl hl) p (hq ▸ List.mem_cons_self)
      have hbase' : ∀ q, roots q → 1 ≤ held base p q := fun q hr => held_le _ _ _ (hbase q hr)
      refine (wp_resume hs hbase' h₁ (ht.tail hs (.inl hl) hq) hc hact htail.active hp
        (.root (hs.kinds.process p hp).allocated (one_le_held _ _)) hknown).mono ?_
      rintro _ t hresume
      exact (hresume.release hs hp).mono fun _ _ hend => hend.ofFlag

theorem wp_wait (ho : a.Orderly P.policy P.semaphore) (hl : P.semaphore l)
    (htop : Top (s.withMemory u) l) (hb : Scheduling.wait P.policy l a = some b) :
    Wp primitiveWait (fun _ => P.Scheduled process m L base s b) (s.withMemory u) := by
  have hregs : ∀ q, roots q → 1 ≤ registers base s q := le_registers hbase
  rw [primitiveWait, wp_bind, wp_stackTop htop, wp_bind, wp_excess hs hregs h ht hl (by rfl)]
  have hvalue := isIntegerValue_iff.mp (ht.excess l hl).1
  rw [Scheduling.wait] at hb
  by_cases hpos : 0 < a.excess l
  · rw [if_pos hpos] at hb ⊢
    cases hb
    refine (wp_storeExcess hs hregs h ht hl (isIntegerValue_iff.mpr (by omega))).mono ?_
    rintro _ _ ⟨g₁, L₁, u₁, rfl, h₁, ht₁⟩
    exact ⟨rfl, ⟨g₁, L₁, u₁, rfl, h₁, ht₁⟩, hc, hact⟩
  · rw [if_neg hpos] at hb ⊢
    have hau : Allocated u L' a.active := allocated_current hs hbase h ht hc hact
    rw [wp_bind, wp_activeProcess hs hregs h ht (by exact hc) (by rfl), wp_bind]
    refine (wp_addLastLinkToList hs.kinds hregs h ht.queued (.inl hl)
      (rooted_link hs ht (.inl hl)) hact hau).mono ?_
    rintro _ _ ⟨L₁, u₁, rfl, h₁⟩
    exact wp_suspendActive hs hbase h₁ (ht.append hs (.inl hl) hact ho.active) hc hact hb

theorem wait_halts (ho : a.Orderly P.policy P.semaphore) (hl : P.semaphore l)
    (htop : Top (s.withMemory u) l) (hb : Scheduling.wait P.policy l a = none) :
    primitiveWait (s.withMemory u) = none := by
  have hregs : ∀ q, roots q → 1 ≤ registers base s q := le_registers hbase
  rw [Scheduling.wait] at hb
  rw [primitiveWait]
  refine bind_halts ((wp_stackTop htop).mpr (bind_halts
    ((wp_excess hs hregs h ht hl (by rfl)).mpr ?_)))
  by_cases hpos : 0 < a.excess l
  · rw [if_pos hpos] at hb
    cases hb
  · rw [if_neg hpos] at hb ⊢
    have hau : Allocated u L' a.active := allocated_current hs hbase h ht hc hact
    refine bind_halts ((wp_activeProcess hs hregs h ht (by exact hc) (by rfl)).mpr
      (bind_halts ?_))
    refine (wp_addLastLinkToList hs.kinds hregs h ht.queued (.inl hl)
      (rooted_link hs ht (.inl hl)) hact hau).mono ?_
    rintro _ _ ⟨L₁, u₁, rfl, h₁⟩
    exact suspendActive_halts hs hregs h₁ (ht.append hs (.inl hl) hact ho.active) hb

end Actions

end Primitives

end Processor

end Crosstalk
