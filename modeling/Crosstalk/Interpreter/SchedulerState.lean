import Crosstalk.Interpreter.Scheduler
import Crosstalk.Interpreter.Spread

/-!
# The state of the scheduler

A primitive leaves a memory in which the scheduler is in the state that its action
comes to, with the references of the registers as they were. This is said of the memory
afterwards by itself, so that the next step may start from it.
-/

namespace Crosstalk

open ObjectMemory
open Scheduling (State)

namespace Processor

variable {P : Processor} {process process' roots : Nat → Prop} {m u : ObjectMemory}
  {L L' : Layout} {regs base : Nat → Nat} {g : Nat → Nat → Nat} {a b : State Nat Nat} {l p : Nat}
  {s t : Interpreter}

/-! ## From one memory to the next -/

/-- The words `g` have the queues and the excess signals of `a`. -/
structure Holds (P : Processor) (process : Nat → Prop) (g : Nat → Nat → Nat) (a : State Nat Nat) :
    Prop where
  queued : Queued P.list process g a.queue
  listed : ∀ l p, p ∈ a.queue l → P.list l
  excess : ∀ l, P.semaphore l → isIntegerValue (a.excess l) = true ∧
    g l (headerSize + excessSignalsIndex) = integerObjectOf (a.excess l)

/-- What a step does not change: the pointers that lead to the semaphores, and the objects
of the scheduler. -/
structure Keeps (P : Processor) (process : Nat → Prop) (m : ObjectMemory) (g : Nat → Nat → Nat) :
    Prop where
  pointer : ∀ c i, ¬P.Cut process c i → m.chunkWord c i % 2 = 0 → g c i = m.chunkWord c i
  association : ∀ i, g schedulerAssociationPointer i = m.chunkWord schedulerAssociationPointer i
  processLists : ∀ i, g P.processLists i = m.chunkWord P.processLists i
  scheduler : g P.scheduler (headerSize + processListsIndex) =
    m.chunkWord P.scheduler (headerSize + processListsIndex)
  priority : ∀ p, process p → g p (headerSize + priorityIndex) =
    m.chunkWord p (headerSize + priorityIndex)

theorem Tracks.holds (h : P.Tracks process m g a) : P.Holds process g a :=
  ⟨h.queued, h.listed, h.excess⟩

theorem Tracks.keeps (hs : P.Sound process roots m L) (h : P.Tracks process m g a) :
    P.Keeps process m g :=
  ⟨fun c i hc _ => h.same_cut c i hc, fun i => h.same _ i (hs.unchanged (.inl rfl) i),
    fun i => h.same _ i (hs.unchanged (.inr (.inr rfl)) i),
    h.same _ _ (hs.unchanged (.inr (.inl rfl)) _),
    fun _ hp => h.same _ _ (hs.unchanged_priority hp)⟩

section After

variable (hs : P.Sound process roots m L) (hroots : ∀ p, roots p → 1 ≤ regs p)
  (h : Written m L regs g L' u) (hk : P.Keeps process m g)
  (hsub : ∀ p, process' p → process p) (halloc : ∀ p, process' p → Allocated u L' p)

include hsub

theorem Link.mono {c i : Nat} (h : Link P.list process' c i) : Link P.list process c i :=
  h.imp_right fun hp => hp.imp_left (hsub c)

theorem Changes.mono {c i : Nat} (h : P.Changes process' c i) : P.Changes process c i :=
  h.imp_left (Link.mono hsub)

theorem Cut.mono {c i : Nat} (h : P.Cut process' c i) : P.Cut process c i :=
  h.imp (Changes.mono hsub) fun h => h.imp_right fun hp => hp.imp_left (hsub c)

include hs hroots h hk halloc

theorem Sound.after : P.Sound process' roots u L' := by
  have hrooted : ∀ {p}, Rooted m L roots m.chunkWord (P.Cut process) p → Allocated u L' p :=
    fun hp => h.rooted hroots (hp.congr_even hk.pointer)
  have hassoc := h.root _ hs.association.1.allocated (hroots _ hs.association.2)
  have hscheduler := hrooted hs.rooted_scheduler
  have hlists := hrooted hs.rooted_processLists
  have hlistsField := hs.processLists.1
  have hlt := hlistsField.lt_size
  have hpriority : ∀ p, process' p → PointerField m L p (headerSize + priorityIndex) := fun p hp =>
    (hs.kinds.process p (hsub p hp)).below (by decide) (by decide)
  have hlistsIndex : PointerField m L P.scheduler (headerSize + processListsIndex) :=
    hs.scheduler.below (by decide) (by decide)
  exact {
    policy := hs.policy
    limit := hs.limit
    levels := hs.levels
    kinds := ⟨fun l hl => h.pointerField (hrooted (hs.rooted_list hl)) (hs.kinds.list l hl),
      fun p hp => h.pointerField (halloc p hp) (hs.kinds.process p (hsub p hp)),
      fun p hp => hs.kinds.apart p (hsub p hp), fun hn => hs.kinds.nil (hsub _ hn)⟩
    nil := ⟨h.root _ hs.nil.1 (hroots _ hs.nil.2), hs.nil.2⟩
    association := ⟨h.pointerField hassoc hs.association.1, hs.association.2⟩
    scheduler := h.pointerField hscheduler hs.scheduler
    processLists := ⟨h.pointerField hlists hlistsField, by
      rw [h.word _ 0 hlists (by omega), h.size, hs.processLists.2]⟩
    fixed := fun c hc => hs.fixed c (hc.imp_right (hsub c))
    distinct := hs.distinct
    value := by rw [h.word _ _ hassoc hs.association.1.lt_size, hk.association, hs.value]
    lists := by rw [h.word _ _ hscheduler hlistsIndex.lt_size, hk.scheduler, hs.lists]
    ready := fun k hk' => by
      rw [h.word _ _ hlists (hs.listField hk').lt_size, hk.processLists, hs.ready k hk']
    priority := fun p hp => ⟨(hs.priority p (hsub p hp)).1, by
      rw [h.word _ _ (halloc p hp) (hpriority p hp).lt_size, hk.priority p (hsub p hp),
        (hs.priority p (hsub p hp)).2]⟩
    semaphore := fun l hl => ⟨h.pointerField (hrooted (hs.rooted_list (.inl hl)))
        (hs.semaphore l hl).1,
      (h.rooted_after hroots ((hs.semaphore l hl).2.congr_even hk.pointer)).mono
        fun _ _ hc => Cut.mono hsub hc⟩ }

theorem Holds.after (ht : P.Holds process g a) (hmem : ∀ l p, p ∈ a.queue l → process' p) :
    P.Tracks process' u u.chunkWord a := by
  have hlist : ∀ l, P.list l → Allocated u L' l := fun l hl =>
    h.rooted hroots ((hs.rooted_list hl).congr_even hk.pointer)
  refine ⟨fun _ _ _ => rfl, ht.queued.congr hsub (fun l _ => hmem l) ?_, ht.listed,
    fun l hl => ⟨(ht.excess l hl).1, ?_⟩⟩
  · rintro c i (⟨hc, hi⟩ | ⟨hc, hi⟩)
    · refine h.word c i (hlist c hc) ?_
      have hlt := (hs.kinds.list c hc).lt_size
      rcases hi with rfl | rfl
      · exact Nat.lt_of_le_of_lt (by decide) hlt
      · exact hlt
    · refine h.word c i (halloc c hc) ?_
      have hlt := (hs.kinds.process c (hsub c hc)).lt_size
      rcases hi with rfl | rfl
      · exact Nat.lt_of_le_of_lt (by decide) hlt
      · exact hlt
  · rw [h.word l _ (hlist l (.inl hl)) (hs.semaphore l hl).1.lt_size, (ht.excess l hl).2]

end After

/-! ## The invariant -/

/-- The scheduler in the memory of `s` is in the state `a`. The registers hold the active
context, the process that waits for the switch, and `base`. A process that neither runs
nor waits is referred to from elsewhere. -/
structure Managed (P : Processor) (process : Nat → Prop) (base : Nat → Nat) (s : Interpreter)
    (L : Layout) (a : State Nat Nat) : Prop where
  counted : Counted s.memory L (registers (held base s.activeContext) s)
  sound : P.Sound process (1 ≤ base ·) s.memory L
  tracks : P.Tracks process s.memory s.memory.chunkWord a
  current : P.Current s.memory a.active s
  active : process a.active
  machine : process (P.machine s.memory)
  spare : ∀ p, process p → a.Known p ∨ p = P.machine s.memory ∨
    Rooted s.memory L (1 ≤ held base s.activeContext ·) s.memory.chunkWord (P.Cut process) p
  orderly : a.Orderly P.policy P.semaphore

/-- A process that is suspended is no more the scheduler's when another one is active. -/
def Remains (P : Processor) (process : Nat → Prop) (s : Interpreter) (a b : State Nat Nat)
    (p : Nat) : Prop :=
  process p ∧ (a.Known p → b.Known p ∨ p = P.machine s.memory)

/-- Only the memory, the process for the next switch and the success have changed. -/
def Untouched (s t : Interpreter) : Prop :=
  t = { s.withMemory t.memory with
    newProcessWaiting := t.newProcessWaiting
    newProcess := t.newProcess
    successFlag := t.successFlag }

/-- What a primitive leaves is the scheduler of the memory afterwards. -/
theorem Scheduled.managed {f : Bool} (h : P.Managed process base s L a)
    (ht : P.Scheduled process s.memory L (held base s.activeContext)
      { s with successFlag := f } b t) (ho : b.Orderly P.policy P.semaphore) :
    ∃ L', P.Managed (P.Remains process s a b) base t L' b := by
  obtain ⟨g', L', u', heq, hw, htracks⟩ := ht.stored
  have hmem : t.memory = u' := (congrArg Interpreter.memory heq).trans rfl
  have hctx : t.activeContext = s.activeContext :=
    (congrArg Interpreter.activeContext ht.same).trans rfl
  subst hmem
  have hbase := held_le base s.activeContext
  have hregs : ∀ q, 1 ≤ base q → 1 ≤ registers (held base s.activeContext) t q :=
    le_registers hbase
  have hsub : ∀ p, P.Remains process s a b p → process p := fun p hp => hp.1
  have hlist : ∀ l, P.list l → Rooted s.memory L (1 ≤ base ·) g' (fun _ _ => False) l := fun l hl =>
    (rooted_link h.sound htracks hl).mono fun _ _ hf => hf.elim
  have hmember : ∀ l p, p ∈ b.queue l → process p := fun l p hp =>
    htracks.queued.process l (htracks.listed l p hp) p hp
  have halloc : ∀ p, P.Remains process s a b p → Allocated t.memory L' p := by
    rintro p ⟨hp, hknown⟩
    have hmachine : p = P.machine s.memory → Allocated t.memory L' p := by
      rintro rfl
      exact hw.rooted hregs ((h.sound.rooted_machine hp).congr htracks.same)
    rcases h.spare p hp with hk | hk | hroot
    · rcases hknown hk with (rfl | ⟨l, hl⟩) | hk
      · exact allocated_current h.sound hbase hw htracks ht.current ht.active
      · have hl' := htracks.listed l p hl
        exact hw.rooted hregs (htracks.queued.rooted h.sound.kinds hl' (hlist l hl') hl)
      · exact hmachine hk
    · exact hmachine hk
    · exact hw.rooted (le_registers fun _ => id) (hroot.congr htracks.same_cut)
  have hmachine : P.machine t.memory = P.machine s.memory :=
    (hw.word P.scheduler _ (hw.rooted hregs (h.sound.rooted_scheduler.congr htracks.same_cut))
      h.sound.scheduler.lt_size).trans
      (htracks.same _ _ (h.sound.unchanged (.inr (.inl rfl)) _))
  refine ⟨L', ?_, h.sound.after hregs hw (htracks.keeps h.sound) hsub halloc,
    htracks.holds.after h.sound hregs hw (htracks.keeps h.sound) hsub halloc fun l p hp =>
      ⟨hmember l p hp, fun _ => .inl (.inr ⟨l, hp⟩)⟩,
    ?_, ⟨ht.active, fun _ => .inl (.inl rfl)⟩, ?_, ?_, ho⟩
  · rw [hctx]
    exact hw.counted
  · rcases ht.current with hc | ⟨hwait, hn, hc⟩
    · exact .inl hc
    · exact .inr ⟨hwait, hn, hmachine.trans hc⟩
  · rw [hmachine]
    exact ⟨h.machine, fun _ => .inr rfl⟩
  · rintro p ⟨hp, hknown⟩
    rw [hmachine]
    rcases h.spare p hp with hk | hk | hroot
    · exact (hknown hk).imp_right .inl
    · exact .inr (.inl hk)
    · refine .inr (.inr ?_)
      rw [hctx]
      exact ((hw.rooted_after (le_registers fun _ => id) (hroot.congr htracks.same_cut))).mono
        fun _ _ hc => Cut.mono hsub hc

/-! ## One primitive -/

/-- What a primitive is given: a Semaphore, or a process that does not run or wait. -/
def Allowed (P : Processor) (process : Nat → Prop) (a : State Nat Nat) (s : Interpreter) :
    Scheduling.Action Nat Nat → Prop
  | .signal l => P.semaphore l
  | .wait l => P.semaphore l ∧ Top s l
  | .resume p => process p ∧ ¬a.Known p
  | .suspend => True

def perform : Scheduling.Action Nat Nat → IM Unit
  | .signal l => synchronousSignal l
  | .wait _ => primitiveWait
  | .resume p => resume p
  | .suspend => suspendActive

theorem primitiveSignal_run {l : Nat} (h : Top s l) : primitiveSignal s = synchronousSignal l s :=
  bind_of_run ((wp_stackTop h).mpr ⟨rfl, rfl⟩ : Wp _ (fun u t => u = l ∧ t = s) s).run_eq

theorem primitiveResume_run {p : Nat} (h : Top s p) : primitiveResume s = resume p s :=
  bind_of_run ((wp_stackTop h).mpr ⟨rfl, rfl⟩ : Wp _ (fun u t => u = p ∧ t = s) s).run_eq

/-- A process that does not run is not suspended. -/
theorem Managed.primitiveSuspend_run (h : P.Managed process base s L a) {p : Nat} (htop : Top s p)
    (hne : p ≠ a.active) :
    primitiveSuspend s = some ((), { s with successFlag := false }) := by
  have hbase := held_le base s.activeContext
  refine Wp.run_eq ?_
  rw [primitiveSuspend, wp_bind, wp_stackTop htop, wp_bind,
    wp_activeProcess h.sound (le_registers hbase) (Written.refl h.counted) h.tracks h.current rfl,
    wp_bind, success, wp_modify, wp_bind, wp_get, decide_eq_false hne, Bool.and_false,
    if_neg Bool.false_ne_true, wp_pure]
  exact ⟨rfl, rfl⟩

theorem Managed.valid (h : P.Managed process base s L a) {act : Scheduling.Action Nat Nat}
    (hact : P.Allowed process a s act) : act.Valid P.policy P.semaphore a := by
  cases act with
  | signal l => exact hact
  | wait l => exact hact.1
  | resume p => exact ⟨hact.2, (h.sound.priority p hact.1).1⟩
  | suspend => trivial

theorem Managed.wp_perform (h : P.Managed process base s L a) {act : Scheduling.Action Nat Nat}
    (hact : P.Allowed process a s act) (hb : act.run P.policy a = some b) :
    Wp (perform act) (fun _ t => P.Scheduled process s.memory L (held base s.activeContext)
      { s with successFlag := t.successFlag } b t) s := by
  have hbase := held_le base s.activeContext
  have hw := Written.refl h.counted
  cases act with
  | signal l =>
      cases hb
      exact wp_synchronousSignal h.sound hbase hw h.tracks h.current h.active h.orderly hact
  | wait l =>
      exact (wp_wait h.sound hbase hw h.tracks h.current h.active h.orderly hact.1 hact.2 hb).mono
        fun _ _ ht => ht.ofFlag
  | resume p =>
      cases hb
      have hroot : Rooted s.memory L (1 ≤ held base s.activeContext ·) s.memory.chunkWord
          (P.Changes process) p := by
        rcases (h.spare p hact.1).resolve_left hact.2 with rfl | hroot
        · exact (h.sound.rooted_machine hact.1).widen hbase
        · exact hroot.mono fun _ _ => .inl
      exact (wp_resume h.sound hbase hw h.tracks h.current h.active h.orderly.active hact.1 hroot
        hact.2).mono fun _ _ ht => ht.ofFlag
  | suspend =>
      exact (wp_suspendActive h.sound hbase hw h.tracks h.current h.active hb).mono
        fun _ _ ht => ht.ofFlag

theorem Managed.wp_step (h : P.Managed process base s L a) {act : Scheduling.Action Nat Nat}
    (hact : P.Allowed process a s act) (hb : act.run P.policy a = some b) :
    Wp (perform act) (fun _ t => Untouched s t ∧
      ∃ L', P.Managed (P.Remains process s a b) base t L' b) s := by
  refine (h.wp_perform hact hb).mono ?_
  rintro _ t ht
  exact ⟨ht.same, ht.managed h (h.orderly.action h.sound.policy (h.valid hact) hb).1⟩

/-- Each primitive does in the memory what the priority scheduler does, where that has a
process to run, and where it has none the machine halts. -/
theorem primitives_refine (h : P.Managed process base s L a) {act : Scheduling.Action Nat Nat}
    (hact : P.Allowed process a s act) :
    (∀ b, act.run P.policy a = some b → Wp (perform act) (fun _ t => Untouched s t ∧
      ∃ L', P.Managed (P.Remains process s a b) base t L' b) s) ∧
    (act.run P.policy a = none → perform act s = none) := by
  refine ⟨fun b hb => h.wp_step hact hb, fun hb => ?_⟩
  have hbase := held_le base s.activeContext
  have hw := Written.refl h.counted
  cases act with
  | signal l => cases hb
  | wait l =>
      exact wait_halts h.sound hbase hw h.tracks h.current h.active h.orderly hact.1 hact.2 hb
  | resume p => cases hb
  | suspend => exact suspendActive_halts h.sound (le_registers hbase) hw h.tracks hb

end Processor

/-! ## Two processes and a Semaphore

Oop 10 is the scheduler and oop 4 has its lists, 14 and 16. Oop 18 has the priority 2 and
runs in the context 22, with the Semaphore 12 on the stack, and oop 20 has the priority 1 and
the context 24. -/

/-- Oop 18 runs, it waits for the Semaphore and oop 20 is to run, or it is to run again. -/
inductive Stage
  | runs | waits | returns

def twoProcesses (stage : Stage) : Nat → List Nat
  | 4 => [2, 14, 16]
  | 8 => [2, 1, 10]
  | 10 => match stage with
    | .runs => [2, 4, 18]
    | .waits => [2, 4, 18]
    | .returns => [2, 4, 20]
  | 12 => match stage with
    | .runs => [2, 2, 2, 1]
    | .waits => [2, 18, 18, 1]
    | .returns => [2, 2, 2, 1]
  | 14 => match stage with
    | .runs => [2, 20, 20]
    | .waits => [2, 2, 2]
    | .returns => [2, 20, 20]
  | 16 => [2, 2, 2]
  | 18 => match stage with
    | .runs => [2, 2, 2, 5, 2]
    | .waits => [2, 2, 2, 5, 12]
    | .returns => [2, 2, 22, 5, 12]
  | 20 => [2, 2, 24, 3, 14]
  | 22 => match stage with
    | .runs => [2, 2, 3, 3, 2, 1, 2, 12]
    | .waits => [2, 2, 3, 3, 2, 1, 2, 12]
    | .returns => [2, 2, 5, 3, 2, 1, 2, 12]
  | 24 => [2, 2, 5, 3, 2, 1, 2]
  | _ => []

def twoQueues : Stage → State Nat Nat
  | .runs => ⟨18, fun l => if l = 14 then [20] else [], fun _ => 0⟩
  | .waits => ⟨20, fun l => if l = 12 then [18] else [], fun _ => 0⟩
  | .returns => ⟨18, fun l => if l = 14 then [20] else [], fun _ => 0⟩

def twoState (stage : Stage) : Interpreter :=
  { beforeTime with
    host := { beforeTime.host with memory := spread (twoProcesses stage) }
    activeContext := match stage with
      | .runs => 22
      | .waits => 22
      | .returns => 24
    homeContext := match stage with
      | .runs => 22
      | .waits => 22
      | .returns => 24
    instructionPointer := 1
    stackPointer := 6
    newProcessWaiting := match stage with
      | .runs => false
      | .waits => true
      | .returns => true
    newProcess := match stage with
      | .runs => 2
      | .waits => 20
      | .returns => 18 }

def twoLevels : Processor where
  policy :=
    { priority := fun p => if p = 18 then 2 else 1
      ready := fun k => if k = 1 then 14 else 16
      levels := 2
      limit := 16383 }
  semaphore := (· = 12)
  scheduler := 10
  processLists := 4

def twoObjects (p : Nat) : Prop := p = 18 ∨ p = 20

/-- Nil, the association and the Semaphore are referred to from elsewhere. -/
def otherRegisters (p : Nat) : Nat := if p = 2 ∨ p = 8 ∨ p = 12 then 1 else 0

theorem spreadable_twoProcesses (stage : Stage) : Spreadable (twoProcesses stage) := by
  cases stage <;> exact ⟨by decide, by decide⟩

section TwoProcesses

variable {stage : Stage} {p i l : Nat}

theorem word_twoProcesses (hp : IsOop p ∧ p ≤ 34 ∧ p ≠ 2 ∧ p ≠ 6)
    (hi : i < spreadSize (twoProcesses stage) p) :
    (spread (twoProcesses stage)).chunkWord p i = spreadField (twoProcesses stage) p i :=
  chunkWord_spread (spreadable_twoProcesses stage) hp.1 hp.2.1 hp.2.2.1 hp.2.2.2 hi

theorem field_twoProcesses (hp : IsOop p ∧ p ≤ 34 ∧ p ≠ 2 ∧ p ≠ 6)
    (hi : 2 ≤ i ∧ i < spreadSize (twoProcesses stage) p) :
    PointerField (spread (twoProcesses stage)) (spreadLayout (twoProcesses stage)) p i :=
  pointerField_spread (spreadable_twoProcesses stage) hp.1 hp.2.1 hp.2.2.1 hp.2.2.2 hi.1 hi.2

theorem list_twoLevels (hl : twoLevels.list l) : l = 12 ∨ l = 14 ∨ l = 16 := by
  rcases hl with hl | ⟨k, -, -, rfl⟩
  · exact .inl hl
  · show (if k = 1 then 14 else 16) = 12 ∨ (if k = 1 then 14 else 16) = 14 ∨
      (if k = 1 then 14 else 16) = 16
    split <;> simp

theorem kinds_twoProcesses : Kinds (spread (twoProcesses stage))
    (spreadLayout (twoProcesses stage)) twoLevels.list twoObjects where
  list := fun l hl => by
    rcases list_twoLevels hl with rfl | rfl | rfl <;> cases stage <;>
      exact field_twoProcesses (by decide) (by decide)
  process := fun p hp => by
    rcases hp with rfl | rfl <;> cases stage <;>
      exact field_twoProcesses (by decide) (by decide)
  apart := fun p hp hl => by
    rcases list_twoLevels hl with rfl | rfl | rfl <;> rcases hp with hp | hp <;> omega
  nil := fun h => by rcases h with h | h <;> exact absurd h (by decide)

theorem policy_twoLevels : twoLevels.policy.Sound twoLevels.semaphore := by
  refine ⟨fun j k hj hj' hk hk' heq => ?_, fun k hk hk' hs => ?_⟩
  · have hlevels : twoLevels.policy.levels = 2 := rfl
    have hready : (if j = 1 then 14 else 16) = (if k = 1 then 14 else 16) := heq
    split at hready <;> split at hready <;> omega
  · have hready : (if k = 1 then 14 else 16) = 12 := hs
    split at hready <;> omega

theorem sound_twoProcesses : twoLevels.Sound twoObjects (1 ≤ otherRegisters ·)
    (spread (twoProcesses stage)) (spreadLayout (twoProcesses stage)) where
  policy := policy_twoLevels
  limit := rfl
  levels := by decide
  kinds := kinds_twoProcesses
  nil := ⟨allocated_spread.mpr (by decide), by decide⟩
  association := ⟨by cases stage <;> exact field_twoProcesses (by decide) (by decide), by decide⟩
  scheduler := by cases stage <;> exact field_twoProcesses (by decide) (by decide)
  processLists := by
    cases stage <;> exact ⟨field_twoProcesses (by decide) (by decide),
      (word_twoProcesses (by decide) (by decide)).trans rfl⟩
  fixed := fun c hc => by
    have hscheduler : twoLevels.scheduler = 10 := rfl
    have hlists : twoLevels.processLists = 4 := rfl
    have hassoc : schedulerAssociationPointer = 8 := rfl
    rcases hc with hl | hp
    · rcases list_twoLevels hl with rfl | rfl | rfl <;> omega
    · rcases hp with rfl | rfl <;> omega
  distinct := by decide
  value := by cases stage <;> exact (word_twoProcesses (by decide) (by decide)).trans rfl
  lists := by cases stage <;> exact (word_twoProcesses (by decide) (by decide)).trans rfl
  ready := fun k hk => by
    have hlevels : twoLevels.policy.levels = 2 := rfl
    obtain rfl | rfl : k = 0 ∨ k = 1 := by omega
    · cases stage <;> exact (word_twoProcesses (by decide) (by decide)).trans rfl
    · cases stage <;> exact (word_twoProcesses (by decide) (by decide)).trans rfl
  priority := fun p hp => by
    rcases hp with rfl | rfl <;> cases stage <;>
      exact ⟨by decide, (word_twoProcesses (by decide) (by decide)).trans rfl⟩
  semaphore := fun l hl => by
    obtain rfl : l = 12 := hl
    exact ⟨by cases stage <;> exact field_twoProcesses (by decide) (by decide),
      .root (allocated_spread.mpr (by decide)) (by decide)⟩

theorem mem_twoQueues (hp : p ∈ (twoQueues stage).queue l) :
    (l = 12 ∧ p = 18 ∧ stage = .waits) ∨ (l = 14 ∧ p = 20 ∧ stage ≠ .waits) := by
  have hmem : ∀ {k q : Nat}, p ∈ (if l = k then [q] else []) → l = k ∧ p = q := by
    intro k q hp
    split at hp
    · next hl => exact ⟨hl, List.mem_singleton.mp hp⟩
    · cases hp
  cases stage with
  | runs => exact .inr ⟨(hmem hp).1, (hmem hp).2, Stage.noConfusion⟩
  | waits => exact .inl ⟨(hmem hp).1, (hmem hp).2, rfl⟩
  | returns => exact .inr ⟨(hmem hp).1, (hmem hp).2, Stage.noConfusion⟩

theorem tracks_twoProcesses : twoLevels.Tracks twoObjects (spread (twoProcesses stage))
    (spread (twoProcesses stage)).chunkWord (twoQueues stage) := by
  have hnext : ∀ p, twoObjects p →
      (spread (twoProcesses stage)).chunkWord p (headerSize + nextLinkIndex) = nilPointer := by
    rintro p (rfl | rfl) <;> cases stage <;>
      exact (word_twoProcesses (by decide) (by decide)).trans rfl
  have hword : ∀ {l i v : Nat}, (IsOop l ∧ l ≤ 34 ∧ l ≠ 2 ∧ l ≠ 6) →
      i < spreadSize (twoProcesses stage) l → spreadField (twoProcesses stage) l i = v →
      (spread (twoProcesses stage)).chunkWord l i = v := fun hl hi hv =>
    (word_twoProcesses hl hi).trans hv
  refine ⟨fun _ _ _ => rfl, ⟨fun l hl => ?_, fun l hl p hp => ?_, fun l _ p hp => ?_,
    fun l _ p hp => ?_, fun p hp _ => hnext p hp⟩, fun l p hp => ?_, fun l hl => ?_⟩
  · rcases list_twoLevels hl with rfl | rfl | rfl
    · cases stage with
      | runs => exact hword (by decide) (by decide) rfl
      | waits => exact ⟨hword (by decide) (by decide) rfl, by decide, hnext 18 (.inl rfl)⟩
      | returns => exact hword (by decide) (by decide) rfl
    · cases stage with
      | runs => exact ⟨hword (by decide) (by decide) rfl, by decide, hnext 20 (.inr rfl)⟩
      | waits => exact hword (by decide) (by decide) rfl
      | returns => exact ⟨hword (by decide) (by decide) rfl, by decide, hnext 20 (.inr rfl)⟩
    · cases stage <;> exact hword (by decide) (by decide) rfl
  · rcases mem_twoQueues (List.mem_of_getLast? hp) with ⟨rfl, rfl, rfl⟩ | ⟨rfl, rfl, hstage⟩
    · exact hword (by decide) (by decide) rfl
    · cases stage with
      | runs => exact hword (by decide) (by decide) rfl
      | waits => exact absurd rfl hstage
      | returns => exact hword (by decide) (by decide) rfl
  · rcases mem_twoQueues hp with ⟨-, rfl, -⟩ | ⟨-, rfl, -⟩
    · exact .inl rfl
    · exact .inr rfl
  · rcases mem_twoQueues hp with ⟨rfl, rfl, rfl⟩ | ⟨rfl, rfl, -⟩
    · exact hword (by decide) (by decide) rfl
    · cases stage <;> exact hword (by decide) (by decide) rfl
  · rcases mem_twoQueues hp with ⟨rfl, -⟩ | ⟨rfl, -⟩
    · exact .inl rfl
    · exact .inr ⟨1, by decide, by decide, rfl⟩
  · obtain rfl : l = 12 := hl
    cases stage <;> exact ⟨by decide, hword (by decide) (by decide) rfl⟩

theorem orderly_twoQueues : (twoQueues stage).Orderly twoLevels.policy twoLevels.semaphore := by
  have hlevel : ∀ p, twoObjects p → 1 ≤ twoLevels.policy.priority p ∧
      twoLevels.policy.priority p ≤ twoLevels.policy.levels := by
    rintro p (rfl | rfl) <;> decide
  have hmember : ∀ {l p}, p ∈ (twoQueues stage).queue l → twoObjects p := by
    intro l p hp
    rcases mem_twoQueues hp with ⟨-, rfl, -⟩ | ⟨-, rfl, -⟩
    · exact .inl rfl
    · exact .inr rfl
  refine ⟨fun l => ?_, fun l l' p hp hp' => ?_, fun l hp => ?_, fun p hp => ?_,
    fun l p hp hl => ?_, fun l p hp hl => ?_, fun l hl => ?_⟩
  · cases stage <;> dsimp only [twoQueues] <;> split <;> simp
  · rcases mem_twoQueues hp with ⟨rfl, rfl, -⟩ | ⟨rfl, rfl, -⟩ <;>
      rcases mem_twoQueues hp' with ⟨rfl, h', -⟩ | ⟨rfl, h', -⟩ <;> omega
  · rcases mem_twoQueues hp with ⟨-, h, rfl⟩ | ⟨-, h, hstage⟩
    · exact absurd h (by decide)
    · cases stage with
      | runs => exact absurd h (by decide)
      | waits => exact absurd rfl hstage
      | returns => exact absurd h (by decide)
  · rcases hp with rfl | ⟨l, hp⟩
    · exact hlevel _ (by cases stage <;> first | exact .inl rfl | exact .inr rfl)
    · exact hlevel p (hmember hp)
  · rcases mem_twoQueues hp with ⟨rfl, -⟩ | ⟨rfl, rfl, -⟩
    · exact absurd rfl hl
    · rfl
  · rcases mem_twoQueues hp with ⟨rfl, -⟩ | ⟨rfl, rfl, -⟩
    · exact absurd rfl hl
    · cases stage <;> decide
  · cases stage <;> exact ⟨Int.le_refl 0, fun _ => rfl⟩

theorem managed_twoState : twoLevels.Managed twoObjects otherRegisters (twoState stage)
    (spreadLayout (twoProcesses stage)) (twoQueues stage) where
  counted := counted_spread (spreadable_twoProcesses stage) _
  sound := sound_twoProcesses
  tracks := tracks_twoProcesses
  current := by
    cases stage with
    | runs => exact .inr ⟨rfl, rfl, (word_twoProcesses (by decide) (by decide)).trans rfl⟩
    | waits => exact .inl ⟨rfl, rfl⟩
    | returns => exact .inl ⟨rfl, rfl⟩
  active := by cases stage <;> first | exact .inl rfl | exact .inr rfl
  machine := by
    cases stage with
    | runs => exact .inl ((word_twoProcesses (by decide) (by decide)).trans rfl)
    | waits => exact .inl ((word_twoProcesses (by decide) (by decide)).trans rfl)
    | returns => exact .inr ((word_twoProcesses (by decide) (by decide)).trans rfl)
  spare := fun p hp => by
    rcases hp with rfl | rfl
    · cases stage with
      | runs => exact .inl (.inl rfl)
      | waits => exact .inl (.inr ⟨12, List.mem_singleton_self 18⟩)
      | returns => exact .inl (.inl rfl)
    · cases stage with
      | runs => exact .inl (.inr ⟨14, List.mem_singleton_self 20⟩)
      | waits => exact .inl (.inl rfl)
      | returns => exact .inl (.inr ⟨14, List.mem_singleton_self 20⟩)
  orderly := orderly_twoQueues

end TwoProcesses

theorem top_twoState : Top (twoState .runs) 12 := by
  have hfield : PointerField (spread (twoProcesses .runs)) (spreadLayout (twoProcesses .runs)) 22
      (headerSize + 6) := field_twoProcesses (by decide) (by decide)
  exact ⟨hfield.hasField (f := 6) (heap_spread (spreadable_twoProcesses .runs)) (by decide),
    (word_twoProcesses (by decide) (by decide)).trans rfl⟩

theorem allowed_twoState :
    twoLevels.Allowed twoObjects (twoQueues .runs) (twoState .runs) (.wait 12) :=
  ⟨rfl, top_twoState⟩

/-- The process waits for the Semaphore, and the other one runs. -/
def afterWait : State Nat Nat :=
  { ((twoQueues .runs).append 12 18).setQueue 14 [] with active := 20 }

theorem run_twoQueues : Scheduling.Action.run twoLevels.policy (.wait 12) (twoQueues .runs) =
    some afterWait := rfl

theorem primitives_refine_wait :
    Wp (Processor.perform (.wait 12)) (fun _ t => Processor.Untouched (twoState .runs) t ∧
      ∃ L', twoLevels.Managed (twoLevels.Remains twoObjects (twoState .runs) (twoQueues .runs)
        afterWait) otherRegisters t L' afterWait) (twoState .runs) :=
  (Processor.primitives_refine managed_twoState allowed_twoState).1 afterWait run_twoQueues

end Crosstalk
