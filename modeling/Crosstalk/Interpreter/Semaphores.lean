import Crosstalk.Interpreter.ByteStores

/-!
# Signalling semaphores

The semaphores that the machine signals by itself: for input, at a time, and
when memory is low. Each is registered by a primitive, waits in a register of
the interpreter or of the virtual machine, goes to `semaphoreList` when its
event occurs, and is signalled before the next bytecode.
-/

namespace Crosstalk

abbrev processListsIndex : Nat := 0
abbrev firstLinkIndex : Nat := 0
abbrev lastLinkIndex : Nat := 1
abbrev nextLinkIndex : Nat := 0
abbrev excessSignalsIndex : Nat := 2
abbrev priorityIndex : Nat := 2
abbrev myListIndex : Nat := 3

/-! ## Processes -/

def decreaseReferencesTo (objectPointer : Nat) : OM Unit := do
  let _ ← countDown objectPointer

def schedulerPointer : IM Nat :=
  inMemory (fetchPointerOfObject valueIndex schedulerAssociationPointer)

def activeProcess : IM Nat := do
  let s ← get
  if s.newProcessWaiting then
    return s.newProcess
  else
    inMemory (fetchPointerOfObject activeProcessIndex (← schedulerPointer))

def isEmptyList (aLinkedList : Nat) : IM Bool := do
  return decide ((← inMemory (fetchPointerOfObject firstLinkIndex aLinkedList)) = nilPointer)

/-- The link keeps a reference, which the caller takes away. -/
def removeFirstLinkOfList (aLinkedList : Nat) : IM Nat := inMemory do
  let firstLink ← fetchPointerOfObject firstLinkIndex aLinkedList
  increaseReferencesTo firstLink
  let lastLink ← fetchPointerOfObject lastLinkIndex aLinkedList
  if lastLink = firstLink then
    storePointerOfObjectWithValue firstLinkIndex aLinkedList nilPointer
    storePointerOfObjectWithValue lastLinkIndex aLinkedList nilPointer
  else
    let nextLink ← fetchPointerOfObject nextLinkIndex firstLink
    storePointerOfObjectWithValue firstLinkIndex aLinkedList nextLink
  storePointerOfObjectWithValue nextLinkIndex firstLink nilPointer
  return firstLink

def addLastLinkToList (aLink aLinkedList : Nat) : IM Unit := do
  if ← isEmptyList aLinkedList then
    inMemory (storePointerOfObjectWithValue firstLinkIndex aLinkedList aLink)
  else
    let lastLink ← inMemory (fetchPointerOfObject lastLinkIndex aLinkedList)
    inMemory (storePointerOfObjectWithValue nextLinkIndex lastLink aLink)
  inMemory (storePointerOfObjectWithValue lastLinkIndex aLinkedList aLink)
  inMemory (storePointerOfObjectWithValue myListIndex aLink aLinkedList)

def sleep (aProcess : Nat) : IM Unit := do
  let priority ← fetchIntegerOfObject priorityIndex aProcess
  let processLists ← inMemory (fetchPointerOfObject processListsIndex (← schedulerPointer))
  let processList ← inMemory (fetchPointerOfObject (priority - 1) processLists)
  addLastLinkToList aProcess processList

def transferTo (aProcess : Nat) : IM Unit := do
  modify fun s => { s with newProcessWaiting := true }
  let s ← get
  if s.newProcess ≠ nilPointer then
    inMemory (decreaseReferencesTo s.newProcess)
  modify fun s => { s with newProcess := aProcess }
  inMemory (increaseReferencesTo aProcess)

def resume (aProcess : Nat) : IM Unit := do
  let theActiveProcess ← activeProcess
  let activePriority ← fetchIntegerOfObject priorityIndex theActiveProcess
  let newPriority ← fetchIntegerOfObject priorityIndex aProcess
  if newPriority > activePriority then
    sleep theActiveProcess
    transferTo aProcess
  else
    sleep aProcess

def synchronousSignal (aSemaphore : Nat) : IM Unit := do
  if ← isEmptyList aSemaphore then
    let excessSignals ← fetchIntegerOfObject excessSignalsIndex aSemaphore
    storeIntegerOfObjectWithValue excessSignalsIndex aSemaphore (excessSignals + 1)
  else
    let aProcess ← removeFirstLinkOfList aSemaphore
    resume aProcess
    inMemory (decreaseReferencesTo aProcess)

def newActiveContext (aContext : Nat) : IM Unit := do
  storeContextRegisters
  inMemory (decreaseReferencesTo (← get).activeContext)
  modify fun s => { s with activeContext := aContext }
  inMemory (increaseReferencesTo aContext)
  fetchContextRegisters

/-- The end of `checkProcessSwitch`. -/
def switchProcess : IM Unit := do
  if (← get).newProcessWaiting then
    modify fun s => { s with newProcessWaiting := false }
    let theActiveProcess ← activeProcess
    inMemory (storePointerOfObjectWithValue suspendedContextIndex theActiveProcess
      (← get).activeContext)
    let scheduler ← schedulerPointer
    inMemory (storePointerOfObjectWithValue activeProcessIndex scheduler (← get).newProcess)
    newActiveContext (← inMemory (fetchPointerOfObject suspendedContextIndex (← get).newProcess))
    inMemory (decreaseReferencesTo (← get).newProcess)
    modify fun s => { s with newProcess := nilPointer }

/-! ## Arguments of the primitives -/

def fetchByteOfObject (byteIndex objectPointer : Nat) : OM Nat :=
  heapChunkOfByte objectPointer (headerSize * 2 + byteIndex)

def positive16BitValueOf (integerPointer : Nat) : IM Int := do
  if isIntegerObject integerPointer then
    return integerValueOf integerPointer
  else if (← inMemory (fetchClassOf integerPointer)) ≠ classLargePositiveIntegerPointer then
    primitiveFail
  else if (← inMemory (fetchByteLengthOf integerPointer)) ≠ 2 then
    primitiveFail
  else
    let high ← inMemory (fetchByteOfObject 1 integerPointer)
    let low ← inMemory (fetchByteOfObject 0 integerPointer)
    return high * 256 + low

/-- Byte `i` of a number of `bytes` bytes, at its place. -/
def shiftedByte (integerPointer : Nat) (bytes : Int) (i : Nat) : OM Nat :=
  if bytes > i then return (← fetchByteOfObject i integerPointer) <<< (8 * i) else return 0

def positive32BitValueOf (integerPointer : Nat) : IM Nat := do
  if isIntegerObject integerPointer then
    return (integerValueOf integerPointer % 2 ^ 32).toNat
  else if (← inMemory (fetchClassOf integerPointer)) ≠ classLargePositiveIntegerPointer then
    let _ ← primitiveFail
    return 0
  else inMemory do
    let bytes ← fetchByteLengthOf integerPointer
    let first ← fetchByteOfObject 0 integerPointer
    return first ||| (← shiftedByte integerPointer bytes 1) |||
      (← shiftedByte integerPointer bytes 2) ||| (← shiftedByte integerPointer bytes 3)

/-- The primitives accept nil or a Semaphore. -/
def isNilOrSemaphore (semaphore : Nat) : IM Bool := do
  if semaphore = nilPointer then
    return true
  else
    return decide ((← inMemory (fetchClassOf semaphore)) = classSemaphorePointer)

/-! ## The machine -/

/-- The interpreter with the registers for signals, and what the hardware layer
keeps. The clocks answer a number each time that they are read. -/
structure VirtualMachine where
  interpreter : Interpreter
  semaphoreList : Nat → Nat
  semaphoreIndex : Int
  checkLowMemory : Bool
  memoryIsLow : Bool
  lowSpaceSemaphore : Nat
  oopsLeftLimit : Int
  wordsLeftLimit : Nat
  inputSemaphore : Nat
  inputQueue : List Nat
  eventCount : Nat
  lastEventTime : Nat
  scheduledSemaphore : Nat
  scheduledTime : Nat
  mouseOldmb : Nat
  offX : Int
  offY : Int
  ticks : Nat → Nat
  epochTime : Nat → Nat
  readings : Nat

abbrev VM := StateT VirtualMachine Option

def onInterpreter {α : Type} (x : IM α) : VM α := fun s =>
  match x s.interpreter with
  | none => none
  | some (a, i) => some (a, { s with interpreter := i })

/-- What the devices answer when `process_events` asks them. -/
structure Devices where
  keySeq : UInt8 × UInt8
  x : Int
  y : Int
  mouseMb : Nat

abbrev semaphoreListSize : Nat := 4096

/-- A store outside the array is undefined. -/
def asynchronousSignal (aSemaphore : Nat) : VM Unit := do
  modify fun s => { s with semaphoreIndex := s.semaphoreIndex + 1 }
  check ((← get).semaphoreIndex < semaphoreListSize)
  modify fun s => { s with
    semaphoreList := fun i => if i = s.semaphoreIndex.toNat then aSemaphore else s.semaphoreList i }

/-! ## The hardware layer -/

def getMsclock : VM Nat := do
  let s ← get
  set { s with readings := s.readings + 1 }
  return s.ticks s.readings % 2 ^ 32

/-- From 1901 on. -/
def getSmalltalkEpochTime : VM Nat := do
  let s ← get
  set { s with readings := s.readings + 1 }
  return (s.epochTime s.readings + 2177452800) % 2 ^ 32

def setInputSemaphore (semaphore : Nat) : VM Unit :=
  modify fun s => { s with inputSemaphore := semaphore }

def checkScheduledSemaphore : VM Unit := do
  let s ← get
  if s.scheduledSemaphore ≠ 0 then
    if (← getMsclock) > s.scheduledTime then
      asynchronousSignal s.scheduledSemaphore
      modify fun s => { s with scheduledSemaphore := 0 }

/-- The last request only; 0 cancels it. -/
def signalAt (semaphore msClockTime : Nat) : VM Unit := do
  modify fun s => { s with scheduledSemaphore := semaphore, scheduledTime := msClockTime }
  if semaphore ≠ 0 then
    -- just in case the time passed
    checkScheduledSemaphore

def queueWord (word : Nat) : VM Unit := do
  check ((← get).inputSemaphore ≠ 0)
  modify fun s => { s with inputQueue := s.inputQueue ++ [word] }
  asynchronousSignal (← get).inputSemaphore

def queueInputWord (type parameter : Nat) : VM Unit :=
  queueWord (((type &&& 0xf) <<< 12) ||| (parameter &&& 0xfff))

/-- The first event comes after no time. -/
def elapsed (s : VirtualMachine) (now : Nat) : Nat :=
  if s.eventCount = 0 then 0 else (now + 2 ^ 32 - s.lastEventTime) % 2 ^ 32

def queueInputTimeWords : VM Unit := do
  let now ← getMsclock
  let deltaTime := elapsed (← get) now
  modify fun s => { s with eventCount := s.eventCount + 1 }
  if deltaTime ≤ 4095 then
    queueInputWord 0 deltaTime
  else
    let absTime ← getSmalltalkEpochTime
    queueInputWord 5 0
    queueWord ((absTime >>> 16) &&& 0xffff)
    queueWord (absTime &&& 0xffff)
  modify fun s => { s with lastEventTime := now }

/-- A word for a modifier that is held. -/
def queueModifier (ctrlState mask type key : Nat) : VM Unit :=
  if ctrlState &&& mask ≠ 0 then queueInputWord type key else pure ()

/-- A `char` is signed: the bytes from 128 on come out above 255. -/
def wordOfChar (c : UInt8) : Nat := (Int.bmod c.toNat 256 % 65536).toNat

def handleCookedKeyboardKey (keySeq : UInt8 × UInt8) : VM Unit :=
  let param := wordOfChar keySeq.1
  let ctrlState := wordOfChar keySeq.2
  if param = 0 ∨ param > 255 ∨ ctrlState > 3 then
    pure ()
  else do
    queueInputTimeWords
    queueModifier ctrlState 1 3 138
    queueModifier ctrlState 2 3 136
    queueInputWord 3 param
    queueInputWord 4 param
    queueModifier ctrlState 2 4 136
    queueModifier ctrlState 1 4 138

def smalltalkButton : Nat → Option Nat
  | 1 => some 130
  | 2 => some 128
  | 4 => some 129
  | _ => none

def handleMouseButtonEvent (buttons down : Nat) : VM Unit :=
  match smalltalkButton buttons with
  | none => pure ()
  | some button => do
      queueInputTimeWords
      queueInputWord (if down ≠ 0 then 3 else 4) button

def handleMouseMovementEvent (x y : Int) : VM Unit := do
  queueInputTimeWords
  queueInputWord 1 (x % 65536).toNat
  queueInputTimeWords
  queueInputWord 1 (y % 65536).toNat

/-- The button that has changed, the last of several; none leaves it undefined. -/
def changedButton (mouseMb mouseOldmb : Nat) : Option Nat :=
  if mouseMb &&& 4 ≠ mouseOldmb &&& 4 then some 4
  else if mouseMb &&& 2 ≠ mouseOldmb &&& 2 then some 2
  else if mouseMb &&& 1 ≠ mouseOldmb &&& 1 then some 1
  else none

def handleMouseButtons (mouseMb : Nat) : VM Unit := do
  let s ← get
  if mouseMb ≠ s.mouseOldmb then
    match changedButton mouseMb s.mouseOldmb with
    | none => check False
    | some b =>
        modify fun s => { s with mouseOldmb := mouseMb }
        handleMouseButtonEvent b (mouseMb &&& b)

def processEvents (devices : Devices) : VM Unit := do
  let s ← get
  if s.inputSemaphore = 0 then
    pure ()
  else do
    if devices.keySeq.1 ≠ 0 then
      handleCookedKeyboardKey devices.keySeq
    handleMouseButtons devices.mouseMb
    handleMouseMovementEvent (devices.x - s.offX) (devices.y - s.offY)

def checkLowMemoryConditions : VM Unit := modify fun s => { s with checkLowMemory := true }

/-! ## The primitives that register a semaphore -/

def primitiveInputSemaphore : VM Unit := do
  let semaphore ← onInterpreter popStack
  let ok ← onInterpreter (isNilOrSemaphore semaphore)
  onInterpreter (success ok)
  if (← get).interpreter.successFlag then
    setInputSemaphore semaphore
  else
    onInterpreter (unPop 1)

def primitiveSignalAtTick : VM Unit := do
  let timePointer ← onInterpreter popStack
  let semaphore ← onInterpreter popStack
  let ok ← onInterpreter (isNilOrSemaphore semaphore)
  onInterpreter (success ok)
  if (← get).interpreter.successFlag then
    let time ← onInterpreter (inMemory do
      return (← fetchByteOfObject 0 timePointer) ||| (← shiftedByte timePointer 4 1) |||
        (← shiftedByte timePointer 4 2) ||| (← shiftedByte timePointer 4 3))
    -- 0 tells the hardware layer to cancel an outstanding request
    signalAt (if semaphore = nilPointer then 0 else semaphore) time
  else
    onInterpreter (unPop 2)

def primitiveSignalAtOopsLeftWordsLeft : VM Unit := do
  let numWords ← onInterpreter (do positive32BitValueOf (← popStack))
  let numOops ← onInterpreter (do positive16BitValueOf (← popStack))
  let semaphore ← onInterpreter popStack
  let ok ← onInterpreter (isNilOrSemaphore semaphore)
  onInterpreter (success ok)
  if (← get).interpreter.successFlag then
    modify fun s => { s with
      lowSpaceSemaphore := semaphore, oopsLeftLimit := numOops, wordsLeftLimit := numWords }
  else
    onInterpreter (unPop 3)

/-! ## Before the next bytecode -/

def isInLowMemoryCondition (s : VirtualMachine) : Bool :=
  s.oopsLeftLimit > 0 && s.wordsLeftLimit > 0 &&
    (s.interpreter.memory.freeOops < s.oopsLeftLimit ||
      (s.interpreter.memory.freeWords % 2 ^ 32).toNat < s.wordsLeftLimit)

/-- The signal for low memory is given once. -/
def signalLowSpace (memoryWasLow : Bool) : VM Unit := do
  let s ← get
  if isInLowMemoryCondition s then
    modify fun s => { s with memoryIsLow := true }
    if !memoryWasLow then
      asynchronousSignal s.lowSpaceSemaphore

def warnAboutLowMemory : VM Unit := do
  let s ← get
  modify fun s => { s with memoryIsLow := false }
  if s.lowSpaceSemaphore ≠ nilPointer ∧ s.oopsLeftLimit > 0 ∧ s.wordsLeftLimit > 0 then
    if isInLowMemoryCondition s then
      onInterpreter garbageCollect
      signalLowSpace s.memoryIsLow
  modify fun s => { s with checkLowMemory := false }

def lowMemoryCheck : VM Unit := do
  if (← get).checkLowMemory then
    warnAboutLowMemory

/-- One round of the loop over `semaphoreList`. -/
def signalNext : VM Unit := do
  let s ← get
  check (0 ≤ s.semaphoreIndex)
  onInterpreter (synchronousSignal (s.semaphoreList s.semaphoreIndex.toNat))
  modify fun s => { s with semaphoreIndex := s.semaphoreIndex - 1 }

def signalRound (_ : Unit) : VM (Unit ⊕ Unit) := do
  if (← get).semaphoreIndex ≥ 0 then
    signalNext
    return .inl ()
  else
    return .inr ()

def checkProcessSwitch : VM Unit := do
  lowMemoryCheck
  iterate signalRound ()
  onInterpreter switchProcess

/-! ## Runs -/

/-- What can happen next. A bytecode, or any other work of the interpreter, leaves
it in any state. -/
inductive Action
  | inputSemaphore
  | signalAtTick
  | signalAtOopsLeftWordsLeft
  | processEvents (devices : Devices)
  | checkScheduledSemaphore
  | checkLowMemoryConditions
  | lowMemoryCheck
  | signalNext
  | interpret (interpreter : Interpreter)

def perform : Action → VM Unit
  | .inputSemaphore => primitiveInputSemaphore
  | .signalAtTick => primitiveSignalAtTick
  | .signalAtOopsLeftWordsLeft => primitiveSignalAtOopsLeftWordsLeft
  | .processEvents devices => processEvents devices
  | .checkScheduledSemaphore => checkScheduledSemaphore
  | .checkLowMemoryConditions => checkLowMemoryConditions
  | .lowMemoryCheck => lowMemoryCheck
  | .signalNext => signalNext
  | .interpret interpreter => modify fun s => { s with interpreter }

/-- The states that a run passes, where `C` holds of every action with the states
before and after it. -/
def Reached (C : Action → VirtualMachine → VirtualMachine → Prop) :
    VirtualMachine → VirtualMachine → Prop :=
  Relation.ReflTransGen fun s s' => ∃ a, perform a s = some ((), s') ∧ C a s s'

/-- After `Interpreter::init` no semaphore is registered. -/
structure Started (s : VirtualMachine) : Prop where
  semaphoreIndex : s.semaphoreIndex = -1
  lowSpaceSemaphore : s.lowSpaceSemaphore = nilPointer
  inputSemaphore : s.inputSemaphore = 0
  scheduledSemaphore : s.scheduledSemaphore = 0

/-! ## What waits is a Semaphore -/

def ObjectMemory.classOf (m : ObjectMemory) (p : Nat) : Nat :=
  if isIntegerObject p then classSmallInteger else m.chunkWord p 1

structure Signallable (m : ObjectMemory) (p : Nat) : Prop where
  isSemaphore : m.classOf p = classSemaphorePointer
  ne_nil : p ≠ nilPointer
  ne_zero : p ≠ 0

/-- `p` is to be signalled before the next bytecode. -/
def Pending (s : VirtualMachine) (p : Nat) : Prop :=
  ∃ i : Nat, (i : Int) ≤ s.semaphoreIndex ∧ s.semaphoreList i = p

/-- All that waits in the machine is a Semaphore, in the memory `m`. -/
structure Registered (m : ObjectMemory) (s : VirtualMachine) : Prop where
  pending : ∀ p, Pending s p → Signallable m p
  input : s.inputSemaphore ≠ 0 → Signallable m s.inputSemaphore
  scheduled : s.scheduledSemaphore ≠ 0 → Signallable m s.scheduledSemaphore
  lowSpace : s.lowSpaceSemaphore ≠ nilPointer → Signallable m s.lowSpaceSemaphore

section Rules

variable {α : Type} {m : ObjectMemory} {s : VirtualMachine} {i : Interpreter} {p : Nat}

theorem wlp_onInterpreter {x : IM α} {Q : α → VirtualMachine → Prop} :
    Wlp (onInterpreter x) Q s ↔
      Wlp x (fun a i => Q a { s with interpreter := i }) s.interpreter := by
  constructor
  · intro h a i hx
    refine h a _ ?_
    rw [onInterpreter, hx]
  · intro h a s' hx
    rw [onInterpreter] at hx
    cases hxi : x s.interpreter with
    | none =>
        rw [hxi] at hx
        cases hx
    | some r =>
        rw [hxi] at hx
        cases hx
        exact h _ _ hxi

/-- Whatever is registered or appended, it is a Semaphore. -/
def Safe (m : ObjectMemory) (x : VM α) : Prop :=
  ∀ s, Registered m s → Wlp x (fun _ => Registered m) s

namespace Safe

variable {β : Type} {x y : VM α}

theorem pure (a : α) : Safe m (pure a) := fun _ h => (wlp_pure _ _ _).mpr h

theorem bind {f : α → VM β} (hx : Safe m x) (hf : ∀ a, Safe m (f a)) : Safe m (x >>= f) :=
  fun s h => (wlp_bind _ _ _ _).mpr ((hx s h).mono fun a s' h' => hf a s' h')

theorem ite {c : Prop} [Decidable c] (hx : Safe m x) (hy : Safe m y) :
    Safe m (if c then x else y) := by
  split
  · exact hx
  · exact hy

theorem get : Safe m (get : VM VirtualMachine) := fun _ h => (wlp_get _ _).mpr h

theorem check (c : Prop) [Decidable c] : Safe m (check c) :=
  fun _ h => (wlp_check _ _ _).mpr fun _ => h

theorem update {f : VirtualMachine → VirtualMachine}
    (hf : ∀ s, Registered m s → Registered m (f s)) : Safe m (modify f) :=
  fun s h => (wlp_modify _ _ _).mpr (hf s h)

theorem onInterpreter (x : IM α) : Safe m (onInterpreter x) :=
  fun _ h => wlp_onInterpreter.mpr fun _ _ _ => ⟨h.pending, h.input, h.scheduled, h.lowSpace⟩

theorem asynchronousSignal (hp : Signallable m p) : Safe m (asynchronousSignal p) := by
  intro s h
  rw [Crosstalk.asynchronousSignal, wlp_bind, wlp_modify, wlp_bind, wlp_get, wlp_bind, wlp_check]
  intro hlt
  rw [wlp_modify]
  refine ⟨?_, h.input, h.scheduled, h.lowSpace⟩
  rintro q ⟨i, hi, rfl⟩
  dsimp only at hi ⊢
  split
  · exact hp
  · next hne => exact h.pending _ ⟨i, by omega, rfl⟩

theorem getMsclock : Safe m getMsclock :=
  fun _ h => (wlp_bind _ _ _ _).mpr ((wlp_get _ _).mpr ((wlp_bind _ _ _ _).mpr
    ((wlp_set _ _ _).mpr ((wlp_pure _ _ _).mpr ⟨h.pending, h.input, h.scheduled, h.lowSpace⟩))))

theorem getSmalltalkEpochTime : Safe m getSmalltalkEpochTime :=
  fun _ h => (wlp_bind _ _ _ _).mpr ((wlp_get _ _).mpr ((wlp_bind _ _ _ _).mpr
    ((wlp_set _ _ _).mpr ((wlp_pure _ _ _).mpr ⟨h.pending, h.input, h.scheduled, h.lowSpace⟩))))

theorem checkScheduledSemaphore : Safe m checkScheduledSemaphore := by
  intro s h
  rw [Crosstalk.checkScheduledSemaphore, wlp_bind, wlp_get, wlp_ite]
  refine ⟨fun hne => ?_, fun _ => (wlp_pure _ _ _).mpr h⟩
  refine bind getMsclock (fun now => ite ?_ (pure ())) s h
  refine bind (asynchronousSignal (h.scheduled hne)) fun _ => update fun t ht => ?_
  exact ⟨ht.pending, ht.input, fun h0 => absurd rfl h0, ht.lowSpace⟩

theorem signalAt {time : Nat} (hp : p ≠ 0 → Signallable m p) : Safe m (signalAt p time) :=
  bind (update fun _ h => ⟨h.pending, h.input, hp, h.lowSpace⟩)
    fun _ => ite checkScheduledSemaphore (pure ())

/-! ### Events -/

theorem queueWord {word : Nat} : Safe m (queueWord word) := by
  intro s h
  rw [Crosstalk.queueWord, wlp_bind, wlp_get, wlp_bind, wlp_check]
  intro hne
  rw [wlp_bind, wlp_modify, wlp_bind, wlp_get]
  exact asynchronousSignal (h.input hne) _ ⟨h.pending, h.input, h.scheduled, h.lowSpace⟩

theorem queueInputWord {type parameter : Nat} : Safe m (queueInputWord type parameter) := queueWord

theorem queueInputTimeWords : Safe m queueInputTimeWords := by
  have hlast : ∀ now, Safe m (modify fun s => { s with lastEventTime := now }) := fun now =>
    update fun _ h => ⟨h.pending, h.input, h.scheduled, h.lowSpace⟩
  refine bind getMsclock fun now => bind get fun s => bind
    (update fun _ h => ⟨h.pending, h.input, h.scheduled, h.lowSpace⟩) fun _ => ?_
  refine ite (bind queueInputWord fun _ => hlast now) ?_
  exact bind getSmalltalkEpochTime fun _ => bind queueInputWord fun _ => bind queueWord fun _ =>
    bind queueWord fun _ => hlast now

theorem queueModifier {ctrlState mask type key : Nat} :
    Safe m (queueModifier ctrlState mask type key) := ite queueInputWord (pure ())

theorem handleCookedKeyboardKey {keySeq : UInt8 × UInt8} :
    Safe m (handleCookedKeyboardKey keySeq) := by
  rw [Crosstalk.handleCookedKeyboardKey]
  exact ite (pure ()) (bind queueInputTimeWords fun _ => bind queueModifier fun _ =>
    bind queueModifier fun _ => bind queueInputWord fun _ => bind queueInputWord fun _ =>
      bind queueModifier fun _ => queueModifier)

theorem handleMouseButtonEvent {buttons down : Nat} :
    Safe m (handleMouseButtonEvent buttons down) := by
  rw [Crosstalk.handleMouseButtonEvent]
  split
  · exact pure ()
  · exact bind queueInputTimeWords fun _ => queueInputWord

theorem handleMouseMovementEvent {x y : Int} : Safe m (handleMouseMovementEvent x y) :=
  bind queueInputTimeWords fun _ => bind queueInputWord fun _ => bind queueInputTimeWords fun _ =>
    queueInputWord

theorem handleMouseButtons {mouseMb : Nat} : Safe m (handleMouseButtons mouseMb) := by
  refine bind get fun s => ite ?_ (pure ())
  split
  · exact check False
  · exact bind (update fun _ h => ⟨h.pending, h.input, h.scheduled, h.lowSpace⟩)
      fun _ => handleMouseButtonEvent

theorem processEvents {devices : Devices} : Safe m (processEvents devices) := by
  refine bind get fun s => ite (pure ()) ?_
  exact ite (bind handleCookedKeyboardKey fun _ => bind handleMouseButtons fun _ =>
    handleMouseMovementEvent) (bind handleMouseButtons fun _ => handleMouseMovementEvent)

/-! ### Before a bytecode -/

/-- The list gets shorter. -/
theorem signalNext : Safe m signalNext := by
  refine bind get fun s => bind (check _) fun _ => bind (onInterpreter _) fun _ => update fun s h =>
    ⟨?_, h.input, h.scheduled, h.lowSpace⟩
  rintro q ⟨i, hi, rfl⟩
  dsimp only at hi
  exact h.pending _ ⟨i, by omega, rfl⟩

theorem signalLowSpace {memoryWasLow : Bool} {s : VirtualMachine} (h : Registered m s)
    (hne : s.lowSpaceSemaphore ≠ nilPointer) :
    Wlp (signalLowSpace memoryWasLow) (fun _ => Registered m) s := by
  rw [Crosstalk.signalLowSpace, wlp_bind, wlp_get]
  refine ite ?_ (pure ()) s h
  refine bind (update fun _ h => ⟨h.pending, h.input, h.scheduled, h.lowSpace⟩) fun _ => ?_
  exact ite (asynchronousSignal (h.lowSpace hne)) (pure ())

theorem warnAboutLowMemory : Safe m warnAboutLowMemory := by
  have hdone : Safe m (modify fun s => { s with checkLowMemory := false }) :=
    update fun _ h => ⟨h.pending, h.input, h.scheduled, h.lowSpace⟩
  intro s h
  have h' : Registered m { s with memoryIsLow := false } :=
    ⟨h.pending, h.input, h.scheduled, h.lowSpace⟩
  rw [Crosstalk.warnAboutLowMemory, wlp_bind, wlp_get, wlp_bind, wlp_modify, wlp_ite]
  refine ⟨fun hall => ?_, fun _ => hdone _ h'⟩
  rw [wlp_ite]
  refine ⟨fun _ => ?_, fun _ => hdone _ h'⟩
  -- the collection leaves the registers alone
  rw [wlp_bind, wlp_onInterpreter]
  intro _ i _
  rw [wlp_bind]
  have h'' : Registered m { s with interpreter := i, memoryIsLow := false } :=
    ⟨h.pending, h.input, h.scheduled, h.lowSpace⟩
  exact (signalLowSpace h'' hall.1).mono fun _ s' hs' => hdone s' hs'

theorem lowMemoryCheck : Safe m lowMemoryCheck :=
  bind get fun _ => ite warnAboutLowMemory (pure ())

theorem checkLowMemoryConditions : Safe m checkLowMemoryConditions :=
  update fun _ h => ⟨h.pending, h.input, h.scheduled, h.lowSpace⟩

theorem interpret {i : Interpreter} : Safe m (perform (.interpret i)) :=
  update fun _ h => ⟨h.pending, h.input, h.scheduled, h.lowSpace⟩

end Safe

end Rules

/-! ## The primitives -/

/-- The program only reads the memory. -/
def LeavesMemory {α : Type} (x : OM α) : Prop := ∀ m, Wlp x (fun _ m' => m' = m) m

namespace LeavesMemory

variable {α β : Type} {x y : OM α} {p i : Nat}

theorem pure (a : α) : LeavesMemory (pure a) := fun _ => (wlp_pure _ _ _).mpr rfl

theorem bind {f : α → OM β} (hx : LeavesMemory x) (hf : ∀ a, LeavesMemory (f a)) :
    LeavesMemory (x >>= f) := fun m => by
  rw [wlp_bind]
  refine (hx m).mono fun a m' hm => ?_
  subst hm
  exact hf a m'

theorem ite {c : Prop} [Decidable c] (hx : LeavesMemory x) (hy : LeavesMemory y) :
    LeavesMemory (if c then x else y) := by
  split
  · exact hx
  · exact hy

theorem heapChunkOfWord : LeavesMemory (heapChunkOfWord p i) :=
  fun _ => wlp_heapChunkOfWord.mpr fun _ _ => rfl

theorem fetchClassOf : LeavesMemory (fetchClassOf p) := ite (pure _) heapChunkOfWord

theorem check {c : Prop} [Decidable c] : LeavesMemory (check c) := fun _ =>
  (wlp_check _ _ _).mpr fun _ => rfl

theorem segmentWordByte {s w b : Nat} : LeavesMemory (segmentWordByte s w b) :=
  bind check fun _ => bind check fun _ => bind check fun _ =>
    bind (fun _ => (wlp_get _ _).mpr rfl) fun _ => pure _

theorem fetchByteOfObject : LeavesMemory (fetchByteOfObject i p) :=
  bind (fun _ => wlp_segmentBitsOf.mpr fun _ => rfl) fun _ =>
    bind (fun _ => wlp_locationBitsOf.mpr fun _ => rfl) fun _ => segmentWordByte

theorem shiftedByte {bytes : Int} : LeavesMemory (shiftedByte p bytes i) :=
  ite (bind fetchByteOfObject fun _ => pure _) (pure _)

theorem fetchByteLengthOf : LeavesMemory (fetchByteLengthOf p) := by
  refine bind (bind heapChunkOfWord fun _ => pure _) fun _ =>
    bind (fun _ => wlp_oddBitOf.mpr fun _ => rfl) fun _ => pure _

end LeavesMemory

/-- The program leaves the memory and the stack as they are. -/
structure KeepsStack (i i' : Interpreter) : Prop where
  memory : i'.memory = i.memory
  activeContext : i'.activeContext = i.activeContext
  stackPointer : i'.stackPointer = i.stackPointer

section Primitives

variable {m : ObjectMemory} {s : VirtualMachine} {i j : Interpreter} {p : Nat}

theorem KeepsStack.stackTop (h : KeepsStack i j) : j.stackTop = i.stackTop := by
  rw [Interpreter.stackTop, h.memory, h.activeContext, h.stackPointer, Interpreter.stackTop]

theorem KeepsStack.trans {k : Interpreter} (h : KeepsStack i j) (h' : KeepsStack j k) :
    KeepsStack i k :=
  ⟨h'.memory.trans h.memory, h'.activeContext.trans h.activeContext,
    h'.stackPointer.trans h.stackPointer⟩

theorem KeepsStack.popped (h : KeepsStack i j) :
    KeepsStack { i with stackPointer := i.stackPointer - 1 }
      { j with stackPointer := j.stackPointer - 1 } :=
  ⟨h.memory, h.activeContext, by rw [h.stackPointer]⟩

theorem LeavesMemory.inMemory {α : Type} {x : OM α} (hx : LeavesMemory x) (i : Interpreter) :
    Wlp (inMemory x) (fun _ j => KeepsStack i j) i :=
  wlp_inMemory.mpr ((hx i.memory).mono fun _ _ hm => ⟨hm, rfl, rfl⟩)

theorem keepsStack_primitiveFail (i : Interpreter) :
    Wlp primitiveFail (fun _ j => KeepsStack i j) i := by
  rw [primitiveFail, wlp_bind, wlp_modify, wlp_pure]
  exact ⟨rfl, rfl, rfl⟩

theorem keepsStack_positive16BitValueOf (p : Nat) (i : Interpreter) :
    Wlp (positive16BitValueOf p) (fun _ j => KeepsStack i j) i := by
  rw [positive16BitValueOf, wlp_ite]
  refine ⟨fun _ => (wlp_pure _ _ _).mpr ⟨rfl, rfl, rfl⟩, fun _ => ?_⟩
  rw [wlp_bind]
  refine (LeavesMemory.fetchClassOf.inMemory i).mono fun _ j₁ h₁ => ?_
  rw [wlp_ite]
  refine ⟨fun _ => (keepsStack_primitiveFail j₁).mono fun _ _ h => h₁.trans h, fun _ => ?_⟩
  rw [wlp_bind]
  refine (LeavesMemory.fetchByteLengthOf.inMemory j₁).mono fun _ j₂ h₂ => ?_
  rw [wlp_ite]
  refine ⟨fun _ => (keepsStack_primitiveFail j₂).mono fun _ _ h => (h₁.trans h₂).trans h,
    fun _ => ?_⟩
  rw [wlp_bind]
  refine (LeavesMemory.fetchByteOfObject.inMemory j₂).mono fun _ j₃ h₃ => ?_
  rw [wlp_bind]
  refine (LeavesMemory.fetchByteOfObject.inMemory j₃).mono fun _ j₄ h₄ => ?_
  exact (wlp_pure _ _ _).mpr (((h₁.trans h₂).trans h₃).trans h₄)

theorem keepsStack_positive32BitValueOf (p : Nat) (i : Interpreter) :
    Wlp (positive32BitValueOf p) (fun _ j => KeepsStack i j) i := by
  rw [positive32BitValueOf, wlp_ite]
  refine ⟨fun _ => (wlp_pure _ _ _).mpr ⟨rfl, rfl, rfl⟩, fun _ => ?_⟩
  rw [wlp_bind]
  refine (LeavesMemory.fetchClassOf.inMemory i).mono fun _ j₁ h₁ => ?_
  rw [wlp_ite]
  refine ⟨fun _ => ?_, fun _ => ?_⟩
  · rw [wlp_bind]
    exact (keepsStack_primitiveFail j₁).mono fun _ _ h => (wlp_pure _ _ _).mpr (h₁.trans h)
  · have hread : LeavesMemory (do
        let bytes ← fetchByteLengthOf p
        let first ← fetchByteOfObject 0 p
        return first ||| (← shiftedByte p bytes 1) ||| (← shiftedByte p bytes 2) |||
          (← shiftedByte p bytes 3)) :=
      .bind .fetchByteLengthOf fun _ => .bind .fetchByteOfObject fun _ => .bind .shiftedByte fun _ =>
        .bind .shiftedByte fun _ => .bind .shiftedByte fun _ => .pure _
    exact (hread.inMemory j₁).mono fun _ _ h => h₁.trans h

/-- The test of the primitives lets nil pass, and Semaphores. -/
theorem wlp_isNilOrSemaphore : Wlp (isNilOrSemaphore p) (fun ok j => KeepsStack i j ∧
    (ok = true → p = nilPointer ∨ i.memory.classOf p = classSemaphorePointer)) i := by
  rw [isNilOrSemaphore, wlp_ite]
  refine ⟨fun hnil => (wlp_pure _ _ _).mpr ⟨⟨rfl, rfl, rfl⟩, fun _ => .inl hnil⟩, fun _ => ?_⟩
  rw [wlp_bind]
  have hclass : Wlp (inMemory (fetchClassOf p)) (fun c j => KeepsStack i j ∧
      c = i.memory.classOf p) i := by
    rw [wlp_inMemory, fetchClassOf, wlp_ite]
    refine ⟨fun hint => (wlp_pure _ _ _).mpr ⟨⟨rfl, rfl, rfl⟩, ?_⟩, fun hint => ?_⟩
    · rw [ObjectMemory.classOf, if_pos hint]
    · rw [wlp_classBitsOf]
      refine fun _ _ => ⟨⟨rfl, rfl, rfl⟩, ?_⟩
      rw [ObjectMemory.classOf, if_neg hint]
  refine hclass.mono ?_
  rintro c j ⟨hj, hc⟩
  refine (wlp_pure _ _ _).mpr ⟨hj, fun hok => .inr ?_⟩
  rw [← hc]
  exact of_decide_eq_true hok

/-- What the three primitives do with the object that they are to register. -/
theorem Registered.wlp_accept {x y : VM Unit} (h : Registered m s) (hm : s.interpreter.memory = m)
    (hx : p = nilPointer ∨ m.classOf p = classSemaphorePointer → Safe m x) (hy : Safe m y) :
    Wlp (do
      let ok ← onInterpreter (isNilOrSemaphore p)
      onInterpreter (success ok)
      if (← get).interpreter.successFlag then x else y) (fun _ => Registered m) s := by
  rw [wlp_bind, wlp_onInterpreter]
  refine wlp_isNilOrSemaphore.mono fun ok i ⟨_, hok⟩ => ?_
  rw [hm] at hok
  rw [wlp_bind, wlp_onInterpreter, success, wlp_modify, wlp_bind, wlp_get, wlp_ite]
  have h' : ∀ j, Registered m { s with interpreter := j } := fun j =>
    ⟨h.pending, h.input, h.scheduled, h.lowSpace⟩
  refine ⟨fun hflag => hx (hok ?_) _ (h' _), fun _ => hy _ (h' _)⟩
  exact (Bool.and_eq_true_iff.mp hflag).2

theorem signallable (hclass : p = nilPointer ∨ m.classOf p = classSemaphorePointer)
    (hnil : p ≠ nilPointer) (h0 : p ≠ 0) : Signallable m p :=
  ⟨hclass.resolve_left hnil, hnil, h0⟩

/-- The value `n` below the top of the stack. -/
def stackValue (n : Nat) (s : VirtualMachine) : Nat :=
  { s.interpreter with stackPointer := s.interpreter.stackPointer - n }.stackTop

theorem wlp_primitiveInputSemaphore (h : Registered m s) (hm : s.interpreter.memory = m)
    (hnil : stackValue 0 s ≠ nilPointer) (h0 : stackValue 0 s ≠ 0) :
    Wlp primitiveInputSemaphore (fun _ => Registered m) s := by
  have htop : stackValue 0 s = s.interpreter.stackTop := by simp [stackValue]
  rw [htop] at hnil h0
  rw [primitiveInputSemaphore, wlp_bind, wlp_onInterpreter]
  refine wlp_popStack ?_
  refine Registered.wlp_accept ⟨h.pending, h.input, h.scheduled, h.lowSpace⟩ hm (fun hclass => ?_)
    (.onInterpreter _)
  have hp := signallable hclass hnil h0
  exact .update fun _ h => ⟨h.pending, fun _ => hp, h.scheduled, h.lowSpace⟩

theorem wlp_primitiveSignalAtTick (h : Registered m s) (hm : s.interpreter.memory = m)
    (h0 : stackValue 1 s ≠ 0) : Wlp primitiveSignalAtTick (fun _ => Registered m) s := by
  have htop : stackValue 1 s =
      { s.interpreter with stackPointer := s.interpreter.stackPointer - 1 }.stackTop := rfl
  rw [htop] at h0
  rw [primitiveSignalAtTick, wlp_bind, wlp_onInterpreter]
  refine wlp_popStack ?_
  rw [wlp_bind, wlp_onInterpreter]
  refine wlp_popStack ?_
  refine Registered.wlp_accept ⟨h.pending, h.input, h.scheduled, h.lowSpace⟩ hm (fun hclass => ?_)
    (.onInterpreter _)
  refine .bind (.onInterpreter _) fun time => .signalAt fun hne => ?_
  split at hne
  · exact absurd rfl hne
  · next hnil =>
      rw [if_neg hnil]
      exact signallable hclass hnil h0

theorem wlp_primitiveSignalAtOopsLeftWordsLeft (h : Registered m s) (hm : s.interpreter.memory = m)
    (h0 : stackValue 2 s ≠ 0) :
    Wlp primitiveSignalAtOopsLeftWordsLeft (fun _ => Registered m) s := by
  rw [primitiveSignalAtOopsLeftWordsLeft, wlp_bind, wlp_onInterpreter, wlp_bind]
  refine wlp_popStack ?_
  refine (keepsStack_positive32BitValueOf _ _).mono fun numWords j₁ h₁ => ?_
  rw [wlp_bind, wlp_onInterpreter, wlp_bind]
  refine wlp_popStack ?_
  refine (keepsStack_positive16BitValueOf _ _).mono fun numOops j₂ h₂ => ?_
  have hkeeps := h₁.popped.trans h₂
  have htop : j₂.stackTop = stackValue 2 s := by
    rw [hkeeps.stackTop, stackValue, Int.sub_sub]
    rfl
  rw [← htop] at h0
  rw [wlp_bind, wlp_onInterpreter]
  refine wlp_popStack ?_
  refine Registered.wlp_accept ⟨h.pending, h.input, h.scheduled, h.lowSpace⟩
    (hkeeps.memory.trans hm) (fun hclass => ?_) (.onInterpreter _)
  refine .update fun _ h => ⟨h.pending, h.input, h.scheduled, fun hnil => ?_⟩
  exact signallable hclass hnil h0

end Primitives

/-! ## Runs -/

/-- `p` is registered or waits to be signalled. -/
def Held (s : VirtualMachine) (p : Nat) : Prop :=
  Pending s p ∨ p = s.inputSemaphore ∨ p = s.scheduledSemaphore ∨ p = s.lowSpaceSemaphore

/-- The action does not register nil for input, and the Semaphores that the
machine holds, without a reference of its own, are not lost. -/
structure Careful (a : Action) (s s' : VirtualMachine) : Prop where
  argument : match a with
    | .inputSemaphore => stackValue 0 s ≠ nilPointer ∧ stackValue 0 s ≠ 0
    | .signalAtTick => stackValue 1 s ≠ 0
    | .signalAtOopsLeftWordsLeft => stackValue 2 s ≠ 0
    | _ => True
  lasting : ∀ p, Held s' p → s.interpreter.memory.classOf p = classSemaphorePointer →
    s'.interpreter.memory.classOf p = classSemaphorePointer

variable {s s' : VirtualMachine} {m m' : ObjectMemory}

theorem Registered.lasting (h : Registered m s)
    (hl : ∀ p, Held s p → m.classOf p = classSemaphorePointer →
      m'.classOf p = classSemaphorePointer) : Registered m' s := by
  have hkeep : ∀ p, Held s p → Signallable m p → Signallable m' p := fun p hp hs =>
    ⟨hl p hp hs.isSemaphore, hs.ne_nil, hs.ne_zero⟩
  exact ⟨fun p hp => hkeep p (.inl hp) (h.pending p hp),
    fun hne => hkeep _ (.inr (.inl rfl)) (h.input hne),
    fun hne => hkeep _ (.inr (.inr (.inl rfl))) (h.scheduled hne),
    fun hne => hkeep _ (.inr (.inr (.inr rfl))) (h.lowSpace hne)⟩

/-- One action. -/
theorem Registered.step {a : Action} (h : Registered s.interpreter.memory s)
    (hrun : perform a s = some ((), s')) (hc : Careful a s s') :
    Registered s'.interpreter.memory s' := by
  refine Registered.lasting (m := s.interpreter.memory) ?_ hc.lasting
  have harg := hc.argument
  cases a with
  | inputSemaphore => exact wlp_primitiveInputSemaphore h rfl harg.1 harg.2 _ _ hrun
  | signalAtTick => exact wlp_primitiveSignalAtTick h rfl harg _ _ hrun
  | signalAtOopsLeftWordsLeft => exact wlp_primitiveSignalAtOopsLeftWordsLeft h rfl harg _ _ hrun
  | processEvents devices => exact Safe.processEvents s h _ _ hrun
  | checkScheduledSemaphore => exact Safe.checkScheduledSemaphore s h _ _ hrun
  | checkLowMemoryConditions => exact Safe.checkLowMemoryConditions s h _ _ hrun
  | lowMemoryCheck => exact Safe.lowMemoryCheck s h _ _ hrun
  | signalNext => exact Safe.signalNext s h _ _ hrun
  | interpret i => exact Safe.interpret s h _ _ hrun

theorem Started.registered (h : Started s) : Registered m s := by
  refine ⟨?_, fun hne => absurd h.inputSemaphore hne, fun hne => absurd h.scheduledSemaphore hne,
    fun hne => absurd h.lowSpaceSemaphore hne⟩
  rintro p ⟨i, hi, -⟩
  rw [h.semaphoreIndex] at hi
  omega

/-- In every run of careful actions, none of which registers nil or loses a Semaphore that the
machine holds, whatever waits to be signalled is a Semaphore. -/
theorem only_semaphores_signalled (h : Started s) (hrun : Reached Careful s s') :
    ∀ p, Pending s' p → Signallable s'.interpreter.memory p := by
  have hall : Registered s'.interpreter.memory s' := by
    induction hrun with
    | refl => exact h.registered
    | tail _ hstep ih =>
        obtain ⟨a, hperform, hcareful⟩ := hstep
        exact ih.step hperform hcareful
  exact hall.pending

/-- The interpreter's own work before a bytecode is a run of these actions, so that
what it signals was waiting. -/
theorem checkProcessSwitch_reached :
    Wlp checkProcessSwitch (fun _ s' => Reached (fun _ _ _ => True) s s') s := by
  rw [checkProcessSwitch, wlp_bind]
  intro _ s₁ hcheck
  have h₁ : Reached (fun _ _ _ => True) s s₁ := .single ⟨.lowMemoryCheck, hcheck, trivial⟩
  rw [wlp_bind]
  refine (wlp_iterate (Q := fun _ => Reached (fun _ _ _ => True) s)
    (fun _ => Reached (fun _ _ _ => True) s) (fun _ t ht => ?_) h₁).mono fun _ s₂ h₂ => ?_
  · rw [signalRound, wlp_bind, wlp_get, wlp_ite]
    refine ⟨fun _ => ?_, fun _ => (wlp_pure _ _ _).mpr ht⟩
    rw [wlp_bind]
    intro _ t' hnext
    exact (wlp_pure _ _ _).mpr (ht.tail ⟨.signalNext, hnext, trivial⟩)
  · rw [wlp_onInterpreter]
    exact fun _ i _ => h₂.tail ⟨.interpret i, rfl, trivial⟩

/-! ## Nil for input -/

/-- Nil, a context with `p` on its stack, and a Semaphore with oop 6. -/
def oneArgument (p : Nat) : ObjectMemory :=
  ((ObjectMemory.blank.place 2 64 0 [2, 14]).place 4 64 2 [3, 22, p]).place 6 64 5 [2, 38]

def beforeEvents (p : Nat) : VirtualMachine where
  interpreter := { beforeTime with host := { beforeTime.host with memory := oneArgument p } }
  semaphoreList := fun _ => 0
  semaphoreIndex := -1
  checkLowMemory := false
  memoryIsLow := false
  lowSpaceSemaphore := nilPointer
  oopsLeftLimit := 0
  wordsLeftLimit := 0
  inputSemaphore := 0
  inputQueue := []
  eventCount := 0
  lastEventTime := 0
  scheduledSemaphore := 0
  scheduledTime := 0
  mouseOldmb := 0
  offX := 0
  offY := 0
  ticks := fun n => n
  epochTime := fun _ => 0
  readings := 0

/-- No key, and no button. -/
def idleDevices : Devices := ⟨(0, 0), 0, 0, 0⟩

theorem started_beforeEvents (p : Nat) : Started (beforeEvents p) := ⟨rfl, rfl, rfl, rfl⟩

/-- The machine with `p` registered for input. -/
def registered (p : Nat) : VirtualMachine :=
  { beforeEvents p with
    inputSemaphore := p
    interpreter := { (beforeEvents p).interpreter with stackPointer := -1 } }

/-- The primitive registers its argument, and the mouse gives four words. -/
theorem run_beforeEvents {p : Nat} (hp : p = 2 ∨ p = 6) :
    perform .inputSemaphore (beforeEvents p) = some ((), registered p) ∧
    ∃ s', perform (.processEvents idleDevices) (registered p) = some ((), s') ∧
      s'.interpreter.memory = oneArgument p ∧ s'.interpreter.successFlag = true ∧
      Pending s' p := by
  have hregister : perform .inputSemaphore (beforeEvents p) = some ((), registered p) := by
    rcases hp with rfl | rfl <;> rfl
  have hevents : (perform (.processEvents idleDevices) (registered p)).map
      (fun r => (r.2.semaphoreList 0, r.2.semaphoreIndex, r.2.interpreter.successFlag)) =
        some (p, 3, true) := by
    rcases hp with rfl | rfl <;> decide
  have hmemory : (perform (.processEvents idleDevices) (registered p)).map
      (fun r => r.2.interpreter.memory) = some (oneArgument p) := by
    rcases hp with rfl | rfl <;> rfl
  obtain ⟨⟨_, s'⟩, hrun, hvalues⟩ := Option.map_eq_some_iff.mp hevents
  obtain ⟨hlist, hindex, hflag⟩ := Prod.mk.inj hvalues |>.imp_right Prod.mk.inj
  rw [hrun] at hmemory
  exact ⟨hregister, s', hrun, Option.some.inj hmemory, hflag, 0, by
    dsimp only at hindex
    omega, hlist⟩

/-- A Semaphore that is registered is signalled for the words of an event. -/
theorem only_semaphores_signalled_beforeEvents : ∃ s', Reached Careful (beforeEvents 6) s' ∧
    Pending s' 6 ∧ ∀ p, Pending s' p → Signallable s'.interpreter.memory p := by
  obtain ⟨hregister, s', hrun, hmemory, -, hpending⟩ := run_beforeEvents (.inr rfl)
  have hreached : Reached Careful (beforeEvents 6) s' :=
    (Relation.ReflTransGen.single ⟨.inputSemaphore, hregister, ⟨by decide, by decide⟩,
      fun _ _ h => h⟩).tail ⟨.processEvents idleDevices, hrun, trivial, fun _ _ h => hmemory ▸ h⟩
  exact ⟨s', hreached, hpending,
    only_semaphores_signalled (started_beforeEvents 6) hreached⟩

/-- Nil stops no input: it is signalled as if it were a Semaphore. -/
theorem nil_signalled : ¬∀ s s', Started s →
    Reached (fun _ _ t => t.interpreter.successFlag = true) s s' →
      ∀ p, Pending s' p → Signallable s'.interpreter.memory p := by
  intro hall
  obtain ⟨hregister, s', hrun, -, hflag, hpending⟩ := run_beforeEvents (.inl rfl)
  have hreached : Reached (fun _ _ t => t.interpreter.successFlag = true) (beforeEvents 2) s' :=
    (Relation.ReflTransGen.single ⟨.inputSemaphore, hregister, rfl⟩).tail
      ⟨.processEvents idleDevices, hrun, hflag⟩
  exact (hall _ s' (started_beforeEvents 2) hreached nilPointer hpending).ne_nil rfl

end Crosstalk
