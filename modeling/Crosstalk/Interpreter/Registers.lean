import Crosstalk.ObjectMemory.Allocation
import Crosstalk.Snapshot.Host

/-!
# The registers of the interpreter

The state of the bytecode interpreter over the object memory, its stack and
contexts, and the garbage collection, which calls the interpreter back for its
roots.
-/

namespace Crosstalk

/-! ## The state -/

structure Interpreter where
  host : Host
  activeContext : Nat
  homeContext : Nat
  method : Nat
  receiver : Nat
  instructionPointer : Int
  stackPointer : Int
  messageSelector : Nat
  argumentCount : Nat
  newMethod : Nat
  primitiveIndex : Nat
  successFlag : Bool
  newProcessWaiting : Bool
  newProcess : Nat
  methodCache : Nat → Nat

abbrev IM := StateT Interpreter Option

/-- A program on the host of the interpreter. -/
def onHost {α : Type} (x : HM α) : IM α := fun s =>
  match x s.host with
  | none => none
  | some (a, h) => some (a, { s with host := h })

/-- A program on the object memory of the interpreter. -/
def inMemory {α : Type} (x : OM α) : IM α := onHost (onMemory x)

def Interpreter.memory (s : Interpreter) : ObjectMemory := s.host.memory

/-! ## Field indices -/

abbrev instructionPointerIndex : Nat := 1
abbrev stackPointerIndex : Nat := 2
abbrev methodIndex : Nat := 3
abbrev receiverIndex : Nat := 5
abbrev homeIndex : Nat := 5
abbrev tempFrameStart : Nat := 6
abbrev valueIndex : Nat := 1
abbrev activeProcessIndex : Nat := 1
abbrev suspendedContextIndex : Nat := 1

/-- The bits of a word, counted from the left. -/
def extractBitsToOf (firstBitIndex lastBitIndex anInteger : Nat) : Nat :=
  (anInteger >>> (15 - lastBitIndex)) &&& (2 ^ (lastBitIndex - firstBitIndex + 1) - 1)

/-! ## Success and integers -/

/-- The result is no oop. -/
def primitiveFail : IM Int := do
  modify fun s => { s with successFlag := false }
  return 0

def success (successValue : Bool) : IM Unit :=
  modify fun s => { s with successFlag := s.successFlag && successValue }

def fetchIntegerOfObject (fieldIndex : Int) (objectPointer : Nat) : IM Int := do
  let integerPointer ← inMemory (fetchPointerOfObject fieldIndex objectPointer)
  if isIntegerObject integerPointer then
    return integerValueOf integerPointer
  else
    primitiveFail

def storeIntegerOfObjectWithValue (fieldIndex : Int) (objectPointer : Nat) (integerValue : Int) :
    IM Unit := do
  if isIntegerValue integerValue then
    inMemory (storePointerOfObjectWithValue fieldIndex objectPointer (integerObjectOf integerValue))
  else
    let _ ← primitiveFail

/-! ## The stack -/

def push (object : Nat) : IM Unit := do
  modify fun s => { s with stackPointer := s.stackPointer + 1 }
  let s ← get
  inMemory (storePointerOfObjectWithValue s.stackPointer s.activeContext object)

def pop (number : Nat) : IM Unit :=
  modify fun s => { s with stackPointer := s.stackPointer - number }

def unPop (number : Nat) : IM Unit :=
  modify fun s => { s with stackPointer := s.stackPointer + number }

def stackTop : IM Nat := do
  let s ← get
  inMemory (fetchPointerOfObject s.stackPointer s.activeContext)

def popStack : IM Nat := do
  let s ← get
  let stackTop ← inMemory (fetchPointerOfObject s.stackPointer s.activeContext)
  pop 1
  return stackTop

/-! ## Contexts -/

def isBlockContext (contextPointer : Nat) : IM Bool := do
  return decide (isIntegerObject (← inMemory (fetchPointerOfObject methodIndex contextPointer)))

def storeContextRegisters : IM Unit := do
  let s ← get
  storeIntegerOfObjectWithValue instructionPointerIndex s.activeContext (s.instructionPointer + 1)
  storeIntegerOfObjectWithValue stackPointerIndex s.activeContext
    (s.stackPointer - tempFrameStart + 1)

def fetchHomeContext : IM Nat := do
  let s ← get
  if ← isBlockContext s.activeContext then
    inMemory (fetchPointerOfObject homeIndex s.activeContext)
  else
    return s.activeContext

def fetchContextRegisters : IM Unit := do
  let homeContext ← fetchHomeContext
  modify fun s => { s with homeContext }
  let receiver ← inMemory (fetchPointerOfObject receiverIndex homeContext)
  modify fun s => { s with receiver }
  let method ← inMemory (fetchPointerOfObject methodIndex homeContext)
  modify fun s => { s with method }
  let activeContext := (← get).activeContext
  let instructionPointer ← fetchIntegerOfObject instructionPointerIndex activeContext
  modify fun s => { s with instructionPointer := instructionPointer - 1 }
  let stackPointer ← fetchIntegerOfObject stackPointerIndex activeContext
  modify fun s => { s with stackPointer := stackPointer + tempFrameStart - 1 }

/-! ## Garbage collection -/

def prepareForCollection : IM Unit := do
  storeContextRegisters
  inMemory (addRoot smalltalkPointer)
  let s ← get
  inMemory (addRoot s.activeContext)
  if s.newProcess ≠ nilPointer then
    inMemory (addRoot s.newProcess)

def collectionCompleted : IM Unit := do
  inMemory (increaseReferencesTo (← get).activeContext)
  fetchContextRegisters
  let s ← get
  if s.newProcessWaiting then
    inMemory (increaseReferencesTo s.newProcess)

def markAccessibleObjects : IM Unit := do
  inMemory markSpecialOops
  prepareForCollection

def reclaimInaccessibleObjects : IM Unit := do
  inMemory zeroReferenceCounts
  markAccessibleObjects
  inMemory rectifyCountsAndDeallocateGarbage
  collectionCompleted

def garbageCollect : IM Unit := reclaimInaccessibleObjects

/-! ## Allocation -/

/-- A second attempt, after a collection. -/
def attemptAgain (size objectPointer : Nat) : IM Nat := do
  if objectPointer = nilPointer then
    reclaimInaccessibleObjects
    inMemory (attemptToAllocateChunk size)
  else
    return objectPointer

/-- Out of memory, the machine halts. -/
def allocateChunk (size : Nat) : IM Nat := do
  let objectPointer ← attemptAgain size (← inMemory (attemptToAllocateChunk size))
  check (objectPointer ≠ nilPointer)
  inMemory (modify fun m =>
    if m.freeWords ≥ (size : Int) then { m with freeWords := m.freeWords - size } else m)
  return objectPointer

def allocateOddPointerExtraClass (size oddBit pointerBit extraWord classPointer : Nat) :
    IM Nat := do
  inMemory (countUp classPointer)
  let objectPointer ← allocateChunk (size + extraWord)
  inMemory do
    oddBitOfPut objectPointer oddBit
    pointerBitOfPut objectPointer pointerBit
    classBitsOfPut objectPointer classPointer
    let defaultValue := if pointerBit = 0 then 0 else nilPointer
    forN (size - headerSize) fun i =>
      heapChunkOfWordPut objectPointer (headerSize + i) defaultValue
    sizeBitsOfPut objectPointer size
    modify fun m => { m with freeOops := m.freeOops - 1 }
  return objectPointer

def instantiateClassWithPointers (classPointer length : Nat) : IM Nat :=
  let size := headerSize + length
  let extra := if size < hugeSize then 0 else 1
  allocateOddPointerExtraClass size 0 1 extra classPointer

end Crosstalk
