import Crosstalk.Lib.Loop
import Crosstalk.RealWordMemory
import Crosstalk.Oops

/-!
# The object memory and its object table entries

The state of `ObjectMemory`, the constants of its layout, and the accessors of
an object table entry and of the heap chunk it describes (the sections
*ObjectTableEnt* and *ObjectPointers* of the source). An assertion, a
`RUNTIME_CHECK` and `hal->error` all halt the machine: they are `check`.
-/

namespace Crosstalk

/-! ## Constants of the layout -/

abbrev objectTableSegment : Nat := segmentCount - 1
abbrev objectTableStart : Nat := 0
abbrev objectTableSize : Nat := segmentSize - 2
abbrev hugeSize : Nat := 256

/-- The location of the head of the list of free object table entries. -/
abbrev freePointerList : Nat := objectTableStart + objectTableSize

/-- The smallest size of chunk not stored on a list of chunks of one size. -/
abbrev bigSize : Nat := 20
abbrev firstFreeChunkListSize : Nat := bigSize + 1
abbrev heapSegmentCount : Nat := segmentCount - 1
abbrev firstHeapSegment : Nat := 0
abbrev lastHeapSegment : Nat := firstHeapSegment + heapSegmentCount - 1

/-- The last word of a heap segment that holds objects. -/
abbrev heapSpaceStop : Nat := segmentSize - firstFreeChunkListSize - 1
abbrev headerSize : Nat := 2

/-- The location of the heads of the lists of free chunks. -/
abbrev firstFreeChunkList : Nat := heapSpaceStop + 1

/-- A word that is no object table index: the end of the free lists. -/
abbrev nonPointer : Nat := 65535
abbrev lastSpecialOop : Nat := 52

/-! ## The state -/

structure ObjectMemory where
  wordMemory : RealWordMemory
  /-- The heap segment used for allocation; -1 before a snapshot is loaded. -/
  currentSegment : Int
  freeWords : Int
  freeOops : Int

/-- A program on the object memory; `none` is a halted machine. -/
abbrev OM := StateT ObjectMemory Option

namespace ObjectMemory

/-- The word `w` of segment `s`. -/
def word (m : ObjectMemory) (s w : Nat) : Nat := m.wordMemory.memory s w

def setWord (m : ObjectMemory) (s w value : Nat) : ObjectMemory :=
  { m with wordMemory := m.wordMemory.put s w value }

theorem word_lt (m : ObjectMemory) (s w : Nat) : m.word s w < 65536 :=
  m.wordMemory.memory_lt s w

theorem word_setWord (m : ObjectMemory) (s w value s' w' : Nat) :
    (m.setWord s w value).word s' w' =
      if s' = s ∧ w' = w then value % 65536 else m.word s' w' := rfl

@[simp] theorem setWord_currentSegment (m : ObjectMemory) (s w value : Nat) :
    (m.setWord s w value).currentSegment = m.currentSegment := rfl

@[simp] theorem setWord_freeWords (m : ObjectMemory) (s w value : Nat) :
    (m.setWord s w value).freeWords = m.freeWords := rfl

@[simp] theorem setWord_freeOops (m : ObjectMemory) (s w value : Nat) :
    (m.setWord s w value).freeOops = m.freeOops := rfl

/-- Storing the word that is there changes nothing. -/
theorem setWord_word (m : ObjectMemory) (s w : Nat) : m.setWord s w (m.word s w) = m := by
  have h : m.wordMemory.put s w (m.word s w) = m.wordMemory := by
    refine RealWordMemory.ext fun s' w' => ?_
    rw [RealWordMemory.memory_put]
    split
    · next h => rw [Nat.mod_eq_of_lt (m.word_lt s w), h.1, h.2]; rfl
    · rfl
  rw [setWord, h]

end ObjectMemory

/-! ## Words, bytes and bit fields of a segment -/

/-- The methods of `RealWordMemory`, on the memory of the object memory. The
bits of a word are numbered from the most significant one, 0, to 15. -/
def segmentWord (s w : Nat) : OM Nat := do
  check (s < segmentCount)
  check (w < segmentSize)
  return (← get).word s w

def segmentWordPut (s w value : Nat) : OM Unit := do
  check (s < segmentCount)
  check (w < segmentSize)
  check (value < 65536)
  modify (·.setWord s w value)

/-- Byte 0 is the byte that comes first in memory: the low one, on the little
endian machine the program runs on. -/
def segmentWordByte (s w byteNumber : Nat) : OM Nat := do
  check (s < segmentCount)
  check (w < segmentSize)
  check (byteNumber = 1 ∨ byteNumber = 0)
  return field ((← get).word s w) (8 * byteNumber) 8

def segmentWordBytePut (s w byteNumber value : Nat) : OM Unit := do
  check (s < segmentCount)
  check (w < segmentSize)
  check (value < 65536)
  check (byteNumber = 1 ∨ byteNumber = 0)
  modify fun m => m.setWord s w (putField (m.word s w) (8 * byteNumber) 8 (value % 256))

def segmentWordBitsTo (s w firstBitIndex lastBitIndex : Nat) : OM Nat := do
  check (s < segmentCount)
  check (w < segmentSize)
  return field ((← get).word s w) (15 - lastBitIndex) (lastBitIndex - firstBitIndex + 1)

def segmentWordBitsToPut (s w firstBitIndex lastBitIndex value : Nat) : OM Unit := do
  check (s < segmentCount)
  check (w < segmentSize)
  check (value < 65536)
  check (value &&& fieldMask (lastBitIndex - firstBitIndex + 1) = value)
  modify fun m => m.setWord s w
    (putField (m.word s w) (15 - lastBitIndex) (lastBitIndex - firstBitIndex + 1) value)

/-! ## Object pointers -/

abbrev isIntegerObject (objectPointer : Nat) : Prop := objectPointer % 2 = 1

def cantBeIntegerObject (objectPointer : Nat) : OM Unit :=
  check (¬isIntegerObject objectPointer)

/-! ## Object table entries -/

def ot (objectPointer : Nat) : OM Nat := do
  cantBeIntegerObject objectPointer
  segmentWord objectTableSegment (objectTableStart + objectPointer)

def otPut (objectPointer value : Nat) : OM Unit := do
  cantBeIntegerObject objectPointer
  segmentWordPut objectTableSegment (objectTableStart + objectPointer) value

def otBitsTo (objectPointer firstBitIndex lastBitIndex : Nat) : OM Nat := do
  cantBeIntegerObject objectPointer
  segmentWordBitsTo objectTableSegment (objectTableStart + objectPointer)
    firstBitIndex lastBitIndex

def otBitsToPut (objectPointer firstBitIndex lastBitIndex value : Nat) : OM Unit := do
  cantBeIntegerObject objectPointer
  segmentWordBitsToPut objectTableSegment (objectTableStart + objectPointer)
    firstBitIndex lastBitIndex value

def countBitsOf (objectPointer : Nat) : OM Nat := otBitsTo objectPointer 0 7
def countBitsOfPut (objectPointer value : Nat) : OM Unit := otBitsToPut objectPointer 0 7 value
def oddBitOf (objectPointer : Nat) : OM Nat := otBitsTo objectPointer 8 8
def oddBitOfPut (objectPointer value : Nat) : OM Unit := otBitsToPut objectPointer 8 8 value
def pointerBitOf (objectPointer : Nat) : OM Nat := otBitsTo objectPointer 9 9
def pointerBitOfPut (objectPointer value : Nat) : OM Unit := otBitsToPut objectPointer 9 9 value
def freeBitOf (objectPointer : Nat) : OM Nat := otBitsTo objectPointer 10 10
def freeBitOfPut (objectPointer value : Nat) : OM Unit := otBitsToPut objectPointer 10 10 value
def segmentBitsOf (objectPointer : Nat) : OM Nat := otBitsTo objectPointer 12 15
def segmentBitsOfPut (objectPointer value : Nat) : OM Unit :=
  otBitsToPut objectPointer 12 15 value

def locationBitsOf (objectPointer : Nat) : OM Nat := do
  cantBeIntegerObject objectPointer
  segmentWord objectTableSegment (objectTableStart + objectPointer + 1)

def locationBitsOfPut (objectPointer value : Nat) : OM Unit := do
  cantBeIntegerObject objectPointer
  segmentWordPut objectTableSegment (objectTableStart + objectPointer + 1) value

/-! ## Heap chunks -/

def heapChunkOfWord (objectPointer offset : Nat) : OM Nat := do
  segmentWord (← segmentBitsOf objectPointer) ((← locationBitsOf objectPointer) + offset)

def heapChunkOfWordPut (objectPointer offset value : Nat) : OM Unit := do
  segmentWordPut (← segmentBitsOf objectPointer) ((← locationBitsOf objectPointer) + offset) value

def heapChunkOfByte (objectPointer offset : Nat) : OM Nat := do
  segmentWordByte (← segmentBitsOf objectPointer)
    ((← locationBitsOf objectPointer) + offset / 2) (offset % 2)

def heapChunkOfBytePut (objectPointer offset value : Nat) : OM Unit := do
  segmentWordBytePut (← segmentBitsOf objectPointer)
    ((← locationBitsOf objectPointer) + offset / 2) (offset % 2) value

def sizeBitsOf (objectPointer : Nat) : OM Nat := heapChunkOfWord objectPointer 0
def sizeBitsOfPut (objectPointer value : Nat) : OM Unit := heapChunkOfWordPut objectPointer 0 value
def classBitsOf (objectPointer : Nat) : OM Nat := heapChunkOfWord objectPointer 1
def classBitsOfPut (objectPointer value : Nat) : OM Unit :=
  heapChunkOfWordPut objectPointer 1 value

end Crosstalk
