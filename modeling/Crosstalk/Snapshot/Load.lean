import Crosstalk.Snapshot.Host
import Crosstalk.ObjectMemory.Interface

/-!
# Loading a snapshot

`loadObjectTable`, `loadObjects` and `loadSnapshot`, in the three boot modes: 0
loads from the image in memory, 1 from a file, 2 from a file that is first read
into the array.
-/

namespace Crosstalk

abbrev objectSpaceBaseInImage : Nat := 512

/-- The words of a heap segment that hold objects. -/
abbrev segmentHeapSpaceSize : Int := heapSpaceStop + 1

/-! ## Objects and free entries -/

def hasObject (objectPointer : Nat) : OM Bool := do
  cantBeIntegerObject objectPointer
  if (← freeBitOf objectPointer) = 0 then
    return (← countBitsOf objectPointer) ≠ 0
  else
    return false

/-- The loop `for (p = 2; p < ObjectTableSize; p += 2)` over the oops. -/
def auditRound (count : Nat) (objectPointer : Nat) : OM Nat := do
  if ← hasObject objectPointer then
    return count
  else
    return count + 1

def auditFrom : Nat → Nat → OM Nat
  | 0, count => pure count
  | n + 1, count => do
      let count ← auditRound count (objectTableSize - 2 * (n + 1))
      auditFrom n count

def auditFreeOops : OM Nat := auditFrom (objectTableSize / 2 - 1) 0

def obtainPointerLocation (size location : Nat) : OM Nat := do
  checkCurrentSegment
  let segment := (← get).currentSegment.toNat
  let objectPointer ← removeFromFreePointerList
  if objectPointer = nilPointer then
    return nilPointer
  else
    otPut objectPointer 0
    segmentBitsOfPut objectPointer segment
    locationBitsOfPut objectPointer location
    sizeBitsOfPut objectPointer size
    return objectPointer

/-! ## The object table -/

/-- The length of the object table and the size of the image, or that the image
cannot be read. -/
def imageLengths (bootmode : Nat) : HM (Option (Int × Int)) := do
  match bootmode with
  | 0 => do
      let length ← copyImage 4 4
      return some (int32At length 0, (← get).filesSnapshotImLen)
  | 1 => do
      if (← onFile (·.seekTo 4)) = -1 then
        return none
      else
        let length ← onFile (·.read 4)
        if length.length ≠ 4 then
          return none
        else
          return some (int32At length 0, (← get).file.fileSize)
  | 2 => do
      let fileSize := (← get).file.fileSize
      modify fun h => { h with filesSnapshotImLen := fileSize }
      let length ← copyImage 4 4
      return some (int32At length 0, fileSize)
  | _ => return none

/-- Go to a byte of the image. -/
def seekImage (bootmode : Nat) (position : Int) : HM Bool := do
  if bootmode = 1 then
    return (← onFile (·.seekTo position)) ≠ -1
  else
    modify fun h => { h with offset := position }
    return true

/-- The next bytes of the image, of which a file may have fewer. -/
def nextBytes (bootmode n : Nat) : HM (List UInt8) := do
  if bootmode = 1 then
    onFile (·.read n)
  else
    let bytes ← copyImage (← get).offset n
    modify fun h => { h with offset := h.offset + n }
    return bytes

def loadEntry (bootmode objectPointer : Nat) : HM (Option Unit) := do
  let words ← nextBytes bootmode 4
  if words.length ≠ 4 then
    return none
  else
    onMemory (otPut objectPointer (wordAt words 0))
    onMemory (locationBitsOfPut objectPointer (wordAt words 2))
    return some ()

def initializeFreeEntry (objectPointer : Int) : OM Unit := do
  check (0 ≤ objectPointer)
  otPut objectPointer.toNat 0
  freeBitOfPut objectPointer.toNat 1
  locationBitsOfPut objectPointer.toNat 0

def addIfFree (objectPointer : Nat) : OM Unit := do
  if (← freeBitOf objectPointer) ≠ 0 then
    toFreePointerListAdd objectPointer

/-- The entries past the table are free; the list of free entries is built from
the last one down, so that lower entries come first, and skips oop 0. -/
def buildFreeEntries (objectTableLength : Int) : OM Unit := do
  headOfFreePointerListPut nonPointer
  forN (((objectTableSize : Int) - objectTableLength + 1) / 2).toNat fun i =>
    initializeFreeEntry (objectTableLength + 2 * i)
  forN (objectTableSize / 2 - 1) fun i => addIfFree (objectTableSize - 2 * (i + 1))
  let freeOops ← auditFreeOops
  modify fun m => { m with freeOops := freeOops }

def loadObjectTable (bootmode : Nat) : HM Bool := do
  match ← imageLengths bootmode with
  | none => return false
  | some (objectTableLength, fileSize) =>
      if ← seekImage bootmode (fileSize - objectTableLength * 2) then
        match ← foldN ((objectTableLength + 1) / 2).toNat
            (fun i _ => loadEntry bootmode (2 * i)) () with
        | none => return false
        | some () =>
            onMemory (buildFreeEntries objectTableLength)
            return true
      else
        return false

/-! ## The objects -/

/-- Where the next object goes. -/
structure Destination where
  segment : Nat
  word : Nat
  /-- The words left in each segment. -/
  heapSpaceRemaining : Nat → Int

def Destination.start : Destination := ⟨firstHeapSegment, 0, fun _ => segmentHeapSpaceSize⟩

/-- The destination of an object of `space` words: the current segment or, where
it does not fit, the next. -/
def Destination.advance (d : Destination) (space : Nat) : Destination :=
  if (space : Int) > d.heapSpaceRemaining d.segment then
    { d with segment := d.segment + 1, word := 0 }
  else d

def Destination.take (d : Destination) (space : Nat) : Destination :=
  { d with
    word := d.word + space
    heapSpaceRemaining := fun s =>
      if s = d.segment then d.heapSpaceRemaining s - space else d.heapSpaceRemaining s }

/-- The extra word of huge pointer objects is not in the image. -/
def spaceInMemory (objectSize objectPointer : Nat) : OM Nat := do
  if objectSize < hugeSize ∨ (← pointerBitOf objectPointer) = 0 then
    return objectSize
  else
    return objectSize + 1

/-- One word of the image, as far as it is there. -/
def nextWord (bootmode : Nat) : HM Nat := return wordAt (← nextBytes bootmode 2) 0

def objectImageWordAddress (objectPointer : Nat) : OM Nat := do
  return ((← segmentBitsOf objectPointer) <<< 16) + (← locationBitsOf objectPointer)

def loadField (bootmode objectPointer wordIndex : Nat) : HM Unit := do
  let word ← nextWord bootmode
  onMemory (storeWordOfObjectWithValue wordIndex objectPointer word)

/-- Update the entry, so that it references the object in memory instead of the
image, and copy the object there. -/
def copyObject (bootmode objectPointer objectSize : Nat) (d : Destination) : HM Unit := do
  onMemory (segmentBitsOfPut objectPointer d.segment)
  onMemory (locationBitsOfPut objectPointer d.word)
  onMemory (sizeBitsOfPut objectPointer objectSize)
  let classBits ← nextWord bootmode
  onMemory (classBitsOfPut objectPointer classBits)
  forN (objectSize - headerSize) fun wordIndex => loadField bootmode objectPointer wordIndex

/-- `none` when all segments are full. -/
def loadObject (bootmode objectPointer : Nat) (d : Destination) : HM (Option Destination) := do
  if (← onMemory (freeBitOf objectPointer)) ≠ 0 then
    return some d
  else
    -- a free chunk must not have been saved
    let count ← onMemory (countBitsOf objectPointer)
    check (count ≠ 0)
    let address ← onMemory (objectImageWordAddress objectPointer)
    let _ ← seekImage bootmode (objectSpaceBaseInImage + address * 2)
    let objectSize ← nextWord bootmode
    let space ← onMemory (spaceInMemory objectSize objectPointer)
    let d := d.advance space
    if d.segment = heapSegmentCount then
      return none
    else
      copyObject bootmode objectPointer objectSize d
      return some (d.take space)

def resetFreeChunkLists : OM Unit :=
  forN heapSegmentCount fun segment =>
    forN (bigSize - headerSize + 1) fun i => resetFreeChunkListInSegment (headerSize + i) segment

/-- The rest of a segment becomes a free chunk. -/
def freeRestOfSegment (heapSpaceRemaining : Nat → Int) (segment : Nat) : OM Unit := do
  let freeChunkSize := heapSpaceRemaining segment
  modify fun m => { m with freeWords := m.freeWords + freeChunkSize }
  if freeChunkSize ≥ headerSize then
    let freeChunkLocation := segmentHeapSpaceSize - freeChunkSize
    check (0 ≤ freeChunkLocation)
    modify fun m => { m with currentSegment := segment }
    let objectPointer ← obtainPointerLocation freeChunkSize.toNat freeChunkLocation.toNat
    toFreeChunkListAdd (min freeChunkSize.toNat bigSize) objectPointer

def buildFreeChunks (heapSpaceRemaining : Nat → Int) : OM Unit := do
  resetFreeChunkLists
  modify fun m => { m with freeWords := 0 }
  forN heapSegmentCount fun segment => freeRestOfSegment heapSpaceRemaining segment
  modify fun m => { m with currentSegment := firstHeapSegment }

def loadObjects (bootmode : Nat) : HM Bool := do
  match ← foldN (objectTableSize / 2 - 1)
      (fun i d => loadObject bootmode (2 * (i + 1)) d) .start with
  | none => return false
  | some d =>
      onMemory (buildFreeChunks d.heapSpaceRemaining)
      return true

/-! ## The snapshot -/

/-- The part of `loadSnapshot` that reads the file into the array. -/
def readImageIntoArray : HM Bool := do
  let file := (← get).file
  if file.fileSize > sizeofFilesSnapshotIm then
    return false
  else
    let bytes ← onFile (·.read file.bytes.length)
    modify fun h => { h with
      filesSnapshotIm := fun k => if k < bytes.length then bytes.getD k 0 else h.filesSnapshotIm k }
    return (bytes.length : Int) = file.fileSize

def loadImage (bootmode : Nat) : HM Bool := do
  if ← loadObjectTable bootmode then
    loadObjects bootmode
  else
    return false

/-- Loading from the file that `open_file` has opened. -/
def loadSnapshot (bootmode : Nat) : HM Bool := do
  if bootmode = 1 ∨ bootmode = 2 then
    modify fun h => { h with file.position := 0 }
  if bootmode > 2 then
    return false
  else if bootmode = 2 then
    if ← readImageIntoArray then
      loadImage bootmode
    else
      return false
  else
    loadImage bootmode

end Crosstalk
