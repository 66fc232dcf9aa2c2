import Crosstalk.ObjectMemory.Marking
import Crosstalk.Snapshot.Load

/-!
# Counting down, compaction and allocation

The sections *RefCntGarbage*, *Compaction*, *UnallocatedSpc* and the parts of
*MarkingGarbage* that only need the object memory. The collection itself calls
the interpreter back.
-/

namespace Crosstalk

/-! ## Reference counts -/

/-- The predicate decrements the count and tests for zero. -/
def countDownPredicate (objectPointer : Nat) : OM Bool := do
  let count : Int := (← countBitsOf objectPointer : Int) - 1
  check (count ≥ 0)
  if count < 127 then
    countBitsOfPut objectPointer count.toNat
  return count = 0

/-- The action zeroes the count and deallocates the object. -/
def countDownAction (objectPointer : Nat) : OM Unit := do
  countBitsOfPut objectPointer 0
  let space ← spaceOccupiedBy objectPointer
  modify fun m => { m with freeWords := m.freeWords + space, freeOops := m.freeOops + 1 }
  deallocate objectPointer

def countDown (rootObjectPointer : Nat) : OM Nat := do
  if isIntegerObject rootObjectPointer then
    return rootObjectPointer
  else
    check ((← countBitsOf rootObjectPointer) > 0)
    forAllObjectsAccessibleFrom rootObjectPointer countDownPredicate countDownAction

def increaseReferencesTo (objectPointer : Nat) : OM Unit := countUp objectPointer

def storePointerOfObjectWithValue (fieldIndex : Int) (objectPointer valuePointer : Nat) :
    OM Unit := do
  check (0 ≤ fieldIndex ∧ fieldIndex < (← fetchWordLengthOf objectPointer))
  check (valuePointer > 0)
  let chunkIndex := headerSize + fieldIndex.toNat
  countUp valuePointer
  let _ ← countDown (← heapChunkOfWord objectPointer chunkIndex)
  heapChunkOfWordPut objectPointer chunkIndex valuePointer

/-! ## Compaction -/

def releasePointer (objectPointer : Nat) : OM Unit := do
  freeBitOfPut objectPointer 1
  toFreePointerListAdd objectPointer

/-- One free chunk: the class field distinguishes it for the sweep. -/
def abandonRound (c : Nat × Nat) : OM (Nat × Nat ⊕ Nat) := do
  if c.1 = nonPointer then
    return .inr c.2
  else
    let lowWaterMark := min c.2 (← locationBitsOf c.1)
    let nextPointer ← classBitsOf c.1
    classBitsOfPut c.1 nonPointer
    releasePointer c.1
    return .inl (nextPointer, lowWaterMark)

def abandonFrom (segment : Nat) : Nat → Nat → OM Nat
  | 0, lowWaterMark => pure lowWaterMark
  | n + 1, lowWaterMark => do
      let lowWaterMark ← abandonFrom segment n lowWaterMark
      let size := headerSize + n
      let lowWaterMark ← iterate abandonRound (← headOfFreeChunkListInSegment size segment,
        lowWaterMark)
      resetFreeChunkListInSegment size segment
      return lowWaterMark

/-- The lowest location of a free chunk. -/
def abandonFreeChunksInSegment (segment : Nat) : OM Nat :=
  abandonFrom segment (bigSize - headerSize + 1) heapSpaceStop

/-- The object will be swept: reverse the pointer and save the size. -/
def reversePointer (objectPointer lowWaterMark : Nat) : OM Unit := do
  if (← locationBitsOf objectPointer) ≥ lowWaterMark then
    let size ← sizeBitsOf objectPointer
    sizeBitsOfPut objectPointer objectPointer
    locationBitsOfPut objectPointer size

def reverseHeapPointersAbove (lowWaterMark : Nat) : OM Unit := do
  let segment := (← get).currentSegment
  forN (objectTableSize / 2) fun i => do
    if (← freeBitOf (2 * i)) = 0 then
      if (← segmentBitsOf (2 * i) : Int) = segment then
        reversePointer (2 * i) lowWaterMark

/-- Move the chunk at `si`, the size of which was reversed, to `di`. -/
def sweepObject (segment si di : Nat) : OM (Nat × Nat) := do
  let objectPointer ← segmentWord segment si
  let size ← locationBitsOf objectPointer
  locationBitsOfPut objectPointer di
  sizeBitsOfPut objectPointer size
  let limit ← spaceOccupiedBy objectPointer
  forN (limit - 1) fun i => do
    segmentWordPut segment (di + 1 + i) (← segmentWord segment (si + 1 + i))
  return (si + 1 + (limit - 1), di + 1 + (limit - 1))

def sweepRound (segment : Nat) (c : Nat × Nat) : OM (Nat × Nat ⊕ Nat) := do
  if c.1 < heapSpaceStop then
    if (← segmentWord segment (c.1 + 1)) = nonPointer then
      -- unallocated, so skip it
      let size ← segmentWord segment c.1
      return .inl (c.1 + size, c.2)
    else
      return .inl (← sweepObject segment c.1 c.2)
  else
    return .inr c.2

def sweepCurrentSegmentFrom (lowWaterMark : Nat) : OM Nat := do
  let segment := (← get).currentSegment.toNat
  iterate (sweepRound segment) (lowWaterMark, lowWaterMark)

def compactCurrentSegment : OM Unit := do
  checkCurrentSegment
  let lowWaterMark ← abandonFreeChunksInSegment (← get).currentSegment.toNat
  if lowWaterMark < heapSpaceStop then
    reverseHeapPointersAbove lowWaterMark
    let bigSpace ← sweepCurrentSegmentFrom lowWaterMark
    -- a negative size is no word
    check (bigSpace ≤ heapSpaceStop + 1)
    deallocate (← obtainPointerLocation (heapSpaceStop + 1 - bigSpace) bigSpace)

/-! ## Chunks for new objects -/

/-- The chunk has exactly the size: remove it from the list. -/
def unlinkChunk (predecessor objectPointer : Nat) : OM Unit := do
  let next ← classBitsOf objectPointer
  if predecessor = nonPointer then
    headOfFreeChunkListInSegmentPut bigSize (← get).currentSegment.toNat next
  else
    classBitsOfPut predecessor next

/-- Return the second part of the chunk, the first remains on the free list. -/
def splitChunk (objectPointer size excessSize : Nat) : OM Nat := do
  let newPointer ← obtainPointerLocation size ((← locationBitsOf objectPointer) + excessSize)
  if newPointer ≠ nilPointer then
    sizeBitsOfPut objectPointer excessSize
  return newPointer

/-- One chunk of the list of big chunks, after its predecessor. -/
def searchRound (size : Nat) (c : Nat × Nat) : OM (Nat × Nat ⊕ Nat) := do
  if c.2 = nonPointer then
    return .inr nilPointer
  else
    let availableSize ← sizeBitsOf c.2
    if availableSize = size then
      unlinkChunk c.1 c.2
      return .inr c.2
    else if availableSize ≥ size + headerSize then
      return .inr (← splitChunk c.2 size (availableSize - size))
    else
      return .inl (c.2, ← classBitsOf c.2)

def attemptToAllocateChunkInCurrentSegment (size : Nat) : OM Nat := do
  checkCurrentSegment
  let objectPointer ← if size < bigSize then removeFromFreeChunkList size else pure nilPointer
  if objectPointer ≠ nilPointer then
    return objectPointer
  else
    let head ← headOfFreeChunkListInSegment bigSize (← get).currentSegment.toNat
    iterate (searchRound size) (nonPointer, head)

/-- Go on to the next segment. -/
def nextSegment (m : ObjectMemory) : ObjectMemory :=
  { m with currentSegment :=
      if m.currentSegment + 1 > lastHeapSegment then firstHeapSegment else m.currentSegment + 1 }

/-- Compact the next `n` segments in turn until one has room. -/
def attemptInOtherSegments (size : Nat) : Nat → OM Nat
  | 0 => pure nilPointer
  | n + 1 => do
      modify nextSegment
      compactCurrentSegment
      let objectPointer ← attemptToAllocateChunkInCurrentSegment size
      if objectPointer ≠ nilPointer then
        return objectPointer
      else
        attemptInOtherSegments size n

def attemptToAllocateChunk (size : Nat) : OM Nat := do
  checkCurrentSegment
  let objectPointer ← attemptToAllocateChunkInCurrentSegment size
  if objectPointer ≠ nilPointer then
    return objectPointer
  else
    attemptInOtherSegments size heapSegmentCount

/-! ## The parts of a collection -/

def zeroReferenceCounts : OM Unit :=
  forN (objectTableSize / 2) fun i => countBitsOfPut (2 * i) 0

/-- The roots of the object memory. -/
def markSpecialOops : OM Unit := forN (lastSpecialOop / 2 + 1) fun i => addRoot (2 * i)

/-- Subtract 1 to compensate for the mark, and count the pointers of the object. -/
def rectifyCount (objectPointer count : Nat) : OM Unit := do
  if count < 128 then
    countBitsOfPut objectPointer (count - 1)
  let limit := (← lastPointerOf objectPointer) - 1
  forN limit fun i => do countUp (← heapChunkOfWord objectPointer (i + 1))

def rectifyEntry (objectPointer : Nat) : OM Unit := do
  if (← freeBitOf objectPointer) = 0 then
    let count ← countBitsOf objectPointer
    if count = 0 then
      let space ← spaceOccupiedBy objectPointer
      modify fun m => { m with freeWords := m.freeWords + space }
      deallocate objectPointer
    else
      rectifyCount objectPointer count

def rectifyCountsAndDeallocateGarbage : OM Unit := do
  resetFreeChunkLists
  forN (objectTableSize / 2) fun i => rectifyEntry (2 * i)
  countBitsOfPut nilPointer 128
  let count ← auditFreeOops
  modify fun m => { m with freeOops := count }

/-! ## Stores over SmallIntegers -/

/-- A store over a SmallInteger frees nothing. -/
theorem ObjectMemory.wp_storePointer_fresh {m : ObjectMemory} {c v : Nat} {f : Int}
    {R : Unit → ObjectMemory → Prop} (hf : HasField m c f)
    (hold : (m.countedUp v).chunkWord c (headerSize + f.toNat) % 2 = 1) (hpos : 0 < v)
    (hv : v < 65536) : Wp (storePointerOfObjectWithValue f c v) R m ↔
      R () ((m.countedUp v).setChunkWord c (headerSize + f.toNat) v) := by
  have hlt := hf.lt_size
  have hin := hf.inside
  have heven := hf.isEntry.1
  rw [storePointerOfObjectWithValue, wp_bind, wp_fetchWordLengthOf,
    and_iff_right ⟨hf.isEntry, by omega⟩, wp_bind, wp_check,
    and_iff_right ⟨hf.nonneg, by omega⟩, wp_bind, wp_check, and_iff_right hpos]
  dsimp only
  rw [wp_bind, wp_countUp, and_iff_right fun _ => hv, wp_bind, wp_heapChunkOfWord,
    location_countedUp heven, and_iff_right ⟨hf.isEntry, hin⟩, wp_bind, countDown, if_pos hold,
    wp_pure, wp_heapChunkOfWordPut, location_countedUp heven, and_iff_right ⟨hf.isEntry, hin, hv⟩]

end Crosstalk
