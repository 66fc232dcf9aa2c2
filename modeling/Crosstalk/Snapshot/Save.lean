import Crosstalk.Snapshot.Load

/-!
# Saving a snapshot

`padToPage`, `saveObjects` and `saveSnapshot`. All but the last three calls on
the file are checked by the program.
-/

namespace Crosstalk

namespace File

/-- `create_file` empties the file. -/
def create (f : File) : Int × File :=
  if f.fault.all (!·.error) then (0, { f.called with bytes := [], position := 0 })
  else (-1, f.called)

end File

/-- A write that is checked: `none` is `return false`. -/
def writeBytes (data : List UInt8) : HM (Option Unit) := do
  if (← onFile (·.write data)) = data.length then
    return some ()
  else
    return none

/-- Go on with the result, or `return false` as well. -/
def andThen {α β : Type} (x : HM (Option α)) (f : α → HM (Option β)) : HM (Option β) := do
  match ← x with
  | none => return none
  | some a => f a

def padToPage : HM (Option Unit) := do
  let pos ← onFile (·.tell)
  let desired := (pos + 512 - 1).tdiv 512 * 512
  let pad := (desired - pos) / 2
  foldN pad.toNat (fun _ _ => writeBytes (wordBytes 0)) ()

/-! ## The objects -/

def lastUsedRound (lastUsed objectPointer : Nat) : OM Nat := do
  if ← hasObject objectPointer then
    return objectPointer
  else
    return lastUsed

def lastUsedFrom : Nat → Nat → OM Nat
  | 0, lastUsed => pure lastUsed
  | n + 1, lastUsed => do
      let lastUsed ← lastUsedRound lastUsed (objectTableSize - 2 * (n + 1))
      lastUsedFrom n lastUsed

/-- The last entry that references an object. -/
def lastUsedObjectPointer : OM Nat := lastUsedFrom (objectTableSize / 2 - 1) nonPointer

def writeHeader (objectPointer : Nat) : HM (Option Nat) := do
  let objectSize ← onMemory (sizeBitsOf objectPointer)
  let classPointer ← onMemory (fetchClassOf objectPointer)
  andThen (writeBytes (wordBytes objectSize ++ wordBytes classPointer)) fun _ =>
    return some objectSize

def writeField (objectPointer wordIndex : Nat) : HM (Option Unit) := do
  let word ← onMemory (fetchWordOfObject wordIndex objectPointer)
  writeBytes (wordBytes word)

def writeFields (objectPointer : Nat) : HM (Option Unit) := do
  let wordLength ← onMemory (fetchWordLengthOf objectPointer)
  foldN wordLength.toNat (fun i _ => writeField objectPointer i) ()

/-- The extra word of a huge object is not stored. The result is the length of
the object space so far. -/
def saveObject (objectPointer : Nat) (objectSpaceLength : Int) : HM (Option Int) := do
  if ← onMemory (hasObject objectPointer) then
    andThen (writeHeader objectPointer) fun objectSize =>
      andThen (writeFields objectPointer) fun _ =>
        return some (objectSpaceLength + objectSize)
  else
    return some objectSpaceLength

/-! ## The object table -/

/-- A free chunk is stored as a free entry. -/
def releaseChunkEntry (objectPointer : Nat) : OM Unit := do
  if (← freeBitOf objectPointer) = 0 then
    if (← countBitsOf objectPointer) = 0 then
      freeBitOfPut objectPointer 1

/-- Turn the entry into the one for the image; the result is the address of the
next object. -/
def relocateEntry (objectPointer objectImageWordAddress : Nat) : OM Nat := do
  releaseChunkEntry objectPointer
  if (← freeBitOf objectPointer) ≠ 0 then
    otPut objectPointer 0
    freeBitOfPut objectPointer 1
    locationBitsOfPut objectPointer 0
    return objectImageWordAddress
  else
    let objectSize ← sizeBitsOf objectPointer
    segmentBitsOfPut objectPointer (objectImageWordAddress >>> 16)
    locationBitsOfPut objectPointer (objectImageWordAddress &&& 0xFFFF)
    return objectImageWordAddress + objectSize

/-- Oop 0 is stored as it is. -/
def relocate (objectPointer objectImageWordAddress : Nat) : OM Nat := do
  if objectPointer ≥ 2 then
    relocateEntry objectPointer objectImageWordAddress
  else
    return objectImageWordAddress

/-- The words of the entry in the image; the entry itself is restored. -/
def assembleEntry (objectPointer objectImageWordAddress : Nat) : OM (Nat × List UInt8) := do
  let oldOTValue ← ot objectPointer
  let oldOTLocation ← locationBitsOf objectPointer
  let address ← relocate objectPointer objectImageWordAddress
  let word0 ← ot objectPointer
  let word1 ← locationBitsOf objectPointer
  otPut objectPointer oldOTValue
  locationBitsOfPut objectPointer oldOTLocation
  return (address, wordBytes word0 ++ wordBytes word1)

def saveEntry (objectPointer objectImageWordAddress : Nat) : HM (Option Nat) := do
  let entry ← onMemory (assembleEntry objectPointer objectImageWordAddress)
  andThen (writeBytes entry.2) fun _ => return some entry.1

/-! ## The snapshot -/

/-- Everything that is checked; the result is the length of the object space. -/
def saveContents (storedObjectTableLength : Nat) : HM (Option Int) :=
  andThen (writeBytes (int32Bytes 0 ++ int32Bytes 0)) fun _ =>
  andThen (writeBytes (wordBytes 0)) fun _ =>
  andThen padToPage fun _ =>
  andThen (foldN ((storedObjectTableLength - 1) / 2) (fun i n => saveObject (2 * (i + 1)) n) 0)
    fun objectSpaceLength =>
  andThen padToPage fun _ =>
  andThen (foldN ((storedObjectTableLength + 1) / 2) (fun i a => saveEntry (2 * i) a) 0) fun _ =>
    return some objectSpaceLength

/-- The values of the image header. These calls are not checked. -/
def saveHeader (objectSpaceLength storedObjectTableLength : Int) : HM Unit := do
  let _ ← onFile (·.seekTo 0)
  let _ ← onFile (·.write (int32Bytes objectSpaceLength))
  let _ ← onFile (·.write (int32Bytes storedObjectTableLength))

def saveObjects : HM Bool := do
  let storedObjectTableLength := (← onMemory lastUsedObjectPointer) + 2
  match ← saveContents storedObjectTableLength with
  | none => return false
  | some objectSpaceLength =>
      saveHeader objectSpaceLength storedObjectTableLength
      return true

def saveSnapshot : HM Bool := do
  if (← onFile (·.create)) = -1 then
    return false
  else
    saveObjects

end Crosstalk
