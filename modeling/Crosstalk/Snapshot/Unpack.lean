import Crosstalk.Lib.Refinement
import Crosstalk.Snapshot.Load

/-!
# Loading from a byte string

`unpack bytes` is the loader as a program on the object memory alone, with the
bytes of the image at hand. Each boot mode refines it from every host that holds
the image.
-/

namespace Crosstalk

def tableLength (bytes : List UInt8) : Int := int32At bytes 4

/-- Where the object table starts in the image. -/
def tableBase (bytes : List UInt8) : Nat := (bytes.length - tableLength bytes * 2).toNat

/-! ## The loader -/

def unpackEntry (bytes : List UInt8) (objectPointer : Nat) : OM Unit := do
  otPut objectPointer (wordAt bytes (tableBase bytes + 2 * objectPointer))
  locationBitsOfPut objectPointer (wordAt bytes (tableBase bytes + 2 * objectPointer + 2))

def unpackTable (bytes : List UInt8) : OM Unit := do
  forN ((tableLength bytes + 1) / 2).toNat fun i => unpackEntry bytes (2 * i)
  buildFreeEntries (tableLength bytes)

/-- The byte address of the object at word address `address`. -/
def objectBase (address : Nat) : Nat := objectSpaceBaseInImage + address * 2

def unpackField (bytes : List UInt8) (base objectPointer wordIndex : Nat) : OM Unit :=
  storeWordOfObjectWithValue wordIndex objectPointer (wordAt bytes (base + 4 + 2 * wordIndex))

def unpackWords (bytes : List UInt8) (base objectPointer : Nat) (d : Destination) : OM Unit := do
  segmentBitsOfPut objectPointer d.segment
  locationBitsOfPut objectPointer d.word
  sizeBitsOfPut objectPointer (wordAt bytes base)
  classBitsOfPut objectPointer (wordAt bytes (base + 2))
  forN (wordAt bytes base - headerSize) fun i => unpackField bytes base objectPointer i

def unpackObject (bytes : List UInt8) (objectPointer : Nat) (d : Destination) :
    OM (Option Destination) := do
  if (← freeBitOf objectPointer) ≠ 0 then
    return some d
  else
    let count ← countBitsOf objectPointer
    check (count ≠ 0)
    let base := objectBase (← objectImageWordAddress objectPointer)
    let space ← spaceInMemory (wordAt bytes base) objectPointer
    let d := d.advance space
    if d.segment = heapSegmentCount then
      return none
    else
      unpackWords bytes base objectPointer d
      return some (d.take space)

def unpackObjects (bytes : List UInt8) : OM Bool := do
  match ← foldN (objectTableSize / 2 - 1)
      (fun i d => unpackObject bytes (2 * (i + 1)) d) .start with
  | none => return false
  | some d =>
      buildFreeChunks d.heapSpaceRemaining
      return true

def unpack (bytes : List UInt8) : OM Bool := do
  unpackTable bytes
  unpackObjects bytes

/-! ## Well-formed images -/

/-- The object at word address `address` lies inside the image. -/
def InImage (bytes : List UInt8) (address : Nat) : Prop :=
  objectBase address + 2 * max headerSize (wordAt bytes (objectBase address)) ≤ bytes.length

/-- The table and the objects of its live entries lie inside the image. -/
structure Readable (bytes : List UInt8) : Prop where
  header : 8 ≤ bytes.length
  length_nonneg : 0 ≤ tableLength bytes
  base : tableLength bytes * 2 ≤ bytes.length
  table : ∀ p : Nat, p % 2 = 0 → p < tableLength bytes → tableBase bytes + 2 * p + 4 ≤ bytes.length
  objects : ∀ p : Nat, p % 2 = 0 → 2 ≤ p → p < tableLength bytes → p < objectTableSize →
    (decodeEntry (wordAt bytes (tableBase bytes + 2 * p))).free = 0 →
    InImage bytes (((decodeEntry (wordAt bytes (tableBase bytes + 2 * p))).segment <<< 16) +
      wordAt bytes (tableBase bytes + 2 * p + 2))

/-- A readable image that fits in the array of the boot modes other than 1. -/
structure WellFormed (bytes : List UInt8) : Prop extends Readable bytes where
  fits : bytes.length ≤ sizeofFilesSnapshotIm

end Crosstalk
