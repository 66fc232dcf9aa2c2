import Crosstalk.ObjectMemory.Interface

/-!
# BitBlt

The stages of `BitBlt::copyBits`, in the order in which it runs them: the
clipping, the edge masks and the skew, the direction of the copy, the starting
offsets, and the copy loop, a word of the destination at a time.
-/

namespace Crosstalk

/-- The variables of a `BitBlt`. Those that a stage computes are 0 before it. -/
structure BitBlt where
  destForm : Nat
  sourceForm : Nat
  halftoneForm : Nat
  combinationRule : Int
  destX : Int
  destY : Int
  width : Int
  height : Int
  sourceX : Int
  sourceY : Int
  clipX : Int
  clipY : Int
  clipWidth : Int
  clipHeight : Int
  sourceFormWidth : Int := 0
  sourceFormHeight : Int := 0
  destFormWidth : Int := 0
  destFormHeight : Int := 0
  sx : Int := 0
  sy : Int := 0
  dx : Int := 0
  dy : Int := 0
  w : Int := 0
  h : Int := 0
  updatedX : Int := 0
  updatedY : Int := 0
  updatedWidth : Int := 0
  updatedHeight : Int := 0
  destBits : Nat := 0
  destBitsWordLength : Int := 0
  destRaster : Int := 0
  sourceBits : Nat := 0
  sourceBitsWordLength : Int := 0
  sourceRaster : Int := 0
  halftoneBits : Nat := 0
  skew : Nat := 0
  mask1 : Nat := 0
  mask2 : Nat := 0
  skewMask : Nat := 0
  nWords : Int := 0
  hDir : Int := 1
  vDir : Int := 1
  preload : Bool := false
  sourceIndex : Int := 0
  destIndex : Int := 0
  sourceDelta : Int := 0
  destDelta : Int := 0

namespace BitBlt

/-! ## Words of 16 bits -/

abbrev allOnes : Nat := 0xFFFF

/-- The complement `~`, cut to a word. -/
def bitInvert (x : Nat) : Nat := x ^^^ allOnes

def rightMasks : List Nat :=
  [0, 0x1, 0x3, 0x7, 0xF, 0x1F, 0x3F, 0x7F, 0xFF,
   0x1FF, 0x3FF, 0x7FF, 0xFFF, 0x1FFF, 0x3FFF, 0x7FFF, 0xFFFF]

def rightMask (n : Nat) : Nat := rightMasks.getD n 0

/-- The 16 combination rules. -/
def mergeWith (combinationRule : Int) (sourceWord destinationWord : Nat) : OM Nat :=
  match combinationRule with
  | 0 => return 0
  | 1 => return sourceWord &&& destinationWord
  | 2 => return sourceWord &&& bitInvert destinationWord
  | 3 => return sourceWord
  | 4 => return bitInvert sourceWord &&& destinationWord
  | 5 => return destinationWord
  | 6 => return sourceWord ^^^ destinationWord
  | 7 => return sourceWord ||| destinationWord
  | 8 => return bitInvert sourceWord &&& bitInvert destinationWord
  | 9 => return bitInvert sourceWord ^^^ destinationWord
  | 10 => return bitInvert destinationWord
  | 11 => return sourceWord ||| bitInvert destinationWord
  | 12 => return bitInvert sourceWord
  | 13 => return bitInvert sourceWord ||| destinationWord
  | 14 => return bitInvert sourceWord ||| bitInvert destinationWord
  | 15 => return allOnes
  | _ => do
      check False
      return 0

/-! ## Setting up -/

def formSize (form : Nat) : OM (Int × Int) := do
  let widthInForm := 1
  let heightInForm := 2
  let width ← fetchWordOfObject widthInForm form
  let height ← fetchWordOfObject heightInForm form
  return (integerValueOf width, integerValueOf height)

def sourceFormSize (b : BitBlt) : OM (Int × Int) :=
  if b.sourceForm ≠ nilPointer then formSize b.sourceForm else return (0, 0)

/-- The constructor. It clears its *parameters* `sourceX` and `sourceY` when
there is no source form; the members keep the values they were given. -/
def new (b : BitBlt) : OM BitBlt := do
  let (sourceFormWidth, sourceFormHeight) ← sourceFormSize b
  let (destFormWidth, destFormHeight) ← formSize b.destForm
  return { b with sourceFormWidth, sourceFormHeight, destFormWidth, destFormHeight }

/-- One axis of a copy: where it starts in the source and in the destination,
and how far it goes. -/
structure Span where
  source : Int
  dest : Int
  extent : Int

/-- Clip to the clip rectangle, after keeping that inside the destination form. -/
def clipToDest (clip clipExtent destFormExtent dest extent source : Int) : Span :=
  let clipExtent := if clip < 0 then clipExtent + clip else clipExtent
  let clip := if clip < 0 then 0 else clip
  let clipExtent :=
    if clip + clipExtent > destFormExtent then destFormExtent - clip else clipExtent
  let s := if dest ≥ clip then source else source + (clip - dest)
  let d := if dest ≥ clip then dest else clip
  let e := if dest ≥ clip then extent else extent - (clip - dest)
  ⟨s, d, if d + e > clip + clipExtent then e - ((d + e) - (clip + clipExtent)) else e⟩

/-- Clip to the source form. -/
def clipToSource (s : Span) (sourceFormExtent : Int) : Span :=
  let d := if s.source < 0 then s.dest - s.source else s.dest
  let e := if s.source < 0 then s.extent + s.source else s.extent
  let s := if s.source < 0 then 0 else s.source
  ⟨s, d, if s + e > sourceFormExtent then e - (s + e - sourceFormExtent) else e⟩

/-- `clipRange` on one axis; it treats x and y alike. -/
def clipSpan (hasSource : Prop) [Decidable hasSource] (clip clipExtent destFormExtent
    dest extent source sourceFormExtent : Int) : Span :=
  let s := clipToDest clip clipExtent destFormExtent dest extent source
  if hasSource then clipToSource s sourceFormExtent else s

def clipRange (b : BitBlt) : BitBlt :=
  let x := clipSpan (b.sourceForm ≠ nilPointer) b.clipX b.clipWidth b.destFormWidth
    b.destX b.width b.sourceX b.sourceFormWidth
  let y := clipSpan (b.sourceForm ≠ nilPointer) b.clipY b.clipHeight b.destFormHeight
    b.destY b.height b.sourceY b.sourceFormHeight
  { b with sx := x.source, dx := x.dest, w := x.extent
           sy := y.source, dy := y.dest, h := y.extent }

/-- The field of a form that holds its bitmap. -/
abbrev bitsInForm : Int := 0

def findSourceBits (b : BitBlt) : OM BitBlt :=
  if b.sourceForm ≠ nilPointer then do
    let sourceBits ← fetchPointerOfObject bitsInForm b.sourceForm
    let sourceBitsWordLength ← fetchWordLengthOf sourceBits
    return { b with
      sourceBits, sourceBitsWordLength
      sourceRaster := (b.sourceFormWidth - 1).tdiv 16 + 1 }
  else
    return { b with sourceBitsWordLength := 0 }

def findHalftoneBits (b : BitBlt) : OM BitBlt :=
  if b.halftoneForm ≠ nilPointer then do
    let halftoneBits ← fetchPointerOfObject bitsInForm b.halftoneForm
    return { b with halftoneBits }
  else
    return b

/-- The bitmaps of the forms, and their pitch. -/
def findBits (b : BitBlt) : OM BitBlt := do
  let destBits ← fetchPointerOfObject bitsInForm b.destForm
  let destBitsWordLength ← fetchWordLengthOf destBits
  let b ← findSourceBits { b with
    destBits, destBitsWordLength, destRaster := (b.destFormWidth - 1).tdiv 16 + 1 }
  findHalftoneBits b

/-- The skew, the edge masks and the number of words in a line. -/
def edgeMasks (b : BitBlt) : BitBlt :=
  -- how many bits source gets skewed to right
  let skew := ((b.sx - b.dx) % 16).toNat
  -- how many bits in first word
  let startBits := 16 - b.dx % 16
  let mask1 := rightMask startBits.toNat
  -- how many bits in last word
  let endBits := 15 - (b.dx + b.w - 1) % 16
  let mask2 := bitInvert (rightMask endBits.toNat)
  let skewMask := if skew = 0 then 0 else rightMask (16 - skew)
  -- determine number of words stored per line; merge masks if necessary
  { b with
    skew, skewMask
    mask1 := if b.w < startBits then mask1 &&& mask2 else mask1
    mask2 := if b.w < startBits then 0 else mask2
    nWords := if b.w < startBits then 1 else (b.w - startBits + 15).tdiv 16 + 1 }

def computeMasks (b : BitBlt) : OM BitBlt := do
  return edgeMasks (← findBits b)

/-- The direction of the copy: from the bottom when a form is copied down onto
itself, from the right when it is copied to the right in the same rows. -/
def checkOverlap (b : BitBlt) : BitBlt :=
  if b.sourceForm = b.destForm ∧ b.dy ≥ b.sy then
    if b.dy > b.sy then
      { b with hDir := 1, vDir := -1, sy := b.sy + b.h - 1, dy := b.dy + b.h - 1 }
    else if b.dx > b.sx then
      { b with
        hDir := -1, vDir := 1
        sx := b.sx + b.w - 1
        dx := b.dx + b.w - 1
        skewMask := bitInvert b.skewMask
        mask1 := b.mask2
        mask2 := b.mask1 }
    else { b with hDir := 1, vDir := 1 }
  else { b with hDir := 1, vDir := 1 }

def calculateOffsets (b : BitBlt) : BitBlt :=
  -- check if need to preload buffer
  let preload := decide (b.sourceForm ≠ nilPointer) && decide (b.skew ≠ 0) &&
    decide ((b.skew : Int) ≤ b.sx % 16)
  let preload := if b.hDir < 0 then !preload else preload
  { b with
    preload
    sourceIndex := b.sy * b.sourceRaster + b.sx.tdiv 16
    destIndex := b.dy * b.destRaster + b.dx.tdiv 16
    sourceDelta := b.sourceRaster * b.vDir - (b.nWords + (if preload then 1 else 0)) * b.hDir
    destDelta := b.destRaster * b.vDir - b.nWords * b.hDir }

/-! ## Copying -/

/-- The local variables of `copyLoop`, and the members that it advances. -/
structure Shifter where
  sourceIndex : Int
  destIndex : Int
  dy : Int
  prevWord : Nat
  thisWord : Nat
  skewWord : Nat
  mergeMask : Nat

/-- `word <<= skew`, as a rotation of 16 bits. -/
def rotate (x skew : Nat) : Nat := (x <<< skew ||| x >>> (16 - skew)) % 65536

/-- Take up the next source word and line it up with the destination. -/
def shiftSource (b : BitBlt) (word : Nat) (c : Shifter) : OM Shifter := do
  let prevWord := c.prevWord &&& b.skewMask
  let mut thisWord := c.thisWord
  if word ≤ b.sourceRaster ∧ c.sourceIndex ≥ 0 ∧ c.sourceIndex < b.sourceBitsWordLength then
    thisWord ← fetchWordOfObject c.sourceIndex b.sourceBits
  let skewWord := prevWord ||| (thisWord &&& bitInvert b.skewMask)
  return { c with prevWord := thisWord, thisWord, skewWord := rotate skewWord b.skew }

/-- Merge the shifted word into the destination; `none` is the `return` out of
`copyLoop`. -/
def mergeIntoDest (b : BitBlt) (halftoneWord word : Nat) (c : Shifter) :
    OM (Option Shifter) := do
  if c.destIndex ≥ b.destBitsWordLength then
    return none
  else
    let destWord ← fetchWordOfObject c.destIndex b.destBits
    let mergeWord ← mergeWith b.combinationRule (c.skewWord &&& halftoneWord) destWord
    storeWordOfObjectWithValue c.destIndex b.destBits
      ((c.mergeMask &&& mergeWord) ||| (bitInvert c.mergeMask &&& destWord))
    return some { c with
      sourceIndex := c.sourceIndex + b.hDir
      destIndex := c.destIndex + b.hDir
      mergeMask := if (word : Int) = b.nWords - 1 then b.mask2 else allOnes }

/-- The body of the inner horizontal loop, for `word` from 1. -/
def copyWord (b : BitBlt) (halftoneWord word : Nat) (c : Shifter) : OM (Option Shifter) := do
  let c ← if b.sourceForm ≠ nilPointer then shiftSource b word c else pure c
  mergeIntoDest b halftoneWord word c

def lineHalftone (b : BitBlt) (c : Shifter) : OM Nat :=
  if b.halftoneForm ≠ nilPointer then
    fetchWordOfObject (c.dy % 16) b.halftoneBits
  else
    return allOnes

/-- Load the 32-bit shifter. -/
def lineStart (b : BitBlt) (c : Shifter) : OM Nat :=
  if b.preload then
    fetchWordOfObject c.sourceIndex b.sourceBits
  else
    return 0

/-- The halftone word of the line, and the shifter before its first word. -/
def startLine (b : BitBlt) (c : Shifter) : OM (Nat × Shifter) := do
  let halftoneWord ← lineHalftone b c
  let prevWord ← lineStart b c
  return (halftoneWord, { c with
    dy := if b.halftoneForm ≠ nilPointer then c.dy + b.vDir else c.dy
    sourceIndex := if b.preload then c.sourceIndex + b.hDir else c.sourceIndex
    prevWord
    skewWord := halftoneWord
    mergeMask := b.mask1 })

/-- The body of the vertical loop. -/
def copyRow (b : BitBlt) (c : Shifter) : OM (Option Shifter) := do
  let (halftoneWord, c) ← startLine b c
  match ← foldN b.nWords.toNat (fun i => copyWord b halftoneWord (i + 1)) c with
  | none => return none
  | some c => return some { c with
      sourceIndex := c.sourceIndex + b.sourceDelta
      destIndex := c.destIndex + b.destDelta }

def copyLoop (b : BitBlt) : OM Unit := do
  let _ ← foldN b.h.toNat (fun _ => copyRow b)
    { sourceIndex := b.sourceIndex, destIndex := b.destIndex, dy := b.dy
      prevWord := 0, thisWord := 0, skewWord := 0, mergeMask := 0 }
  return ()

def formWordCount (width height : Int) : Int := (width + 15).tdiv 16 * height

/-- The copy once the masks are there. A bitmap that does not have the size its
form declares is refused. -/
def copyMasked (b : BitBlt) : OM (Bool × BitBlt) :=
  if b.sourceForm ≠ nilPointer ∧
      formWordCount b.sourceFormWidth b.sourceFormHeight ≠ b.sourceBitsWordLength then
    return (false, b)
  else if formWordCount b.destFormWidth b.destFormHeight ≠ b.destBitsWordLength then
    return (false, b)
  else do
    let b := calculateOffsets (checkOverlap b)
    copyLoop b
    return (true, b)

/-- The area that the copy is to change. -/
def updateBounds (b : BitBlt) : BitBlt :=
  { b with updatedX := b.dx, updatedY := b.dy, updatedWidth := b.w, updatedHeight := b.h }

def copyBits (b : BitBlt) : OM (Bool × BitBlt) :=
  let b := clipRange b
  if b.w > 0 ∧ b.h > 0 then do
    copyMasked (← computeMasks (updateBounds b))
  else
    return (true, { b with
      updatedX := 0, updatedY := 0, updatedWidth := 0, updatedHeight := 0 })

end BitBlt

end Crosstalk
