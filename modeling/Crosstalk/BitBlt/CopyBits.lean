import Crosstalk.BitBlt.Setup

/-!
# What a BitBlt copies

`copyBits` refines the copy pixel by pixel: `copiedBit` is what each bit of the
destination is to become. Between different forms it does so always; on one
form it does unless it copies to the right, in the same rows and into a single
word (`Overlap`).
-/

namespace Crosstalk

namespace BitBlt

open ObjectMemory

/-! ## The pixels to copy -/

/-- The form `form` has the bitmap `bits` and the size `width` by `height`. -/
structure IsForm (m : ObjectMemory) (form bits : Nat) (width height : Int) : Prop where
  isBitmap : m.IsBitmap bits (formWordCount width height)
  bitsField : HasField m form 0
  widthField : HasField m form 1
  heightField : HasField m form 2
  bits_eq : m.chunkWord form headerSize = bits
  width_eq : integerValueOf (m.chunkWord form (headerSize + 1)) = width
  height_eq : integerValueOf (m.chunkWord form (headerSize + 2)) = height

/-- The operands of a BitBlt: its forms, with their sizes as the constructor
reads them, and a combination rule. -/
structure Operands (m : ObjectMemory) (b : BitBlt) (destBits sourceBits halftoneBits : Nat) :
    Prop where
  dest : IsForm m b.destForm destBits b.destFormWidth b.destFormHeight
  dest_ne_nil : b.destForm ≠ nilPointer
  source : b.sourceForm ≠ nilPointer →
    IsForm m b.sourceForm sourceBits b.sourceFormWidth b.sourceFormHeight
  noSource : b.sourceForm = nilPointer → b.sourceFormWidth = 0 ∧ b.sourceFormHeight = 0
  halftone : b.halftoneForm ≠ nilPointer →
    HasField m b.halftoneForm 0 ∧ m.chunkWord b.halftoneForm headerSize = halftoneBits ∧
      m.IsBitmap halftoneBits 16 ∧ m.Separate destBits halftoneBits
  rule : 0 ≤ b.combinationRule ∧ b.combinationRule ≤ 15

/-- The pixel lies in the destination rectangle, the clip rectangle, the
destination form and, if there is one, the source form put over it. -/
def Inside (b : BitBlt) (x y : Int) : Prop :=
  (((b.destX ≤ x ∧ x < b.destX + b.width) ∧ (b.clipX ≤ x ∧ x < b.clipX + b.clipWidth) ∧
      0 ≤ x ∧ x < b.destFormWidth) ∧
    (b.sourceForm ≠ nilPointer →
      0 ≤ x + (b.sourceX - b.destX) ∧ x + (b.sourceX - b.destX) < b.sourceFormWidth)) ∧
  (((b.destY ≤ y ∧ y < b.destY + b.height) ∧ (b.clipY ≤ y ∧ y < b.clipY + b.clipHeight) ∧
      0 ≤ y ∧ y < b.destFormHeight) ∧
    (b.sourceForm ≠ nilPointer →
      0 ≤ y + (b.sourceY - b.destY) ∧ y + (b.sourceY - b.destY) < b.sourceFormHeight))

instance (b : BitBlt) (x y : Int) : Decidable (Inside b x y) := by
  unfold Inside; infer_instance

/-- Bit `k` of word `index` of the destination after the copy, from the memory
`m` before it. It is pixel `x` of line `y`; the source pixel is 1 without a
source form, and so is the halftone bit without a halftone form. -/
def copiedBit (b : BitBlt) (m : ObjectMemory) (destBits sourceBits halftoneBits : Nat)
    (index : Int) (k : Nat) : Bool :=
  let raster := (b.destFormWidth + 15) / 16
  let x := 16 * (index % raster) + (15 - k)
  let y := index / raster
  let old := (m.wordAt destBits index).testBit k
  let source := if b.sourceForm ≠ nilPointer then
    pixelAt (m.wordAt sourceBits) ((b.sourceFormWidth + 15) / 16)
      (x + (b.sourceX - b.destX)) (y + (b.sourceY - b.destY)) else true
  let halftone := if b.halftoneForm ≠ nilPointer then
    (m.wordAt halftoneBits (y % 16)).testBit k else true
  if Inside b x y then combine b.combinationRule (source && halftone) old else old

/-! ## Clipping the rectangle -/

section ClipRange

variable (b : BitBlt)

theorem clipRange_sx : (clipRange b).sx - (clipRange b).dx = b.sourceX - b.destX :=
  clipSpan_offset ..

theorem clipRange_sy : (clipRange b).sy - (clipRange b).dy = b.sourceY - b.destY :=
  clipSpan_offset ..

theorem inside_iff (x y : Int) : Inside b x y ↔
    ((clipRange b).dx ≤ x ∧ x < (clipRange b).dx + (clipRange b).w) ∧
      (clipRange b).dy ≤ y ∧ y < (clipRange b).dy + (clipRange b).h :=
  and_congr (mem_clipSpan ..).symm (mem_clipSpan ..).symm

end ClipRange

/-- The rectangle with the bitmaps that `computeMasks` finds. -/
def withBits (b : BitBlt) (destBits sourceBits halftoneBits : Nat) : BitBlt :=
  { b with
    destBits
    destBitsWordLength := formWordCount b.destFormWidth b.destFormHeight
    destRaster := (b.destFormWidth - 1).tdiv 16 + 1
    sourceBits := if b.sourceForm ≠ nilPointer then sourceBits else b.sourceBits
    sourceBitsWordLength := if b.sourceForm ≠ nilPointer then
      formWordCount b.sourceFormWidth b.sourceFormHeight else 0
    sourceRaster := if b.sourceForm ≠ nilPointer then
      (b.sourceFormWidth - 1).tdiv 16 + 1 else b.sourceRaster
    halftoneBits := if b.halftoneForm ≠ nilPointer then halftoneBits else b.halftoneBits }

variable {b : BitBlt} {m : ObjectMemory} {destBits sourceBits halftoneBits : Nat}

theorem wp_formSize {form bits : Nat} {width height : Int} (h : IsForm m form bits width height)
    (Q : Int × Int → ObjectMemory → Prop) :
    Wp (formSize form) Q m ↔ Q (width, height) m := by
  have h1 := h.width_eq
  have h2 := h.height_eq
  simp only [formSize, wp_bind, wp_pure, wp_fetchWordOfObject, h.widthField, h.heightField,
    true_and]
  rw [← h1, ← h2]
  rfl

theorem wp_new (ho : Operands m b destBits sourceBits halftoneBits)
    (Q : BitBlt → ObjectMemory → Prop) : Wp (new b) Q m ↔ Q b m := by
  have hsource : ∀ Q' : Int × Int → ObjectMemory → Prop,
      Wp (sourceFormSize b) Q' m ↔ Q' (b.sourceFormWidth, b.sourceFormHeight) m := by
    intro Q'
    unfold sourceFormSize
    split
    · next hs => exact wp_formSize (ho.source hs) Q'
    · next hs =>
        obtain ⟨h1, h2⟩ := ho.noSource (not_not.mp hs)
        rw [wp_pure, h1, h2]
  simp only [new, wp_bind, hsource, wp_formSize ho.dest, wp_pure]

theorem wp_fetchPointer_bits {form bits : Nat} (hf : HasField m form 0)
    (hb : m.chunkWord form headerSize = bits) (Q : Nat → ObjectMemory → Prop) :
    Wp (fetchPointerOfObject bitsInForm form) Q m ↔ Q bits m := by
  rw [fetchPointerOfObject_eq, wp_fetchWordOfObject, ← hb]
  exact and_iff_right hf

theorem wp_bitmapLength {bits : Nat} {n : Int} (h : m.IsBitmap bits n)
    (Q : Int → ObjectMemory → Prop) : Wp (fetchWordLengthOf bits) Q m ↔ Q n m := by
  have hsize := h.size
  have hinside := h.inside
  have hn := h.nonneg
  rw [wp_fetchWordLengthOf, show (m.chunkWord bits 0 : Int) - headerSize = n by omega]
  exact and_iff_right ⟨h.isEntry, by simp only [headerSize] at hsize; omega⟩

theorem wp_findBits (ho : Operands m b destBits sourceBits halftoneBits)
    (Q : BitBlt → ObjectMemory → Prop) :
    Wp (findBits b) Q m ↔ Q (b.withBits destBits sourceBits halftoneBits) m := by
  simp only [findBits, wp_bind, wp_fetchPointer_bits ho.dest.bitsField ho.dest.bits_eq,
    wp_bitmapLength ho.dest.isBitmap]
  have hhalf : ∀ b' : BitBlt, b'.halftoneForm = b.halftoneForm →
      (Wp (findHalftoneBits b') Q m ↔ Q { b' with
        halftoneBits := if b'.halftoneForm ≠ nilPointer then halftoneBits
          else b'.halftoneBits } m) := by
    intro b' hb'
    unfold findHalftoneBits
    split
    · next hh =>
        rw [hb'] at hh
        obtain ⟨hf, hb, -⟩ := ho.halftone hh
        rw [hb', wp_bind, wp_fetchPointer_bits hf hb, wp_pure]
    · rw [wp_pure]
  unfold findSourceBits withBits
  by_cases hs : b.sourceForm ≠ nilPointer
  · have hf := ho.source hs
    simp only [if_pos hs, wp_bind, wp_fetchPointer_bits hf.bitsField hf.bits_eq,
      wp_bitmapLength hf.isBitmap, wp_pure, hhalf]
  · simp only [if_neg hs, wp_pure, hhalf]

/-! ## The whole copy -/

/-- The rectangle that the copy goes over. -/
def rectangle (b : BitBlt) (destBits sourceBits halftoneBits : Nat) : BitBlt :=
  (updateBounds (clipRange b)).withBits destBits sourceBits halftoneBits

section Rectangle

variable (b : BitBlt) (destBits sourceBits halftoneBits : Nat)

@[simp] theorem rectangle_dx :
    (b.rectangle destBits sourceBits halftoneBits).dx = (clipRange b).dx := rfl

@[simp] theorem rectangle_dy :
    (b.rectangle destBits sourceBits halftoneBits).dy = (clipRange b).dy := rfl

@[simp] theorem rectangle_sx :
    (b.rectangle destBits sourceBits halftoneBits).sx = (clipRange b).sx := rfl

@[simp] theorem rectangle_sy :
    (b.rectangle destBits sourceBits halftoneBits).sy = (clipRange b).sy := rfl

@[simp] theorem rectangle_w :
    (b.rectangle destBits sourceBits halftoneBits).w = (clipRange b).w := rfl

@[simp] theorem rectangle_h :
    (b.rectangle destBits sourceBits halftoneBits).h = (clipRange b).h := rfl

@[simp] theorem rectangle_destBits :
    (b.rectangle destBits sourceBits halftoneBits).destBits = destBits := rfl

@[simp] theorem rectangle_combinationRule :
    (b.rectangle destBits sourceBits halftoneBits).combinationRule = b.combinationRule := rfl

end Rectangle

/-- The clipped rectangle lies inside both forms: its corners do. -/
theorem clipped_rectangle (hw : 0 < (clipRange b).w) (hh : 0 < (clipRange b).h) :
    Clipped (b.rectangle destBits sourceBits halftoneBits) := by
  have hfirst := (inside_iff b (clipRange b).dx (clipRange b).dy).mpr
    ⟨⟨by omega, by omega⟩, by omega, by omega⟩
  have hlast := (inside_iff b ((clipRange b).dx + (clipRange b).w - 1)
    ((clipRange b).dy + (clipRange b).h - 1)).mpr ⟨⟨by omega, by omega⟩, by omega, by omega⟩
  have hsx := clipRange_sx b
  have hsy := clipRange_sy b
  obtain ⟨⟨⟨-, -, hx0, -⟩, hxs⟩, ⟨-, -, hy0, -⟩, hys⟩ := hfirst
  obtain ⟨⟨⟨-, -, -, hx1⟩, hxs'⟩, ⟨-, -, -, hy1⟩, hys'⟩ := hlast
  refine ⟨hw, hh, hx0, ?_, hy0, ?_, rfl, rfl, fun hs => ?_, fun hs => ?_, fun hs => ?_,
    fun hs => ?_, fun hs => if_pos hs, fun hs => if_pos hs⟩
  · change (clipRange b).dx + (clipRange b).w ≤ b.destFormWidth
    omega
  · change (clipRange b).dy + (clipRange b).h ≤ b.destFormHeight
    omega
  · have := (hxs hs).1
    change 0 ≤ (clipRange b).sx
    omega
  · have := (hxs' hs).2
    change (clipRange b).sx + (clipRange b).w ≤ b.sourceFormWidth
    omega
  · have := (hys hs).1
    change 0 ≤ (clipRange b).sy
    omega
  · have := (hys' hs).2
    change (clipRange b).sy + (clipRange b).h ≤ b.sourceFormHeight
    omega

theorem targetBit_rectangle (hw : 0 < (clipRange b).w) (hh : 0 < (clipRange b).h)
    (index : Int) {k : Nat} (hk : k < 16) :
    targetBit (b.rectangle destBits sourceBits halftoneBits) m index k =
      copiedBit b m destBits sourceBits halftoneBits index k := by
  have hc : Clipped (b.rectangle destBits sourceBits halftoneBits) := clipped_rectangle hw hh
  have hraster : (b.rectangle destBits sourceBits halftoneBits).destRaster =
      (b.destFormWidth + 15) / 16 := hc.destRaster_eq
  have hx : ∀ x, x - (clipRange b).dx + (clipRange b).sx = x + (b.sourceX - b.destX) := by
    have := clipRange_sx b
    omega
  have hy : ∀ y, y - (clipRange b).dy + (clipRange b).sy = y + (b.sourceY - b.destY) := by
    have := clipRange_sy b
    omega
  have hpixel : ∀ x y, (if b.sourceForm ≠ nilPointer then
      pixelAt (m.wordAt (b.rectangle destBits sourceBits halftoneBits).sourceBits)
        (b.rectangle destBits sourceBits halftoneBits).sourceRaster
        (x - (clipRange b).dx + (clipRange b).sx) (y - (clipRange b).dy + (clipRange b).sy)
      else true) = if b.sourceForm ≠ nilPointer then
      pixelAt (m.wordAt sourceBits) ((b.sourceFormWidth + 15) / 16)
        (x + (b.sourceX - b.destX)) (y + (b.sourceY - b.destY)) else true := by
    intro x y
    split
    · next hs =>
        have hsr : (b.rectangle destBits sourceBits halftoneBits).sourceRaster =
          (b.sourceFormWidth + 15) / 16 := hc.sourceRaster_eq hs
        have hsb : (b.rectangle destBits sourceBits halftoneBits).sourceBits = sourceBits :=
          if_pos hs
        rw [hsr, hsb, hx, hy]
    · rfl
  have hhalf : ∀ y, ((b.rectangle destBits sourceBits halftoneBits).halftoneAt m y).testBit k =
      if b.halftoneForm ≠ nilPointer then (m.wordAt halftoneBits (y % 16)).testBit k
      else true := by
    intro y
    have heq : (b.rectangle destBits sourceBits halftoneBits).halftoneForm =
      b.halftoneForm := rfl
    unfold halftoneAt
    rw [heq]
    by_cases hform : b.halftoneForm ≠ nilPointer
    · have hhb : (b.rectangle destBits sourceBits halftoneBits).halftoneBits = halftoneBits :=
        if_pos hform
      rw [if_pos hform, if_pos hform, hhb]
    · rw [if_neg hform, if_neg hform, testBit_allOnes_word hk]
  unfold targetBit copiedBit
  rw [hraster]
  refine if_congr ?_ (congrArg₂ (combine b.combinationRule)
    (congrArg₂ and (hpixel _ _) (hhalf _)) rfl) rfl
  rw [inside_iff]
  exact ⟨fun ⟨h1, h2, h3⟩ => ⟨h3, h1, h2⟩, fun ⟨h3, h1, h2⟩ => ⟨h1, h2, h3⟩⟩

/-- What a copy is to do: report success, change nothing but the bitmap of the
destination, and there every bit as `copiedBit` has it. -/
def Copied (b : BitBlt) (m : ObjectMemory) (destBits sourceBits halftoneBits : Nat)
    (r : Bool × BitBlt) (t : ObjectMemory) : Prop :=
  r.1 = true ∧ OnlyFields destBits m t ∧
    ∀ index, 0 ≤ index → index < formWordCount b.destFormWidth b.destFormHeight →
      ∀ k < 16, (t.wordAt destBits index).testBit k =
        copiedBit b m destBits sourceBits halftoneBits index k

theorem Operands.ready (ho : Operands m b destBits sourceBits halftoneBits)
    (hapart : b.sourceForm ≠ nilPointer →
      sourceBits = destBits ∨ m.Separate destBits sourceBits) :
    Ready (b.rectangle destBits sourceBits halftoneBits) m := by
  refine ⟨ho.dest.isBitmap, fun hs => ?_, fun hs => ?_, fun hh => ?_, ho.rule⟩
  · have hsb : (b.rectangle destBits sourceBits halftoneBits).sourceBits = sourceBits :=
      if_pos hs
    have hsl : (b.rectangle destBits sourceBits halftoneBits).sourceBitsWordLength =
      formWordCount b.sourceFormWidth b.sourceFormHeight := if_pos hs
    rw [hsb, hsl]
    exact (ho.source hs).isBitmap
  · have hsb : (b.rectangle destBits sourceBits halftoneBits).sourceBits = sourceBits :=
      if_pos hs
    rw [hsb]
    exact hapart hs
  · have hhb : (b.rectangle destBits sourceBits halftoneBits).halftoneBits = halftoneBits :=
      if_pos hh
    rw [hhb]
    exact (ho.halftone hh).2.2

/-- The sweep that `copyBits` sets up. -/
def sweepOf (b : BitBlt) (destBits sourceBits halftoneBits : Nat) : BitBlt :=
  calculateOffsets (checkOverlap (edgeMasks (b.rectangle destBits sourceBits halftoneBits)))

theorem wp_computeMasks (ho : Operands m b destBits sourceBits halftoneBits)
    (Q : BitBlt → ObjectMemory → Prop) :
    Wp (computeMasks (updateBounds (clipRange b))) Q m ↔
      Q (edgeMasks (b.rectangle destBits sourceBits halftoneBits)) m := by
  have ho' : Operands m (updateBounds (clipRange b)) destBits sourceBits halftoneBits :=
    ⟨ho.dest, ho.dest_ne_nil, ho.source, ho.noSource, ho.halftone, ho.rule⟩
  rw [computeMasks, wp_bind, wp_findBits ho', wp_pure]
  rfl

theorem wp_copyMasked (hsource : b.sourceForm ≠ nilPointer →
      formWordCount b.sourceFormWidth b.sourceFormHeight = b.sourceBitsWordLength)
    (hdest : formWordCount b.destFormWidth b.destFormHeight = b.destBitsWordLength)
    (Q : Bool × BitBlt → ObjectMemory → Prop) :
    Wp (copyMasked b) Q m ↔ Wp (copyLoop (calculateOffsets (checkOverlap b)))
      (fun _ t => Q (true, calculateOffsets (checkOverlap b)) t) m := by
  rw [copyMasked, if_neg fun h => h.2 (hsource h.1), if_neg (not_not.mpr hdest), wp_bind]
  simp only [wp_pure]

/-- `copyBits` on a rectangle that is not empty is its loop. -/
theorem wp_copyBits_loop (ho : Operands m b destBits sourceBits halftoneBits)
    (hw : 0 < (clipRange b).w) (hh : 0 < (clipRange b).h)
    {Q : Bool × BitBlt → ObjectMemory → Prop}
    (h : Wp (copyLoop (b.sweepOf destBits sourceBits halftoneBits))
      (fun _ t => Q (true, b.sweepOf destBits sourceBits halftoneBits) t) m) :
    Wp (do copyBits (← new b)) Q m := by
  have hsource : b.sourceForm ≠ nilPointer →
      formWordCount b.sourceFormWidth b.sourceFormHeight =
        (b.rectangle destBits sourceBits halftoneBits).sourceBitsWordLength :=
    fun h => (if_pos h).symm
  rw [wp_bind, wp_new ho, copyBits, if_pos ⟨hw, hh⟩, wp_bind, wp_computeMasks ho,
    wp_copyMasked hsource rfl]
  exact h

/-- An empty rectangle is copied. -/
theorem wp_copyBits_empty (ho : Operands m b destBits sourceBits halftoneBits)
    (h : ¬(0 < (clipRange b).w ∧ 0 < (clipRange b).h)) :
    Wp (do copyBits (← new b)) (Copied b m destBits sourceBits halftoneBits) m := by
  rw [wp_bind, wp_new ho, copyBits, if_neg h, wp_pure]
  refine ⟨rfl, .refl _ _, fun index h0 hlt k hk => ?_⟩
  unfold copiedBit
  rw [if_neg]
  rw [inside_iff]
  omega

/-- Where `copyBits` sets up a sweep over the clipped rectangle, it copies. -/
theorem wp_copyBits (ho : Operands m b destBits sourceBits halftoneBits)
    (hapart : b.sourceForm ≠ nilPointer →
      sourceBits = destBits ∨ m.Separate destBits sourceBits)
    (hsweep : 0 < (clipRange b).w → 0 < (clipRange b).h →
      Sweep (b.rectangle destBits sourceBits halftoneBits)
        (b.sweepOf destBits sourceBits halftoneBits)) :
    Wp (do copyBits (← new b)) (Copied b m destBits sourceBits halftoneBits) m := by
  by_cases hpos : 0 < (clipRange b).w ∧ 0 < (clipRange b).h
  · have hs := hsweep hpos.1 hpos.2
    refine wp_copyBits_loop ho hpos.1 hpos.2
      ((wp_copyLoop hs (hs.ready (ho.ready hapart))).mono ?_)
    rintro _ t ⟨honly, hbits⟩
    refine ⟨rfl, honly, fun index h0 hlt k hk => ?_⟩
    rw [← targetBit_rectangle hpos.1 hpos.2 index hk]
    exact hbits index h0 (hs.destLength ▸ hlt) k hk
  · exact wp_copyBits_empty ho hpos

/-- Between different forms, with bitmaps that do not overlap, `copyBits` is the copy pixel by
pixel: every bit of the destination is the one that the rule makes of source, halftone and
destination, or the one before. -/
theorem copyBits_differentForms (ho : Operands m b destBits sourceBits halftoneBits)
    (hdiff : b.sourceForm ≠ nilPointer →
      b.sourceForm ≠ b.destForm ∧ sourceBits ≠ destBits ∧ m.Separate destBits sourceBits) :
    Wp (do copyBits (← new b)) (Copied b m destBits sourceBits halftoneBits) m := by
  refine wp_copyBits ho (fun hs => .inr (hdiff hs).2.2) fun hw hh => ?_
  have hforms : b.sourceForm ≠ b.destForm := by
    by_cases hs : b.sourceForm = nilPointer
    · rw [hs]
      exact ho.dest_ne_nil.symm
    · exact (hdiff hs).1
  rw [sweepOf, checkOverlap_different
    (a := b.rectangle destBits sourceBits halftoneBits) hforms]
  refine (clipped_rectangle hw hh).sweepForward (.inl ⟨rfl, rfl, rfl⟩) fun hs heq => ?_
  have hsb : (b.rectangle destBits sourceBits halftoneBits).sourceBits = sourceBits :=
    if_pos hs
  rw [hsb] at heq
  exact absurd heq (hdiff hs).2.1

/-! ## Two small forms -/

/-- The forms 60 and 64, of one line of 16 pixels, with the bitmaps 62 and 66. -/
def smallForms : ObjectMemory :=
  (((ObjectMemory.blank.place 60 256 100 [5, 0, 62, 33, 3]).place 62 256 110 [3, 0, 0xF00]).place
    64 256 120 [5, 0, 66, 33, 3]).place 66 256 130 [3, 0, 0xF000]

theorem isForm_smallForms : IsForm smallForms 60 62 16 1 ∧ IsForm smallForms 64 66 16 1 := by
  constructor <;>
    exact ⟨⟨by decide, by decide, by decide, by decide, by decide⟩,
      ⟨by decide, by decide, by decide, by decide⟩,
      ⟨by decide, by decide, by decide, by decide⟩,
      ⟨by decide, by decide, by decide, by decide⟩, by decide, by decide, by decide⟩

/-- Four pixels from form 64 to form 60, two places further right. -/
def smallCopy : BitBlt where
  destForm := 60
  sourceForm := 64
  halftoneForm := nilPointer
  combinationRule := 3
  destX := 2
  destY := 0
  width := 4
  height := 1
  sourceX := 0
  sourceY := 0
  clipX := 0
  clipY := 0
  clipWidth := 16
  clipHeight := 1
  sourceFormWidth := 16
  sourceFormHeight := 1
  destFormWidth := 16
  destFormHeight := 1

theorem copyBits_smallCopy :
    Wp (do copyBits (← new smallCopy)) (Copied smallCopy smallForms 62 66 nilPointer)
      smallForms :=
  copyBits_differentForms ⟨isForm_smallForms.1, by decide, fun _ => isForm_smallForms.2,
    fun h => absurd h (by decide), fun h => absurd rfl h, by decide⟩
    fun _ => ⟨by decide, by decide, fun _ => by decide⟩

end BitBlt

end Crosstalk
