import Crosstalk.BitBlt.Spoiled

/-!
# Copying a form onto itself

`copyBits` moves a rectangle of a form as if it went through a buffer, whatever
the overlap, with one exception: a copy to the right in the same rows into a
single word that the line does not fill.
-/

namespace Crosstalk

namespace BitBlt

open ObjectMemory

/-- The copies of a form onto itself that go wrong. After clipping, the line
goes to the right in the same rows, into a part of a single word, and the rule
depends on the source; excepted is the one line in the corner of the form that
takes only zeros beyond its left edge, where the rule keeps the destination
for them. -/
def GoesWrong (b : BitBlt) : Prop :=
  let c := clipRange b
  0 < c.w ∧ 0 < c.h ∧ c.sy = c.dy ∧ c.sx < c.dx ∧ c.w ≤ 16 - c.dx % 16 ∧ c.w < 16 ∧
    b.combinationRule ≠ 5 ∧
    ¬(c.w = 16 - c.dx % 16 ∧ c.sx = 0 ∧ c.sy = 0 ∧ c.h = 1 ∧
      (b.combinationRule = 4 ∨ b.combinationRule = 6 ∨ b.combinationRule = 7))

instance (b : BitBlt) : Decidable (GoesWrong b) := by
  unfold GoesWrong; infer_instance

/-- The operands of a copy of a form onto itself, without a halftone. -/
structure SameForm (m : ObjectMemory) (b : BitBlt) (bits : Nat) : Prop where
  operands : Operands m b bits bits nilPointer
  same : b.sourceForm = b.destForm
  halftone : b.halftoneForm = nilPointer
  /-- The form is another object than its bitmap. -/
  separate : m.Separate bits b.destForm

variable {b : BitBlt} {m t : ObjectMemory} {bits : Nat}

namespace SameForm

theorem source_ne_nil (h : SameForm m b bits) : b.sourceForm ≠ nilPointer := by
  rw [h.same]
  exact h.operands.dest_ne_nil

theorem width_eq (h : SameForm m b bits) : b.sourceFormWidth = b.destFormWidth := by
  rw [← h.operands.dest.width_eq, ← (h.operands.source h.source_ne_nil).width_eq, h.same]

theorem height_eq (h : SameForm m b bits) : b.sourceFormHeight = b.destFormHeight := by
  rw [← h.operands.dest.height_eq, ← (h.operands.source h.source_ne_nil).height_eq, h.same]

/-- Another content of the bitmap. -/
theorem of_onlyFields (h : SameForm m b bits) (ht : OnlyFields bits m t) :
    SameForm t b bits := by
  have hp := h.operands.dest.isBitmap.heap
  have hdest := h.operands.dest
  have hfield : ∀ i, HasField m b.destForm i → HasField t b.destForm i ∧
      t.chunkWord b.destForm (headerSize + i.toNat) =
        m.chunkWord b.destForm (headerSize + i.toNat) := by
    intro i hf
    have hsize := hf.lt_size
    have h0 : t.chunkWord b.destForm 0 = m.chunkWord b.destForm 0 :=
      ht.chunkWord_separate hp h.separate (by have := hf.nonneg; omega)
    refine ⟨⟨hf.isEntry, hf.nonneg, ?_, ?_⟩, ?_⟩
    · rw [h0]
      exact hsize
    · rw [ht.location_eq hp]
      exact hf.inside
    · exact ht.chunkWord_separate hp h.separate (by have := hf.nonneg; omega)
  have hform : IsForm t b.destForm bits b.destFormWidth b.destFormHeight := by
    obtain ⟨f0, h0⟩ := hfield 0 hdest.bitsField
    obtain ⟨f1, h1⟩ := hfield 1 hdest.widthField
    obtain ⟨f2, h2⟩ := hfield 2 hdest.heightField
    exact ⟨ht.isBitmap hp hdest.isBitmap, f0, f1, f2, h0.trans hdest.bits_eq,
      (congrArg integerValueOf h1).trans hdest.width_eq,
      (congrArg integerValueOf h2).trans hdest.height_eq⟩
  refine ⟨⟨hform, h.operands.dest_ne_nil, fun _ => ?_, fun hn => absurd hn h.source_ne_nil,
    fun hn => absurd h.halftone hn, h.operands.rule⟩, h.same, h.halftone, ?_⟩
  · rw [h.same, h.width_eq, h.height_eq]
    exact hform
  · have := hdest.bitsField.lt_size
    exact ht.separate hp h.separate (by omega)

theorem sourceBits_eq (h : SameForm m b bits) :
    (b.rectangle bits bits nilPointer).sourceBits = bits := if_pos h.source_ne_nil

theorem raster_eq (h : SameForm m b bits) :
    (b.rectangle bits bits nilPointer).sourceRaster =
      (b.rectangle bits bits nilPointer).destRaster := by
  have hr : (b.rectangle bits bits nilPointer).sourceRaster =
      (b.sourceFormWidth - 1).tdiv 16 + 1 := if_pos h.source_ne_nil
  rw [hr, h.width_eq]
  rfl

theorem length_eq (h : SameForm m b bits) :
    (b.rectangle bits bits nilPointer).sourceBitsWordLength =
      (b.rectangle bits bits nilPointer).destBitsWordLength := by
  have hl : (b.rectangle bits bits nilPointer).sourceBitsWordLength =
      formWordCount b.sourceFormWidth b.sourceFormHeight := if_pos h.source_ne_nil
  rw [hl, h.width_eq, h.height_eq]
  rfl

theorem ready (h : SameForm m b bits) : Ready (b.rectangle bits bits nilPointer) m :=
  h.operands.ready fun _ => .inl rfl

/-- The rectangle of a copy to the right, in the same rows and into one word. -/
theorem oneWord (h : SameForm m b bits) (hw : 0 < (clipRange b).w)
    (hh : 0 < (clipRange b).h) (hline : (clipRange b).sy = (clipRange b).dy)
    (hright : (clipRange b).sx < (clipRange b).dx)
    (hnarrow : (clipRange b).w ≤ 16 - (clipRange b).dx % 16) :
    OneWord (b.rectangle bits bits nilPointer) :=
  ⟨clipped_rectangle hw hh, h.source_ne_nil, h.sourceBits_eq, h.length_eq, h.raster_eq,
    h.halftone, hline, hright, hnarrow⟩

/-- Any other copy is a sweep, as is one that fills its word. -/
theorem sweep (h : SameForm m b bits) (hw : 0 < (clipRange b).w) (hh : 0 < (clipRange b).h)
    (hwide : (clipRange b).sy = (clipRange b).dy → (clipRange b).sx < (clipRange b).dx →
      (clipRange b).w ≤ 16 - (clipRange b).dx % 16 → 16 ≤ (clipRange b).w) :
    Sweep (b.rectangle bits bits nilPointer) (b.sweepOf bits bits nilPointer) := by
  have hc : Clipped (b.rectangle bits bits nilPointer) := clipped_rectangle hw hh
  have hraster := h.raster_eq
  rw [sweepOf, checkOverlap_same (a := b.rectangle bits bits nilPointer) h.same]
  split
  · next h1 =>
      refine hc.sweepForward (.inl ⟨rfl, rfl, rfl⟩) fun _ _ => ⟨hraster, ?_, ?_⟩ <;> omega
  · next h1 =>
      split
      · next h2 =>
          refine hc.sweepForward (.inr ⟨rfl, rfl, rfl⟩) fun _ _ => ⟨hraster, ?_, ?_⟩ <;> omega
      · next h2 =>
          have hline : (b.rectangle bits bits nilPointer).sy =
            (b.rectangle bits bits nilPointer).dy := by omega
          split
          · next h3 =>
              refine hc.sweepBackward h.source_ne_nil ?_ fun _ => ⟨hraster, hline, h3.le⟩
              have hdx := hc.dx_nonneg
              have := hwide hline h3
              rw [nWords_eq hc.w_pos]
              change 1 < ((clipRange b).dx + (clipRange b).w - 1) / 16 -
                (clipRange b).dx / 16 + 1 ∨ (clipRange b).dx % 16 = 0 ∧ (clipRange b).w = 16
              omega
          · next h3 =>
              refine hc.sweepForward (.inl ⟨rfl, rfl, rfl⟩) fun _ _ => ⟨hraster, ?_, ?_⟩ <;>
                omega

theorem sweepOf_oneWord (h : SameForm m b bits)
    (hline : (clipRange b).sy = (clipRange b).dy)
    (hright : (clipRange b).sx < (clipRange b).dx) :
    b.sweepOf bits bits nilPointer = (b.rectangle bits bits nilPointer).sweepBackward := by
  rw [sweepOf, checkOverlap_same (a := b.rectangle bits bits nilPointer) h.same]
  simp only [rectangle_dx, rectangle_dy, rectangle_sx, rectangle_sy, hline, lt_irrefl,
    if_false, if_pos hright]

/-- `copyBits` copies if its loop leaves `targetBit` behind. -/
theorem wp_copied (h : SameForm m b bits) (hw : 0 < (clipRange b).w)
    (hh : 0 < (clipRange b).h)
    (hloop : Wp (copyLoop (b.sweepOf bits bits nilPointer)) (fun _ t => OnlyFields bits m t ∧
      ∀ index, 0 ≤ index → ∀ k < 16, (t.wordAt bits index).testBit k =
        targetBit (b.rectangle bits bits nilPointer) m index k) m) :
    Wp (do copyBits (← new b)) (Copied b m bits bits nilPointer) m := by
  refine wp_copyBits_loop h.operands hw hh (hloop.mono ?_)
  rintro _ t ⟨honly, hbits⟩
  refine ⟨rfl, honly, fun index h0 _ k hk => ?_⟩
  rw [← targetBit_rectangle hw hh index hk]
  exact hbits index h0 k hk

/-- A rule that keeps the destination. -/
theorem wp_keepsDest (h : SameForm m b bits) (hw : 0 < (clipRange b).w)
    (hh : 0 < (clipRange b).h) (hline : (clipRange b).sy = (clipRange b).dy)
    (hright : (clipRange b).sx < (clipRange b).dx)
    (hnarrow : (clipRange b).w ≤ 16 - (clipRange b).dx % 16) (hrule : b.combinationRule = 5) :
    Wp (do copyBits (← new b)) (Copied b m bits bits nilPointer) m := by
  have ha := h.oneWord hw hh hline hright hnarrow
  have hkeep : ∀ s d, combine (b.rectangle bits bits nilPointer).combinationRule s d = d := by
    intro s d
    change combine b.combinationRule s d = d
    rw [hrule]
    rfl
  refine h.wp_copied hw hh ?_
  rw [h.sweepOf_oneWord hline hright]
  refine (ha.wp_copyLoop_same h.ready fun _ _ _ => hkeep).mono ?_
  rintro _ t ⟨honly, hsame⟩
  refine ⟨honly, fun index h0 k hk => ?_⟩
  rw [rectangle_destBits] at hsame
  rw [hsame index h0]
  by_cases hin : ∃ y, (clipRange b).dy ≤ y ∧ y < (clipRange b).dy + (clipRange b).h ∧
      index = wordIndex (b.rectangle bits bits nilPointer) y
  · obtain ⟨y, h1, h2, rfl⟩ := hin
    rw [ha.targetBit_word h1 h2 hk, hkeep, ite_self]
    rfl
  · rw [ha.targetBit_other (fun y h1 h2 h => hin ⟨y, h1, h2, h⟩) hk]
    rfl

/-- One line into the end of the first word of the form, with a rule that keeps
the destination where the source is 0. -/
theorem wp_corner (h : SameForm m b bits) (hw : 0 < (clipRange b).w)
    (hline : (clipRange b).sy = (clipRange b).dy)
    (hright : (clipRange b).sx < (clipRange b).dx)
    (hend : (clipRange b).w = 16 - (clipRange b).dx % 16) (hsx : (clipRange b).sx = 0)
    (hsy : (clipRange b).sy = 0) (hh : (clipRange b).h = 1)
    (hrule : ∀ d, combine b.combinationRule false d = d) :
    Wp (do copyBits (← new b)) (Copied b m bits bits nilPointer) m := by
  have ha := h.oneWord hw (by omega) hline hright hend.le
  refine h.wp_copied hw (by omega) ?_
  rw [h.sweepOf_oneWord hline hright]
  refine (ha.wp_copyLoop_first h.ready).mono ?_
  rintro _ t ⟨honly, t', source, hcopied, -, hone⟩
  obtain rfl := hone hh
  simp only [rectangle_dy] at hcopied
  refine ⟨honly, fun index h0 k hk => ?_⟩
  by_cases hin : index = wordIndex (b.rectangle bits bits nilPointer) (clipRange b).dy
  · subst hin
    rw [ha.targetBit_word (y := (clipRange b).dy) le_rfl
      (by simp only [rectangle_dy, rectangle_h]; omega) hk]
    refine (hcopied.stored_end hend hk).trans ?_
    rw [shiftedBit]
    have hx : sourcePixel (b.rectangle bits bits nilPointer) k =
        16 * ((clipRange b).dx / 16) + (15 - k) - (clipRange b).dx + (clipRange b).sx := rfl
    have hdy : (clipRange b).dy = 0 := by omega
    simp only [hdy, zero_mul, zero_add, rectangle_combinationRule, rectangle_dx, rectangle_w,
      Nat.zero_testBit, InLine]
    by_cases hneg : 0 ≤ sourcePixel (b.rectangle bits bits nilPointer) k
    · rw [if_pos (by omega), if_pos (by omega)]
    · rw [if_neg (by omega), if_neg (by omega), hrule]
  · rw [ha.targetBit_other (fun y h1 h2 => ?_) hk]
    · rw [rectangle_destBits]
      exact congrArg (Nat.testBit · k) (hcopied.kept index h0 hin)
    · simp only [rectangle_dy, rectangle_h] at h1 h2
      obtain rfl : y = (clipRange b).dy := by omega
      exact hin

end SameForm

/-- Every other copy of a form onto itself is the copy pixel by pixel. -/
theorem copyBits_of_not_goesWrong (h : SameForm m b bits) (hok : ¬GoesWrong b) :
    Wp (do copyBits (← new b)) (Copied b m bits bits nilPointer) m := by
  by_cases hpos : 0 < (clipRange b).w ∧ 0 < (clipRange b).h
  · obtain ⟨hw, hh⟩ := hpos
    by_cases hone : (clipRange b).sy = (clipRange b).dy ∧
        (clipRange b).sx < (clipRange b).dx ∧
        (clipRange b).w ≤ 16 - (clipRange b).dx % 16 ∧ (clipRange b).w < 16
    · obtain ⟨hline, hright, hnarrow, hpart⟩ := hone
      by_cases h5 : b.combinationRule = 5
      · exact h.wp_keepsDest hw hh hline hright hnarrow h5
      · have hcorner := not_not.mp fun hc =>
          hok ⟨hw, hh, hline, hright, hnarrow, hpart, h5, hc⟩
        obtain ⟨hend, hsx, hsy, h1, hrule⟩ := hcorner
        refine h.wp_corner hw hline hright hend hsx hsy h1 fun d => ?_
        rcases hrule with hr | hr | hr <;> rw [hr] <;> simp [combine]
    · exact wp_copyBits h.operands (fun _ => .inl rfl) fun hw hh =>
        h.sweep hw hh fun h1 h2 h3 => not_lt.mp fun h4 => hone ⟨h1, h2, h3, h4⟩
  · exact wp_copyBits_empty h.operands hpos

/-- A loop that spoils a line spoils the copy. -/
theorem SameForm.not_copied (h : SameForm m b bits) (hw : 0 < (clipRange b).w)
    (hh : 0 < (clipRange b).h) (hline : (clipRange b).sy = (clipRange b).dy)
    (hright : (clipRange b).sx < (clipRange b).dx)
    (hnarrow : (clipRange b).w ≤ 16 - (clipRange b).dx % 16)
    (hwrong : Wp (copyLoop (sweepBackward (b.rectangle bits bits nilPointer)))
      (fun _ t => ¬OneWord.LinesRight (b.rectangle bits bits nilPointer) m t) m) :
    ¬Wp (do copyBits (← new b)) (Copied b m bits bits nilPointer) m := by
  intro hcopy
  have ha := h.oneWord hw hh hline hright hnarrow
  have hloop := wp_copyBits_loop h.operands hw hh
    (Q := fun _ t => ¬OneWord.LinesRight (b.rectangle bits bits nilPointer) m t)
    (by rw [h.sweepOf_oneWord hline hright]; exact hwrong)
  obtain ⟨_, t, -, ⟨-, -, hbits⟩, hnot⟩ := hcopy.and_wlp hloop.toWlp
  refine hnot fun y h0 h1 k hk => ?_
  have hraster := ha.raster_lt
  have hdx := ha.clipped.dx_nonneg
  have hin := ha.line_bounds h0 h1
  rw [targetBit_rectangle hw hh _ hk]
  exact hbits _ (by unfold wordIndex; omega)
    (show _ < (b.rectangle bits bits nilPointer).destBitsWordLength by
      unfold wordIndex; omega) k hk

/-- A copy of a form onto itself is the copy pixel by pixel of what the form was
before, whatever the bitmap holds, exactly unless `GoesWrong`. -/
theorem copyBits_sameForm (h : SameForm m b bits) :
    (∀ t, OnlyFields bits m t →
      Wp (do copyBits (← new b)) (Copied b t bits bits nilPointer) t) ↔ ¬GoesWrong b := by
  constructor
  · rintro hall ⟨hw, hh, hline, hright, hnarrow, hpart, h5, hcorner⟩
    obtain ⟨t, honly, hwrong⟩ :=
      (h.oneWord hw hh hline hright hnarrow).exists_wrong h.ready hpart h5 hcorner
    exact (h.of_onlyFields honly).not_copied hw hh hline hright hnarrow hwrong (hall t honly)
  · exact fun hok t honly => copyBits_of_not_goesWrong (h.of_onlyFields honly) hok

/-- Four pixels of form 60, two places to the left. -/
def smallMoveLeft : BitBlt := { smallCopy with sourceForm := 60, sourceX := 6, destX := 4 }

theorem sameForm_small {b : BitBlt} (hdest : b.destForm = 60) (hsource : b.sourceForm = 60)
    (hhalf : b.halftoneForm = nilPointer)
    (hsize : (b.destFormWidth, b.destFormHeight, b.sourceFormWidth, b.sourceFormHeight) =
      (16, 1, 16, 1)) (hrule : 0 ≤ b.combinationRule ∧ b.combinationRule ≤ 15) :
    SameForm smallForms b 62 := by
  obtain ⟨h1, h2, h3, h4⟩ := by simpa only [Prod.mk.injEq] using hsize
  refine ⟨⟨?_, by rw [hdest]; decide, fun _ => ?_, fun h => ?_, fun h => absurd hhalf h, hrule⟩,
    hsource.trans hdest.symm, hhalf, fun _ => by rw [hdest]; decide⟩
  · rw [hdest, h1, h2]
    exact isForm_smallForms.1
  · rw [hsource, h3, h4]
    exact isForm_smallForms.1
  · rw [hsource] at h
    exact absurd h (by decide)

theorem copyBits_smallMoveLeft :
    Wp (do copyBits (← new smallMoveLeft))
      (Copied smallMoveLeft smallForms 62 62 nilPointer) smallForms :=
  (copyBits_sameForm (sameForm_small rfl rfl rfl rfl (by decide))).mpr (by decide)
    smallForms (.refl _ _)

/-- And two places to the right. -/
def smallMoveRight : BitBlt := { smallCopy with sourceForm := 60, sourceX := 4, destX := 6 }

/-- Pixel 8 is to become pixel 6, which is 1. The copy does nothing. -/
theorem not_copyBits_smallMoveRight :
    SameForm smallForms smallMoveRight 62 ∧
      ¬Wp (do copyBits (← new smallMoveRight))
        (Copied smallMoveRight smallForms 62 62 nilPointer) smallForms := by
  refine ⟨sameForm_small rfl rfl rfl rfl (by decide), ?_⟩
  rintro ⟨r, t, hrun, -, -, hbits⟩
  have hleft : ((do copyBits (← new smallMoveRight) : OM _) smallForms).map
      (fun out => (out.2.wordAt 62 0).testBit 7) = some false := by decide
  have hpixel : copiedBit smallMoveRight smallForms 62 62 nilPointer 0 7 = true := by decide
  have hbit := hbits 0 le_rfl (by decide) 7 (by decide)
  rw [hrun, Option.map_some, hbit, hpixel] at hleft
  cases hleft

end BitBlt

end Crosstalk
