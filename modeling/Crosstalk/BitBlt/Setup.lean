import Crosstalk.BitBlt.Sweep
import Mathlib.Tactic.SplitIfs

/-!
# Setting up a copy

The clipped rectangle is the intersection of the rectangles it comes from, and
the stages after the clipping set up a sweep over it: from left to right in
general, and from right to left when a form is copied to the right onto itself.
-/

namespace Crosstalk

namespace BitBlt

/-! ## Clipping -/

section Span

variable {clip clipExtent destFormExtent dest extent source sourceFormExtent x : Int}

theorem clipToDest_offset :
    (clipToDest clip clipExtent destFormExtent dest extent source).source -
      (clipToDest clip clipExtent destFormExtent dest extent source).dest =
      source - dest := by
  simp only [clipToDest]
  split_ifs <;> omega

theorem mem_clipToDest :
    (clipToDest clip clipExtent destFormExtent dest extent source).dest ≤ x ∧
      x < (clipToDest clip clipExtent destFormExtent dest extent source).dest +
        (clipToDest clip clipExtent destFormExtent dest extent source).extent ↔
      (dest ≤ x ∧ x < dest + extent) ∧ (clip ≤ x ∧ x < clip + clipExtent) ∧
        0 ≤ x ∧ x < destFormExtent := by
  simp only [clipToDest]
  split_ifs <;> omega

theorem clipToSource_offset (s : Span) :
    (clipToSource s sourceFormExtent).source - (clipToSource s sourceFormExtent).dest =
      s.source - s.dest := by
  simp only [clipToSource]
  split_ifs <;> omega

theorem mem_clipToSource (s : Span) :
    (clipToSource s sourceFormExtent).dest ≤ x ∧
      x < (clipToSource s sourceFormExtent).dest + (clipToSource s sourceFormExtent).extent ↔
      (s.dest ≤ x ∧ x < s.dest + s.extent) ∧
        0 ≤ x + (s.source - s.dest) ∧ x + (s.source - s.dest) < sourceFormExtent := by
  simp only [clipToSource]
  split_ifs <;> omega

variable (clip clipExtent destFormExtent dest extent source sourceFormExtent)
  (hasSource : Prop) [Decidable hasSource]

/-- Clipping moves the two ends of the copy alike. -/
theorem clipSpan_offset :
    (clipSpan hasSource clip clipExtent destFormExtent dest extent source
      sourceFormExtent).source -
      (clipSpan hasSource clip clipExtent destFormExtent dest extent source
        sourceFormExtent).dest = source - dest := by
  unfold clipSpan
  split
  · rw [clipToSource_offset, clipToDest_offset]
  · rw [clipToDest_offset]

/-- The clipped span is the intersection of the spans it comes from. -/
theorem mem_clipSpan :
    (clipSpan hasSource clip clipExtent destFormExtent dest extent source
      sourceFormExtent).dest ≤ x ∧
      x < (clipSpan hasSource clip clipExtent destFormExtent dest extent source
        sourceFormExtent).dest +
        (clipSpan hasSource clip clipExtent destFormExtent dest extent source
          sourceFormExtent).extent ↔
      ((dest ≤ x ∧ x < dest + extent) ∧ (clip ≤ x ∧ x < clip + clipExtent) ∧
        0 ≤ x ∧ x < destFormExtent) ∧
      (hasSource → 0 ≤ x + (source - dest) ∧ x + (source - dest) < sourceFormExtent) := by
  unfold clipSpan
  split
  · next h => rw [mem_clipToSource, mem_clipToDest, clipToDest_offset, forall_prop_of_true h]
  · next h => rw [mem_clipToDest, forall_prop_of_false h, and_true]

end Span

/-- What `copyBits` knows of a rectangle when it comes to the masks: it is not
empty, it lies inside both forms, and the bitmaps have the words of the forms. -/
structure Clipped (a : BitBlt) : Prop where
  w_pos : 0 < a.w
  h_pos : 0 < a.h
  dx_nonneg : 0 ≤ a.dx
  dx_le : a.dx + a.w ≤ a.destFormWidth
  dy_nonneg : 0 ≤ a.dy
  dy_le : a.dy + a.h ≤ a.destFormHeight
  destRaster : a.destRaster = (a.destFormWidth - 1).tdiv 16 + 1
  destLength : a.destBitsWordLength = formWordCount a.destFormWidth a.destFormHeight
  sx_nonneg : a.sourceForm ≠ nilPointer → 0 ≤ a.sx
  sx_le : a.sourceForm ≠ nilPointer → a.sx + a.w ≤ a.sourceFormWidth
  sy_nonneg : a.sourceForm ≠ nilPointer → 0 ≤ a.sy
  sy_le : a.sourceForm ≠ nilPointer → a.sy + a.h ≤ a.sourceFormHeight
  sourceRaster : a.sourceForm ≠ nilPointer →
    a.sourceRaster = (a.sourceFormWidth - 1).tdiv 16 + 1
  sourceLength : a.sourceForm ≠ nilPointer →
    a.sourceBitsWordLength = formWordCount a.sourceFormWidth a.sourceFormHeight

/-- The pitch of a form that is at least one pixel wide. -/
theorem raster_eq {width : Int} (h : 0 < width) :
    (width - 1).tdiv 16 + 1 = (width + 15) / 16 := by
  rw [Int.tdiv_eq_ediv_of_nonneg (by omega)]
  omega

theorem formWordCount_eq {width : Int} (h : 0 < width) (height : Int) :
    formWordCount width height = (width + 15) / 16 * height := by
  rw [formWordCount, Int.tdiv_eq_ediv_of_nonneg (by omega)]

/-- Lines inside a form are lines inside its bitmap. -/
theorem lines_inside {width height bottom : Int} (hw : 0 < width) (hle : bottom ≤ height) :
    bottom * ((width - 1).tdiv 16 + 1) ≤ formWordCount width height := by
  rw [raster_eq hw, formWordCount_eq hw, mul_comm]
  exact mul_le_mul_of_nonneg_left hle (by omega)

variable {a : BitBlt}

theorem Clipped.destRaster_eq (hc : Clipped a) :
    a.destRaster = (a.destFormWidth + 15) / 16 := by
  have := hc.w_pos
  have := hc.dx_nonneg
  have := hc.dx_le
  rw [hc.destRaster, raster_eq (by omega)]

theorem Clipped.sourceRaster_eq (hc : Clipped a) (hs : a.sourceForm ≠ nilPointer) :
    a.sourceRaster = (a.sourceFormWidth + 15) / 16 := by
  have := hc.w_pos
  have := hc.sx_nonneg hs
  have := hc.sx_le hs
  rw [hc.sourceRaster hs, raster_eq (by omega)]

theorem Clipped.destLines (hc : Clipped a) :
    (a.dy + a.h) * a.destRaster ≤ a.destBitsWordLength := by
  have := hc.w_pos
  have := hc.dx_nonneg
  have := hc.dx_le
  rw [hc.destRaster, hc.destLength]
  exact lines_inside (by omega) hc.dy_le

theorem Clipped.sourceLines (hc : Clipped a) (hs : a.sourceForm ≠ nilPointer) :
    (a.sy + a.h) * a.sourceRaster ≤ a.sourceBitsWordLength := by
  have := hc.w_pos
  have := hc.sx_nonneg hs
  have := hc.sx_le hs
  rw [hc.sourceRaster hs, hc.sourceLength hs]
  exact lines_inside (by omega) (hc.sy_le hs)

/-! ## From left to right -/

/-- The sweep from left to right, from the line `dy` on, with source line `sy`. -/
def sweepForward (a : BitBlt) (vDir sy dy : Int) : BitBlt :=
  calculateOffsets { edgeMasks a with hDir := 1, vDir, sy, dy }

theorem Clipped.sweepForward (hc : Clipped a) {vDir sy dy : Int}
    (hlines : vDir = 1 ∧ dy = a.dy ∧ sy = a.sy ∨
      vDir = -1 ∧ dy = a.dy + a.h - 1 ∧ sy = a.sy + a.h - 1)
    (hover : a.sourceForm ≠ nilPointer → a.sourceBits = a.destBits →
      a.sourceRaster = a.destRaster ∧ 0 ≤ vDir * (a.sy - a.dy) ∧
        (a.sy = a.dy → a.dx ≤ a.sx)) :
    Sweep a (BitBlt.sweepForward a vDir sy dy) := by
  have hw := hc.w_pos
  have hdx := hc.dx_nonneg
  have hdx' := hc.dx_le
  have hn := nWords_eq (b := a) hw
  obtain ⟨b, hb⟩ : ∃ b, b = BitBlt.sweepForward a vDir sy dy := ⟨_, rfl⟩
  have hbdx : b.dx = a.dx := by rw [hb]; rfl
  have hbsx : b.sx = a.sx := by rw [hb]; rfl
  have hbn : b.nWords = (edgeMasks a).nWords := by rw [hb]; rfl
  have hdir : b.hDir = 1 := by rw [hb]; rfl
  have hskew : b.skew = ((a.sx - a.dx) % 16).toNat := by rw [hb]; rfl
  have hsource : b.sourceForm = a.sourceForm := by rw [hb]; rfl
  have hraster : b.sourceRaster = a.sourceRaster := by rw [hb]; rfl
  have hdraster : b.destRaster = (a.destFormWidth + 15) / 16 := by
    rw [← hc.destRaster_eq, hb]; rfl
  have hpre : b.preload = (decide (b.sourceForm ≠ nilPointer) && decide (b.skew ≠ 0) &&
      decide ((b.skew : Int) ≤ b.sx % 16)) := by rw [hb]; rfl
  rw [← hb]
  refine ⟨hw, hsource, by rw [hb]; rfl, by rw [hb]; rfl, by rw [hb]; rfl, by rw [hb]; rfl,
    by rw [hb]; rfl, by rw [hb]; rfl, by rw [hb]; rfl, by rw [hb]; rfl, hraster,
    by rw [hb]; rfl, .inl hdir, by omega, by omega,
    fun c hm j k hj hk => ?_, fun hs j k hj hk hin => ?_, fun i k hk hin => ?_,
    fun j hj => ?_, fun hs => ⟨?_, fun x h0 h1 => ?_⟩, fun hp => ?_, ?_, ?_, fun hs => ?_,
    fun hs => ?_, ?_, ?_, ?_, fun hs heq => ?_⟩
  · rw [hdir, hbdx, one_mul]
    exact maskAt_forward hw hbn (by rw [hm, hb]; rfl) (by rw [hb]; rfl) hj hk
  · rw [hdir, hbdx, one_mul] at hin ⊢
    have hpre' : b.preload = true ↔ b.skew ≠ 0 ∧ (b.skew : Int) ≤ a.sx % 16 := by
      rw [hpre, ← hbsx]
      simp [hs]
    have hmask : b.skewMask = if b.skew = 0 then 0 else rightMask (16 - b.skew) := by
      rw [hb]; rfl
    rw [hmask, testBit_skewMask]
    refine ⟨?_, fun hm hj0 => ?_⟩
    · unfold fetched
      rw [hdir, hbsx, one_mul, ← add_assoc]
      simpa only [decide_eq_true_eq] using found_forward hskew hpre' hk
    · subst hj0
      exact preload_forward hskew hpre' hk hin (of_decide_eq_true hm)
  · rw [hdir, hbdx]
    unfold InLine at hin
    exact ⟨(i - a.dx / 16).toNat, by omega, by omega⟩
  · rw [hdir, hbdx, hdraster]
    omega
  · have h0 := hc.sx_nonneg (hsource ▸ hs)
    have h1 := hc.sx_le (hsource ▸ hs)
    have h2 := hc.sourceRaster_eq (hsource ▸ hs)
    omega
  · have h2 := hc.sx_le (hsource ▸ hs)
    have h3 := hc.sx_nonneg (hsource ▸ hs)
    have h4 := hc.sourceRaster_eq (hsource ▸ hs)
    omega
  · rw [hpre] at hp
    simp only [Bool.and_eq_true, decide_eq_true_eq] at hp
    exact hp.1.1
  · rw [hb]
    exact hlines
  · rw [hb]
    exact ⟨hc.dy_nonneg, hc.destLines⟩
  · rw [hb]
    exact ⟨hc.sy_nonneg (hsource ▸ hs), hc.sourceLines (hsource ▸ hs)⟩
  · rw [← Int.tdiv_eq_ediv_of_nonneg (hbsx ▸ hc.sx_nonneg (hsource ▸ hs)), hb]
    rfl
  · rw [← Int.tdiv_eq_ediv_of_nonneg (hbdx ▸ hdx), hb]
    rfl
  · rw [hb]
    rfl
  · rw [hb]
    rfl
  · rw [hb] at heq ⊢
    obtain ⟨h1, h2, h3⟩ := hover (hsource ▸ hs) heq
    refine ⟨h1, h2, fun hline => ?_⟩
    have := Int.ediv_le_ediv (c := 16) (by decide) (h3 hline)
    change 0 ≤ 1 * (a.sx / 16 - a.dx / 16)
    omega

/-! ## From right to left -/

/-- The sweep from right to left, in the lines of the rectangle from its top. -/
def sweepBackward (a : BitBlt) : BitBlt :=
  let b := edgeMasks a
  calculateOffsets { b with
    hDir := -1, vDir := 1
    sx := b.sx + b.w - 1
    dx := b.dx + b.w - 1
    skewMask := bitInvert b.skewMask
    mask1 := b.mask2
    mask2 := b.mask1 }

theorem Clipped.sweepBackward (hc : Clipped a) (hs : a.sourceForm ≠ nilPointer)
    (hwords : 1 < (edgeMasks a).nWords ∨ a.dx % 16 = 0 ∧ a.w = 16)
    (hover : a.sourceBits = a.destBits →
      a.sourceRaster = a.destRaster ∧ a.sy = a.dy ∧ a.sx ≤ a.dx) :
    Sweep a (BitBlt.sweepBackward a) := by
  have hw := hc.w_pos
  have hdx := hc.dx_nonneg
  have hdx' := hc.dx_le
  have hsx := hc.sx_nonneg hs
  have hsx' := hc.sx_le hs
  have hraster := hc.sourceRaster_eq hs
  have hn := nWords_eq (b := a) hw
  obtain ⟨b, hb⟩ : ∃ b, b = BitBlt.sweepBackward a := ⟨_, rfl⟩
  have hbdx : b.dx = a.dx + a.w - 1 := by rw [hb]; rfl
  have hbsx : b.sx = a.sx + a.w - 1 := by rw [hb]; rfl
  have hbn : b.nWords = (edgeMasks a).nWords := by rw [hb]; rfl
  have hdir : b.hDir = -1 := by rw [hb]; rfl
  have hskew : b.skew = ((a.sx - a.dx) % 16).toNat := by rw [hb]; rfl
  have hsource : b.sourceForm = a.sourceForm := by rw [hb]; rfl
  have hbraster : b.sourceRaster = a.sourceRaster := by rw [hb]; rfl
  have hdraster : b.destRaster = (a.destFormWidth + 15) / 16 := by
    rw [← hc.destRaster_eq, hb]; rfl
  have hpre : b.preload = !(decide (b.sourceForm ≠ nilPointer) && decide (b.skew ≠ 0) &&
      decide ((b.skew : Int) ≤ b.sx % 16)) := by rw [hb]; rfl
  rw [← hb]
  refine ⟨hw, hsource, by rw [hb]; rfl, by rw [hb]; rfl, by rw [hb]; rfl, by rw [hb]; rfl,
    by rw [hb]; rfl, by rw [hb]; rfl, by rw [hb]; rfl, by rw [hb]; rfl, hbraster,
    by rw [hb]; rfl, .inr hdir, by omega, by omega,
    fun c hm j k hj hk => ?_, fun _ j k hj hk hin => ?_, fun i k hk hin => ?_,
    fun j hj => ?_, fun _ => ⟨?_, fun x h0 h1 => ?_⟩, fun _ => hsource ▸ hs, ?_, ?_,
    fun _ => ?_, fun _ => ?_, ?_, ?_, ?_, fun _ heq => ?_⟩
  · rw [hdir, hbdx, neg_one_mul, ← sub_eq_add_neg]
    exact maskAt_backward hw hwords hbn (by rw [hm, hb]; rfl) (by rw [hb]; rfl) hj hk
  · rw [hdir, hbdx, neg_one_mul, ← sub_eq_add_neg] at hin ⊢
    have hleft : a.dx = a.dx + a.w - 1 - a.w + 1 := by omega
    have hskew' : b.skew = ((a.sx + a.w - 1 - (a.dx + a.w - 1)) % 16).toNat := by
      rw [hskew]
      congr 2
      omega
    have hpre' : b.preload = false ↔
        b.skew ≠ 0 ∧ (b.skew : Int) ≤ (a.sx + a.w - 1) % 16 := by
      rw [hpre, ← hbsx]
      simp [hsource, hs]
    have hmask : b.skewMask =
        bitInvert (if b.skew = 0 then 0 else rightMask (16 - b.skew)) := by
      rw [hb]; rfl
    have hx : 16 * ((a.dx + a.w - 1) / 16 - (j : Int)) + (15 - k) - a.dx + a.sx =
        16 * ((a.dx + a.w - 1) / 16 - (j : Int)) + (15 - k) - (a.dx + a.w - 1) +
          (a.sx + a.w - 1) := by omega
    rw [hmask, testBit_bitInvert (rotatedFrom_lt (by omega) hk), testBit_skewMask,
      ← decide_not]
    refine ⟨?_, fun hm hj0 => ?_⟩
    · rw [hx]
      unfold fetched
      rw [hdir, hbsx, neg_one_mul, neg_add, ← sub_eq_add_neg (-_), ← add_sub_assoc,
        ← sub_eq_add_neg]
      simpa only [decide_eq_true_eq] using found_backward hskew' hpre' hk
    · subst hj0
      exact preload_backward hskew' hpre' hk hleft hin (of_decide_eq_true hm)
  · rw [hdir, hbdx]
    unfold InLine at hin
    exact ⟨((a.dx + a.w - 1) / 16 - i).toNat, by omega, by omega⟩
  · rw [hdir, hbdx, hdraster]
    omega
  · omega
  · omega
  · rw [hb]
    exact .inl ⟨rfl, rfl, rfl⟩
  · rw [hb]
    exact ⟨hc.dy_nonneg, hc.destLines⟩
  · rw [hb]
    exact ⟨hc.sy_nonneg hs, hc.sourceLines hs⟩
  · rw [← Int.tdiv_eq_ediv_of_nonneg (by omega), hb]
    rfl
  · rw [← Int.tdiv_eq_ediv_of_nonneg (by omega), hb]
    rfl
  · rw [hb]
    rfl
  · rw [hb]
    rfl
  · rw [hdir, hbsx, hbdx]
    rw [hb] at heq ⊢
    obtain ⟨h1, h2, h3⟩ := hover heq
    refine ⟨h1, ?_, fun _ => by omega⟩
    change 0 ≤ 1 * (a.sy - a.dy)
    omega

/-! ## The direction of the copy -/

/-- The direction that `checkOverlap` chooses for a copy of a form onto itself. -/
theorem checkOverlap_same (h : a.sourceForm = a.destForm) :
    calculateOffsets (checkOverlap (edgeMasks a)) =
      if a.dy < a.sy then BitBlt.sweepForward a 1 a.sy a.dy
      else if a.sy < a.dy then
        BitBlt.sweepForward a (-1) (a.sy + a.h - 1) (a.dy + a.h - 1)
      else if a.sx < a.dx then BitBlt.sweepBackward a
      else BitBlt.sweepForward a 1 a.sy a.dy := by
  have hform : (edgeMasks a).sourceForm = (edgeMasks a).destForm := h
  have hdy : (edgeMasks a).dy = a.dy := rfl
  have hsy : (edgeMasks a).sy = a.sy := rfl
  have hdx : (edgeMasks a).dx = a.dx := rfl
  have hsx : (edgeMasks a).sx = a.sx := rfl
  unfold checkOverlap
  rw [hdy, hsy, hdx, hsx]
  by_cases h1 : a.dy < a.sy
  · rw [if_pos h1, if_neg (by omega)]
    rfl
  · rw [if_neg h1, if_pos ⟨hform, by omega⟩]
    by_cases h2 : a.sy < a.dy
    · rw [if_pos h2, if_pos h2]
      rfl
    · rw [if_neg h2, if_neg h2]
      by_cases h3 : a.sx < a.dx
      · rw [if_pos h3, if_pos h3]
        rfl
      · rw [if_neg h3, if_neg h3]
        rfl

/-- Between different forms it goes from the top left. -/
theorem checkOverlap_different (h : a.sourceForm ≠ a.destForm) :
    calculateOffsets (checkOverlap (edgeMasks a)) = BitBlt.sweepForward a 1 a.sy a.dy := by
  have hform : (edgeMasks a).sourceForm ≠ (edgeMasks a).destForm := h
  unfold checkOverlap
  rw [if_neg fun h => hform h.1]
  rfl

end BitBlt

end Crosstalk
