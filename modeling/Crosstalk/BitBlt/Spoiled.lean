import Crosstalk.BitBlt.OneWord

/-!
# Where a copy into a single word goes wrong

For nearly every copy that `OneWord` describes there is a bitmap on which the
loop leaves other pixels than it should.
-/

namespace Crosstalk

namespace BitBlt

namespace OneWord

open ObjectMemory

variable {a : BitBlt} {m : ObjectMemory} {y : Int}

/-! ## Words that are not copied, or copied too far -/

/-- The words of the lines are as the copy is to leave them. -/
def LinesRight (a : BitBlt) (m t : ObjectMemory) : Prop :=
  ∀ y, a.dy ≤ y → y < a.dy + a.h → ∀ k < 16,
    (t.wordAt a.destBits (a.wordIndex y)).testBit k = targetBit a m (a.wordIndex y) k

/-- To the left of the line a copy to the end of the word is to keep bit `w`. -/
theorem targetBit_left (ha : OneWord a) (h : a.w = 16 - a.dx % 16) (hpart : a.w < 16)
    (h0 : a.dy ≤ y) (h1 : y < a.dy + a.h) :
    targetBit a m (a.wordIndex y) a.w.toNat =
      (m.wordAt a.destBits (a.wordIndex y)).testBit a.w.toNat := by
  have hw := ha.clipped.w_pos
  rw [ha.targetBit_word h0 h1 (by omega), if_neg (by unfold InLine; omega)]

/-- A line inside its word is not copied. -/
theorem wp_copyLoop_inside (ha : OneWord a) (hr : Ready a m) (h : a.w < 16 - a.dx % 16)
    (hne : combine a.combinationRule (pixelAt (m.wordAt a.destBits) a.destRaster a.sx a.dy)
        ((m.wordAt a.destBits (a.wordIndex a.dy)).testBit (15 - a.dx % 16).toNat) ≠
      (m.wordAt a.destBits (a.wordIndex a.dy)).testBit (15 - a.dx % 16).toNat) :
    Wp (copyLoop (sweepBackward a)) (fun _ t => ¬LinesRight a m t) m := by
  refine (ha.wp_copyLoop_same hr fun k _ hk => ?_).mono ?_
  · rw [mask1_inside h, Nat.zero_testBit] at hk
    cases hk
  · rintro _ t ⟨-, hsame⟩ hright
    have hw := ha.clipped.w_pos
    have hdx := ha.clipped.dx_nonneg
    have hh := ha.clipped.h_pos
    have hline := ha.line_bounds (y := a.dy) le_rfl (by omega)
    have hpixel : a.sourcePixel (15 - a.dx % 16).toNat = a.sx := by
      unfold sourcePixel
      omega
    have hbit := hright a.dy le_rfl (by omega) (15 - a.dx % 16).toNat (by omega)
    rw [hsame _ (by unfold wordIndex; omega),
      ha.targetBit_word le_rfl (by omega) (by omega),
      if_pos (by unfold InLine; omega), hpixel] at hbit
    exact hne hbit.symm

/-- A line to the end of its word also changes the bit to its left. -/
theorem wp_copyLoop_left (ha : OneWord a) (hr : Ready a m) (h : a.w = 16 - a.dx % 16)
    (hpart : a.w < 16)
    (hne : combine a.combinationRule (shiftedBit a m 0 a.dy a.w.toNat)
        ((m.wordAt a.destBits (a.wordIndex a.dy)).testBit a.w.toNat) ≠
      (m.wordAt a.destBits (a.wordIndex a.dy)).testBit a.w.toNat) :
    Wp (copyLoop (sweepBackward a)) (fun _ t => ¬LinesRight a m t) m := by
  have hw := ha.clipped.w_pos
  have hh := ha.clipped.h_pos
  refine (ha.wp_copyLoop_first hr).mono ?_
  rintro _ t ⟨-, t', source, hl, heq, -⟩ hright
  have hbit := hright a.dy le_rfl (by omega) a.w.toNat (by omega)
  rw [heq, hl.stored_end h (by omega), ha.targetBit_left h hpart le_rfl (by omega)] at hbit
  exact hne hbit

/-- And so does the second line, with what the first one has left. -/
theorem wp_copyLoop_left_second (ha : OneWord a) (hr : Ready a m)
    (h : a.w = 16 - a.dx % 16) (hpart : a.w < 16) (hh : 1 < a.h)
    (hne : ∀ t source stale, LineCopied a m 0 a.dy t source →
      combine a.combinationRule (shiftedBit a t stale (a.dy + 1) a.w.toNat)
          ((m.wordAt a.destBits (a.wordIndex (a.dy + 1))).testBit a.w.toNat) ≠
        (m.wordAt a.destBits (a.wordIndex (a.dy + 1))).testBit a.w.toNat) :
    Wp (copyLoop (sweepBackward a)) (fun _ t => ¬LinesRight a m t) m := by
  have hw := ha.clipped.w_pos
  have hdx := ha.clipped.dx_nonneg
  have hline := ha.line_bounds (y := a.dy + 1) (by omega) (by omega)
  refine (ha.wp_copyLoop_second hr hh).mono ?_
  rintro _ t ⟨t₁, t₂, stale, s₁, s₂, h₁, h₂, heq⟩ hright
  have hbit := hright (a.dy + 1) (by omega) (by omega) a.w.toNat (by omega)
  rw [heq, h₂.stored_end h (by omega), ha.targetBit_left h hpart (by omega) (by omega),
    h₁.kept _ (by unfold wordIndex; omega) (ha.wordIndex_inj (by omega))] at hbit
  exact hne t₁ s₁ stale h₁ hbit

/-! ## Bitmaps that show it -/

/-- Every rule but the one that keeps the destination changes some pixel. -/
theorem exists_combine_ne {rule : Int} (h0 : 0 ≤ rule) (h15 : rule ≤ 15) (h5 : rule ≠ 5) :
    ∃ s d, combine rule s d ≠ d := by
  interval_cases rule <;> first | decide | exact absurd rfl h5

/-- Three more keep it where the source is 0. -/
theorem exists_combine_false_ne {rule : Int} (h0 : 0 ≤ rule) (h15 : rule ≤ 15)
    (h5 : rule ≠ 5) (h : ¬(rule = 4 ∨ rule = 6 ∨ rule = 7)) :
    ∃ d, combine rule false d ≠ d := by
  interval_cases rule <;> first | decide | simp at h h5

/-- The bitmap with the bit `s` in one place and `d` everywhere else. -/
def onePixel (i₀ : Int) (k₀ : Nat) (s d : Bool) (i : Int) (k : Nat) : Bool :=
  if i = i₀ ∧ k = k₀ then s else d

section Filled

variable (ha : OneWord a) (hr : Ready a m)

include ha hr

theorem wrong_inside (h : a.w < 16 - a.dx % 16) (h5 : a.combinationRule ≠ 5) :
    ∃ t, OnlyFields a.destBits m t ∧
      Wp (copyLoop (sweepBackward a)) (fun _ t' => ¬LinesRight a t t') t := by
  have hw := ha.clipped.w_pos
  have hh := ha.clipped.h_pos
  have hdx := ha.clipped.dx_nonneg
  have hraster := ha.raster_lt
  have hright := ha.right
  have hsx := ha.clipped.sx_nonneg ha.source
  have hline := ha.line_bounds (y := a.dy) le_rfl (by omega)
  obtain ⟨s, d, hne⟩ := exists_combine_ne hr.rule.1 hr.rule.2 h5
  refine ⟨m.fill a.destBits (onePixel (a.dy * a.destRaster + a.sx / 16)
    (15 - a.sx % 16).toNat s d), onlyFields_fill _ _ _,
    ha.wp_copyLoop_inside (hr.of_onlyFields (onlyFields_fill _ _ _)) h ?_⟩
  rw [pixelAt, testBit_wordAt_fill hr.dest _ (by omega) (by omega) (by omega), wordIndex,
    testBit_wordAt_fill hr.dest _ (by omega) (by omega) (by omega), onePixel,
    if_pos ⟨rfl, rfl⟩, onePixel, if_neg (by omega)]
  exact hne

theorem wrong_left (h : a.w = 16 - a.dx % 16) (hpart : a.w < 16)
    (h5 : a.combinationRule ≠ 5) (hpixel : 0 < a.sx ∨ 0 < a.dy) :
    ∃ t, OnlyFields a.destBits m t ∧
      Wp (copyLoop (sweepBackward a)) (fun _ t' => ¬LinesRight a t t') t := by
  have hw := ha.clipped.w_pos
  have hh := ha.clipped.h_pos
  have hdx := ha.clipped.dx_nonneg
  have hraster := ha.raster_lt
  have hright := ha.right
  have hsx := ha.clipped.sx_nonneg ha.source
  have hline := ha.line_bounds (y := a.dy) le_rfl (by omega)
  have hx : a.sourcePixel a.w.toNat = a.sx - 1 := by
    unfold sourcePixel
    omega
  have hindex : 0 ≤ a.dy * a.destRaster + (a.sx - 1) / 16 := by
    rcases hpixel with h | h
    · omega
    · have := mul_le_mul_of_nonneg_right (show 1 ≤ a.dy by omega)
        (show 0 ≤ a.destRaster by omega)
      omega
  obtain ⟨s, d, hne⟩ := exists_combine_ne hr.rule.1 hr.rule.2 h5
  refine ⟨m.fill a.destBits (onePixel (a.dy * a.destRaster + (a.sx - 1) / 16)
    (15 - (a.sx - 1) % 16).toNat s d), onlyFields_fill _ _ _,
    ha.wp_copyLoop_left (hr.of_onlyFields (onlyFields_fill _ _ _)) h hpart ?_⟩
  rw [shiftedBit, hx, if_pos hindex, pixelAt,
    testBit_wordAt_fill hr.dest _ (by omega) (by omega) (by omega), wordIndex,
    testBit_wordAt_fill hr.dest _ (by omega) (by omega) (by omega), onePixel,
    if_pos ⟨rfl, rfl⟩, onePixel, if_neg (by omega)]
  exact hne

theorem wrong_corner (h : a.w = 16 - a.dx % 16) (hpart : a.w < 16)
    (h5 : a.combinationRule ≠ 5) (hsx : a.sx = 0) (hdy : a.dy = 0)
    (hrule : ¬(a.combinationRule = 4 ∨ a.combinationRule = 6 ∨ a.combinationRule = 7)) :
    ∃ t, OnlyFields a.destBits m t ∧
      Wp (copyLoop (sweepBackward a)) (fun _ t' => ¬LinesRight a t t') t := by
  have hw := ha.clipped.w_pos
  have hh := ha.clipped.h_pos
  have hdx := ha.clipped.dx_nonneg
  have hraster := ha.raster_lt
  have hline := ha.line_bounds (y := a.dy) le_rfl (by omega)
  have hx : a.sourcePixel a.w.toNat = -1 := by
    unfold sourcePixel
    omega
  obtain ⟨d, hne⟩ := exists_combine_false_ne hr.rule.1 hr.rule.2 h5 hrule
  refine ⟨m.fill a.destBits fun _ _ => d, onlyFields_fill _ _ _,
    ha.wp_copyLoop_left (hr.of_onlyFields (onlyFields_fill _ _ _)) h hpart ?_⟩
  rw [shiftedBit, hx, if_neg (by rw [hdy]; omega), Nat.zero_testBit, wordIndex,
    testBit_wordAt_fill hr.dest _ (by omega) (by omega) (by omega)]
  exact hne

/-- The second line takes up the last pixel of the form's first line, which the
copy of the first line leaves set. -/
theorem wrong_second (h : a.w = 16 - a.dx % 16) (hpart : a.w < 16) (hsx : a.sx = 0)
    (hdy : a.dy = 0) (hh : 1 < a.h)
    (hrule : a.combinationRule = 4 ∨ a.combinationRule = 6 ∨ a.combinationRule = 7) :
    ∃ t, OnlyFields a.destBits m t ∧
      Wp (copyLoop (sweepBackward a)) (fun _ t' => ¬LinesRight a t t') t := by
  have hw := ha.clipped.w_pos
  have hdx := ha.clipped.dx_nonneg
  have hraster := ha.raster_lt
  have hline := ha.line_bounds (y := a.dy) le_rfl (by omega)
  have hline₁ := ha.line_bounds (y := a.dy + 1) (by omega) (by omega)
  have hx : a.sourcePixel a.w.toNat = -1 := by
    unfold sourcePixel
    omega
  obtain ⟨d, hne⟩ : ∃ d, combine a.combinationRule true d ≠ d := by
    rcases hrule with hr | hr | hr <;> rw [hr] <;> decide
  have hkeep : combine a.combinationRule false true = true := by
    rcases hrule with hr | hr | hr <;> rw [hr] <;> rfl
  refine ⟨m.fill a.destBits fun i k =>
    if i < a.destRaster then decide (i = a.destRaster - 1 ∧ k = 0) else d,
    onlyFields_fill _ _ _, ha.wp_copyLoop_left_second
      (hr.of_onlyFields (onlyFields_fill _ _ _)) h hpart hh fun t source stale hl => ?_⟩
  have hzero : 0 < a.destRaster := by omega
  have hlast : (t.wordAt a.destBits (a.destRaster - 1)).testBit 0 = true := by
    by_cases hword : a.destRaster - 1 = a.wordIndex a.dy
    · have hpixel : 0 ≤ a.sourcePixel 0 ∧ a.sourcePixel 0 < 15 := by
        unfold sourcePixel
        omega
      rw [hword, hl.stored_end h (by omega), ← hword,
        testBit_wordAt_fill hr.dest _ (by omega) (by rw [hdy] at hline; omega) (by omega),
        shiftedBit, hdy, if_pos (by omega), pixelAt,
        testBit_wordAt_fill hr.dest _ (by omega) (by rw [hdy] at hline; omega) (by omega),
        if_pos (by omega), if_pos (by omega),
        decide_eq_false (by omega), decide_eq_true (by omega)]
      exact hkeep
    · rw [hl.kept _ (by omega) hword,
        testBit_wordAt_fill hr.dest _ (by omega) (by rw [hdy] at hline; omega) (by omega),
        if_pos (by omega)]
      exact decide_eq_true (by omega)
  have hsource : shiftedBit a t stale (a.dy + 1) a.w.toNat = true := by
    rw [shiftedBit, hx, hdy, if_pos (by omega), pixelAt,
      show (0 + 1) * a.destRaster + -1 / 16 = a.destRaster - 1 by omega]
    exact hlast
  rw [hsource, wordIndex, testBit_wordAt_fill hr.dest _ (by omega) (by omega) (by omega),
    if_neg (by rw [hdy]; omega)]
  exact hne

end Filled

/-- Unless it is one line into the end of the first word, with a rule that keeps
the destination for the zeros to the left of the form, such a copy goes wrong. -/
theorem exists_wrong (ha : OneWord a) (hr : Ready a m) (hpart : a.w < 16)
    (h5 : a.combinationRule ≠ 5)
    (hcorner : ¬(a.w = 16 - a.dx % 16 ∧ a.sx = 0 ∧ a.sy = 0 ∧ a.h = 1 ∧
      (a.combinationRule = 4 ∨ a.combinationRule = 6 ∨ a.combinationRule = 7))) :
    ∃ t, OnlyFields a.destBits m t ∧
      Wp (copyLoop (sweepBackward a)) (fun _ t' => ¬LinesRight a t t') t := by
  have hh := ha.clipped.h_pos
  have hsx := ha.clipped.sx_nonneg ha.source
  have hdy := ha.clipped.dy_nonneg
  have hline := ha.sameLine
  rcases lt_or_eq_of_le ha.narrow with h | h
  · exact ha.wrong_inside hr h h5
  · by_cases hpixel : 0 < a.sx ∨ 0 < a.dy
    · exact ha.wrong_left hr h hpart h5 hpixel
    · by_cases hrule : a.combinationRule = 4 ∨ a.combinationRule = 6 ∨
          a.combinationRule = 7
      · have hsecond : 1 < a.h := by
          by_contra hone
          exact hcorner ⟨h, by omega, by omega, by omega, hrule⟩
        exact ha.wrong_second hr h hpart (by omega) (by omega) hsecond hrule
      · exact ha.wrong_corner hr h hpart h5 (by omega) (by omega) hrule

end OneWord

end BitBlt

end Crosstalk
