import Crosstalk.BitBlt.CopyBits

/-!
# Copies to the right into a single word

`checkOverlap` swaps the edge masks after `computeMasks` has merged them for a
line of a single word. A line inside the word then has no mask left and is not
copied; a line that reaches the end of the word is copied with the whole word.
-/

namespace Crosstalk

namespace BitBlt

open ObjectMemory

/-- A copy of a form onto itself, in the same rows and to the right, where the
line lies in one word. -/
structure OneWord (a : BitBlt) : Prop where
  clipped : Clipped a
  source : a.sourceForm ≠ nilPointer
  sourceBits : a.sourceBits = a.destBits
  sourceLength : a.sourceBitsWordLength = a.destBitsWordLength
  sourceRaster : a.sourceRaster = a.destRaster
  halftone : a.halftoneForm = nilPointer
  sameLine : a.sy = a.dy
  right : a.sx < a.dx
  narrow : a.w ≤ 16 - a.dx % 16

variable {a : BitBlt} {c : Shifter} {m : ObjectMemory} {y : Int}

/-- The index of the word that the copy changes in line `y`. -/
def wordIndex (a : BitBlt) (y : Int) : Int := y * a.destRaster + a.dx / 16

/-- The pixel of the source line that comes to bit `k` of that word. -/
def sourcePixel (a : BitBlt) (k : Nat) : Int := 16 * (a.dx / 16) + (15 - k) - a.dx + a.sx

/-- The source bit that the shifter has for bit `k` of that word. To the left of
the form it takes up the last word of the line above and, in the first line of
the bitmap, no word at all: it still holds `stale`. -/
def shiftedBit (a : BitBlt) (m : ObjectMemory) (stale : Nat) (y : Int) (k : Nat) : Bool :=
  if 0 ≤ y * a.destRaster + a.sourcePixel k / 16 then
    pixelAt (m.wordAt a.destBits) a.destRaster (a.sourcePixel k) y
  else stale.testBit (15 - a.sourcePixel k % 16).toNat

/-- A line that lies inside its word has lost its mask. -/
theorem mask1_inside (h : a.w < 16 - a.dx % 16) : (sweepBackward a).mask1 = 0 := by
  change (edgeMasks a).mask2 = 0
  rw [mask2_eq, if_pos h]

/-- A line that reaches the end of its word has the mask of the whole word. -/
theorem mask1_end (h : a.w = 16 - a.dx % 16) {k : Nat} (hk : k < 16) :
    (sweepBackward a).mask1.testBit k = true := by
  change (edgeMasks a).mask2.testBit k = true
  rw [mask2_eq, if_neg (by omega), testBit_endMask hk]
  exact decide_eq_true (by omega)

theorem Ready.sweepBackward (h : Ready a m) : Ready (sweepBackward a) m :=
  ⟨h.dest, h.source, h.apart, h.halftone, h.rule⟩

namespace OneWord

section Facts

variable (ha : OneWord a)

include ha

theorem nWords : (sweepBackward a).nWords = 1 := by
  have hw := ha.clipped.w_pos
  have := ha.narrow
  change (edgeMasks a).nWords = 1
  rw [nWords_eq hw]
  omega

theorem lastWord : (a.dx + a.w - 1) / 16 = a.dx / 16 := by
  have := ha.clipped.w_pos
  have := ha.narrow
  omega

theorem raster_lt : a.dx / 16 < a.destRaster := by
  have := ha.clipped.w_pos
  have := ha.clipped.dx_le
  rw [ha.clipped.destRaster_eq]
  omega

theorem line_bounds (h0 : a.dy ≤ y) (h1 : y < a.dy + a.h) :
    0 ≤ y * a.destRaster ∧ y * a.destRaster + a.destRaster ≤ a.destBitsWordLength := by
  have hdx := ha.clipped.dx_nonneg
  have hr := ha.raster_lt
  exact BitBlt.line_bounds ha.clipped.dy_nonneg (by omega) ha.clipped.destLines h0 h1

theorem firstWord (hc : AtLine (sweepBackward a) c y y) :
    c.sourceIndex = y * a.destRaster + (a.sx + a.w - 1) / 16 := by
  rw [hc.sourceIndex ha.source, ← ha.sourceRaster]
  rfl

theorem destWord (hc : AtLine (sweepBackward a) c y y) : c.destIndex = a.wordIndex y := by
  rw [hc.destIndex, wordIndex, ← ha.lastWord]
  rfl

theorem lastSource : (a.sx + a.w - 1) / 16 < a.destRaster := by
  have := ha.clipped.w_pos
  have := ha.clipped.sx_nonneg ha.source
  have := ha.clipped.sx_le ha.source
  rw [← ha.sourceRaster, ha.clipped.sourceRaster_eq ha.source]
  omega

end Facts

/-- A line to the end of its word loads the shifter with the word of its last
source pixel. -/
theorem preload_end (h : a.w = 16 - a.dx % 16) : (sweepBackward a).preload = true := by
  change (!(decide (a.sourceForm ≠ nilPointer) && decide (((a.sx - a.dx) % 16).toNat ≠ 0) &&
    decide ((((a.sx - a.dx) % 16).toNat : Int) ≤ (a.sx + a.w - 1) % 16))) = true
  rw [Bool.not_eq_true', Bool.and_eq_false_imp]
  intro hne
  simp only [Bool.and_eq_true, decide_eq_true_eq] at hne
  rw [decide_eq_false_iff_not]
  omega

theorem testBit_skewMask (a : BitBlt) {u : Nat} (hu : u < 16) :
    (sweepBackward a).skewMask.testBit u =
      decide (¬((sweepBackward a).skew ≠ 0 ∧ u + (sweepBackward a).skew < 16)) := by
  change (bitInvert (if (sweepBackward a).skew = 0 then 0
    else rightMask (16 - (sweepBackward a).skew))).testBit u = _
  rw [testBit_bitInvert hu, BitBlt.testBit_skewMask, ← decide_not]

/-- The shifter has a pixel of the first word in the word that it was loaded
with or in the one to the left of that. -/
theorem found_end (h : a.w = 16 - a.dx % 16) {k : Nat} (hk : k < 16) :
    Found (-1) (sweepBackward a).skew ((a.sx + a.w - 1) / 16 - 1) k (a.sourcePixel k)
      (if (sweepBackward a).skewMask.testBit
        (rotatedFrom (sweepBackward a).skew k) then 1 else 0) := by
  have hpre := preload_end h
  have hskew : (sweepBackward a).skew =
      ((a.sx + a.w - 1 - (a.dx + a.w - 1)) % 16).toNat := by
    change ((a.sx - a.dx) % 16).toNat = _
    congr 2
    omega
  have hload : true = false ↔ (sweepBackward a).skew ≠ 0 ∧
      ((sweepBackward a).skew : Int) ≤ (a.sx + a.w - 1) % 16 := by
    simp only [Bool.true_eq_false, false_iff]
    omega
  have hfound := found_backward (j := 0) hskew hload hk
  have hx : 16 * ((a.dx + a.w - 1) / 16 - ((0 : Nat) : Int)) + (15 - k) - (a.dx + a.w - 1) +
      (a.sx + a.w - 1) = a.sourcePixel k := by
    unfold sourcePixel
    omega
  rw [hx, if_pos rfl] at hfound
  rw [testBit_skewMask a (rotatedFrom_lt (by omega) hk)]
  simpa only [decide_eq_true_eq, Int.natCast_zero, sub_zero] using hfound

/-- A line to the end of its word takes up the source bits as `shiftedBit` has
them. -/
theorem skewAt_end (ha : OneWord a) (h : a.w = 16 - a.dx % 16)
    (hc : AtLine (sweepBackward a) c y y) (h0 : a.dy ≤ y) (h1 : y < a.dy + a.h)
    {taken : Nat → Nat} (hlt : ∀ j, taken j < 65536)
    (htaken : (sweepBackward a).Fetches (lineShifter (sweepBackward a) c m y) 0 →
      taken 0 = m.wordAt a.destBits
        ((sweepBackward a).fetchIndex (lineShifter (sweepBackward a) c m y) 0))
    {k : Nat} (hk : k < 16) :
    ((sweepBackward a).skewAt (lineShifter (sweepBackward a) c m y) taken 0).testBit k =
      shiftedBit a m c.thisWord y k := by
  have hw := ha.clipped.w_pos
  have hsx := ha.clipped.sx_nonneg ha.source
  have hlast := ha.lastSource
  have hline := ha.line_bounds h0 h1
  have hfirst := ha.firstWord hc
  have hskew : (sweepBackward a).skew < 16 := by
    change ((a.sx - a.dx) % 16).toNat < 16
    omega
  have hprev : (lineShifter (sweepBackward a) c m y).prevWord =
      m.wordAt a.destBits (y * a.destRaster + (a.sx + a.w - 1) / 16) := by
    rw [← hfirst, ← ha.sourceBits]
    exact if_pos (preload_end h)
  have hindex : (sweepBackward a).fetchIndex (lineShifter (sweepBackward a) c m y) 0 =
      y * a.destRaster + (a.sx + a.w - 1) / 16 - 1 := by
    rw [← hfirst, fetchIndex, lineShifter, preload_end h, if_pos rfl]
    change c.sourceIndex + -1 + -1 * ((0 : Nat) : Int) = _
    omega
  have hfetches : (sweepBackward a).Fetches (lineShifter (sweepBackward a) c m y) 0 ↔
      0 ≤ y * a.destRaster + (a.sx + a.w - 1) / 16 - 1 := by
    unfold Fetches
    rw [hindex]
    change (((0 + 1 : Nat) : Int) ≤ a.sourceRaster ∧ _ ∧ _ < a.sourceBitsWordLength) ↔ _
    rw [ha.sourceRaster, ha.sourceLength]
    omega
  have hthis : (lineShifter (sweepBackward a) c m y).thisWord < 65536 :=
    hc.thisWord_lt ha.source
  obtain ⟨hx, hbit⟩ := found_end h hk
  rw [Int.toNat_natCast] at hbit
  rw [BitBlt.testBit_skewAt (b := sweepBackward a) ha.source hskew
      (by rw [hprev]; exact m.wordAt_lt _ _)
    hthis hlt hk, shiftedBit, pixelAt, hbit,
    show (15 - (15 - (rotatedFrom (sweepBackward a).skew k : Int))).toNat =
      rotatedFrom (sweepBackward a).skew k by omega]
  by_cases hm : (sweepBackward a).skewMask.testBit
      (rotatedFrom (sweepBackward a).skew k) = true
  · rw [if_pos hm] at hx
    rw [if_pos hm, prevAt, hprev, if_pos (by omega)]
    congr 2
    omega
  · rw [if_neg hm] at hx
    rw [if_neg hm, thisAt]
    by_cases hf : 0 ≤ y * a.destRaster + (a.sx + a.w - 1) / 16 - 1
    · rw [if_pos (hfetches.mpr hf), htaken (hfetches.mpr hf), hindex, if_pos (by omega)]
      congr 2
      omega
    · rw [if_neg (fun h => hf (hfetches.mp h)), if_neg (by omega)]
      rfl

/-- One line: the copy changes one word, whose bits it takes from `source`. -/
structure LineCopied (a : BitBlt) (m : ObjectMemory) (stale : Nat) (y : Int)
    (t : ObjectMemory) (source : Nat → Bool) : Prop where
  onlyFields : OnlyFields a.destBits m t
  kept : ∀ index, 0 ≤ index → index ≠ a.wordIndex y →
    t.wordAt a.destBits index = m.wordAt a.destBits index
  stored : ∀ k < 16, (t.wordAt a.destBits (a.wordIndex y)).testBit k =
    if (sweepBackward a).mask1.testBit k then
      combine a.combinationRule (source k) ((m.wordAt a.destBits (a.wordIndex y)).testBit k)
    else (m.wordAt a.destBits (a.wordIndex y)).testBit k
  source_eq : a.w = 16 - a.dx % 16 → ∀ k < 16, source k = shiftedBit a m stale y k

/-- A line to the end of its word changes the whole word. -/
theorem LineCopied.stored_end {stale : Nat} {t : ObjectMemory} {source : Nat → Bool}
    (hl : LineCopied a m stale y t source) (h : a.w = 16 - a.dx % 16) {k : Nat} (hk : k < 16) :
    (t.wordAt a.destBits (a.wordIndex y)).testBit k =
      combine a.combinationRule (shiftedBit a m stale y k)
        ((m.wordAt a.destBits (a.wordIndex y)).testBit k) := by
  rw [hl.stored k hk, if_pos (mask1_end h hk), hl.source_eq h k hk]

theorem wp_copyRow (ha : OneWord a) (hr : Ready a m)
    (hc : AtLine (sweepBackward a) c y y) (h0 : a.dy ≤ y) (h1 : y < a.dy + a.h) :
    Wp (copyRow (sweepBackward a) c) (fun r t => ∃ d, r = some d ∧
      AtLine (sweepBackward a) d (y + 1) (y + 1) ∧
      ∃ source, LineCopied a m c.thisWord y t source) m := by
  have hn := ha.nWords
  have hw := ha.clipped.w_pos
  have hsx := ha.clipped.sx_nonneg ha.source
  have hdx := ha.clipped.dx_nonneg
  have hlast := ha.lastSource
  have hraster := ha.raster_lt
  have hline := ha.line_bounds h0 h1
  have hstore : ∀ j : Nat, (sweepBackward a).storeIndex
      (lineShifter (sweepBackward a) c m y) j = a.wordIndex y - j := by
    intro j
    rw [← ha.destWord hc, storeIndex]
    change c.destIndex + -1 * (j : Int) = _
    omega
  have hinside : 0 ≤ a.wordIndex y ∧ a.wordIndex y < a.destBitsWordLength := by
    unfold wordIndex
    omega
  have hl : (sweepBackward a).LineReady (lineShifter (sweepBackward a) c m y)
      ((sweepBackward a).halftoneAt m y) m (sweepBackward a).nWords.toNat := by
    refine ⟨hr.sweepBackward, halftoneAt_lt _ m y, .inr rfl, fun j hj => ?_⟩
    rw [hstore]
    change _ ∧ _ < a.destBitsWordLength
    rw [hn] at hj
    omega
  rw [copyRow, wp_bind]
  refine (wp_startLine hr.sweepBackward hc.dy (fun _ => ha.source) fun _ => ?_).mono ?_
  · rw [ha.firstWord hc]
    change _ ∧ _ < a.sourceBitsWordLength
    rw [ha.sourceLength]
    omega
  rintro _ m ⟨rfl, rfl⟩
  rw [wp_bind]
  refine (wp_copyLine hl).mono ?_
  rintro _ t ⟨d, rfl, taken, hd⟩
  rw [wp_pure]
  refine ⟨_, rfl, ⟨fun _ => ?_, ?_, fun hh => absurd ha.halftone hh, fun _ => ?_⟩, fun k =>
    ((sweepBackward a).skewAt (lineShifter (sweepBackward a) c m y) taken 0).testBit k, ?_⟩
  · dsimp only
    rw [hd.sourceIndex, fetchIndex, hn]
    change (if (sweepBackward a).preload then c.sourceIndex + -1 else c.sourceIndex) +
        -1 * ((1 : Nat) : Int) + (a.sourceRaster * 1 -
          ((sweepBackward a).nWords + (if (sweepBackward a).preload then 1 else 0)) * -1) =
      (y + 1) * a.sourceRaster + (a.sx + a.w - 1) / 16
    rw [ha.firstWord hc, hn, ha.sourceRaster, add_mul y, one_mul]
    split <;> omega
  · dsimp only
    rw [hd.destIndex, hstore, hn]
    change a.wordIndex y - ((1 : Nat) : Int) +
        (a.destRaster * 1 - (sweepBackward a).nWords * -1) =
      (y + 1) * a.destRaster + (a.dx + a.w - 1) / 16
    rw [hn, ha.lastWord, add_mul y, one_mul, wordIndex]
    omega
  · dsimp only
    rw [hd.thisWord ha.source]
    split
    · exact hc.thisWord_lt ha.source
    · exact thisAt_lt (c := lineShifter (sweepBackward a) c m y) (hc.thisWord_lt ha.source)
        hd.taken_lt _
  · have hword : (sweepBackward a).storeIndex (lineShifter (sweepBackward a) c m y) 0 =
        a.wordIndex y := by
      rw [hstore]
      exact sub_zero _
    have hlast : 0 < (sweepBackward a).nWords.toNat := by omega
    refine ⟨hd.onlyFields, fun index hi hne => hd.kept index hi fun j hj => ?_,
      fun k hk => ?_, fun h k hk => ?_⟩
    · rw [show j = 0 by omega, hword]
      exact hne
    · have h := hd.stored 0 hlast k hk
      rw [hword] at h
      have hhalf : (sweepBackward a).halftoneAt m y = allOnes :=
        if_neg (not_not.mpr ha.halftone)
      rw [lineBit, hhalf, testBit_allOnes_word hk, Bool.and_true] at h
      exact h
    · refine skewAt_end ha h hc h0 h1 hd.taken_lt (fun hf => ?_) hk
      have h := hd.taken_eq ha.source 0 hlast hf fun _ i hi => absurd hi (Nat.not_lt_zero i)
      rw [h]
      exact congrArg (m.wordAt · _) ha.sourceBits

/-- Whatever the lines keep holds when the copy ends. The first line starts with
an empty shifter. -/
theorem wp_copyLoop (ha : OneWord a) (hr : Ready a m)
    (P : Nat → Nat → ObjectMemory → Prop) (hstart : P 0 0 m)
    (hstep : ∀ i stale stale' t t' source, i < a.h.toNat → OnlyFields a.destBits m t →
      P i stale t → LineCopied a t stale (a.dy + i) t' source → P (i + 1) stale' t') :
    Wp (copyLoop (sweepBackward a))
      (fun _ t => OnlyFields a.destBits m t ∧ ∃ stale, P a.h.toNat stale t) m := by
  rw [copyLoop, wp_bind]
  refine (wp_foldN (fun i c t => AtLine (sweepBackward a) c (a.dy + i) (a.dy + i) ∧
    OnlyFields a.destBits m t ∧ P i c.thisWord t) ?_
    ⟨⟨fun _ => ?_, ?_, fun hh => absurd ha.halftone hh, fun _ => by simp⟩, .refl _ _,
      hstart⟩).mono ?_
  · rintro i c t hi ⟨hc, honly, hP⟩
    refine (ha.wp_copyRow (hr.of_onlyFields honly) hc (by omega)
      (by have : i < a.h.toNat := hi; omega)).mono ?_
    rintro _ t' ⟨d, rfl, hd, source, hline⟩
    refine ⟨d, rfl, ?_, honly.trans hr.dest.heap hline.onlyFields,
      hstep i _ _ t t' source hi honly hP hline⟩
    push_cast
    rw [← add_assoc]
    exact hd
  · change a.sy * a.sourceRaster + (a.sx + a.w - 1).tdiv 16 =
      (a.dy + ((0 : Nat) : Int)) * a.sourceRaster + (a.sx + a.w - 1) / 16
    have := ha.clipped.w_pos
    have := ha.clipped.sx_nonneg ha.source
    rw [Int.tdiv_eq_ediv_of_nonneg (by omega), ha.sameLine, Int.natCast_zero, add_zero]
  · change a.dy * a.destRaster + (a.dx + a.w - 1).tdiv 16 =
      (a.dy + ((0 : Nat) : Int)) * a.destRaster + (a.dx + a.w - 1) / 16
    have := ha.clipped.w_pos
    have := ha.clipped.dx_nonneg
    rw [Int.tdiv_eq_ediv_of_nonneg (by omega), Int.natCast_zero, add_zero]
  · rintro _ t ⟨c, rfl, -, honly, hP⟩
    rw [wp_pure]
    exact ⟨honly, c.thisWord, hP⟩

theorem wordIndex_inj (ha : OneWord a) {y y' : Int} (h : y ≠ y') :
    a.wordIndex y ≠ a.wordIndex y' := by
  have hdx := ha.clipped.dx_nonneg
  have hr := ha.raster_lt
  exact line_disjoint (by omega) hr (by omega) hr h

/-- Nothing is copied where the mask is lost or the rule keeps the destination. -/
theorem wp_copyLoop_same (ha : OneWord a) (hr : Ready a m)
    (hsame : ∀ k < 16, (sweepBackward a).mask1.testBit k = true →
      ∀ s d, combine a.combinationRule s d = d) :
    Wp (copyLoop (sweepBackward a)) (fun _ t => OnlyFields a.destBits m t ∧
      ∀ index, 0 ≤ index → t.wordAt a.destBits index = m.wordAt a.destBits index) m := by
  refine (ha.wp_copyLoop hr (fun _ _ t => ∀ index, 0 ≤ index →
    t.wordAt a.destBits index = m.wordAt a.destBits index) (fun _ _ => rfl) ?_).mono
      fun _ t ⟨honly, _, h⟩ => ⟨honly, h⟩
  intro i stale stale' t t' source hi honly hP hline index h0
  rw [← hP index h0]
  by_cases heq : index = a.wordIndex (a.dy + i)
  · subst heq
    refine eq_of_testBit_eq (t'.wordAt_lt _ _) (t.wordAt_lt _ _) fun k hk => ?_
    rw [hline.stored k hk]
    split
    · next hm => exact hsame k hk hm _ _
    · rfl
  · exact hline.kept index h0 heq

/-- What the first line leaves in its word stays there. -/
theorem wp_copyLoop_first (ha : OneWord a) (hr : Ready a m) :
    Wp (copyLoop (sweepBackward a)) (fun _ t => OnlyFields a.destBits m t ∧
      ∃ t' source, LineCopied a m 0 a.dy t' source ∧
        t.wordAt a.destBits (a.wordIndex a.dy) = t'.wordAt a.destBits (a.wordIndex a.dy) ∧
        (a.h = 1 → t = t')) m := by
  have hh := ha.clipped.h_pos
  refine (ha.wp_copyLoop hr (fun i stale t => (i = 0 → stale = 0 ∧ t = m) ∧ (0 < i →
    ∃ t' source, LineCopied a m 0 a.dy t' source ∧
      t.wordAt a.destBits (a.wordIndex a.dy) = t'.wordAt a.destBits (a.wordIndex a.dy) ∧
      (i = 1 → t = t'))) ⟨fun _ => ⟨rfl, rfl⟩, fun h => absurd h (by omega)⟩ ?_).mono ?_
  · intro i stale stale' t t' source hi _ ⟨hfirst, hlater⟩ hline
    refine ⟨fun h => absurd h (by omega), fun _ => ?_⟩
    rcases Nat.eq_zero_or_pos i with rfl | hpos
    · obtain ⟨rfl, rfl⟩ := hfirst rfl
      rw [Int.natCast_zero, add_zero] at hline
      exact ⟨t', source, hline, rfl, fun _ => rfl⟩
    · obtain ⟨t₁, s, h, heq, -⟩ := hlater hpos
      refine ⟨t₁, s, h, ?_, fun h => absurd h (by omega)⟩
      have hin := ha.line_bounds (y := a.dy) le_rfl (by omega)
      have hdx := ha.clipped.dx_nonneg
      rw [← heq]
      exact hline.kept _ (by unfold wordIndex; omega) (ha.wordIndex_inj (by omega))
  · rintro _ t ⟨honly, _, -, hlater⟩
    obtain ⟨t', s, h, heq, hone⟩ := hlater (by omega)
    exact ⟨honly, t', s, h, heq, fun h1 => hone (by omega)⟩

/-- And so does what the second line leaves in its word. -/
theorem wp_copyLoop_second (ha : OneWord a) (hr : Ready a m)
    (hh : 1 < a.h) :
    Wp (copyLoop (sweepBackward a)) (fun _ t =>
      ∃ t₁ t₂ stale s₁ s₂, LineCopied a m 0 a.dy t₁ s₁ ∧
        LineCopied a t₁ stale (a.dy + 1) t₂ s₂ ∧
        t.wordAt a.destBits (a.wordIndex (a.dy + 1)) =
          t₂.wordAt a.destBits (a.wordIndex (a.dy + 1))) m := by
  refine (ha.wp_copyLoop hr (fun i stale t => (i = 0 → stale = 0 ∧ t = m) ∧
    (i = 1 → ∃ s, LineCopied a m 0 a.dy t s) ∧
    (1 < i → ∃ t₁ t₂ stale s₁ s₂, LineCopied a m 0 a.dy t₁ s₁ ∧
      LineCopied a t₁ stale (a.dy + 1) t₂ s₂ ∧
      t.wordAt a.destBits (a.wordIndex (a.dy + 1)) =
        t₂.wordAt a.destBits (a.wordIndex (a.dy + 1))))
    ⟨fun _ => ⟨rfl, rfl⟩, fun h => absurd h (by omega), fun h => absurd h (by omega)⟩
    ?_).mono ?_
  · intro i stale stale' t t' source hi _ ⟨h0, h1, hlater⟩ hline
    refine ⟨fun h => absurd h (by omega), fun h => ?_, fun h => ?_⟩
    · have : i = 0 := by omega
      subst this
      obtain ⟨rfl, rfl⟩ := h0 rfl
      rw [Int.natCast_zero, add_zero] at hline
      exact ⟨source, hline⟩
    · rcases Nat.eq_or_lt_of_le (show 1 ≤ i by omega) with rfl | hpos
      · obtain ⟨s, hs⟩ := h1 rfl
        exact ⟨t, t', stale, s, source, hs, hline, rfl⟩
      · obtain ⟨t₁, t₂, st, s₁, s₂, h₁, h₂, heq⟩ := hlater hpos
        refine ⟨t₁, t₂, st, s₁, s₂, h₁, h₂, ?_⟩
        have hin := ha.line_bounds (y := a.dy + 1) (by omega) (by omega)
        have hdx := ha.clipped.dx_nonneg
        rw [← heq]
        exact hline.kept _ (by unfold wordIndex; omega) (ha.wordIndex_inj (by omega))
  · rintro _ t ⟨-, _, -, -, hlater⟩
    exact hlater (by omega)

/-! ## What the copy should do there -/

/-- The copy is to change the word of each of its lines, and no other. -/
theorem targetBit_word (ha : OneWord a) (h0 : a.dy ≤ y) (h1 : y < a.dy + a.h) {k : Nat}
    (hk : k < 16) :
    targetBit a m (a.wordIndex y) k =
      if InLine a.dx a.w (a.dx / 16) k then
        combine a.combinationRule
          (pixelAt (m.wordAt a.destBits) a.destRaster (a.sourcePixel k) y)
          ((m.wordAt a.destBits (a.wordIndex y)).testBit k)
      else (m.wordAt a.destBits (a.wordIndex y)).testBit k := by
  have hdx := ha.clipped.dx_nonneg
  have hr := ha.raster_lt
  have hhalf : a.halftoneAt m y = allOnes := if_neg (not_not.mpr ha.halftone)
  rw [wordIndex, targetBit_line a m (by omega) hr, if_pos ⟨h0, h1⟩, lineTarget]
  simp only [hhalf, testBit_allOnes_word hk, Bool.and_true, if_pos ha.source, ha.sourceBits,
    ha.sourceRaster, ha.sameLine, Int.sub_add_cancel]
  rfl

theorem targetBit_other (ha : OneWord a) {index : Int}
    (hne : ∀ y, a.dy ≤ y → y < a.dy + a.h → index ≠ a.wordIndex y) {k : Nat} (hk : k < 16) :
    targetBit a m index k = (m.wordAt a.destBits index).testBit k := by
  have hdx := ha.clipped.dx_nonneg
  have hr := ha.raster_lt
  have hnarrow := ha.narrow
  have hindex : index / a.destRaster * a.destRaster + index % a.destRaster = index :=
    Int.ediv_mul_add_emod _ _
  rw [targetBit_eq]
  split
  · next hy =>
      rw [lineTarget, hindex, if_neg]
      intro hin
      refine hne _ hy.1 hy.2 ?_
      have hword : index % a.destRaster = a.dx / 16 := by
        unfold InLine at hin
        omega
      rw [wordIndex, ← hword, hindex]
  · rfl

end OneWord

end BitBlt

end Crosstalk
