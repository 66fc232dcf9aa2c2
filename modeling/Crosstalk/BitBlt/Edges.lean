import Crosstalk.BitBlt.Line

/-!
# The edges of a line and the source words it needs

The masks of `edgeMasks` select exactly the pixels of the line, and the shifter
has the source word of each of them, in both directions of the copy. Pixels are
counted from the left of the form, so that bit `k` of word `i` is pixel
`16 * i + (15 - k)`.
-/

namespace Crosstalk

namespace BitBlt

/-- Bit `k` of word `i` of a line is one of the `extent` pixels from `left`. -/
def InLine (left extent i : Int) (k : Nat) : Prop :=
  left ≤ 16 * i + (15 - k) ∧ 16 * i + (15 - k) < left + extent

instance (left extent i : Int) (k : Nat) : Decidable (InLine left extent i k) := by
  unfold InLine; infer_instance

section Masks

variable {b : BitBlt}

theorem mask1_eq : (edgeMasks b).mask1 =
    if b.w < 16 - b.dx % 16 then
      rightMask (16 - b.dx % 16).toNat &&&
        bitInvert (rightMask (15 - (b.dx + b.w - 1) % 16).toNat)
    else rightMask (16 - b.dx % 16).toNat := rfl

theorem mask2_eq : (edgeMasks b).mask2 =
    if b.w < 16 - b.dx % 16 then 0
    else bitInvert (rightMask (15 - (b.dx + b.w - 1) % 16).toNat) := rfl

/-- The line takes up the words from the one of its first pixel to the one of
its last. -/
theorem nWords_eq (h : 0 < b.w) :
    (edgeMasks b).nWords = (b.dx + b.w - 1) / 16 - b.dx / 16 + 1 := by
  change (if b.w < 16 - b.dx % 16 then 1
    else (b.w - (16 - b.dx % 16) + 15).tdiv 16 + 1) = _
  split
  · omega
  · rw [Int.tdiv_eq_ediv_of_nonneg (by omega)]
    omega

theorem testBit_startMask {k : Nat} :
    (rightMask (16 - b.dx % 16).toNat).testBit k = decide (b.dx % 16 + k < 16) := by
  rw [testBit_rightMask (by omega)]
  exact decide_eq_decide.mpr (by omega)

theorem testBit_endMask {k : Nat} (hk : k < 16) :
    (bitInvert (rightMask (15 - (b.dx + b.w - 1) % 16).toNat)).testBit k =
      decide (15 ≤ (b.dx + b.w - 1) % 16 + k) := by
  rw [testBit_bitInvert hk, testBit_rightMask (by omega), ← decide_not]
  exact decide_eq_decide.mpr (by omega)

theorem testBit_allOnes_word {k : Nat} (hk : k < 16) : allOnes.testBit k = true := by
  rw [allOnes, testBit_allOnes]
  exact decide_eq_true hk

/-- The masks of the line from left to right. -/
theorem maskAt_forward (h : 0 < b.w) {b' : BitBlt} {c : Shifter}
    (hn : b'.nWords = (edgeMasks b).nWords) (h1 : c.mergeMask = (edgeMasks b).mask1)
    (h2 : b'.mask2 = (edgeMasks b).mask2) {j k : Nat} (hj : j < b'.nWords) (hk : k < 16) :
    (b'.maskAt c j).testBit k = decide (InLine b.dx b.w (b.dx / 16 + j) k) := by
  rw [hn, nWords_eq h] at hj
  rw [maskAt, h1, h2, hn, nWords_eq h, mask1_eq, mask2_eq]
  by_cases hw : b.w < 16 - b.dx % 16
  · have hj0 : j = 0 := by omega
    subst hj0
    rw [if_pos rfl, if_pos hw, Nat.testBit_and, testBit_startMask, testBit_endMask hk,
      ← Bool.decide_and]
    exact decide_eq_decide.mpr (by unfold InLine; omega)
  · rw [if_neg hw, if_neg hw]
    split
    · next hj0 =>
        subst hj0
        rw [testBit_startMask]
        exact decide_eq_decide.mpr (by unfold InLine; omega)
    · split
      · rw [testBit_endMask hk]
        exact decide_eq_decide.mpr (by unfold InLine; omega)
      · rw [testBit_allOnes_word hk]
        exact (decide_eq_true (by unfold InLine; omega)).symm

/-- The masks of the line from right to left, if it takes up more than one word
or fills the one that it takes up. -/
theorem maskAt_backward (h : 0 < b.w)
    (hw : 1 < (edgeMasks b).nWords ∨ b.dx % 16 = 0 ∧ b.w = 16) {b' : BitBlt} {c : Shifter}
    (hn : b'.nWords = (edgeMasks b).nWords) (h1 : c.mergeMask = (edgeMasks b).mask2)
    (h2 : b'.mask2 = (edgeMasks b).mask1) {j k : Nat} (hj : j < b'.nWords) (hk : k < 16) :
    (b'.maskAt c j).testBit k = decide (InLine b.dx b.w ((b.dx + b.w - 1) / 16 - j) k) := by
  rw [nWords_eq h] at hw
  rw [hn, nWords_eq h] at hj
  have hwide : ¬b.w < 16 - b.dx % 16 := by omega
  rw [maskAt, h1, h2, hn, nWords_eq h, mask1_eq, mask2_eq, if_neg hwide, if_neg hwide]
  split
  · next hj0 =>
      subst hj0
      rw [testBit_endMask hk]
      exact decide_eq_decide.mpr (by unfold InLine; omega)
  · split
    · rw [testBit_startMask]
      exact decide_eq_decide.mpr (by unfold InLine; omega)
    · rw [testBit_allOnes_word hk]
      exact (decide_eq_true (by unfold InLine; omega)).symm

end Masks

/-! ## The source words of a line -/

theorem rotatedFrom_lt {skew k : Nat} (hskew : skew < 16) (hk : k < 16) :
    rotatedFrom skew k < 16 := by
  unfold rotatedFrom
  split <;> omega

theorem testBit_skewMask {skew u : Nat} :
    (if skew = 0 then 0 else rightMask (16 - skew)).testBit u =
      decide (skew ≠ 0 ∧ u + skew < 16) := by
  split
  · next h => simp [h]
  · next h =>
      rw [testBit_rightMask (by omega)]
      exact decide_eq_decide.mpr (by omega)

/-- Where the shifter finds pixel `x` of the source line for bit `k` of word `j`
of the destination line: in the word taken up before (`ahead = 1`) or in the
one taken up now (`ahead = 0`), at bit `rotatedFrom skew k`. -/
def Found (hDir skew fetched : Int) (k : Nat) (x ahead : Int) : Prop :=
  x / 16 = fetched - hDir * ahead ∧ x % 16 = 15 - rotatedFrom skew.toNat k

section Source

variable {sx dx w : Int} {skew j k : Nat} {preload : Bool}

/-- From left to right the word taken up before is the one on the left. -/
theorem found_forward (hskew : skew = ((sx - dx) % 16).toNat)
    (hpre : preload = true ↔ skew ≠ 0 ∧ (skew : Int) ≤ sx % 16) (hk : k < 16) :
    Found 1 skew (sx / 16 + (if preload then 1 else 0) + j) k
      (16 * (dx / 16 + j) + (15 - k) - dx + sx)
      (if skew ≠ 0 ∧ rotatedFrom skew k + skew < 16 then 1 else 0) := by
  unfold Found
  rw [Int.toNat_natCast]
  have hu : rotatedFrom skew k = if skew ≤ k then k - skew else k + 16 - skew := rfl
  generalize rotatedFrom skew k = u at hu ⊢
  cases preload with
  | false =>
      simp only [Bool.false_eq_true, false_iff, if_false] at hpre ⊢
      split at hu <;> split <;> omega
  | true =>
      simp only [true_iff, if_true] at hpre ⊢
      split at hu <;> split <;> omega

/-- The first word of the line needs no word before it unless one is loaded. -/
theorem preload_forward (hskew : skew = ((sx - dx) % 16).toNat)
    (hpre : preload = true ↔ skew ≠ 0 ∧ (skew : Int) ≤ sx % 16) (hk : k < 16)
    (hin : InLine dx w (dx / 16 + (0 : Nat)) k)
    (hbefore : skew ≠ 0 ∧ rotatedFrom skew k + skew < 16) : preload = true := by
  rw [hpre]
  unfold InLine at hin
  unfold rotatedFrom at hbefore
  split at hbefore <;> omega

/-- From right to left it is the one on the right; `sx` and `dx` are the right
ends of the lines. -/
theorem found_backward (hskew : skew = ((sx - dx) % 16).toNat)
    (hpre : preload = false ↔ skew ≠ 0 ∧ (skew : Int) ≤ sx % 16) (hk : k < 16) :
    Found (-1) skew (sx / 16 - (if preload then 1 else 0) - j) k
      (16 * (dx / 16 - j) + (15 - k) - dx + sx)
      (if ¬(skew ≠ 0 ∧ rotatedFrom skew k + skew < 16) then 1 else 0) := by
  unfold Found
  rw [Int.toNat_natCast]
  have hu : rotatedFrom skew k = if skew ≤ k then k - skew else k + 16 - skew := rfl
  generalize rotatedFrom skew k = u at hu ⊢
  cases preload with
  | false =>
      simp only [true_iff, if_false, Bool.false_eq_true] at hpre ⊢
      split at hu <;> split <;> omega
  | true =>
      simp only [Bool.true_eq_false, false_iff, if_true] at hpre ⊢
      split at hu <;> split <;> omega

theorem preload_backward (hskew : skew = ((sx - dx) % 16).toNat)
    (hpre : preload = false ↔ skew ≠ 0 ∧ (skew : Int) ≤ sx % 16) (hk : k < 16)
    {left : Int} (hleft : left = dx - w + 1) (hin : InLine left w (dx / 16 - (0 : Nat)) k)
    (hbefore : ¬(skew ≠ 0 ∧ rotatedFrom skew k + skew < 16)) : preload = true := by
  rw [← Bool.not_eq_false, hpre]
  unfold InLine at hin
  unfold rotatedFrom at hbefore
  split at hbefore <;> omega

end Source

/-- Pixel `x` of line `y`, where a line has `raster` words. -/
def pixelAt (words : Int → Nat) (raster x y : Int) : Bool :=
  (words (y * raster + x / 16)).testBit (15 - x % 16).toNat

/-- The word of the source line that word `j` of the destination line takes up,
where the first one is `first`. -/
def fetched (b : BitBlt) (first : Int) (j : Nat) : Int :=
  first + b.hDir * ((if b.preload then 1 else 0) + j)

/-- The shifter starts at word `first` of line `y` of the source, a line that
lies inside the bitmap, and takes up words of that line as they are. -/
structure Aimed (b : BitBlt) (c : Shifter) (source : Int → Nat) (n : Nat) (taken : Nat → Nat)
    (y first : Int) : Prop where
  hDir : b.hDir = 1 ∨ b.hDir = -1
  sourceIndex : c.sourceIndex =
    y * b.sourceRaster + first + b.hDir * (if b.preload then 1 else 0)
  prevWord : b.preload = true → c.prevWord = source (y * b.sourceRaster + first)
  prevWord_lt : c.prevWord < 65536
  thisWord_lt : c.thisWord < 65536
  taken_lt : ∀ j, taken j < 65536
  taken_eq : ∀ j < n, 0 ≤ b.fetched first j → b.fetched first j < b.sourceRaster →
    taken j = source (y * b.sourceRaster + b.fetched first j)
  first_nonneg : 0 ≤ first
  first_lt : first < b.sourceRaster
  line_nonneg : 0 ≤ y * b.sourceRaster
  line_inside : y * b.sourceRaster + b.sourceRaster ≤ b.sourceBitsWordLength

section Shifter

variable {b : BitBlt} {c : Shifter} {source : Int → Nat} {taken : Nat → Nat}
  {y first x : Int} {n j k : Nat}

theorem fetchIndex_eq (h : c.sourceIndex =
      y * b.sourceRaster + first + b.hDir * (if b.preload then 1 else 0)) (j : Nat) :
    b.fetchIndex c j = y * b.sourceRaster + b.fetched first j := by
  rw [fetchIndex, fetched, h]
  ring

/-- A word of the source line is taken up: the loop has not yet gone through
`sourceRaster` words when it comes to it. -/
theorem fetches_of_fetched (hdir : b.hDir = 1 ∨ b.hDir = -1) (h : c.sourceIndex =
      y * b.sourceRaster + first + b.hDir * (if b.preload then 1 else 0))
    (h1 : 0 ≤ first) (h2 : first < b.sourceRaster) (h3 : 0 ≤ y * b.sourceRaster)
    (h4 : y * b.sourceRaster + b.sourceRaster ≤ b.sourceBitsWordLength)
    (h0 : 0 ≤ b.fetched first j) (hlt : b.fetched first j < b.sourceRaster) :
    b.Fetches c j := by
  unfold Fetches
  rw [fetchIndex_eq h]
  refine ⟨?_, by omega, by omega⟩
  unfold fetched at h0 hlt
  rcases hdir with h | h <;> rw [h] at h0 hlt <;> cases hp : b.preload <;>
    simp only [hp, Bool.false_eq_true, if_true, if_false] at h0 hlt <;> omega

theorem Aimed.thisAt_eq (ha : Aimed b c source n taken y first) (hj : j < n)
    (h0 : 0 ≤ b.fetched first j) (hlt : b.fetched first j < b.sourceRaster) :
    b.thisAt c taken j = source (y * b.sourceRaster + b.fetched first j) := by
  have hf : b.Fetches c j := fetches_of_fetched ha.hDir ha.sourceIndex ha.first_nonneg
    ha.first_lt ha.line_nonneg ha.line_inside h0 hlt
  rw [← ha.taken_eq j hj h0 hlt]
  cases j <;> rw [thisAt, if_pos hf]

theorem Aimed.prevAt_eq (ha : Aimed b c source n taken y first) (hj : j < n)
    (h0 : 0 ≤ b.fetched first j - b.hDir)
    (hlt : b.fetched first j - b.hDir < b.sourceRaster) (hpre : j = 0 → b.preload = true) :
    b.prevAt c taken j = source (y * b.sourceRaster + (b.fetched first j - b.hDir)) := by
  cases j with
  | zero =>
      rw [prevAt, ha.prevWord (hpre rfl), fetched, if_pos (hpre rfl)]
      congr 1
      push_cast
      ring
  | succ i =>
      have hi : b.fetched first (i + 1) - b.hDir = b.fetched first i := by
        unfold fetched
        push_cast
        ring
      rw [hi] at h0 hlt ⊢
      exact ha.thisAt_eq (by omega) h0 hlt

theorem thisAt_lt (hc : c.thisWord < 65536) (htaken : ∀ j, taken j < 65536) (j : Nat) :
    b.thisAt c taken j < 65536 := by
  induction j with
  | zero =>
      rw [thisAt]
      split
      · exact htaken _
      · exact hc
  | succ j ih =>
      rw [thisAt]
      split
      · exact htaken _
      · exact ih

theorem testBit_skewAt (hs : b.sourceForm ≠ nilPointer) (hskew : b.skew < 16)
    (hprev : c.prevWord < 65536) (hthis : c.thisWord < 65536)
    (htaken : ∀ j, taken j < 65536) (hk : k < 16) :
    (b.skewAt c taken j).testBit k =
      if b.skewMask.testBit (rotatedFrom b.skew k) then
        (b.prevAt c taken j).testBit (rotatedFrom b.skew k)
      else (b.thisAt c taken j).testBit (rotatedFrom b.skew k) := by
  have hp : b.prevAt c taken j < 65536 := by
    cases j with
    | zero => exact hprev
    | succ j => exact thisAt_lt hthis htaken j
  rw [skewAt, if_pos hs,
    testBit_rotate (blend_lt hp (thisAt_lt hthis htaken j)) hskew hk,
    testBit_blend (rotatedFrom_lt hskew hk)]

/-- Where the shifter finds a pixel of the source line, it has it. -/
theorem Aimed.testBit_skewAt (ha : Aimed b c source n taken y first)
    (hs : b.sourceForm ≠ nilPointer) (hskew : b.skew < 16) (hj : j < n) (hk : k < 16)
    (h0 : 0 ≤ x / 16) (hlt : x / 16 < b.sourceRaster)
    (hfound : Found b.hDir b.skew (b.fetched first j) k x
      (if b.skewMask.testBit (rotatedFrom b.skew k) then 1 else 0))
    (hpre : b.skewMask.testBit (rotatedFrom b.skew k) = true → j = 0 → b.preload = true) :
    (b.skewAt c taken j).testBit k = pixelAt source b.sourceRaster x y := by
  have hu := rotatedFrom_lt hskew hk
  rw [BitBlt.testBit_skewAt hs hskew ha.prevWord_lt ha.thisWord_lt ha.taken_lt hk, pixelAt]
  unfold Found at hfound
  rw [Int.toNat_natCast] at hfound
  obtain ⟨hx, hbit⟩ := hfound
  by_cases hm : b.skewMask.testBit (rotatedFrom b.skew k) = true
  · rw [if_pos hm, mul_one] at hx
    rw [if_pos hm, ha.prevAt_eq hj (by omega) (by omega) (hpre hm), ← hx, hbit]
    congr 1
    omega
  · rw [if_neg hm, mul_zero, sub_zero] at hx
    rw [if_neg hm, ha.thisAt_eq hj (by omega) (by omega), ← hx, hbit]
    congr 1
    omega

end Shifter

end BitBlt

end Crosstalk
