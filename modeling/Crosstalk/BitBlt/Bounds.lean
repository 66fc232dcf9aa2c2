import Crosstalk.BitBlt.CopyBits

/-!
# The indices of a copy

The indices of `copyLoop` depend on the rectangle and the directions only, never
on what the memory holds. With them every access lies inside its bitmap, in any
memory in which `copyBits` comes to its loop: also when the forms overlap, when
the run halts half way, and for the narrow copies that come out wrong.
-/

namespace Crosstalk

namespace BitBlt

open ObjectMemory

/-! ## The accesses of the loop -/

/-- The shifter before the first line. -/
def firstShifter (b : BitBlt) : Shifter where
  sourceIndex := b.sourceIndex
  destIndex := b.destIndex
  dy := b.dy
  prevWord := 0
  thisWord := 0
  skewWord := 0
  mergeMask := 0

/-- The loop, begun in the memory `m`, comes to line `i`, with `c` and in `t`. -/
def ToLine (b : BitBlt) (m : ObjectMemory) (i : Nat) (c : Shifter) (t : ObjectMemory) : Prop :=
  i < b.h.toNat ∧ foldN i (fun _ => copyRow b) b.firstShifter m = some (some c, t)

/-- Within line `i` it comes to word `j`. -/
def ToWord (b : BitBlt) (m : ObjectMemory) (i j : Nat) (c : Shifter) (t : ObjectMemory) : Prop :=
  ∃ c₀ t₀ halftoneWord c₁ t₁, ToLine b m i c₀ t₀ ∧
    startLine b c₀ t₀ = some ((halftoneWord, c₁), t₁) ∧ j < b.nWords.toNat ∧
    foldN j (fun k => copyWord b halftoneWord (k + 1)) c₁ t₁ = some (some c, t)

/-- The bitmaps of a copy. -/
inductive Bitmap where
  | source
  | dest
  | halftone

def bits (b : BitBlt) : Bitmap → Nat
  | .source => b.sourceBits
  | .dest => b.destBits
  | .halftone => b.halftoneBits

/-- The accesses in the order of the loop. `dest` is the index of the word that
is read and written, and that the loop compares with the length. -/
inductive Uses (b : BitBlt) (m : ObjectMemory) : Bitmap → Int → Prop where
  | halftone {i : Nat} {c : Shifter} {t : ObjectMemory} : ToLine b m i c t →
      b.halftoneForm ≠ nilPointer → Uses b m .halftone (c.dy % 16)
  | preload {i : Nat} {c : Shifter} {t : ObjectMemory} : ToLine b m i c t →
      b.preload = true → Uses b m .source c.sourceIndex
  | source {i j : Nat} {c : Shifter} {t : ObjectMemory} : ToWord b m i j c t →
      b.sourceForm ≠ nilPointer → ((j + 1 : Nat) : Int) ≤ b.sourceRaster →
      c.sourceIndex ≥ 0 → c.sourceIndex < b.sourceBitsWordLength →
      Uses b m .source c.sourceIndex
  | dest {i j : Nat} {c : Shifter} {t : ObjectMemory} : ToWord b m i j c t →
      Uses b m .dest c.destIndex

/-- The `return` out of the loop is taken. -/
def ReturnsEarly (b : BitBlt) (m : ObjectMemory) : Prop :=
  ∃ i c t t', ToLine b m i c t ∧ copyRow b c t = some (none, t')

/-- `copyBits` comes to its loop, with `e` and in the memory `t`: the rectangle
is not empty, and the bitmaps have the words of their forms. -/
def ComesToLoop (b : BitBlt) (m : ObjectMemory) (e : BitBlt) (t : ObjectMemory) : Prop :=
  ((clipRange b).w > 0 ∧ (clipRange b).h > 0) ∧
    ∃ a, computeMasks (updateBounds (clipRange b)) m = some (a, t) ∧
      (a.sourceForm ≠ nilPointer →
        formWordCount a.sourceFormWidth a.sourceFormHeight = a.sourceBitsWordLength) ∧
      formWordCount a.destFormWidth a.destFormHeight = a.destBitsWordLength ∧
      e = calculateOffsets (checkOverlap a)

/-- The words of the bitmap `p`. -/
def wordLength (m : ObjectMemory) (p : Nat) : Int := (m.chunkWord p 0 : Int) - headerSize

/-- The pixel lies in the rectangle that the copy reports. -/
def Updated (b : BitBlt) (x y : Int) : Prop :=
  (b.updatedX ≤ x ∧ x < b.updatedX + b.updatedWidth) ∧
    b.updatedY ≤ y ∧ y < b.updatedY + b.updatedHeight

/-- `copyBits` in the memory `m` uses no index outside its bitmap. -/
structure StaysInside (b : BitBlt) (m : ObjectMemory) : Prop where
  uses : ∀ e t, ComesToLoop b m e t →
    (e.halftoneForm ≠ nilPointer → wordLength t e.halftoneBits = 16) →
    ∀ k index, Uses e t k index → 0 ≤ index ∧ index < wordLength t (e.bits k)
  not_returnsEarly : ∀ e t, ComesToLoop b m e t → ¬ReturnsEarly e t
  updated : Wlp (copyBits b) (fun r _ => ∀ x y, Updated r.2 x y →
    (0 ≤ x ∧ x < b.destFormWidth) ∧ 0 ≤ y ∧ y < b.destFormHeight) m

variable {a b e : BitBlt} {c : Shifter} {m t : ObjectMemory} {i j : Nat}

theorem copyLoop_eq (b : BitBlt) : copyLoop b = (do
    let _ ← foldN b.h.toNat (fun _ => copyRow b) b.firstShifter
    return ()) := rfl

/-! ## What a step does to the indices -/

theorem wlp_shiftSource {word : Nat} : Wlp (shiftSource b word c)
    (fun d _ => d.sourceIndex = c.sourceIndex ∧ d.destIndex = c.destIndex) m := by
  unfold shiftSource
  by_cases hf : (word : Int) ≤ b.sourceRaster ∧ c.sourceIndex ≥ 0 ∧
      c.sourceIndex < b.sourceBitsWordLength
  · simp only [hf, and_self, if_true, wlp_bind, wlp_pure]
    exact fun _ _ _ => trivial
  · simp only [hf, if_false, wlp_pure, and_self]

theorem wlp_mergeIntoDest {halftoneWord word : Nat} (hlt : c.destIndex < b.destBitsWordLength) :
    Wlp (mergeIntoDest b halftoneWord word c) (fun r _ => ∃ d, r = some d ∧
      d.sourceIndex = c.sourceIndex + b.hDir ∧ d.destIndex = c.destIndex + b.hDir) m := by
  rw [mergeIntoDest, if_neg (by omega)]
  simp only [wlp_bind, wlp_pure]
  exact fun _ _ _ _ _ _ _ _ _ => ⟨_, rfl, rfl, rfl⟩

theorem wlp_copyWord {halftoneWord word : Nat} (hlt : c.destIndex < b.destBitsWordLength) :
    Wlp (copyWord b halftoneWord word c) (fun r _ => ∃ d, r = some d ∧
      d.sourceIndex = c.sourceIndex + b.hDir ∧ d.destIndex = c.destIndex + b.hDir) m := by
  rw [copyWord]
  by_cases hs : b.sourceForm ≠ nilPointer
  · rw [if_pos hs, wlp_bind]
    refine wlp_shiftSource.mono ?_
    rintro d t ⟨hsource, hdest⟩
    have hmerge : Wlp (mergeIntoDest b halftoneWord word d) _ t :=
      wlp_mergeIntoDest (hdest ▸ hlt)
    rwa [hsource, hdest] at hmerge
  · rw [if_neg hs, wlp_bind, wlp_pure]
    exact wlp_mergeIntoDest hlt

theorem wlp_startLine : Wlp (startLine b c) (fun r _ =>
    r.2.sourceIndex = c.sourceIndex + (if b.preload then b.hDir else 0) ∧
      r.2.destIndex = c.destIndex) m := by
  rw [startLine, wlp_bind]
  intro halftoneWord t _
  rw [wlp_bind]
  intro prevWord t' _
  rw [wlp_pure]
  refine ⟨?_, rfl⟩
  dsimp only
  split
  · rfl
  · rw [add_zero]

/-- Word by word, as long as the words of the line lie inside the destination. -/
theorem wlp_words {halftoneWord n : Nat}
    (hlt : ∀ j < n, c.destIndex + b.hDir * j < b.destBitsWordLength) :
    Wlp (foldN n (fun k => copyWord b halftoneWord (k + 1)) c) (fun r _ => ∃ d, r = some d ∧
      d.sourceIndex = c.sourceIndex + b.hDir * n ∧ d.destIndex = c.destIndex + b.hDir * n) m := by
  refine wlp_foldN (fun j (d : Shifter) _ => d.sourceIndex = c.sourceIndex + b.hDir * j ∧
    d.destIndex = c.destIndex + b.hDir * j) (fun j d t hj ⟨hs, hd⟩ => ?_) (by simp)
  have hstep : Wlp (copyWord b halftoneWord (j + 1) d) _ t := wlp_copyWord (hd ▸ hlt j hj)
  refine hstep.mono ?_
  rintro _ _ ⟨d', rfl, hs', hd'⟩
  refine ⟨d', rfl, ?_, ?_⟩
  · rw [hs', hs]
    push_cast
    ring
  · rw [hd', hd]
    push_cast
    ring

/-! ## What the set-up gives the loop -/

/-- The words of the `i`th line lie inside the destination, and the first one of
its source inside the source. -/
structure Bounded (b : BitBlt) : Prop where
  nWords : 0 ≤ b.nWords
  dest : ∀ i < b.h.toNat, ∀ j < b.nWords.toNat,
    0 ≤ b.destIndex + b.destRaster * b.vDir * i + b.hDir * j ∧
      b.destIndex + b.destRaster * b.vDir * i + b.hDir * j < b.destBitsWordLength
  source : b.sourceForm ≠ nilPointer → ∀ i < b.h.toNat,
    0 ≤ b.sourceIndex + b.sourceRaster * b.vDir * i ∧
      b.sourceIndex + b.sourceRaster * b.vDir * i < b.sourceBitsWordLength
  hDir : b.hDir = 1 ∨ b.hDir = -1
  preload : b.preload = true → b.sourceForm ≠ nilPointer
  sourceDelta : b.sourceDelta =
    b.sourceRaster * b.vDir - (b.nWords + (if b.preload then 1 else 0)) * b.hDir
  destDelta : b.destDelta = b.destRaster * b.vDir - b.nWords * b.hDir

/-- The shifter at the start of the `i`th line. -/
def AtRow (b : BitBlt) (i : Nat) (c : Shifter) : Prop :=
  c.sourceIndex = b.sourceIndex + b.sourceRaster * b.vDir * i ∧
    c.destIndex = b.destIndex + b.destRaster * b.vDir * i

theorem Bounded.wlp_copyRow (hb : Bounded b) (hi : i < b.h.toNat) (hc : AtRow b i c) :
    Wlp (copyRow b c) (fun r _ => ∃ d, r = some d ∧ AtRow b (i + 1) d) m := by
  have hn := hb.nWords
  obtain ⟨hs, hd⟩ := hc
  rw [copyRow, wlp_bind]
  refine wlp_startLine.mono ?_
  rintro ⟨halftoneWord, c₁⟩ t ⟨hs₁, hd₁⟩
  dsimp only at hs₁ hd₁ ⊢
  rw [wlp_bind]
  refine (wlp_words fun j hj => ?_).mono ?_
  · rw [hd₁, hd]
    exact (hb.dest i hi j hj).2
  · rintro _ t' ⟨d, rfl, hs₂, hd₂⟩
    rw [wlp_pure]
    refine ⟨_, rfl, ?_, ?_⟩
    · dsimp only
      rw [hs₂, hs₁, hs, hb.sourceDelta, Int.toNat_of_nonneg hn]
      push_cast
      split <;> ring
    · dsimp only
      rw [hd₂, hd₁, hd, hb.destDelta, Int.toNat_of_nonneg hn]
      push_cast
      ring

theorem Bounded.atRow (hb : Bounded b) (h : ToLine b m i c t) : AtRow b i c := by
  obtain ⟨hi, hrun⟩ := h
  have hrows : Wlp (foldN i (fun _ => copyRow b) b.firstShifter)
      (fun r _ => ∃ d, r = some d ∧ AtRow b i d) m :=
    wlp_foldN (fun i d _ => AtRow b i d)
      (fun k d t hk hd => hb.wlp_copyRow (by omega) hd)
      ⟨by simp [firstShifter], by simp [firstShifter]⟩
  obtain ⟨d, hd, hat⟩ := hrows _ _ hrun
  cases hd
  exact hat

theorem Bounded.destIndex_eq (hb : Bounded b) (h : ToWord b m i j c t) :
    i < b.h.toNat ∧ j < b.nWords.toNat ∧
      c.destIndex = b.destIndex + b.destRaster * b.vDir * i + b.hDir * j := by
  obtain ⟨c₀, t₀, halftoneWord, c₁, t₁, hline, hstart, hj, hrun⟩ := h
  have hd₁ : c₁.destIndex = c₀.destIndex := (wlp_startLine _ _ hstart).2
  have hlt : ∀ k < j, c₁.destIndex + b.hDir * k < b.destBitsWordLength := by
    intro k hk
    rw [hd₁, (hb.atRow hline).2]
    exact (hb.dest i hline.1 k (by omega)).2
  obtain ⟨d, hd, -, hdest⟩ := wlp_words hlt _ _ hrun
  cases hd
  exact ⟨hline.1, hj, by rw [hdest, hd₁, (hb.atRow hline).2]⟩

theorem Bounded.not_returnsEarly (hb : Bounded b) : ¬ReturnsEarly b m := by
  rintro ⟨i, c, t, t', hline, hrun⟩
  obtain ⟨d, hd, -⟩ := hb.wlp_copyRow hline.1 (hb.atRow hline) _ _ hrun
  cases hd

/-! ## From the clipped rectangle -/

/-- Word `x` of the `i`th line from `start` on lies inside the bitmap. -/
theorem line_index {start top height raster length vDir x : Int} (h0 : 0 ≤ top)
    (hlen : (top + height) * raster ≤ length)
    (hlines : vDir = 1 ∧ start = top ∨ vDir = -1 ∧ start = top + height - 1)
    (hi : i < height.toNat) (hx : 0 ≤ x) (hx' : x < raster) :
    0 ≤ start * raster + raster * vDir * i + x ∧
      start * raster + raster * vDir * i + x < length := by
  have hline : start * raster + raster * vDir * i = (start + vDir * i) * raster := by ring
  have hy : top ≤ start + vDir * i ∧ start + vDir * i < top + height := by
    rcases hlines with ⟨rfl, rfl⟩ | ⟨rfl, rfl⟩ <;> constructor <;> omega
  have hbounds := line_bounds h0 (by omega) hlen hy.1 hy.2
  rw [hline]
  omega

theorem Clipped.bounded_forward (hc : Clipped a) {vDir sy dy : Int}
    (hlines : vDir = 1 ∧ dy = a.dy ∧ sy = a.sy ∨
      vDir = -1 ∧ dy = a.dy + a.h - 1 ∧ sy = a.sy + a.h - 1) :
    Bounded (BitBlt.sweepForward a vDir sy dy) := by
  have hw := hc.w_pos
  have hdx := hc.dx_nonneg
  have hdx' := hc.dx_le
  have hraster := hc.destRaster_eq
  have hn := nWords_eq (b := a) hw
  have hpre : (BitBlt.sweepForward a vDir sy dy).preload = true → a.sourceForm ≠ nilPointer := by
    intro hp
    change (decide (a.sourceForm ≠ nilPointer) && _ && _) = true at hp
    simp only [Bool.and_eq_true, decide_eq_true_eq] at hp
    exact hp.1.1
  refine ⟨?_, fun i hi j hj => ?_, fun hs i hi => ?_, .inl rfl, hpre, rfl, rfl⟩
  · change 0 ≤ (edgeMasks a).nWords
    omega
  · change j < (edgeMasks a).nWords.toNat at hj
    have h := line_index (i := i) (x := a.dx / 16 + j) hc.dy_nonneg hc.destLines
      (hlines.imp (fun h => ⟨h.1, h.2.1⟩) fun h => ⟨h.1, h.2.1⟩) hi (by omega) (by omega)
    change 0 ≤ dy * a.destRaster + a.dx.tdiv 16 + a.destRaster * vDir * i + 1 * j ∧
      dy * a.destRaster + a.dx.tdiv 16 + a.destRaster * vDir * i + 1 * j < a.destBitsWordLength
    rw [Int.tdiv_eq_ediv_of_nonneg hdx]
    omega
  · have hsx := hc.sx_nonneg hs
    have hsx' := hc.sx_le hs
    have hsource := hc.sourceRaster_eq hs
    have h := line_index (i := i) (x := a.sx / 16) (hc.sy_nonneg hs) (hc.sourceLines hs)
      (hlines.imp (fun h => ⟨h.1, h.2.2⟩) fun h => ⟨h.1, h.2.2⟩) hi (by omega) (by omega)
    change 0 ≤ sy * a.sourceRaster + a.sx.tdiv 16 + a.sourceRaster * vDir * i ∧
      sy * a.sourceRaster + a.sx.tdiv 16 + a.sourceRaster * vDir * i < a.sourceBitsWordLength
    rw [Int.tdiv_eq_ediv_of_nonneg hsx]
    omega

theorem Clipped.bounded_backward (hc : Clipped a) (hs : a.sourceForm ≠ nilPointer) :
    Bounded (BitBlt.sweepBackward a) := by
  have hw := hc.w_pos
  have hdx := hc.dx_nonneg
  have hdx' := hc.dx_le
  have hraster := hc.destRaster_eq
  have hn := nWords_eq (b := a) hw
  refine ⟨?_, fun i hi j hj => ?_, fun _ i hi => ?_, .inr rfl, fun _ => hs, rfl, rfl⟩
  · change 0 ≤ (edgeMasks a).nWords
    omega
  · change j < (edgeMasks a).nWords.toNat at hj
    have h := line_index (i := i) (x := (a.dx + a.w - 1) / 16 - j) hc.dy_nonneg hc.destLines
      (.inl ⟨rfl, rfl⟩) hi (by omega) (by omega)
    change 0 ≤ a.dy * a.destRaster + (a.dx + a.w - 1).tdiv 16 + a.destRaster * 1 * i + -1 * j ∧
      a.dy * a.destRaster + (a.dx + a.w - 1).tdiv 16 + a.destRaster * 1 * i + -1 * j <
        a.destBitsWordLength
    rw [Int.tdiv_eq_ediv_of_nonneg (by omega)]
    omega
  · have hsx := hc.sx_nonneg hs
    have hsx' := hc.sx_le hs
    have hsource := hc.sourceRaster_eq hs
    have h := line_index (i := i) (x := (a.sx + a.w - 1) / 16) (hc.sy_nonneg hs)
      (hc.sourceLines hs) (.inl ⟨rfl, rfl⟩) hi (by omega) (by omega)
    change 0 ≤ a.sy * a.sourceRaster + (a.sx + a.w - 1).tdiv 16 + a.sourceRaster * 1 * i ∧
      a.sy * a.sourceRaster + (a.sx + a.w - 1).tdiv 16 + a.sourceRaster * 1 * i <
        a.sourceBitsWordLength
    rw [Int.tdiv_eq_ediv_of_nonneg (by omega)]
    omega

theorem Clipped.bounded (hc : Clipped a) (hdest : a.destForm ≠ nilPointer) :
    Bounded (calculateOffsets (checkOverlap (edgeMasks a))) := by
  by_cases hsame : a.sourceForm = a.destForm
  · rw [checkOverlap_same hsame]
    split
    · exact hc.bounded_forward (.inl ⟨rfl, rfl, rfl⟩)
    · split
      · exact hc.bounded_forward (.inr ⟨rfl, rfl, rfl⟩)
      · split
        · exact hc.bounded_backward (hsame ▸ hdest)
        · exact hc.bounded_forward (.inl ⟨rfl, rfl, rfl⟩)
  · rw [checkOverlap_different hsame]
    exact hc.bounded_forward (.inl ⟨rfl, rfl, rfl⟩)

/-! ## The bitmaps that are found -/

/-- The bitmaps, with the lengths that they have in the memory. -/
def foundBits (b : BitBlt) (m : ObjectMemory) (destBits sourceBits halftoneBits : Nat) : BitBlt :=
  { b.withBits destBits sourceBits halftoneBits with
    destBitsWordLength := wordLength m destBits
    sourceBitsWordLength := if b.sourceForm ≠ nilPointer then wordLength m sourceBits else 0 }

theorem exists_foundBits {Q : BitBlt → ObjectMemory → Prop} (h : Wp (findBits b) Q m) :
    ∃ destBits sourceBits halftoneBits,
      Q (b.foundBits m destBits sourceBits halftoneBits) m := by
  have hhalf : ∀ b' : BitBlt, Wp (findHalftoneBits b') Q m → ∃ halftoneBits, Q { b' with
      halftoneBits := if b'.halftoneForm ≠ nilPointer then halftoneBits
        else b'.halftoneBits } m := by
    intro b' hb'
    unfold findHalftoneBits at hb'
    by_cases hh : b'.halftoneForm ≠ nilPointer
    · rw [if_pos hh, wp_bind, fetchPointerOfObject_eq, wp_fetchWordOfObject, wp_pure] at hb'
      exact ⟨_, by rw [if_pos hh]; exact hb'.2⟩
    · rw [if_neg hh, wp_pure] at hb'
      exact ⟨0, by rw [if_neg hh]; exact hb'⟩
  unfold findBits findSourceBits at h
  simp only [wp_bind, fetchPointerOfObject_eq, wp_fetchWordOfObject, wp_fetchWordLengthOf] at h
  obtain ⟨-, -, h⟩ := h
  by_cases hs : b.sourceForm ≠ nilPointer
  · simp only [if_pos hs, wp_bind, wp_fetchWordOfObject, wp_fetchWordLengthOf, wp_pure] at h
    obtain ⟨-, -, h⟩ := h
    obtain ⟨halftoneBits, hQ⟩ := hhalf _ h
    refine ⟨m.chunkWord b.destForm (headerSize + bitsInForm.toNat),
      m.chunkWord b.sourceForm (headerSize + bitsInForm.toNat), halftoneBits, ?_⟩
    unfold foundBits withBits
    simp only [if_pos hs]
    exact hQ
  · simp only [if_neg hs, wp_pure] at h
    obtain ⟨halftoneBits, hQ⟩ := hhalf _ h
    refine ⟨m.chunkWord b.destForm (headerSize + bitsInForm.toNat), 0, halftoneBits, ?_⟩
    unfold foundBits withBits
    simp only [if_neg hs]
    exact hQ

theorem computeMasks_run (h : computeMasks b m = some (a, t)) : t = m ∧
    ∃ destBits sourceBits halftoneBits,
      a = edgeMasks (b.foundBits m destBits sourceBits halftoneBits) := by
  have hwp : Wp (computeMasks b) (fun a' t' => a' = a ∧ t' = t) m := ⟨a, t, h, rfl, rfl⟩
  rw [computeMasks, wp_bind] at hwp
  obtain ⟨d, s, hb, hQ⟩ := exists_foundBits hwp
  rw [wp_pure] at hQ
  exact ⟨hQ.2.symm, d, s, hb, hQ.1.symm⟩

/-- Bitmaps that have the words of their forms. -/
theorem foundBits_eq_withBits {destBits sourceBits halftoneBits : Nat}
    (hsource : b.sourceForm ≠ nilPointer →
      formWordCount b.sourceFormWidth b.sourceFormHeight = wordLength m sourceBits)
    (hdest : formWordCount b.destFormWidth b.destFormHeight = wordLength m destBits) :
    b.foundBits m destBits sourceBits halftoneBits =
      b.withBits destBits sourceBits halftoneBits := by
  unfold foundBits withBits
  by_cases hs : b.sourceForm ≠ nilPointer
  · simp only [if_pos hs, hsource hs, hdest]
  · simp only [if_neg hs, hdest]

/-- The direction and the offsets leave the rest as it is. -/
theorem exists_setUp (a : BitBlt) :
    ∃ hDir vDir sx sy dx dy skewMask mask1 mask2, checkOverlap a =
      { a with hDir, vDir, sx, sy, dx, dy, skewMask, mask1, mask2 } := by
  unfold checkOverlap
  split
  · split
    · exact ⟨_, _, _, _, _, _, _, _, _, rfl⟩
    · split
      · exact ⟨_, _, _, _, _, _, _, _, _, rfl⟩
      · exact ⟨_, _, _, _, _, _, _, _, _, rfl⟩
  · exact ⟨_, _, _, _, _, _, _, _, _, rfl⟩

/-- Bitmaps that pass the test of `copyBits`. -/
theorem foundBits_spec {destBits sourceBits halftoneBits : Nat}
    (ha : a = edgeMasks (b.foundBits m destBits sourceBits halftoneBits))
    (hsource : a.sourceForm ≠ nilPointer →
      formWordCount a.sourceFormWidth a.sourceFormHeight = a.sourceBitsWordLength)
    (hdest : formWordCount a.destFormWidth a.destFormHeight = a.destBitsWordLength) :
    a = edgeMasks (b.withBits destBits sourceBits halftoneBits) ∧
      wordLength m a.destBits = a.destBitsWordLength ∧
      (a.sourceForm ≠ nilPointer → wordLength m a.sourceBits = a.sourceBitsWordLength) := by
  subst ha
  have hfound : ∀ hs : b.sourceForm ≠ nilPointer,
      (b.foundBits m destBits sourceBits halftoneBits).sourceBits = sourceBits ∧
        (b.foundBits m destBits sourceBits halftoneBits).sourceBitsWordLength =
          wordLength m sourceBits := fun hs => ⟨if_pos hs, if_pos hs⟩
  refine ⟨congrArg edgeMasks (foundBits_eq_withBits (fun hs => ?_) hdest), rfl, fun hs => ?_⟩
  · exact (hsource hs).trans (hfound hs).2
  · exact (congrArg (wordLength m) (hfound hs).1).trans (hfound hs).2.symm

/-- What holds when the loop is reached. -/
theorem ComesToLoop.spec (h : ComesToLoop b m e t) (hdest : b.destForm ≠ nilPointer) :
    Bounded e ∧ wordLength t e.destBits = e.destBitsWordLength ∧
      (e.sourceForm ≠ nilPointer → wordLength t e.sourceBits = e.sourceBitsWordLength) := by
  obtain ⟨hpos, a, hmasks, hsourceLength, hdestLength, rfl⟩ := h
  obtain ⟨rfl, d, s, hb, ha⟩ := computeMasks_run hmasks
  obtain ⟨hrectangle, hd, hs⟩ := foundBits_spec ha hsourceLength hdestLength
  refine ⟨?_, ?_⟩
  · rw [hrectangle]
    exact (clipped_rectangle hpos.1 hpos.2).bounded hdest
  · obtain ⟨hDir, vDir, sx, sy, dx, dy, skewMask, mask1, mask2, hover⟩ := exists_setUp a
    rw [hover]
    exact ⟨hd, hs⟩

/-! ## Every copy -/

theorem Bounded.uses_inside (hb : Bounded e)
    (hdest : wordLength t e.destBits = e.destBitsWordLength)
    (hsource : e.sourceForm ≠ nilPointer → wordLength t e.sourceBits = e.sourceBitsWordLength)
    (hhalf : e.halftoneForm ≠ nilPointer → wordLength t e.halftoneBits = 16) {k : Bitmap}
    {index : Int} (h : Uses e t k index) : 0 ≤ index ∧ index < wordLength t (e.bits k) := by
  cases h with
  | halftone hline hh =>
      rw [bits, hhalf hh]
      omega
  | preload hline hp =>
      rw [bits, hsource (hb.preload hp), (hb.atRow hline).1]
      exact hb.source (hb.preload hp) _ hline.1
  | source hword hs hraster h0 hlt =>
      rw [bits, hsource hs]
      exact ⟨h0, hlt⟩
  | dest hword =>
      obtain ⟨hi, hj, hindex⟩ := hb.destIndex_eq hword
      rw [bits, hdest, hindex]
      exact hb.dest _ hi _ hj

/-- The rectangle that is reported was clipped to the destination. -/
theorem wlp_updated : Wlp (copyBits b) (fun r _ => ∀ x y, Updated r.2 x y →
    (0 ≤ x ∧ x < b.destFormWidth) ∧ 0 ≤ y ∧ y < b.destFormHeight) m := by
  rw [copyBits]
  by_cases hpos : (clipRange b).w > 0 ∧ (clipRange b).h > 0
  · rw [if_pos hpos, wlp_bind]
    intro a t hmasks
    obtain ⟨rfl, d, s, hb, rfl⟩ := computeMasks_run hmasks
    have hinside : ∀ r : BitBlt, r.updatedX = (clipRange b).dx → r.updatedY = (clipRange b).dy →
        r.updatedWidth = (clipRange b).w → r.updatedHeight = (clipRange b).h →
        ∀ x y, Updated r x y →
          (0 ≤ x ∧ x < b.destFormWidth) ∧ 0 ≤ y ∧ y < b.destFormHeight := by
      intro r hx hy hw hh x y hr
      rw [Updated, hx, hy, hw, hh] at hr
      obtain ⟨⟨⟨-, -, hx⟩, -⟩, ⟨-, -, hy⟩, -⟩ := (inside_iff b x y).2 hr
      exact ⟨hx, hy⟩
    rw [copyMasked, wlp_ite, wlp_ite]
    refine ⟨fun _ => ?_, fun _ => ⟨fun _ => ?_, fun _ => ?_⟩⟩
    · exact (wlp_pure ..).2 (hinside _ rfl rfl rfl rfl)
    · exact (wlp_pure ..).2 (hinside _ rfl rfl rfl rfl)
    · rw [wlp_bind]
      intro _ t' _
      obtain ⟨hDir, vDir, sx, sy, dx, dy, skewMask, mask1, mask2, hover⟩ :=
        exists_setUp (edgeMasks ((updateBounds (clipRange b)).foundBits t d s hb))
      rw [wlp_pure, hover]
      exact hinside _ rfl rfl rfl rfl
  · rw [if_neg hpos, wlp_pure]
    rintro x y ⟨⟨h0, h1⟩, -⟩
    dsimp only at h0 h1
    omega

/-- A copy into a form uses no index outside the bitmaps, whatever its numbers
are and whatever the memory holds. -/
theorem copyBits_staysInside (hdest : b.destForm ≠ nilPointer) : StaysInside b m where
  uses _ _ h hhalf _ _ huses := by
    obtain ⟨hb, hd, hs⟩ := h.spec hdest
    exact hb.uses_inside hd hs hhalf huses
  not_returnsEarly _ _ h := (h.spec hdest).1.not_returnsEarly
  updated := wlp_updated

theorem staysInside_smallCopy :
    (∃ e, ComesToLoop smallCopy smallForms e smallForms) ∧ StaysInside smallCopy smallForms :=
  ⟨⟨_, by decide, _, rfl, by decide, by decide, rfl⟩, copyBits_staysInside (by decide)⟩

end BitBlt

end Crosstalk
