import Crosstalk.BitBlt.Edges

/-!
# The lines of a copy

`copyLoop` sweeps the rectangle line by line. What it is to leave behind is
`targetBit`: the combination of each pixel of the rectangle with its source
pixel, and every other bit as it was. `Sweep` says what the loop needs of the
masks, the offsets and the directions for that.
-/

namespace Crosstalk

namespace BitBlt

open ObjectMemory

/-- The halftone word of line `y`. -/
def halftoneAt (b : BitBlt) (m : ObjectMemory) (y : Int) : Nat :=
  if b.halftoneForm ≠ nilPointer then m.wordAt b.halftoneBits (y % 16) else allOnes

/-- Bit `k` of word `index` of the destination after a copy into the rectangle
of `a`, from the memory `m` before it. -/
def targetBit (a : BitBlt) (m : ObjectMemory) (index : Int) (k : Nat) : Bool :=
  let y := index / a.destRaster
  let i := index % a.destRaster
  let old := (m.wordAt a.destBits index).testBit k
  if a.dy ≤ y ∧ y < a.dy + a.h ∧ InLine a.dx a.w i k then
    let pixel := if a.sourceForm ≠ nilPointer then
      pixelAt (m.wordAt a.sourceBits) a.sourceRaster
        (16 * i + (15 - k) - a.dx + a.sx) (y - a.dy + a.sy) else true
    combine a.combinationRule (pixel && (a.halftoneAt m y).testBit k) old
  else old

/-- `b` sweeps the rectangle of `a`: line by line in the direction `vDir`, each
line in the direction `hDir`. -/
structure Sweep (a b : BitBlt) : Prop where
  extent : 0 < a.w
  sourceForm : b.sourceForm = a.sourceForm
  halftoneForm : b.halftoneForm = a.halftoneForm
  combinationRule : b.combinationRule = a.combinationRule
  destBits : b.destBits = a.destBits
  sourceBits : b.sourceBits = a.sourceBits
  halftoneBits : b.halftoneBits = a.halftoneBits
  destLength : b.destBitsWordLength = a.destBitsWordLength
  sourceLength : b.sourceBitsWordLength = a.sourceBitsWordLength
  destRaster : b.destRaster = a.destRaster
  sourceRaster : b.sourceRaster = a.sourceRaster
  height : b.h = a.h
  hDir : b.hDir = 1 ∨ b.hDir = -1
  skew : b.skew < 16
  nWords : 0 ≤ b.nWords
  mask : ∀ c : Shifter, c.mergeMask = b.mask1 → ∀ j k : Nat, j < b.nWords → k < 16 →
    (b.maskAt c j).testBit k = decide (InLine a.dx a.w (b.dx / 16 + b.hDir * j) k)
  found : b.sourceForm ≠ nilPointer → ∀ j k : Nat, j < b.nWords → k < 16 →
    InLine a.dx a.w (b.dx / 16 + b.hDir * j) k →
    Found b.hDir b.skew (b.fetched (b.sx / 16) j) k
      (16 * (b.dx / 16 + b.hDir * j) + (15 - k) - a.dx + a.sx)
      (if b.skewMask.testBit (rotatedFrom b.skew k) then 1 else 0) ∧
    (b.skewMask.testBit (rotatedFrom b.skew k) = true → j = 0 → b.preload = true)
  cover : ∀ i (k : Nat), k < 16 → InLine a.dx a.w i k →
    ∃ j : Nat, j < b.nWords ∧ i = b.dx / 16 + b.hDir * j
  destWords : ∀ j : Nat, j < b.nWords →
    0 ≤ b.dx / 16 + b.hDir * j ∧ b.dx / 16 + b.hDir * j < b.destRaster
  sourceWords : b.sourceForm ≠ nilPointer →
    (0 ≤ b.sx / 16 ∧ b.sx / 16 < b.sourceRaster) ∧
    ∀ x, a.sx ≤ x → x < a.sx + a.w → 0 ≤ x / 16 ∧ x / 16 < b.sourceRaster
  preload : b.preload = true → b.sourceForm ≠ nilPointer
  lines : b.vDir = 1 ∧ b.dy = a.dy ∧ b.sy = a.sy ∨
    b.vDir = -1 ∧ b.dy = a.dy + a.h - 1 ∧ b.sy = a.sy + a.h - 1
  destLines : 0 ≤ a.dy ∧ (a.dy + a.h) * b.destRaster ≤ b.destBitsWordLength
  sourceLines : b.sourceForm ≠ nilPointer →
    0 ≤ a.sy ∧ (a.sy + a.h) * b.sourceRaster ≤ b.sourceBitsWordLength
  sourceIndex : b.sourceForm ≠ nilPointer →
    b.sourceIndex = b.sy * b.sourceRaster + b.sx / 16
  destIndex : b.destIndex = b.dy * b.destRaster + b.dx / 16
  sourceDelta : b.sourceDelta =
    b.sourceRaster * b.vDir - (b.nWords + (if b.preload then 1 else 0)) * b.hDir
  destDelta : b.destDelta = b.destRaster * b.vDir - b.nWords * b.hDir
  /-- On one bitmap, lines and words are read before they are overwritten. -/
  overlap : b.sourceForm ≠ nilPointer → b.sourceBits = b.destBits →
    b.sourceRaster = b.destRaster ∧ 0 ≤ b.vDir * (a.sy - a.dy) ∧
      (a.sy = a.dy → 0 ≤ b.hDir * (b.sx / 16 - b.dx / 16))

/-- The stages that set up the sweep keep the bitmaps. -/
theorem Sweep.ready {a b : BitBlt} {m : ObjectMemory} (hw : Sweep a b) (h : Ready a m) :
    Ready b m := by
  constructor
  · rw [hw.destBits, hw.destLength]; exact h.dest
  · rw [hw.sourceForm, hw.sourceBits, hw.sourceLength]; exact h.source
  · rw [hw.sourceForm, hw.sourceBits, hw.destBits]; exact h.apart
  · rw [hw.halftoneForm, hw.halftoneBits, hw.destBits]; exact h.halftone
  · rw [hw.combinationRule]; exact h.rule

/-! ## One line -/

/-- The shifter at the start of a line `y`, whose source is line `sy`. -/
structure AtLine (b : BitBlt) (c : Shifter) (y sy : Int) : Prop where
  sourceIndex : b.sourceForm ≠ nilPointer →
    c.sourceIndex = sy * b.sourceRaster + b.sx / 16
  destIndex : c.destIndex = y * b.destRaster + b.dx / 16
  dy : b.halftoneForm ≠ nilPointer → c.dy = y
  thisWord_lt : b.sourceForm ≠ nilPointer → c.thisWord < 65536

variable {a b : BitBlt} {c : Shifter} {m m' : ObjectMemory} {y sy : Int}

theorem halftoneAt_lt (b : BitBlt) (m : ObjectMemory) (y : Int) :
    b.halftoneAt m y < 65536 := by
  unfold halftoneAt
  split
  · exact m.wordAt_lt _ _
  · decide

/-- The shifter after `startLine`. -/
def lineShifter (b : BitBlt) (c : Shifter) (m : ObjectMemory) (y : Int) : Shifter :=
  { c with
    dy := if b.halftoneForm ≠ nilPointer then c.dy + b.vDir else c.dy
    sourceIndex := if b.preload then c.sourceIndex + b.hDir else c.sourceIndex
    prevWord := if b.preload then m.wordAt b.sourceBits c.sourceIndex else 0
    skewWord := b.halftoneAt m y
    mergeMask := b.mask1 }

theorem wp_startLine (hr : b.Ready m) (hdy : b.halftoneForm ≠ nilPointer → c.dy = y)
    (hpre : b.preload = true → b.sourceForm ≠ nilPointer)
    (hfirst : b.sourceForm ≠ nilPointer → 0 ≤ c.sourceIndex ∧
      c.sourceIndex < b.sourceBitsWordLength) :
    Wp (startLine b c)
      (fun r t => t = m ∧ r = (b.halftoneAt m y, lineShifter b c m y)) m := by
  have hhalf : Wp (lineHalftone b c) (fun v t => t = m ∧ v = b.halftoneAt m y) m := by
    unfold lineHalftone halftoneAt
    by_cases hh : b.halftoneForm ≠ nilPointer
    · rw [if_pos hh, if_pos hh, hdy hh,
        wp_fetchBits (hr.halftone hh).1 (by omega) (by omega)]
      exact ⟨rfl, rfl⟩
    · rw [if_neg hh, if_neg hh, wp_pure]
      exact ⟨rfl, rfl⟩
  have hstart : Wp (lineStart b c) (fun v t => t = m ∧
      v = if b.preload then m.wordAt b.sourceBits c.sourceIndex else 0) m := by
    unfold lineStart
    by_cases hp : b.preload = true
    · have hs := hpre hp
      rw [if_pos hp, if_pos hp, wp_fetchBits (hr.source hs) (hfirst hs).1 (hfirst hs).2]
      exact ⟨rfl, rfl⟩
    · rw [if_neg hp, if_neg hp, wp_pure]
      exact ⟨rfl, rfl⟩
  rw [startLine, wp_bind]
  refine hhalf.mono ?_
  rintro _ _ ⟨rfl, rfl⟩
  rw [wp_bind]
  refine hstart.mono ?_
  rintro _ _ ⟨rfl, rfl⟩
  rw [wp_pure]
  exact ⟨rfl, rfl⟩

/-- A line of the rectangle lies inside the bitmap. -/
theorem line_bounds {top height raster length : Int} (h0 : 0 ≤ top) (hr : 0 ≤ raster)
    (hlen : (top + height) * raster ≤ length) (hy : top ≤ y) (hy' : y < top + height) :
    0 ≤ y * raster ∧ y * raster + raster ≤ length := by
  have h1 : (y + 1) * raster ≤ (top + height) * raster :=
    mul_le_mul_of_nonneg_right (by omega) hr
  rw [add_mul, one_mul] at h1
  exact ⟨mul_nonneg (by omega) hr, by omega⟩

/-- Two lines have no word in common. -/
theorem line_disjoint {raster i j y' : Int} (hi : 0 ≤ i) (hi' : i < raster) (hj : 0 ≤ j)
    (hj' : j < raster) (h : y ≠ y') : y * raster + i ≠ y' * raster + j := by
  intro heq
  have h1 : (y * raster + i) / raster = y := by
    rw [add_comm, Int.add_mul_ediv_right _ _ (by omega), Int.ediv_eq_zero_of_lt hi hi', zero_add]
  have h2 : (y' * raster + j) / raster = y' := by
    rw [add_comm, Int.add_mul_ediv_right _ _ (by omega), Int.ediv_eq_zero_of_lt hj hj', zero_add]
  rw [heq, h2] at h1
  exact h h1.symm

/-- Line `y` of the destination, and line `sy` of the source, are lines of the
rectangle. -/
structure InRectangle (a : BitBlt) (y sy : Int) : Prop where
  top : a.dy ≤ y
  bottom : y < a.dy + a.h
  source : sy = y - a.dy + a.sy

theorem Sweep.raster_pos (hw : Sweep a b) : 0 < b.destRaster := by
  have h := hw.extent
  obtain ⟨j, hj, -⟩ := hw.cover (a.dx / 16) (15 - (a.dx % 16).toNat) (by omega)
    (by unfold InLine; omega)
  have := hw.destWords j hj
  omega

section Line

variable (hw : Sweep a b) (hy : InRectangle a y sy)

include hw hy

theorem Sweep.destLine :
    0 ≤ y * b.destRaster ∧ y * b.destRaster + b.destRaster ≤ b.destBitsWordLength :=
  line_bounds hw.destLines.1 hw.raster_pos.le hw.destLines.2 hy.top hy.bottom

theorem Sweep.sourceLine (hs : b.sourceForm ≠ nilPointer) :
    0 ≤ sy * b.sourceRaster ∧
      sy * b.sourceRaster + b.sourceRaster ≤ b.sourceBitsWordLength := by
  obtain ⟨⟨h0, hlt⟩, -⟩ := hw.sourceWords hs
  have := hy.top
  have := hy.bottom
  have := hy.source
  exact line_bounds (hw.sourceLines hs).1 (by omega) (hw.sourceLines hs).2 (by omega) (by omega)

/-- On one bitmap, a word of the source line is taken up before the line
overwrites it. -/
theorem Sweep.fetched_ne_stored (hs : b.sourceForm ≠ nilPointer)
    (heq : b.sourceBits = b.destBits) {j : Nat} (hj : j < b.nWords)
    (h0 : 0 ≤ b.fetched (b.sx / 16) j) (hlt : b.fetched (b.sx / 16) j < b.sourceRaster)
    {i : Nat} (hi : i < j) :
    sy * b.sourceRaster + b.fetched (b.sx / 16) j ≠
      y * b.destRaster + (b.dx / 16 + b.hDir * i) := by
  obtain ⟨hraster, hv, hh⟩ := hw.overlap hs heq
  obtain ⟨hd0, hdlt⟩ := hw.destWords i (by omega)
  by_cases hne : sy = y
  · subst hne
    have hsame : a.sy = a.dy := by have := hy.source; omega
    have hdir := hh hsame
    rw [hraster]
    unfold fetched
    rcases hw.hDir with h | h <;> rw [h] at hdir ⊢ <;> split <;> omega
  · rw [hraster] at hlt ⊢
    exact line_disjoint h0 hlt hd0 hdlt hne

end Line

/-- Bit `k` of word `i` of line `y` after the copy of that line, from the memory
`m` before it. -/
def lineTarget (a : BitBlt) (m : ObjectMemory) (y sy i : Int) (k : Nat) : Bool :=
  let old := (m.wordAt a.destBits (y * a.destRaster + i)).testBit k
  if InLine a.dx a.w i k then
    let pixel := if a.sourceForm ≠ nilPointer then
      pixelAt (m.wordAt a.sourceBits) a.sourceRaster (16 * i + (15 - k) - a.dx + a.sx) sy
      else true
    combine a.combinationRule (pixel && (a.halftoneAt m y).testBit k) old
  else old

/-- Line by line. -/
theorem targetBit_eq (a : BitBlt) (m : ObjectMemory) (index : Int) (k : Nat) :
    targetBit a m index k =
      if a.dy ≤ index / a.destRaster ∧ index / a.destRaster < a.dy + a.h then
        lineTarget a m (index / a.destRaster) (index / a.destRaster - a.dy + a.sy)
          (index % a.destRaster) k
      else (m.wordAt a.destBits index).testBit k := by
  have hindex : index / a.destRaster * a.destRaster + index % a.destRaster = index :=
    Int.ediv_mul_add_emod _ _
  unfold targetBit lineTarget
  rw [hindex]
  by_cases h : a.dy ≤ index / a.destRaster ∧ index / a.destRaster < a.dy + a.h
  · simp only [h, true_and, if_true]
  · rw [if_neg h, if_neg fun h' => h ⟨h'.1, h'.2.1⟩]

/-- In word `i` of line `y`. -/
theorem targetBit_line (a : BitBlt) (m : ObjectMemory) {y i : Int} (h0 : 0 ≤ i)
    (hlt : i < a.destRaster) (k : Nat) :
    targetBit a m (y * a.destRaster + i) k =
      if a.dy ≤ y ∧ y < a.dy + a.h then lineTarget a m y (y - a.dy + a.sy) i k
      else (m.wordAt a.destBits (y * a.destRaster + i)).testBit k := by
  have hdiv : (y * a.destRaster + i) / a.destRaster = y := by
    rw [add_comm, Int.add_mul_ediv_right _ _ (by omega), Int.ediv_eq_zero_of_lt h0 hlt,
      zero_add]
  have hmod : (y * a.destRaster + i) % a.destRaster = i := by
    rw [add_comm, Int.add_mul_emod_self_right, Int.emod_eq_of_lt h0 hlt]
  rw [targetBit_eq, hdiv, hmod]

theorem Sweep.halftoneAt_eq (hw : Sweep a b) : b.halftoneAt m y = a.halftoneAt m y := by
  rw [halftoneAt, halftoneAt, hw.halftoneForm, hw.halftoneBits]

theorem Sweep.lineReady (hw : Sweep a b) (hy : InRectangle a y sy) (hr : b.Ready m)
    (hc : AtLine b c y sy) :
    b.LineReady (lineShifter b c m y) (b.halftoneAt m y) m b.nWords.toNat := by
  refine ⟨hr, halftoneAt_lt b m y, hw.hDir, fun j hj => ?_⟩
  obtain ⟨h0, h1⟩ := hw.destLine hy
  obtain ⟨hd0, hd1⟩ := hw.destWords j (by omega)
  have hidx : b.storeIndex (lineShifter b c m y) j =
      y * b.destRaster + (b.dx / 16 + b.hDir * j) := by
    rw [storeIndex, lineShifter, hc.destIndex]
    ring
  rw [hidx]
  omega

theorem Sweep.aimed (hw : Sweep a b) (hy : InRectangle a y sy)
    (hs : b.sourceForm ≠ nilPointer) (hc : AtLine b c y sy)
    {halftoneWord : Nat} {taken : Nat → Nat} {d : Shifter}
    (hd : LineDone b (lineShifter b c m y) halftoneWord m b.nWords.toNat taken d m') :
    Aimed b (lineShifter b c m y) (m.wordAt b.sourceBits) b.nWords.toNat taken sy
      (b.sx / 16) := by
  obtain ⟨⟨hf0, hf1⟩, -⟩ := hw.sourceWords hs
  obtain ⟨hl0, hl1⟩ := hw.sourceLine hy hs
  have hindex : (lineShifter b c m y).sourceIndex =
      sy * b.sourceRaster + b.sx / 16 + b.hDir * (if b.preload then 1 else 0) := by
    rw [lineShifter, hc.sourceIndex hs]
    split <;> ring
  refine ⟨hw.hDir, hindex, fun hp => ?_, ?_, hc.thisWord_lt hs, hd.taken_lt,
    fun j hj h0 hlt => ?_, hf0, hf1, hl0, hl1⟩
  · change (if b.preload then m.wordAt b.sourceBits c.sourceIndex else 0) = _
    rw [hc.sourceIndex hs, if_pos hp]
  · change (if b.preload then m.wordAt b.sourceBits c.sourceIndex else 0) < 65536
    split
    · exact m.wordAt_lt _ _
    · decide
  · rw [hd.taken_eq hs j hj
      (fetches_of_fetched hw.hDir hindex hf0 hf1 hl0 hl1 h0 hlt) fun heq i hi => ?_,
      fetchIndex_eq hindex]
    rw [fetchIndex_eq hindex, storeIndex, lineShifter, hc.destIndex, add_assoc]
    exact hw.fetched_ne_stored hy hs heq (by omega) h0 hlt hi

/-- The bits that the inner loop leaves in the words of the line. -/
theorem Sweep.lineBit_eq (hw : Sweep a b) (hy : InRectangle a y sy) (hc : AtLine b c y sy)
    {taken : Nat → Nat} {d : Shifter}
    (hd : LineDone b (lineShifter b c m y) (b.halftoneAt m y) m b.nWords.toNat taken d m')
    {j k : Nat} (hj : j < b.nWords.toNat) (hk : k < 16) :
    b.lineBit (lineShifter b c m y) taken (b.halftoneAt m y) j
        (m.wordAt b.destBits (y * b.destRaster + (b.dx / 16 + b.hDir * j))) k =
      lineTarget a m y sy (b.dx / 16 + b.hDir * j) k := by
  have hj' : (j : Int) < b.nWords := by omega
  unfold lineBit lineTarget
  rw [hw.mask _ rfl j k hj' hk, ← hw.destBits, ← hw.destRaster, ← hw.halftoneAt_eq,
    ← hw.combinationRule, ← hw.sourceForm, ← hw.sourceBits, ← hw.sourceRaster]
  by_cases hin : InLine a.dx a.w (b.dx / 16 + b.hDir * j) k
  · simp only [hin, decide_true, if_true]
    congr 1
    by_cases hs : b.sourceForm ≠ nilPointer
    · have hx := (hw.sourceWords hs).2
        (16 * (b.dx / 16 + b.hDir * j) + (15 - k) - a.dx + a.sx)
        (by unfold InLine at hin; omega) (by unfold InLine at hin; omega)
      rw [if_pos hs, (hw.aimed hy hs hc hd).testBit_skewAt hs hw.skew hj hk hx.1 hx.2
        (hw.found hs j k hj' hk hin).1 (hw.found hs j k hj' hk hin).2]
    · rw [if_neg hs, skewAt, if_neg hs, lineShifter, Bool.and_self, Bool.true_and]
  · simp only [hin, decide_false, if_false, Bool.false_eq_true]

theorem wp_copyRow (hw : Sweep a b) (hy : InRectangle a y sy) (hr : b.Ready m)
    (hc : AtLine b c y sy) :
    Wp (copyRow b c) (fun r t => ∃ d, r = some d ∧ AtLine b d (y + b.vDir) (sy + b.vDir) ∧
      OnlyFields b.destBits m t ∧
      (∀ i, 0 ≤ i → i < b.destRaster → ∀ k < 16,
        (t.wordAt b.destBits (y * b.destRaster + i)).testBit k = lineTarget a m y sy i k) ∧
      ∀ index, 0 ≤ index →
        index < y * b.destRaster ∨ y * b.destRaster + b.destRaster ≤ index →
        t.wordAt b.destBits index = m.wordAt b.destBits index) m := by
  have hn := hw.nWords
  have hfirst : b.sourceForm ≠ nilPointer →
      0 ≤ c.sourceIndex ∧ c.sourceIndex < b.sourceBitsWordLength := by
    intro hs
    obtain ⟨⟨hf0, hf1⟩, -⟩ := hw.sourceWords hs
    obtain ⟨hl0, hl1⟩ := hw.sourceLine hy hs
    rw [hc.sourceIndex hs]
    omega
  rw [copyRow, wp_bind]
  refine (wp_startLine hr hc.dy hw.preload hfirst).mono ?_
  rintro _ m ⟨rfl, rfl⟩
  rw [wp_bind]
  refine (wp_copyLine (hw.lineReady hy hr hc)).mono ?_
  rintro _ t ⟨d, rfl, taken, hd⟩
  have hindex : ∀ j : Nat, b.storeIndex (lineShifter b c m y) j =
      y * b.destRaster + (b.dx / 16 + b.hDir * j) := by
    intro j
    rw [storeIndex, lineShifter, hc.destIndex]
    ring
  rw [wp_pure]
  refine ⟨_, rfl, ⟨fun hs => ?_, ?_, fun hh => ?_, fun hs => ?_⟩, hd.onlyFields,
    fun i h0 hlt k hk => ?_,
    fun index h0 hout => hd.kept index h0 fun j hj => ?_⟩
  · dsimp only
    rw [hd.sourceIndex, fetchIndex, lineShifter, hc.sourceIndex hs, hw.sourceDelta,
      Int.toNat_of_nonneg hn]
    split <;> ring
  · dsimp only
    rw [hd.destIndex, hindex, hw.destDelta, Int.toNat_of_nonneg hn]
    ring
  · dsimp only
    rw [hd.dy, lineShifter, if_pos hh, hc.dy hh]
  · dsimp only
    rw [hd.thisWord hs]
    split
    · exact hc.thisWord_lt hs
    · exact thisAt_lt (c := lineShifter b c m y) (hc.thisWord_lt hs) hd.taken_lt _
  · by_cases hj : ∃ j : Nat, j < b.nWords.toNat ∧ i = b.dx / 16 + b.hDir * j
    · obtain ⟨j, hj, rfl⟩ := hj
      have h := hd.stored j hj k hk
      rw [hindex] at h
      rw [h, hw.lineBit_eq hy hc hd hj hk]
    · rw [hd.kept _ (by have := (hw.destLine hy).1; omega) fun j hj' heq => ?_, lineTarget,
        if_neg, hw.destBits, hw.destRaster]
      · intro hin
        obtain ⟨j, hj', hij⟩ := hw.cover i k hk hin
        exact hj ⟨j, by omega, hij⟩
      · rw [hindex] at heq
        exact hj ⟨j, hj', by omega⟩
  · obtain ⟨hd0, hd1⟩ := hw.destWords j (by omega)
    rw [hindex]
    omega

/-! ## All lines -/

/-- The `i`th line that the loop comes to. -/
def lineAt (b : BitBlt) (i : Nat) : Int := b.dy + b.vDir * i
def sourceLineAt (b : BitBlt) (i : Nat) : Int := b.sy + b.vDir * i

/-- What the loop has done before it comes to the `i`th line. -/
structure LinesDone (a b : BitBlt) (m : ObjectMemory) (i : Nat) (c : Shifter)
    (t : ObjectMemory) : Prop where
  atLine : AtLine b c (b.lineAt i) (b.sourceLineAt i)
  onlyFields : OnlyFields b.destBits m t
  stored : ∀ j < i, ∀ x, 0 ≤ x → x < b.destRaster → ∀ k < 16,
    (t.wordAt b.destBits (b.lineAt j * b.destRaster + x)).testBit k =
      lineTarget a m (b.lineAt j) (b.sourceLineAt j) x k
  kept : ∀ index, 0 ≤ index → (∀ j < i, index < b.lineAt j * b.destRaster ∨
      b.lineAt j * b.destRaster + b.destRaster ≤ index) →
    t.wordAt b.destBits index = m.wordAt b.destBits index

section Lines

variable (hw : Sweep a b) {i j : Nat}

include hw

theorem Sweep.inRectangle (hi : i < b.h.toNat) :
    InRectangle a (b.lineAt i) (b.sourceLineAt i) := by
  have := hw.height
  unfold lineAt sourceLineAt
  rcases hw.lines with ⟨hv, hdy, hsy⟩ | ⟨hv, hdy, hsy⟩ <;> rw [hv, hdy, hsy] <;>
    exact ⟨by omega, by omega, by omega⟩

theorem Sweep.lineAt_inj (hij : i ≠ j) : b.lineAt i ≠ b.lineAt j := by
  unfold lineAt
  rcases hw.lines with ⟨hv, -, -⟩ | ⟨hv, -, -⟩ <;> rw [hv] <;> omega

/-- On one bitmap, the source of a line is none of the lines before it. -/
theorem Sweep.sourceLineAt_ne (hs : b.sourceForm ≠ nilPointer)
    (heq : b.sourceBits = b.destBits) (hij : j < i) : b.sourceLineAt i ≠ b.lineAt j := by
  have hv := (hw.overlap hs heq).2.1
  unfold lineAt sourceLineAt
  rcases hw.lines with ⟨h, hdy, hsy⟩ | ⟨h, hdy, hsy⟩ <;> rw [h] at hv <;>
    rw [h, hdy, hsy] <;> omega

/-- A word of the `i`th line lies outside the lines before it. -/
theorem Sweep.line_outside {raster x y' : Int} (hr : raster = b.destRaster) (h0 : 0 ≤ x)
    (hlt : x < raster) (hne : y' ≠ b.lineAt j) :
    y' * raster + x < b.lineAt j * b.destRaster ∨
      b.lineAt j * b.destRaster + b.destRaster ≤ y' * raster + x := by
  have hpos := hw.raster_pos
  rw [hr] at hlt ⊢
  rcases lt_or_gt_of_ne hne with h | h
  · have := mul_le_mul_of_nonneg_right (show y' + 1 ≤ b.lineAt j by omega) hpos.le
    rw [add_mul, one_mul] at this
    omega
  · have := mul_le_mul_of_nonneg_right (show b.lineAt j + 1 ≤ y' by omega) hpos.le
    rw [add_mul, one_mul] at this
    omega

/-- Up to the `i`th line, that line is to become what it was to become before
the first. -/
theorem Sweep.lineTarget_eq (hr : b.Ready m) {t : ObjectMemory}
    (hd : LinesDone a b m i c t) (hi : i < b.h.toNat) {x : Int} (h0 : 0 ≤ x)
    (hlt : x < b.destRaster) {k : Nat} :
    lineTarget a t (b.lineAt i) (b.sourceLineAt i) x k =
      lineTarget a m (b.lineAt i) (b.sourceLineAt i) x k := by
  have hy := hw.inRectangle hi
  have hold : t.wordAt b.destBits (b.lineAt i * b.destRaster + x) =
      m.wordAt b.destBits (b.lineAt i * b.destRaster + x) := by
    refine hd.kept _ (by have := (hw.destLine hy).1; omega) fun j hj => ?_
    exact hw.line_outside rfl h0 hlt (hw.lineAt_inj (by omega))
  have hhalf : b.halftoneAt t (b.lineAt i) = b.halftoneAt m (b.lineAt i) := by
    unfold halftoneAt
    split
    · next hh =>
        obtain ⟨hb, hsep⟩ := hr.halftone hh
        exact hd.onlyFields.wordAt_separate hr.dest.heap hsep hb (by omega) (by omega)
    · rfl
  unfold lineTarget
  rw [← hw.destBits, ← hw.destRaster, ← hw.sourceForm, ← hw.sourceBits, ← hw.sourceRaster,
    ← hw.halftoneAt_eq, ← hw.halftoneAt_eq, hold, hhalf]
  by_cases hin : InLine a.dx a.w x k
  · by_cases hs : b.sourceForm ≠ nilPointer
    · simp only [hin, if_true, if_pos hs]
      obtain ⟨hx0, hx1⟩ := (hw.sourceWords hs).2 (16 * x + (15 - k) - a.dx + a.sx)
        (by unfold InLine at hin; omega) (by unfold InLine at hin; omega)
      obtain ⟨hl0, hl1⟩ := hw.sourceLine hy hs
      have hword := hr.source_eq hd.onlyFields hs
        (k := b.sourceLineAt i * b.sourceRaster + (16 * x + (15 - k) - a.dx + a.sx) / 16)
        (by omega) (by omega) fun heq => hd.kept _ (by omega) fun j hj =>
          hw.line_outside (hw.overlap hs heq).1 hx0 hx1 (hw.sourceLineAt_ne hs heq hj)
      rw [pixelAt, pixelAt, hword]
    · simp only [hin, if_true, if_neg hs]
  · simp only [hin, if_false]

theorem Sweep.step (hr : b.Ready m) {t : ObjectMemory} (hd : LinesDone a b m i c t)
    (hi : i < b.h.toNat) :
    Wp (copyRow b c) (fun r t' => ∃ d, r = some d ∧ LinesDone a b m (i + 1) d t') t := by
  have hy := hw.inRectangle hi
  have hnext : ∀ z : Int, z + b.vDir * (i : Int) + b.vDir = z + b.vDir * ((i + 1 : Nat) : Int) := by
    intro z
    push_cast
    ring
  refine (wp_copyRow hw hy (hr.of_onlyFields hd.onlyFields) hd.atLine).mono ?_
  rintro _ t' ⟨d, rfl, hat, honly, hstored, hkept⟩
  refine ⟨d, rfl, ?_, hd.onlyFields.trans hr.dest.heap honly, fun j hj x h0 hlt k hk => ?_,
    fun index h0 hout => ?_⟩
  · unfold lineAt sourceLineAt at hat ⊢
    rwa [hnext, hnext] at hat
  · rcases Nat.lt_succ_iff_lt_or_eq.mp hj with hj | rfl
    · have hy' := hw.inRectangle (i := j) (by omega)
      rw [hkept _ (by have := (hw.destLine hy').1; omega)
        (hw.line_outside rfl h0 hlt (hw.lineAt_inj (by omega)))]
      exact hd.stored j hj x h0 hlt k hk
    · rw [hstored x h0 hlt k hk]
      exact hw.lineTarget_eq hr hd hi h0 hlt
  · rw [hkept index h0 (hout i (by omega))]
    exact hd.kept index h0 fun j hj => hout j (by omega)

theorem Sweep.exists_line {y : Int} (h0 : a.dy ≤ y) (hlt : y < a.dy + a.h) :
    ∃ i < b.h.toNat, b.lineAt i = y := by
  have hh := hw.height
  unfold lineAt
  rcases hw.lines with ⟨hv, hdy, -⟩ | ⟨hv, hdy, -⟩ <;> rw [hv, hdy]
  · exact ⟨(y - a.dy).toNat, by omega, by omega⟩
  · exact ⟨(a.dy + a.h - 1 - y).toNat, by omega, by omega⟩

/-- The loop leaves `targetBit` in every bit of the destination. -/
theorem wp_copyLoop (hr : b.Ready m) :
    Wp (copyLoop b) (fun _ t => OnlyFields a.destBits m t ∧
      ∀ index, 0 ≤ index → index < b.destBitsWordLength → ∀ k < 16,
        (t.wordAt a.destBits index).testBit k = targetBit a m index k) m := by
  rw [copyLoop, wp_bind]
  refine (wp_foldN (fun i c t => LinesDone a b m i c t)
    (fun i c t hi hd => hw.step hr hd hi) ?_).mono ?_
  · refine ⟨⟨fun hs => ?_, ?_, fun _ => ?_, fun _ => by simp⟩, .refl _ _,
      fun j hj => absurd hj (Nat.not_lt_zero j), fun _ _ _ => rfl⟩
    · simp [hw.sourceIndex hs, sourceLineAt]
    · simp [hw.destIndex, lineAt]
    · simp [lineAt]
  · rintro _ t ⟨c, rfl, hd⟩
    rw [wp_pure, ← hw.destBits]
    refine ⟨hd.onlyFields, fun index h0 hlt k hk => ?_⟩
    have hpos := hw.raster_pos
    have hmod0 := Int.emod_nonneg index hpos.ne'
    have hmod1 := Int.emod_lt_of_pos index hpos
    have hindex : index / b.destRaster * b.destRaster + index % b.destRaster = index :=
      Int.ediv_mul_add_emod _ _
    rw [targetBit_eq, ← hw.destRaster, ← hw.destBits]
    split
    · next hin =>
        obtain ⟨i, hi, hy⟩ := hw.exists_line hin.1 hin.2
        have h := hd.stored i hi _ hmod0 hmod1 k hk
        rw [(hw.inRectangle hi).source, hy, hindex] at h
        exact h
    · next hout =>
        rw [hd.kept index h0 fun j hj => ?_]
        have hrow := hw.inRectangle hj
        have hne : index / b.destRaster ≠ b.lineAt j :=
          fun heq => hout (heq ▸ ⟨hrow.top, hrow.bottom⟩)
        have := hw.line_outside rfl hmod0 hmod1 hne
        rwa [hindex] at this

end Lines

end BitBlt

end Crosstalk
