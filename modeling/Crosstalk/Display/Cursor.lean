import Crosstalk.Display.Screen
import Mathlib.Tactic.Linarith

/-!
# Drawing the cursor

`update_cursor` first puts the pixels back that the cursor covered, from the
one or two words of each row of the bitmap that it straddled, and draws the
pointer at its new place. From the last word of a row it would go on to the
next row, and from the last row out of the bitmap.
-/

namespace Crosstalk

open ObjectMemory

namespace Display

/-! ## The code -/

/-- The sixteen pixels of a word of the bitmap, as far as they are in the display. -/
def paintWord (wordColumn y : Int) (sourcePixel : Nat) : DM Unit :=
  modify fun d => d.paintRow (wordColumn * 16) y fun p =>
    if wordColumn * 16 + (15 - (p : Int)) ≥ d.displayWidth then none
    else if sourcePixel.testBit p then some blackColor else some normalColor

/-- Row `v` of the background of the cursor. -/
def restoreRow (displayBitmap v : Nat) : DM Unit := do
  let d ← get
  if d.prevY + v ≥ d.displayHeight then
    return
  else
    let sourceWordLeft := d.prevX.tdiv 16
    let sourceWordRight := (d.prevX + 15).tdiv 16
    let sourceIndex := sourceWordLeft + (d.prevY + v) * d.displayWidthWords
    paintWord sourceWordLeft (d.prevY + v) (← fetchWordOfDisplayBits sourceIndex displayBitmap)
    if sourceWordLeft = sourceWordRight then
      return
    else
      paintWord sourceWordRight (d.prevY + v)
        (← fetchWordOfDisplayBits (sourceIndex + 1) displayBitmap)

/-- Row `v` of the mouse pointer at `(mX, mY)`. -/
def pointerRow (mX mY : Int) (v : Nat) : DM Unit :=
  modify fun d =>
    if mY + v ≥ d.displayHeight then d
    else d.paintRow mX (mY + v) fun p =>
      if mX + (15 - (p : Int)) ≥ d.displayWidth then none
      else if (d.myCursorSymbol v).testBit p then some d.cursorColor else none

def updateCursor (mX mY : Int) : DM Unit := do
  let d ← get
  let displayBitmap ← getDisplayBits d.displayWidth d.displayHeight
  if displayBitmap = 0 then
    return
  else
    forN 16 (restoreRow displayBitmap)
    forN 16 (pointerRow mX mY)
    modify fun d => { d with prevX := mX, prevY := mY }

/-- The position of the mouse, as `render` clamps it to the display. -/
def clampMouse (d : Display) (mouse : Int × Int) : Int × Int :=
  let mouseX := if mouse.1 ≥ d.displayWidth then d.displayWidth - 1 else mouse.1
  let mouseY := if mouse.2 ≥ d.displayHeight then d.displayHeight - 1 else mouse.2
  (if mouseX < 0 then 0 else mouseX, if mouseY < 0 then 0 else mouseY)

/-! ## The background -/

variable {d d' d₀ : Display} {bits : Nat} {mX mY : Int}

theorem wlp_getDisplayBits (d : Display) (width height : Int) :
    Wlp (getDisplayBits width height) (fun _ d' => d' = d) d := by
  simp only [getDisplayBits, wlp_bind, wlp_get, wlp_ite, wlp_pure, wlp_lookingAtMemory,
    fetchPointerOfObject, wlp_fetchWordLengthOf, wlp_check, wlp_heapChunkOfWord]
  simp

/-- The pixel `(x, y)` lies in the display. -/
def InDisplay (d : Display) (x y : Int) : Prop :=
  (0 ≤ x ∧ x < d.displayWidth) ∧ 0 ≤ y ∧ y < d.displayHeight

/-- Only the screen has changed, and only where it shows the display. -/
structure Kept (d d' : Display) : Prop where
  rest : d' = { d with screen := d'.screen }
  width : d'.screen.width = d.screen.width
  height : d'.screen.height = d.screen.height
  shown : ∀ x y, ¬d.InDisplay x y → d'.shown x y = d.shown x y

theorem Kept.refl (d : Display) : Kept d d := ⟨rfl, rfl, rfl, fun _ _ _ => rfl⟩

theorem Kept.trans {d'' : Display} (h : Kept d d') (h' : Kept d' d'') : Kept d d'' where
  rest := by rw [h'.rest, h.rest]
  width := h'.width.trans h.width
  height := h'.height.trans h.height
  shown x y hout := by
    rw [h'.shown x y (by rw [h.rest]; exact hout), h.shown x y hout]

/-- A row of pixels, of which those on the screen that are set lie in the display. -/
theorem kept_paintRow (d : Display) {x y : Int} {color : Nat → Option TScreenColor}
    (hin : ∀ x', d.OnScreen x' y → x ≤ x' → x' < x + 16 →
      (color (x + 15 - x').toNat).isSome → d.InDisplay x' y) : Kept d (d.paintRow x y color) where
  rest := rfl
  width := (Screen.size_paintBits ..).1
  height := (Screen.size_paintBits ..).2
  shown x' y' hout := by
    rw [shown_paintRow]
    refine ite_eq_right_iff.2 fun ⟨hon, hy, hx⟩ => ?_
    subst hy
    cases hc : color (x + 15 - x').toNat with
    | none => rfl
    | some c =>
        refine (hout (hin x' hon hx.1 hx.2 ?_)).elim
        rw [hc]
        rfl

/-- The background is read inside the bitmap: the cursor is not in the last words
of the last rows, or it covers no second word there. -/
def CursorFits (d : Display) (x y : Int) : Prop :=
  d.displayHeight = 0 ∨ 0 < d.displayWidth ∧
    ((x + 15) / 16 < (d.displayWidth + 15) / 16 ∨ y + 16 < d.displayHeight)

instance (d : Display) (x y : Int) : Decidable (CursorFits d x y) := by
  unfold CursorFits; infer_instance

/-- The words behind the last place of the cursor, in the rows that the display has,
lie in the bitmap. -/
def CursorInside (d : Display) : Prop :=
  ∀ v : Nat, v < 16 → d.prevY + v < d.displayHeight →
    (d.prevX + 15) / 16 + (d.prevY + v) * d.displayWidthWords <
      d.displayHeight * d.displayWidthWords

instance (d : Display) : Decidable (CursorInside d) := by
  unfold CursorInside; infer_instance

/-- A place the cursor can have. -/
structure Clamped (d : Display) (x y : Int) : Prop where
  x_nonneg : 0 ≤ x
  y_nonneg : 0 ≤ y
  x_lt : x < d.displayWidth ∨ x = 0
  y_lt : y < d.displayHeight ∨ y = 0

theorem clamped_clampMouse (d : Display) (mouse : Int × Int) :
    Clamped d (d.clampMouse mouse).1 (d.clampMouse mouse).2 := by
  simp only [clampMouse]
  constructor <;> split <;> split <;> omega

/-- The pixels of word `wordColumn` of row `y`. -/
def WordArea (d : Display) (wordColumn y x' y' : Int) : Prop :=
  y' = y ∧ (wordColumn * 16 ≤ x' ∧ x' < wordColumn * 16 + 16) ∧ x' < d.displayWidth

theorem painted_paintWord (bits : Nat) {wordColumn y : Int} {sourcePixel : Nat}
    (hword : wordColumn * 16 < d.displayWidth →
      sourcePixel = d.memory.wordAt bits (y * d.displayWidthWords + wordColumn)) :
    Wp (paintWord wordColumn y sourcePixel)
      (fun _ => Painted (d.WordArea wordColumn y) (d.bitColor bits) d) d := by
  rw [paintWord, wp_modify]
  have hbit : ∀ x', wordColumn * 16 ≤ x' → x' < wordColumn * 16 + 16 →
      ((wordColumn * 16 + 15 - x').toNat : Int) = wordColumn * 16 + 15 - x' := by omega
  refine d.painted_paintRow (fun x' y' => ?_) fun x' h1 h2 c hc => ?_
  · refine and_congr_right fun _ => and_congr_right fun hx => ?_
    rw [hbit x' hx.1 hx.2]
    by_cases hlt : x' < d.displayWidth
    · rw [if_neg (by omega)]
      split <;> simp [hlt]
    · rw [if_pos (by omega)]
      simp [hlt]
  · simp only [hbit x' h1 h2] at hc
    by_cases hlt : x' < d.displayWidth
    · rw [if_neg (by omega), hword (by omega)] at hc
      rw [bitColor, BitBlt.pixelAt, show x' / 16 = wordColumn by omega,
        show 15 - x' % 16 = wordColumn * 16 + 15 - x' by omega]
      split at hc
      · next hb => rw [if_pos hb]; exact (Option.some.inj hc).symm
      · next hb => rw [if_neg hb]; exact (Option.some.inj hc).symm
    · rw [if_pos (by omega)] at hc
      cases hc

/-- The pixels of row `v` that are put back. -/
def RowArea (d : Display) (v : Nat) (x y : Int) : Prop :=
  (y = d.prevY + v ∧ y < d.displayHeight) ∧
    (d.prevX / 16 * 16 ≤ x ∧ x < (d.prevX + 15) / 16 * 16 + 16) ∧ x < d.displayWidth

theorem index_inside (column row width height : Int) (hc : 0 ≤ column) (hcw : column < width)
    (hr : 0 ≤ row) (hrh : row < height) :
    0 ≤ column + row * width ∧ column + row * width < height * width := by
  constructor
  · nlinarith
  · nlinarith

/-- A cursor that fits is read inside the bitmap. -/
theorem Clamped.cursorInside (hc : Clamped d d.prevX d.prevY) (h : d.HasBits bits)
    (hfit : CursorFits d d.prevX d.prevY) : CursorInside d := by
  intro v hv hrow
  have hx := hc.x_nonneg
  have hy := hc.y_nonneg
  have hraster := h.displayWidthWords_eq
  obtain ⟨hwidth, hlast⟩ := hfit.resolve_left (by omega)
  have hleft : d.prevX / 16 < d.displayWidthWords := by
    rcases hc.x_lt with hlt | h0 <;> omega
  rcases hlast with hlast | hlast
  · exact (index_inside ((d.prevX + 15) / 16) (d.prevY + v) d.displayWidthWords
      d.displayHeight (by omega) (by omega) (by omega) hrow).2
  · -- the row below has its words too
    have := (index_inside (d.prevX / 16) (d.prevY + v) d.displayWidthWords
      (d.displayHeight - 1) (by omega) hleft (by omega) (by omega)).2
    rw [sub_one_mul] at this
    omega

theorem wp_restoreRow (h : d.HasBits bits) (hx : 0 ≤ d.prevX) (hy : 0 ≤ d.prevY)
    (hinside : CursorInside d) {v : Nat} (hv : v < 16) :
    Wp (restoreRow bits v) (fun _ => Painted (d.RowArea v) (d.bitColor bits) d) d := by
  have hraster := h.displayWidthWords_eq
  have hwidth := h.width_nonneg
  rw [restoreRow, wp_bind, wp_get]
  by_cases hbelow : d.prevY + v ≥ d.displayHeight
  · rw [if_pos hbelow, wp_pure]
    exact Painted.refl fun x y ha => absurd ha.1 (by omega)
  rw [if_neg hbelow]
  simp only [Int.tdiv_eq_ediv_of_nonneg hx,
    Int.tdiv_eq_ediv_of_nonneg (show 0 ≤ d.prevX + 15 by omega)]
  have hright := hinside v hv (by omega)
  have hrow : 0 ≤ (d.prevY + v) * d.displayWidthWords := mul_nonneg (by omega) (by omega)
  rw [wp_bind, wp_fetchWordOfDisplayBits h]
  refine ⟨⟨by omega, by omega⟩, ?_⟩
  rw [wp_bind]
  refine (painted_paintWord bits (y := d.prevY + v) fun _ => by rw [add_comm]).mono
    fun _ d₁ hp₁ => ?_
  by_cases hsame : d.prevX / 16 = (d.prevX + 15) / 16
  · rw [if_pos hsame, wp_pure]
    refine hp₁.congr fun x y => ?_
    rw [WordArea, RowArea, ← hsame]
    omega
  · -- the second word of the row
    have hsecond : (d.prevX + 15) / 16 = d.prevX / 16 + 1 := by omega
    obtain ⟨screen, rfl⟩ := hp₁.exists_screen
    rw [if_neg hsame, wp_bind, wp_fetchWordOfDisplayBits (h.withScreen screen)]
    refine ⟨⟨by omega, show _ < d.displayHeight * d.displayWidthWords by omega⟩,
      (painted_paintWord bits fun _ => ?_).mono fun _ d₂ hp₂ => ?_⟩
    · rw [hsecond, show d.prevX / 16 + (d.prevY + v) * d.displayWidthWords + 1 =
        (d.prevY + v) * d.displayWidthWords + (d.prevX / 16 + 1) by omega]
      rfl
    · refine (hp₁.trans hp₂).congr fun x y => ?_
      simp only [WordArea, RowArea, hsecond]
      omega

theorem wlp_paintWord {wordColumn y : Int} {sourcePixel : Nat} (hc : 0 ≤ wordColumn)
    (hy : 0 ≤ y) (hbelow : y < d.displayHeight) :
    Wlp (paintWord wordColumn y sourcePixel) (fun _ => Kept d) d := by
  rw [paintWord, wlp_modify]
  refine d.kept_paintRow fun x _ h1 h2 hset => ⟨⟨by omega, ?_⟩, hy, hbelow⟩
  by_contra hright
  rw [if_pos (by omega)] at hset
  cases hset

theorem wlp_restoreRow (d : Display) (hx : 0 ≤ d.prevX) (hy : 0 ≤ d.prevY)
    (displayBitmap v : Nat) : Wlp (restoreRow displayBitmap v) (fun _ => Kept d) d := by
  rw [restoreRow, wlp_bind, wlp_get, wlp_ite, wlp_pure, wlp_bind]
  refine ⟨fun _ => Kept.refl d, fun hbelow => (wlp_fetchWordOfDisplayBits _ _ _).mono ?_⟩
  rintro _ _ rfl
  rw [wlp_bind, Int.tdiv_eq_ediv_of_nonneg hx, Int.tdiv_eq_ediv_of_nonneg (by omega)]
  refine (wlp_paintWord (by omega) (by omega) (by omega)).mono fun _ d₁ h₁ => ?_
  rw [wlp_ite, wlp_pure, wlp_bind]
  refine ⟨fun _ => h₁, fun _ => (wlp_fetchWordOfDisplayBits _ _ _).mono ?_⟩
  rintro _ _ rfl
  refine (wlp_paintWord (by omega) (by omega) ?_).mono fun _ d₂ h₂ => h₁.trans h₂
  rw [h₁.rest]
  exact not_le.mp hbelow

/-- The area that the previous cursor's words take up. -/
def BackgroundArea (d : Display) (x y : Int) : Prop :=
  ((d.prevY ≤ y ∧ y < d.prevY + 16) ∧ y < d.displayHeight) ∧
    (d.prevX / 16 * 16 ≤ x ∧ x < (d.prevX + 15) / 16 * 16 + 16) ∧ x < d.displayWidth

instance (d : Display) (x y : Int) : Decidable (BackgroundArea d x y) := by
  unfold BackgroundArea; infer_instance

theorem wp_restoreRows (h : d.HasBits bits) (hx : 0 ≤ d.prevX) (hy : 0 ≤ d.prevY)
    (hinside : CursorInside d) :
    Wp (forN 16 (restoreRow bits))
      (fun _ => Painted d.BackgroundArea (d.bitColor bits) d) d := by
  refine (painted_forN d.RowArea fun v screen hv => ?_).mono
    fun _ d' hp => hp.congr fun x y => ⟨?_, fun hb => ?_⟩
  · exact wp_restoreRow (h.withScreen screen) hx hy hinside hv
  · rintro ⟨v, hv, hrow⟩
    have hy := hrow.1.1
    exact ⟨⟨by omega, hrow.1.2⟩, hrow.2⟩
  · obtain ⟨⟨hy, hlt⟩, hx⟩ := hb
    exact ⟨(y - d.prevY).toNat, by omega, ⟨by omega, hlt⟩, hx⟩

/-! ## The pointer -/

/-- The pointer at `(mX, mY)` has a pixel at `(x, y)`. -/
def Covers (d : Display) (mX mY x y : Int) : Prop :=
  ((mY ≤ y ∧ y < mY + 16) ∧ y < d.displayHeight) ∧ (mX ≤ x ∧ x < mX + 16) ∧
    x < d.displayWidth ∧ (d.myCursorSymbol (y - mY).toNat).testBit (mX + 15 - x).toNat

instance (d : Display) (mX mY x y : Int) : Decidable (Covers d mX mY x y) := by
  unfold Covers; infer_instance

theorem wp_pointerRow (d : Display) (mX mY : Int) {v : Nat} (hv : v < 16) :
    Wp (pointerRow mX mY v) (fun _ => Painted (fun x y => y = mY + v ∧ d.Covers mX mY x y)
      (fun _ _ => d.cursorColor) d) d := by
  rw [pointerRow, wp_modify]
  by_cases hbelow : mY + v ≥ d.displayHeight
  · rw [if_pos hbelow]
    exact Painted.refl fun x y ha => absurd ha.2.1.2 (by omega)
  rw [if_neg hbelow]
  have hbit : ∀ x, mX ≤ x → x < mX + 16 →
      ((mX + 15 - x).toNat : Int) = mX + 15 - x := by omega
  refine d.painted_paintRow (fun x y => and_congr_right fun hy => ?_) fun x h1 h2 c hc => ?_
  · obtain rfl := hy
    rw [Covers, and_iff_right (by omega)]
    refine and_congr_right fun hx => ?_
    rw [hbit x hx.1 hx.2, show (mY + v - mY).toNat = v by omega]
    by_cases hlt : x < d.displayWidth
    · rw [if_neg (by omega)]
      split <;> simp [*]
    · rw [if_pos (by omega)]
      simp [hlt]
  · split at hc
    · cases hc
    · split at hc
      · exact (Option.some.inj hc).symm
      · cases hc

theorem wp_pointerRows (d : Display) (mX mY : Int) :
    Wp (forN 16 (pointerRow mX mY)) (fun _ => Painted (d.Covers mX mY)
      (fun _ _ => d.cursorColor) d) d := by
  refine (painted_forN (fun v x y => y = mY + v ∧ d.Covers mX mY x y)
    fun v screen hv => wp_pointerRow { d with screen } mX mY hv).mono
    fun _ d' hp => hp.congr fun x y => ⟨?_, fun hc => ?_⟩
  · rintro ⟨v, -, -, hc⟩
    exact hc
  · have hy := hc.1.1
    exact ⟨(y - mY).toNat, by omega, by omega, hc⟩

theorem wlp_pointerRow (d : Display) (hx : 0 ≤ mX) (hy : 0 ≤ mY) (v : Nat) :
    Wlp (pointerRow mX mY v) (fun _ => Kept d) d := by
  rw [pointerRow, wlp_modify]
  split
  · exact Kept.refl d
  · next hbelow =>
    refine d.kept_paintRow fun x _ h1 h2 hset => ⟨⟨by omega, ?_⟩, by omega, by omega⟩
    by_contra hright
    rw [if_pos (by omega)] at hset
    cases hset

/-! ## One call -/

/-- Whatever there is for a bitmap, the call draws only on the display. -/
theorem wlp_updateCursor (d : Display) (hx : 0 ≤ d.prevX) (hy : 0 ≤ d.prevY) (hmX : 0 ≤ mX)
    (hmY : 0 ≤ mY) : Wlp (updateCursor mX mY) (fun _ d' => ∃ d₁ x y, Kept d d₁ ∧
      (0 ≤ x ∧ 0 ≤ y) ∧ d' = { d₁ with prevX := x, prevY := y }) d := by
  rw [updateCursor, wlp_bind, wlp_get, wlp_bind]
  refine (wlp_getDisplayBits _ _ _).mono ?_
  rintro bits _ rfl
  rw [wlp_ite, wlp_pure, wlp_bind]
  refine ⟨fun _ => ⟨_, _, _, Kept.refl _, ⟨hx, hy⟩, rfl⟩, fun _ => ?_⟩
  refine (wlp_forN (fun _ => Kept _) (fun v d₁ _ h₁ => ?_) (Kept.refl _)).mono fun _ d₁ h₁ => ?_
  · refine (wlp_restoreRow d₁ ?_ ?_ bits v).mono fun _ d₂ h₂ => h₁.trans h₂
    · rwa [h₁.rest]
    · rwa [h₁.rest]
  rw [wlp_bind]
  refine (wlp_forN (fun _ => Kept _) (fun v d₂ _ h₂ => ?_) h₁).mono fun _ d₂ h₂ => ?_
  · exact (wlp_pointerRow d₂ hmX hmY v).mono fun _ d₃ h₃ => h₂.trans h₃
  · rw [wlp_modify]
    exact ⟨d₂, mX, mY, h₂, ⟨hmX, hmY⟩, rfl⟩

/-- The call has drawn the new cursor over the words behind the previous one, and has
changed nothing else on the screen. -/
structure Redrawn (bits : Nat) (mX mY : Int) (d d' : Display) : Prop where
  rest : d' = { d with screen := d'.screen, prevX := mX, prevY := mY }
  shown : ∀ x y, d'.shown x y =
    if d.OnScreen x y ∧ d.Covers mX mY x y then d.cursorColor
    else if d.OnScreen x y ∧ d.BackgroundArea x y then d.bitColor bits x y
    else d.shown x y

theorem wp_updateCursor (h : d.HasBits bits) (hx : 0 ≤ d.prevX) (hy : 0 ≤ d.prevY)
    (hinside : CursorInside d) (mX mY : Int) :
    Wp (updateCursor mX mY) (fun _ => Redrawn bits mX mY d) d := by
  rw [updateCursor, wp_bind, wp_get, wp_bind, wp_getDisplayBits h, if_neg h.bits_ne, wp_bind]
  refine (wp_restoreRows h hx hy hinside).mono fun _ d₁ hback => ?_
  obtain ⟨screen, rfl⟩ := hback.exists_screen
  rw [wp_bind]
  refine (wp_pointerRows _ mX mY).mono fun _ d₂ hpointer => ?_
  obtain ⟨screen', rfl⟩ := hpointer.exists_screen
  rw [wp_modify]
  refine ⟨rfl, fun x y => ?_⟩
  have hon := hback.onScreen_iff x y
  split
  · next hcov => exact hpointer.inside x y (hon.2 hcov.1) hcov.2
  · next hcov =>
      refine (hpointer.outside x y fun hh => hcov ⟨hon.1 hh.1, hh.2⟩).trans ?_
      split
      · next harea => exact hback.inside x y harea.1 harea.2
      · next harea => exact hback.outside x y harea

/-- The call has put back the area of the previous cursor, as far as it lies in
the display, and has drawn the new cursor over it. -/
structure Restored (bits : Nat) (mX mY : Int) (d d' : Display) : Prop where
  rest : d' = { d with screen := d'.screen, prevX := mX, prevY := mY }
  shown : ∀ x y, d.OnScreen x y → d.prevX ≤ x → x < d.prevX + 16 → x < d.displayWidth →
    d.prevY ≤ y → y < d.prevY + 16 → y < d.displayHeight →
    d'.shown x y = if d.Covers mX mY x y then d.cursorColor else d.bitColor bits x y

theorem Redrawn.restored (h : Redrawn bits mX mY d d') : Restored bits mX mY d d' where
  rest := h.rest
  shown x y hon hx1 hx2 hxw hy1 hy2 hyh := by
    have harea : d.BackgroundArea x y := ⟨⟨⟨hy1, hy2⟩, hyh⟩, ⟨by omega, by omega⟩, hxw⟩
    rw [h.shown, if_pos (show d.OnScreen x y ∧ d.BackgroundArea x y from ⟨hon, harea⟩)]
    exact if_congr (and_iff_right hon) rfl rfl

/-- In the last row of the display there is no word after the last one, and where
the display has no words there is none in any row. -/
theorem not_wp_restoreRow (h : d.HasBits bits) (hc : Clamped d d.prevX d.prevY)
    (hfit : ¬CursorFits d d.prevX d.prevY) {v : Nat} (hv : d.prevY + v < d.displayHeight)
    (hlast : 0 < d.displayWidth → d.prevY + v = d.displayHeight - 1)
    (Q : Unit → Display → Prop) : ¬Wp (restoreRow bits v) Q d := by
  have hx := hc.x_nonneg
  have hraster := h.displayWidthWords_eq
  have hw := h.width_nonneg
  simp only [CursorFits, not_or, not_and, not_lt] at hfit
  rw [restoreRow, wp_bind, wp_get, if_neg (by omega)]
  simp only [Int.tdiv_eq_ediv_of_nonneg hx,
    Int.tdiv_eq_ediv_of_nonneg (show 0 ≤ d.prevX + 15 by omega)]
  rw [wp_bind, wp_fetchWordOfDisplayBits h]
  rintro ⟨⟨-, hin⟩, hrest⟩
  have hpos : 0 < d.displayWidth := by
    by_contra hzero
    rw [hraster, show (d.displayWidth + 15) / 16 = 0 by omega, mul_zero, mul_zero] at hin
    omega
  rw [hlast hpos, sub_one_mul] at hin
  obtain ⟨hright, -⟩ := hfit.2 hpos
  simp only [wp_bind, paintWord, wp_modify] at hrest
  rw [if_neg (by omega), wp_bind, wp_fetchWordOfDisplayBits (h.paintRow ..), hlast hpos] at hrest
  have hin' := hrest.1.2
  simp only [displayWidthWords, Display.paintRow, sub_one_mul] at hin hin' hraster
  omega

theorem not_wp_updateCursor (h : d.HasBits bits) (hc : Clamped d d.prevX d.prevY)
    (hfit : ¬CursorFits d d.prevX d.prevY) (mX mY : Int) (Q : Unit → Display → Prop) :
    ¬Wp (updateCursor mX mY) Q d := by
  have hh := h.height_nonneg
  have hrow : ∃ v < 16, d.prevY + (v : Nat) < d.displayHeight ∧
      (0 < d.displayWidth → d.prevY + v = d.displayHeight - 1) := by
    have hy := hc.y_nonneg
    have hylt := hc.y_lt
    simp only [CursorFits] at hfit
    by_cases hpos : 0 < d.displayWidth
    · exact ⟨(d.displayHeight - 1 - d.prevY).toNat, by omega, by omega, by omega⟩
    · exact ⟨0, by omega, by omega, by omega⟩
  obtain ⟨last, hlt, hbelow, hlast⟩ := hrow
  rw [updateCursor, wp_bind, wp_get, wp_bind, wp_getDisplayBits h, if_neg h.bits_ne, wp_bind]
  -- no run of the loop gets over this row
  have hrows : Wlp (forN 16 (restoreRow bits)) (fun _ _ => False) d := by
    refine (wlp_forN (fun v d' => v ≤ last ∧ ∃ screen, d' = { d with screen })
      (fun v d' hv hInv => ?_) ⟨Nat.zero_le _, _, rfl⟩).mono fun _ _ hInv => by omega
    obtain ⟨hle, screen, rfl⟩ := hInv
    intro _ d'' hrun
    have hne : v ≠ last := by
      rintro rfl
      exact not_wp_restoreRow (h.withScreen screen) ⟨hc.1, hc.2, hc.3, hc.4⟩ hfit hbelow hlast
        (fun _ _ => True) ⟨_, _, hrun, trivial⟩
    have hkept : Kept _ d'' :=
      wlp_restoreRow { d with screen } hc.x_nonneg hc.y_nonneg bits v _ _ hrun
    exact ⟨by omega, _, hkept.rest⟩
  intro hwp
  obtain ⟨_, _, -, -, hfalse⟩ := hwp.and_wlp hrows
  exact hfalse

/-! ## Runs -/

/-- Every call of the run ends, without a read outside the bitmap, and puts back
what the cursor covered before it. -/
def AllRestored (bits : Nat) : List (Int × Int) → Display → Prop
  | [], _ => True
  | mouse :: mice, d =>
      Wp (updateCursor (d.clampMouse mouse).1 (d.clampMouse mouse).2)
        (fun _ d' => Restored bits (d.clampMouse mouse).1 (d.clampMouse mouse).2 d d' ∧
          AllRestored bits mice d') d

/-- The positions that the calls of a run find as the previous one. -/
def previousPositions (d : Display) (mice : List (Int × Int)) : List (Int × Int) :=
  ((d.prevX, d.prevY) :: mice.map d.clampMouse).dropLast

theorem Restored.hasBits (hr : Restored bits mX mY d d') (h : d.HasBits bits) :
    d'.HasBits bits := by
  rw [hr.rest]
  exact ⟨h.1, h.2, h.3, h.4, h.5, h.6, h.7, h.8, h.9⟩

/-- The next call finds the position of this one. -/
theorem Restored.previousPositions_eq {mouse next : Int × Int} {mice : List (Int × Int)}
    (hr : Restored bits (d.clampMouse mouse).1 (d.clampMouse mouse).2 d d') :
    d.previousPositions (mouse :: next :: mice) =
      (d.prevX, d.prevY) :: d'.previousPositions (next :: mice) := by
  rw [hr.rest]
  rfl

theorem Restored.clamped {mouse : Int × Int}
    (hr : Restored bits (d.clampMouse mouse).1 (d.clampMouse mouse).2 d d') :
    Clamped d' d'.prevX d'.prevY := by
  have hc := clamped_clampMouse d mouse
  rw [hr.rest]
  exact ⟨hc.1, hc.2, hc.3, hc.4⟩

theorem Restored.cursorFits_iff (hr : Restored bits mX mY d d') (x y : Int) :
    CursorFits d' x y ↔ CursorFits d x y := by
  rw [hr.rest]
  rfl

theorem allRestored_of_fits (mice : List (Int × Int)) (h : d.HasBits bits)
    (hc : Clamped d d.prevX d.prevY)
    (hfits : ∀ p ∈ d.previousPositions mice, CursorFits d p.1 p.2) : AllRestored bits mice d := by
  induction mice generalizing d with
  | nil => trivial
  | cons mouse mice ih =>
      have hfirst : CursorFits d d.prevX d.prevY :=
        hfits (d.prevX, d.prevY) (by simp [previousPositions])
      refine (wp_updateCursor h hc.x_nonneg hc.y_nonneg (hc.cursorInside h hfirst) _ _).mono
        fun _ d' hdrawn => ?_
      have hr := hdrawn.restored
      refine ⟨hr, ?_⟩
      refine ih (hr.hasBits h) hr.clamped fun p hp => ?_
      cases mice with
      | nil => simp [previousPositions] at hp
      | cons next mice =>
          rw [hr.cursorFits_iff]
          refine hfits p ?_
          rw [hr.previousPositions_eq]
          exact List.mem_cons_of_mem _ hp

theorem fits_of_allRestored (mice : List (Int × Int)) (h : d.HasBits bits)
    (hc : Clamped d d.prevX d.prevY) (hall : AllRestored bits mice d) :
    ∀ p ∈ d.previousPositions mice, CursorFits d p.1 p.2 := by
  induction mice generalizing d with
  | nil => simp [previousPositions]
  | cons mouse mice ih =>
      have hfirst : CursorFits d d.prevX d.prevY := by
        by_contra hfit
        exact not_wp_updateCursor h hc hfit _ _ _ hall
      obtain ⟨_, d', -, hr, hrest⟩ := hall
      have hnext := ih (hr.hasBits h) hr.clamped hrest
      cases mice with
      | nil =>
          intro p hp
          obtain rfl : p = (d.prevX, d.prevY) := by simpa [previousPositions] using hp
          exact hfirst
      | cons next mice =>
          rw [hr.previousPositions_eq]
          refine List.forall_mem_cons.2 ⟨hfirst, fun p hp => ?_⟩
          exact (hr.cursorFits_iff ..).1 (hnext p hp)

/-- The cursor is drawn inside the bitmap, and what it covered is put back,
exactly as long as it does not leave the last words of the last rows. -/
theorem allRestored_iff (mice : List (Int × Int)) (h : d.HasBits bits)
    (hc : Clamped d d.prevX d.prevY) :
    AllRestored bits mice d ↔ ∀ p ∈ d.previousPositions mice, CursorFits d p.1 p.2 :=
  ⟨fits_of_allRestored mice h hc, allRestored_of_fits mice h hc⟩

/-! ## A display of 640 by 480 pixels -/

/-- The form 60 with the bitmap 62. -/
def displayForm : ObjectMemory :=
  (ObjectMemory.blank.place 60 256 100 [5, 0, 62, 1281, 961]).place 62 256 110 [19202, 0]

/-- All white, before the first call. -/
def whiteDisplay : Display where
  memory := displayForm
  currentDisplay := 60
  currentDisplayWidth := 640
  currentDisplayHeight := 480
  screenInitialized := true
  textureNeedsUpdate := false
  displayWidth := 640
  displayHeight := 480
  dirtyRect := ⟨0, 0, 0, 0⟩
  screen := ⟨800, 600, fun _ _ => normalColor⟩
  offX := 80
  offY := 60
  myCursorSymbol := fun _ => 0xFFFF
  cursorColor := blackColor
  prevX := 0
  prevY := 0

theorem hasBits_whiteDisplay : whiteDisplay.HasBits 62 :=
  ⟨by decide, ⟨by decide, by decide, by decide, by decide⟩, by decide, by decide, by decide,
    by decide, rfl, rfl, ⟨by decide, by decide, by decide, by decide, by decide⟩⟩

theorem clamped_whiteDisplay : Clamped whiteDisplay 0 0 :=
  ⟨by decide, by decide, by decide, by decide⟩

theorem allRestored_whiteDisplay :
    AllRestored 62 [(100, 100), (639, 240), (17, 470)] whiteDisplay :=
  (allRestored_iff _ hasBits_whiteDisplay clamped_whiteDisplay).mpr (by decide)

/-- From the corner the second word of the last row is past the end. -/
theorem not_allRestored_corner :
    whiteDisplay.HasBits 62 ∧ Clamped whiteDisplay 0 0 ∧
      ¬AllRestored 62 [(639, 479), (320, 240)] whiteDisplay := by
  refine ⟨hasBits_whiteDisplay, clamped_whiteDisplay, fun hall => ?_⟩
  have hfits := fits_of_allRestored _ hasBits_whiteDisplay clamped_whiteDisplay hall
  exact absurd (hfits (639, 479) (by decide)) (by decide)

end Display

end Crosstalk
