import Crosstalk.Display.Cursor
import Mathlib.Tactic.Ring

/-!
# Redrawing what has changed

The interpreter reports the rectangles that it has drawn, and the size of the
display when it changes. The virtual machine keeps one rectangle around them and
a flag, and redraws the rectangle with the next frame. Both are reset with every
frame, also when there was no bitmap to redraw from, and a new size does not set
the flag: what has not been redrawn by then is forgotten.
-/

namespace Crosstalk

open ObjectMemory

namespace Display

/-! ## The code -/

/-- `initialize_texture` is compiled out. -/
def setDisplaySize (width height : Int) : DM Bool := do
  let d ← get
  if d.displayWidth ≠ width ∨ d.displayHeight ≠ height then
    set { d with
      displayWidth := width
      displayHeight := height
      dirtyRect := ⟨0, 0, width, height⟩
      screenInitialized := true }
  return true

/-- The smallest rectangle around two. -/
def enclosing (r r' : Rect) : Rect :=
  let x1 := if r.x < r'.x then r.x else r'.x
  let y1 := if r.y < r'.y then r.y else r'.y
  let x2 := if r.x + r.w > r'.x + r'.w then r.x + r.w else r'.x + r'.w
  let y2 := if r.y + r.h > r'.y + r'.h then r.y + r.h else r'.y + r'.h
  ⟨x1, y1, |x2 - x1|, |y2 - y1|⟩

def displayChanged (x y width height : Int) : DM Unit := do
  modify fun d => { d with textureNeedsUpdate := true }
  let d ← get
  check (x ≥ 0 ∧ x < d.displayWidth)
  check (y ≥ 0 ∧ y < d.displayHeight)
  check (x + width ≤ d.displayWidth)
  check (y + height ≤ d.displayHeight)
  if d.dirtyRect.w = 0 ∨ d.dirtyRect.h = 0 then
    set { d with dirtyRect := ⟨x, y, width, height⟩ }
  else
    set { d with dirtyRect := enclosing d.dirtyRect ⟨x, y, width, height⟩ }

/-- Word `i` of row `h` of the rectangle to update. -/
def textureWord (displayBitmap : Nat) (updateRect : Rect) (sourceIndexRow : Int) (h i : Nat) :
    DM Unit := do
  let d ← get
  let xp := updateRect.x + 16 * i
  let yp := updateRect.y
  if yp + h < d.displayHeight ∧ yp ≥ 0 then
    let sourcePixel ←
      fetchWordOfDisplayBits (sourceIndexRow + h * d.displayWidthWords + i) displayBitmap
    modify fun d => d.paintRow xp (yp + h) fun p =>
      if xp < d.displayWidth ∧ xp ≥ 0 then
        if sourcePixel.testBit p then some blackColor else some normalColor
      else none

def updateTexture : DM Unit := do
  let d ← get
  let sourceWordLeft := d.dirtyRect.x.tdiv 16
  let sourceWordRight := (d.dirtyRect.x + d.dirtyRect.w - 1).tdiv 16
  let sourceIndexRow := sourceWordLeft + d.dirtyRect.y * d.displayWidthWords
  let updateWordWidth := sourceWordRight - sourceWordLeft + 1
  let updateRect : Rect :=
    ⟨sourceWordLeft * 16, d.dirtyRect.y, updateWordWidth * 16, d.dirtyRect.h⟩
  let displayBitmap ← getDisplayBits d.displayWidth d.displayHeight
  if displayBitmap = 0 then
    return
  else
    forN updateRect.h.toNat fun h =>
      forN updateWordWidth.toNat fun i =>
        textureWord displayBitmap updateRect sourceIndexRow h i

/-- The first part of a frame. -/
def refreshTexture : DM Unit := do
  if (← get).textureNeedsUpdate then
    updateTexture
    modify fun d => { d with textureNeedsUpdate := false }

/-- Where a frame draws the cursor. -/
def cursorPosition (d : Display) (mouse : Int × Int) : Int × Int :=
  d.clampMouse (mouse.1 - d.offX, mouse.2 - d.offY)

/-- A frame, with the mouse at `mouse`. -/
def render (mouse : Int × Int) : DM Unit := do
  if (← get).screenInitialized then
    refreshTexture
    let position := (← get).cursorPosition mouse
    updateCursor position.1 position.2
    modify fun d => { d with dirtyRect := ⟨0, 0, 0, 0⟩ }

/-- What happens to the display, in any order. -/
inductive Call where
  | displayChanged (x y width height : Int)
  | setDisplaySize (width height : Int)
  | render (mouse : Int × Int)
  /-- The program draws, or makes another form the display, and the display is
  put in the middle of the screen again. -/
  | program (memory : ObjectMemory) (currentDisplay : Nat) (offX offY : Int)

/-- The interpreter notes the size of the display when it reports it. -/
def Call.step : Call → DM Unit
  | displayChanged x y width height => Display.displayChanged x y width height
  | setDisplaySize width height => do
      let _ ← Display.setDisplaySize width height
      modify fun d => { d with currentDisplayWidth := width, currentDisplayHeight := height }
  | render mouse => Display.render mouse
  | program memory currentDisplay offX offY =>
      modify fun d => { d with memory, currentDisplay, offX, offY }

/-! ## What is to be redrawn -/

/-- The pixels to redraw after a call, where those of `damage` were to be redrawn
before it. A frame with a bitmap ought to redraw them all. -/
def Call.damageAfter (d : Display) (damage : Int → Int → Prop) : Call → Int → Int → Prop
  | displayChanged x y width height => fun x' y' =>
      damage x' y' ∨ Rect.Has ⟨x, y, width, height⟩ x' y'
  | setDisplaySize width height => fun x' y' =>
      if d.displayWidth ≠ width ∨ d.displayHeight ≠ height then
        Rect.Has ⟨0, 0, width, height⟩ x' y'
      else damage x' y'
  | render _ => fun x' y' => damage x' y' ∧ ¬∃ bits, d.HasBits bits
  | program .. => damage

/-- What a frame ought to show at a pixel of the display: the bitmap, with the cursor
over it. -/
def picture (d : Display) (bits : Nat) (mouse : Int × Int) (x y : Int) : TScreenColor :=
  if d.Covers (d.cursorPosition mouse).1 (d.cursorPosition mouse).2 x y then d.cursorColor
  else d.bitColor bits x y

/-- A frame ends and shows the pixels of `damage` as they are in the bitmap, if there
is one, and draws nothing outside the display. -/
def Call.Redraws (d : Display) (damage : Int → Int → Prop) : Call → Prop
  | render mouse =>
      (∀ bits x y, d.HasBits bits → damage x y → d.OnScreen x y →
        Wp (Display.render mouse) (fun _ d' => d'.shown x y = d.picture bits mouse x y) d) ∧
      ∀ x y, ¬d.InDisplay x y →
        Wlp (Display.render mouse) (fun _ d' => d'.shown x y = d.shown x y) d
  | _ => True

/-- Every frame of the run redraws all that was to be redrawn by then. -/
def NoDamageLost : List Call → Display → (Int → Int → Prop) → Prop
  | [], _, _ => True
  | call :: calls, d, damage =>
      call.Redraws d damage ∧
        Wlp call.step (fun _ d' => NoDamageLost calls d' (call.damageAfter d damage)) d

/-- A frame that loses nothing: if there is a rectangle to redraw, the flag is set,
there is a bitmap to redraw it from, and what the cursor covers lies in the bitmap;
and the last words of the rectangle end inside the display, or at the edge of the
screen. The interpreter reports no empty rectangles. -/
def Call.Safe (d : Display) : Call → Prop
  | displayChanged _ _ width height => 0 < width ∧ 0 < height
  | render _ =>
      (0 < d.dirtyRect.w ∧ 0 < d.dirtyRect.h →
        d.textureNeedsUpdate ∧ (∃ bits, d.HasBits bits) ∧ d.CursorInside) ∧
      (d.textureNeedsUpdate →
        ((d.dirtyRect.x + d.dirtyRect.w - 1).tdiv 16 + 1) * 16 ≤ d.displayWidth ∨
          d.screen.width ≤ d.offX + d.displayWidth)
  | _ => True

def AllSafe : List Call → Display → Prop
  | [], _ => True
  | call :: calls, d => call.Safe d ∧ Wlp call.step (fun _ d' => AllSafe calls d') d

/-! ## The rectangle covers the damage -/

variable {d d' : Display} {damage : Int → Int → Prop} {bits : Nat}

/-- What is to be redrawn lies in the dirty rectangle, and that in the display. -/
structure Covered (d : Display) (damage : Int → Int → Prop) : Prop where
  covered : ∀ x y, damage x y → d.dirtyRect.Has x y
  display : ∀ x y, damage x y → d.InDisplay x y
  initialized : 0 < d.displayWidth → 0 < d.displayHeight → d.screenInitialized
  inside : 0 < d.displayWidth → 0 < d.displayHeight →
    (0 ≤ d.dirtyRect.x ∧ 0 ≤ d.dirtyRect.w ∧ d.dirtyRect.x + d.dirtyRect.w ≤ d.displayWidth) ∧
    0 ≤ d.dirtyRect.y ∧ 0 ≤ d.dirtyRect.h ∧ d.dirtyRect.y + d.dirtyRect.h ≤ d.displayHeight
  cursor : 0 ≤ d.prevX ∧ 0 ≤ d.prevY

/-- Along one axis, the smallest interval around two lies in what they lie in. -/
theorem enclosing_inside {a n b k size : Int} (ha : 0 ≤ a ∧ 0 ≤ n ∧ a + n ≤ size)
    (hb : 0 ≤ b ∧ 0 ≤ k ∧ b + k ≤ size) :
    0 ≤ (if a < b then a else b) ∧
      0 ≤ |(if a + n > b + k then a + n else b + k) - if a < b then a else b| ∧
      (if a < b then a else b) +
        |(if a + n > b + k then a + n else b + k) - if a < b then a else b| ≤ size := by
  have hle : (if a < b then a else b) ≤ if a + n > b + k then a + n else b + k := by
    split_ifs <;> omega
  rw [abs_of_nonneg (by omega)]
  split_ifs at * <;> omega

theorem has_enclosing {r r' : Rect} {x y : Int} (h : r.Has x y ∨ r'.Has x y) :
    (enclosing r r').Has x y := by
  simp only [Rect.Has, enclosing] at h ⊢
  have hx := le_abs_self ((if r.x + r.w > r'.x + r'.w then r.x + r.w else r'.x + r'.w) -
    if r.x < r'.x then r.x else r'.x)
  have hy := le_abs_self ((if r.y + r.h > r'.y + r'.h then r.y + r.h else r'.y + r'.h) -
    if r.y < r'.y then r.y else r'.y)
  refine ⟨⟨?_, ?_⟩, ?_, ?_⟩ <;> split_ifs at * <;> omega

theorem wlp_displayChanged (h : Covered d damage) {x y width height : Int} (hw : 0 < width)
    (hh : 0 < height) : Wlp (displayChanged x y width height) (fun _ d' =>
      Covered d' (Call.damageAfter d damage (.displayChanged x y width height))) d := by
  simp only [displayChanged, wlp_bind, wlp_modify, wlp_get, wlp_check, wlp_ite, wlp_set]
  intro hx hy hright hbottom
  have hpos : 0 < d.displayWidth ∧ 0 < d.displayHeight := by omega
  have hinside := h.inside hpos.1 hpos.2
  have hdisplay : ∀ x' y', damage x' y' ∨ Rect.Has ⟨x, y, width, height⟩ x' y' →
      d.InDisplay x' y' := by
    rintro x' y' (hold | hnew)
    · exact h.display x' y' hold
    · simp only [Rect.Has] at hnew
      exact ⟨by omega, by omega⟩
  refine ⟨fun hempty => ⟨fun x' y' hd => hd.resolve_left fun hold => ?_, hdisplay, h.initialized,
      fun _ _ => ⟨⟨hx.1, hw.le, hright⟩, hy.1, hh.le, hbottom⟩, h.cursor⟩,
    fun hne => ⟨fun x' y' hd => has_enclosing (hd.imp_left (h.covered x' y')), hdisplay,
      h.initialized, fun _ _ => ⟨enclosing_inside hinside.1 ⟨hx.1, hw.le, hright⟩,
        enclosing_inside hinside.2 ⟨hy.1, hh.le, hbottom⟩⟩, h.cursor⟩⟩
  -- an empty rectangle covers no damage
  have := h.covered x' y' hold
  simp only [Rect.Has] at this
  omega

theorem wlp_setDisplaySize (h : Covered d damage) (width height : Int) :
    Wlp (Call.step (.setDisplaySize width height)) (fun _ d' =>
      Covered d' (Call.damageAfter d damage (.setDisplaySize width height))) d := by
  simp only [Call.step, setDisplaySize, wlp_bind, wlp_get, wlp_ite, wlp_set, wlp_pure, wlp_modify,
    Call.damageAfter]
  refine ⟨fun hne => ?_, fun heq => ?_⟩
  · simp only [if_pos hne]
    exact ⟨fun x y hd => hd, fun x y hd => by simpa [Rect.Has, InDisplay] using hd, fun _ _ => rfl,
      fun hw hh => ⟨⟨le_rfl, hw.le, by simp⟩, le_rfl, hh.le, by simp⟩, h.cursor⟩
  · simp only [if_neg heq]
    exact ⟨h.covered, h.display, h.initialized, h.inside, h.cursor⟩

/-! ## Redrawing -/

/-- Word `i` of row `h` has its pixels from the bitmap. -/
theorem wp_textureWord (hb : d.HasBits bits) {y width height first : Int} {h i : Nat}
    (hy : 0 ≤ y) (hbelow : y + h < d.displayHeight) (hx : 0 ≤ first)
    (hright : (first + i) * 16 < d.displayWidth) :
    Wp (textureWord bits ⟨first * 16, y, width, height⟩ (first + y * d.displayWidthWords) h i)
      (fun _ => Painted (fun x' y' => y' = y + h ∧
        (first + i) * 16 ≤ x' ∧ x' < (first + i) * 16 + 16) (d.bitColor bits) d) d := by
  have hindex : first + y * d.displayWidthWords + h * d.displayWidthWords + i =
      (first + i) + (y + h) * d.displayWidthWords := by ring
  have hraster := hb.displayWidthWords_eq
  have hguard : first * 16 + 16 * i < d.displayWidth ∧ first * 16 + 16 * i ≥ 0 := by omega
  simp only [textureWord]
  rw [wp_bind, wp_get, if_pos ⟨hbelow, hy⟩, wp_bind, wp_fetchWordOfDisplayBits hb, hindex,
    wp_modify]
  refine ⟨index_inside _ _ _ _ (by omega) (by omega) (by omega) hbelow, ?_⟩
  simp only [if_pos hguard]
  refine d.painted_paintRow (fun x' y' => and_congr_right fun _ => ?_) fun x' h1 h2 c hc => ?_
  · split <;> simp <;> omega
  · have hbit : 15 - x' % 16 = ((first * 16 + 16 * i + 15 - x').toNat : Int) := by omega
    rw [bitColor, BitBlt.pixelAt, show x' / 16 = first + i by omega, hbit, Int.toNat_natCast,
      add_comm]
    split at hc
    · next hbt => rw [if_pos hbt]; exact (Option.some.inj hc).symm
    · next hbt => rw [if_neg hbt]; exact (Option.some.inj hc).symm

/-- The words that the rectangle touches. -/
def TextureArea (d : Display) (x y : Int) : Prop :=
  (d.dirtyRect.x / 16 * 16 ≤ x ∧
      x < ((d.dirtyRect.x + d.dirtyRect.w - 1) / 16 + 1) * 16) ∧
    d.dirtyRect.y ≤ y ∧ y < d.dirtyRect.y + d.dirtyRect.h

theorem wp_updateTexture (hb : d.HasBits bits) (h : Covered d damage)
    (hw : 0 < d.dirtyRect.w) (hh : 0 < d.dirtyRect.h) (hpos : 0 < d.displayWidth)
    (hpos' : 0 < d.displayHeight) :
    Wp updateTexture (fun _ => Painted d.TextureArea (d.bitColor bits) d) d := by
  obtain ⟨⟨hx, -, hright⟩, hy, -, hbottom⟩ := h.inside hpos hpos'
  simp only [updateTexture, Int.tdiv_eq_ediv_of_nonneg hx,
    Int.tdiv_eq_ediv_of_nonneg (show 0 ≤ d.dirtyRect.x + d.dirtyRect.w - 1 by omega),
    wp_bind, wp_get]
  rw [wp_getDisplayBits hb, if_neg hb.bits_ne]
  have hlast : (d.dirtyRect.x + d.dirtyRect.w - 1) / 16 * 16 < d.displayWidth := by omega
  refine (painted_forN (fun h x y => y = d.dirtyRect.y + h ∧
      ∃ i < ((d.dirtyRect.x + d.dirtyRect.w - 1) / 16 - d.dirtyRect.x / 16 + 1).toNat,
        (d.dirtyRect.x / 16 + i) * 16 ≤ x ∧ x < (d.dirtyRect.x / 16 + i) * 16 + 16)
    fun h screen hlt => ?_).mono fun _ d' hp => hp.congr fun x y => ⟨?_, fun ha => ?_⟩
  · refine (painted_forN (fun i x y => y = d.dirtyRect.y + h ∧
        (d.dirtyRect.x / 16 + i) * 16 ≤ x ∧ x < (d.dirtyRect.x / 16 + i) * 16 + 16)
      fun i screen' hi => ?_).mono fun _ d' hp => hp.congr fun x y => ?_
    · exact wp_textureWord (hb.withScreen screen') hy (by simp only; omega) (by omega)
        (by simp only; omega)
    · simp only [and_left_comm, exists_and_left]
  · rintro ⟨h, hlt, rfl, i, hi, hx'⟩
    refine ⟨⟨?_, ?_⟩, ?_, ?_⟩ <;> omega
  · obtain ⟨hx', hy'⟩ := ha
    refine ⟨(y - d.dirtyRect.y).toNat, by omega, by omega, (x / 16 - d.dirtyRect.x / 16).toNat, ?_⟩
    omega

/-! ## Nothing outside the display -/

theorem wlp_textureWord {first y width height row : Int} {h i : Nat}
    (hedge : (first + i + 1) * 16 ≤ d.displayWidth ∨ d.screen.width ≤ d.offX + d.displayWidth) :
    Wlp (textureWord bits ⟨first * 16, y, width, height⟩ row h i) (fun _ => Kept d) d := by
  simp only [textureWord]
  rw [wlp_bind, wlp_get, wlp_ite, wlp_bind, wlp_pure]
  refine ⟨fun hguard => (wlp_fetchWordOfDisplayBits _ _ _).mono ?_, fun _ => Kept.refl d⟩
  rintro word _ rfl
  rw [wlp_modify]
  refine Display.kept_paintRow _ fun x hon h1 h2 hset => ?_
  have hright := hon.2.1
  split at hset
  · refine ⟨⟨by omega, ?_⟩, by omega, by omega⟩
    rcases hedge with hedge | hedge
    · omega
    · omega
  · cases hset

theorem wlp_updateTexture
    (hedge : ((d.dirtyRect.x + d.dirtyRect.w - 1).tdiv 16 + 1) * 16 ≤ d.displayWidth ∨
      d.screen.width ≤ d.offX + d.displayWidth) :
    Wlp updateTexture (fun _ => Kept d) d := by
  rw [updateTexture, wlp_bind, wlp_get]
  simp only
  rw [wlp_bind]
  refine (wlp_getDisplayBits _ _ _).mono ?_
  rintro bits _ rfl
  rw [wlp_ite, wlp_pure]
  refine ⟨fun _ => Kept.refl _, fun _ => ?_⟩
  refine wlp_forN (fun _ => Kept _) (fun h d₁ _ h₁ => ?_) (Kept.refl _)
  refine wlp_forN (fun _ => Kept _) (fun i d₂ hi h₂ => ?_) h₁
  refine (wlp_textureWord ?_).mono fun _ d₃ h₃ => h₂.trans h₃
  rw [h₂.width, h₂.rest]
  rcases hedge with hedge | hedge
  · left
    simp only
    omega
  · exact .inr hedge

theorem wlp_refreshTexture
    (hedge : d.textureNeedsUpdate → ((d.dirtyRect.x + d.dirtyRect.w - 1).tdiv 16 + 1) * 16 ≤
      d.displayWidth ∨ d.screen.width ≤ d.offX + d.displayWidth) :
    Wlp refreshTexture (fun _ d' => ∃ d₁ flag, Kept d d₁ ∧
      d' = { d₁ with textureNeedsUpdate := flag }) d := by
  rw [refreshTexture, wlp_bind, wlp_get, wlp_ite, wlp_bind, wlp_pure]
  refine ⟨fun hflag => (wlp_updateTexture (hedge hflag)).mono fun _ d₁ h₁ => ?_,
    fun _ => ⟨d, _, Kept.refl d, rfl⟩⟩
  rw [wlp_modify]
  exact ⟨d₁, _, h₁, rfl⟩

theorem wp_refreshTexture (hb : d.HasBits bits) (h : Covered d damage)
    (hflag : d.textureNeedsUpdate) (hw : 0 < d.dirtyRect.w) (hh : 0 < d.dirtyRect.h)
    (hpos : 0 < d.displayWidth) (hpos' : 0 < d.displayHeight) :
    Wp refreshTexture (fun _ d' => ∃ d₁, Painted d.TextureArea (d.bitColor bits) d d₁ ∧
      d' = { d₁ with textureNeedsUpdate := false }) d := by
  rw [refreshTexture, wp_bind, wp_get, if_pos hflag, wp_bind]
  refine (wp_updateTexture hb h hw hh hpos hpos').mono fun _ d₁ hp => ?_
  rw [wp_modify]
  exact ⟨d₁, hp, rfl⟩

/-! ## Frames -/

/-- The words of the rectangle are shown, with the cursor over them. -/
theorem wp_render (hb : d.HasBits bits) (h : Covered d damage) (hflag : d.textureNeedsUpdate)
    (hinside : d.CursorInside) (hw : 0 < d.dirtyRect.w) (hh : 0 < d.dirtyRect.h)
    (hpos : 0 < d.displayWidth) (hpos' : 0 < d.displayHeight) (mouse : Int × Int) :
    Wp (render mouse) (fun _ d' => ∀ x y, d.OnScreen x y → d.TextureArea x y →
      d'.shown x y = d.picture bits mouse x y) d := by
  rw [render, wp_bind, wp_get, if_pos (h.initialized hpos hpos'), wp_bind]
  refine (wp_refreshTexture hb h hflag hw hh hpos hpos').mono ?_
  rintro _ _ ⟨d₁, hp, rfl⟩
  obtain ⟨screen, rfl⟩ := hp.exists_screen
  rw [wp_bind, wp_get, wp_bind]
  have hb₁ : { d with screen, textureNeedsUpdate := false }.HasBits bits :=
    ⟨hb.1, hb.2, hb.3, hb.4, hb.5, hb.6, hb.7, hb.8, hb.9⟩
  refine (wp_updateCursor hb₁ h.cursor.1 h.cursor.2 hinside _ _).mono fun _ d₂ hdrawn => ?_
  rw [wp_modify]
  intro x y hon harea
  have hon₁ := (hp.onScreen_iff x y).2 hon
  have hbackground := hp.inside x y hon harea
  show d₂.shown x y = _
  rw [hdrawn.shown, picture]
  refine if_congr (and_iff_right hon₁) rfl ?_
  split
  · rfl
  · exact hbackground

/-- Without the flag a frame changes only what the cursor covers. -/
theorem wp_render_of_noFlag (hb : d.HasBits bits) (hinit : d.screenInitialized)
    (hflag : ¬d.textureNeedsUpdate) (hx : 0 ≤ d.prevX) (hy : 0 ≤ d.prevY)
    (hinside : d.CursorInside) (mouse : Int × Int) :
    Wp (render mouse) (fun _ d' => ∀ x y, ¬d.BackgroundArea x y →
      ¬d.Covers (d.cursorPosition mouse).1 (d.cursorPosition mouse).2 x y →
        d'.shown x y = d.shown x y) d := by
  rw [render, wp_bind, wp_get, if_pos hinit, refreshTexture, wp_bind, wp_bind, wp_get, if_neg hflag,
    wp_pure, wp_bind, wp_get, wp_bind]
  refine (wp_updateCursor hb hx hy hinside _ _).mono fun _ d₁ hdrawn => ?_
  rw [wp_modify]
  intro x y hbackground hcovers
  show d₁.shown x y = _
  rw [hdrawn.shown, if_neg fun h => hcovers h.2, if_neg fun h => hbackground h.2]

/-- What a frame draws lies in the display, whatever bitmap there is. -/
theorem wlp_render (hx : 0 ≤ d.prevX) (hy : 0 ≤ d.prevY) {mouse : Int × Int}
    (hsafe : (Call.render mouse).Safe d) : Wlp (render mouse) (fun _ d' =>
      d' = d ∨ d.screenInitialized ∧ ∃ d₁ flag x y, Kept d d₁ ∧ (0 ≤ x ∧ 0 ≤ y) ∧
        d' = { d₁ with
          textureNeedsUpdate := flag, prevX := x, prevY := y, dirtyRect := ⟨0, 0, 0, 0⟩ }) d := by
  rw [render, wlp_bind, wlp_get, wlp_ite, wlp_pure]
  refine ⟨fun hinit => ?_, fun _ => .inl rfl⟩
  rw [wlp_bind]
  refine (wlp_refreshTexture hsafe.2).mono ?_
  rintro _ _ ⟨d₁, flag, h₁, rfl⟩
  rw [wlp_bind, wlp_get, wlp_bind]
  have hclamped := clamped_clampMouse { d₁ with textureNeedsUpdate := flag }
    (mouse.1 - d₁.offX, mouse.2 - d₁.offY)
  refine (wlp_updateCursor _ ?_ ?_ hclamped.x_nonneg hclamped.y_nonneg).mono ?_
  · rw [h₁.rest]
    exact hx
  · rw [h₁.rest]
    exact hy
  rintro _ _ ⟨d₂, px, py, h₂, hp, rfl⟩
  rw [wlp_modify]
  refine .inr ⟨hinit, { d₂ with textureNeedsUpdate := d.textureNeedsUpdate }, flag, px, py, ?_, hp,
    ?_⟩
  · refine h₁.trans ⟨?_, h₂.width, h₂.height, fun x y hout => h₂.shown x y hout⟩
    rw [h₂.rest, h₁.rest]
  · rw [h₂.rest]

/-- Without a rectangle to redraw there is no damage, and with one the frame
redraws it all. -/
theorem Covered.damage_render (h : Covered d damage) {mouse : Int × Int}
    (hsafe : (Call.render mouse).Safe d) (x y : Int) :
    ¬Call.damageAfter d damage (.render mouse) x y := by
  rintro ⟨hd, hnobits⟩
  have hin := h.covered x y hd
  simp only [Rect.Has] at hin
  exact hnobits (hsafe.1 (by omega)).2.1

theorem Covered.render (h : Covered d damage) {mouse : Int × Int}
    (hsafe : (Call.render mouse).Safe d) : Wlp (render mouse) (fun _ d' =>
      Covered d' (Call.damageAfter d damage (.render mouse))) d := by
  have hnone := h.damage_render hsafe
  refine (wlp_render h.cursor.1 h.cursor.2 hsafe).mono ?_
  rintro _ d' (rfl | ⟨hinit, d₁, flag, x, y, h₁, hxy, rfl⟩)
  · exact ⟨fun x y hd => (hnone x y hd).elim, fun x y hd => (hnone x y hd).elim, h.initialized,
      h.inside, h.cursor⟩
  · rw [h₁.rest]
    exact ⟨fun x y hd => (hnone x y hd).elim, fun x y hd => (hnone x y hd).elim, fun _ _ => hinit,
      fun hw hh => ⟨⟨le_rfl, le_rfl, hw.le⟩, le_rfl, le_rfl, hh.le⟩, hxy⟩

theorem redraws_of_safe (h : Covered d damage) {call : Call} (hsafe : call.Safe d) :
    call.Redraws d damage := by
  cases call with
  | render mouse =>
      refine ⟨fun bits x y hb hd hon => ?_, fun x y hout => ?_⟩
      · have hin := h.covered x y hd
        simp only [Rect.Has] at hin
        obtain ⟨hflag, -, hinside⟩ := hsafe.1 (by omega)
        obtain ⟨hdx, hdy⟩ := h.display x y hd
        refine (wp_render hb h hflag hinside (by omega) (by omega) (by omega) (by omega)
          mouse).mono fun _ d' hshown => hshown x y hon ⟨?_, hin.2⟩
        omega
      · refine (wlp_render h.cursor.1 h.cursor.2 hsafe).mono ?_
        rintro _ d' (rfl | ⟨-, d₁, flag, px, py, h₁, -, rfl⟩)
        · rfl
        · exact h₁.shown x y hout
  | displayChanged | setDisplaySize | program => trivial

theorem wlp_step (h : Covered d damage) {call : Call} (hsafe : call.Safe d) :
    Wlp call.step (fun _ d' => Covered d' (call.damageAfter d damage)) d := by
  cases call with
  | displayChanged x y width height => exact wlp_displayChanged h hsafe.1 hsafe.2
  | setDisplaySize width height => exact wlp_setDisplaySize h width height
  | render mouse => exact h.render hsafe
  | program memory currentDisplay offX offY =>
      rw [Call.step, wlp_modify]
      exact ⟨h.covered, h.display, h.initialized, h.inside, h.cursor⟩

/-! ## Runs -/

theorem noDamageLost_of_covered (calls : List Call) (h : Covered d damage)
    (hsafe : AllSafe calls d) : NoDamageLost calls d damage := by
  induction calls generalizing d damage with
  | nil => trivial
  | cons call calls ih =>
      refine ⟨redraws_of_safe h hsafe.1, fun _ d' hrun => ?_⟩
      exact ih (wlp_step h hsafe.1 _ _ hrun) (hsafe.2 _ _ hrun)

/-- Before the first call the display has no size, and the cursor has not been drawn. -/
def Started (d : Display) : Prop :=
  (d.displayWidth = 0 ∧ d.displayHeight = 0) ∧ d.prevX = 0 ∧ d.prevY = 0

/-- No damage is lost, and nothing is drawn beside the display, in a run whose
frames all find the flag set and a bitmap when there is a rectangle to redraw. -/
theorem noDamageLost_of_safe (calls : List Call) (hstart : Started d)
    (hsafe : AllSafe calls d) : NoDamageLost calls d (fun _ _ => False) :=
  noDamageLost_of_covered calls
    ⟨fun _ _ hd => hd.elim, fun _ _ hd => hd.elim,
      fun hw => absurd hw (by rw [hstart.1.1]; decide),
      fun hw => absurd hw (by rw [hstart.1.1]; decide), hstart.2.1.ge, hstart.2.2.ge⟩ hsafe

/-! ## Small runs -/

/-- A black screen, before the display has a size. -/
def blackScreen : Display :=
  { whiteDisplay with
    currentDisplayWidth := 0
    currentDisplayHeight := 0
    screenInitialized := false
    displayWidth := 0
    displayHeight := 0
    screen := ⟨640, 480, fun _ _ => blackColor⟩
    offX := 0
    offY := 0 }

/-- The black screen, with a display of the size of the form. -/
def sized : Display :=
  { blackScreen with
    memory := displayForm
    currentDisplay := 60
    currentDisplayWidth := 640
    currentDisplayHeight := 480
    screenInitialized := true
    displayWidth := 640
    displayHeight := 480
    dirtyRect := ⟨0, 0, 640, 480⟩ }

theorem hasBits_sized : sized.HasBits 62 :=
  ⟨by decide, ⟨by decide, by decide, by decide, by decide⟩, by decide, by decide, by decide,
    by decide, rfl, rfl, ⟨by decide, by decide, by decide, by decide, by decide⟩⟩

theorem noDamageLost_blackScreen :
    NoDamageLost [.program displayForm 60 0 0, .setDisplaySize 640 480,
      .displayChanged 10 20 30 40, .render (100, 100)] blackScreen fun _ _ => False := by
  refine noDamageLost_of_safe _ ⟨⟨rfl, rfl⟩, rfl, rfl⟩ ?_
  simp only [AllSafe, Call.step, displayChanged, setDisplaySize, wlp_bind, wlp_get, wlp_modify,
    wlp_ite, wlp_set, wlp_pure, wlp_check]
  refine ⟨trivial, trivial,
    ⟨fun _ => ⟨⟨by decide, by decide⟩, fun _ _ _ _ => ⟨fun _ => ?_, fun _ => ?_⟩⟩,
      fun h => absurd (.inl (by decide)) h⟩⟩
  all_goals
    obtain ⟨h1, h2, h3, h4, h5, h6, h7, h8, h9⟩ := hasBits_sized
    exact ⟨⟨fun _ => ⟨rfl, ⟨62, h1, h2, h3, h4, h5, h6, h7, h8, h9⟩, by decide⟩,
      fun _ => .inl (by decide)⟩, fun _ _ _ => trivial⟩

/-- The form 60 of one row of eight pixels, with the bitmap 62. -/
def narrowForm : ObjectMemory :=
  (ObjectMemory.blank.place 60 256 100 [5, 0, 62, 17, 3]).place 62 256 110 [3, 0, 0]

/-- The black screen, with a display of eight pixels to redraw. -/
def narrowed : Display :=
  { blackScreen with
    memory := narrowForm
    currentDisplay := 60
    currentDisplayWidth := 8
    currentDisplayHeight := 1
    screenInitialized := true
    textureNeedsUpdate := true
    displayWidth := 8
    displayHeight := 1
    dirtyRect := ⟨0, 0, 8, 1⟩ }

theorem hasBits_narrowed : narrowed.HasBits 62 :=
  ⟨by decide, ⟨by decide, by decide, by decide, by decide⟩, by decide, by decide, by decide,
    by decide, rfl, rfl, ⟨by decide, by decide, by decide, by decide, by decide⟩⟩

theorem covered_narrowed : Covered narrowed fun _ _ => False :=
  ⟨fun _ _ hd => hd.elim, fun _ _ hd => hd.elim, fun _ _ => rfl, fun _ _ => by decide, by decide⟩

/-- A new size is not redrawn by the next frame, and a display of eight pixels is
redrawn with sixteen. -/
theorem not_noDamageLost :
    ¬NoDamageLost [.program displayForm 60 0 0, .setDisplaySize 640 480, .render (0, 0)]
        blackScreen (fun _ _ => False) ∧
      ¬NoDamageLost [.program narrowForm 60 0 0, .setDisplaySize 8 1, .displayChanged 0 0 8 1,
        .render (0, 0)] blackScreen fun _ _ => False := by
  constructor
  · rintro ⟨-, h⟩
    obtain ⟨-, h⟩ := h () _ rfl
    obtain ⟨⟨h, -⟩, -⟩ := h () sized rfl
    have hshown := h 62 100 100 hasBits_sized ⟨⟨by decide, by decide⟩, by decide, by decide⟩
      (by decide)
    have hkept := wp_render_of_noFlag hasBits_sized rfl (by decide) (by decide) (by decide)
      (by decide) (0, 0)
    obtain ⟨_, d', -, hredrawn, hsame⟩ := hshown.and_wlp hkept.toWlp
    rw [hsame 100 100 (by decide) (by decide)] at hredrawn
    exact absurd hredrawn (by decide)
  · rintro ⟨-, h⟩
    obtain ⟨-, h⟩ := h () _ rfl
    obtain ⟨-, h⟩ := h () _ rfl
    obtain ⟨⟨-, h⟩, -⟩ := h () narrowed rfl
    have hbeside := h 8 0 (by unfold InDisplay; decide)
    have hrender := wp_render hasBits_narrowed covered_narrowed rfl (by decide) (by decide)
      (by decide) (by decide) (by decide) (0, 0)
    obtain ⟨_, d', -, hshown, hsame⟩ := hrender.and_wlp hbeside
    rw [hshown 8 0 (by decide) ⟨by decide, by decide⟩] at hsame
    exact absurd hsame (by decide)

end Display

end Crosstalk
