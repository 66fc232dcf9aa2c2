import Crosstalk.BitBlt.Edges

/-!
# The screen under the display

The virtual machine shows the current display on a screen, word by word from
the bitmap of its form. `Painted` says what a piece of drawing has done to the
screen: the pixels of an area have the colours that were meant for them, and
nothing else has changed.
-/

namespace Crosstalk

open ObjectMemory

/-! ## The screen device -/

/-- Sixteen bits deep. -/
abbrev TScreenColor := Nat

abbrev blackColor : TScreenColor := 0

/-- Bright white. -/
abbrev normalColor : TScreenColor := 65503

structure Screen where
  width : Nat
  height : Nat
  pixel : Int → Int → TScreenColor

namespace Screen

/-- The coordinates are unsigned, so that negative ones are off the screen. -/
def Has (s : Screen) (x y : Int) : Prop :=
  0 ≤ x ∧ x < s.width ∧ 0 ≤ y ∧ y < s.height

instance (s : Screen) (x y : Int) : Decidable (s.Has x y) := by
  unfold Has; infer_instance

def setPixel (s : Screen) (x y : Int) (color : TScreenColor) : Screen :=
  if s.Has x y then
    { s with pixel := fun x' y' => if x' = x ∧ y' = y then color else s.pixel x' y' }
  else s

/-- Bits `0` to `n - 1` of a word whose sixteen pixels start at `x`, the bit `p`
in the colour `color p`, if it is to be set at all. -/
def paintBits (x y : Int) (color : Nat → Option TScreenColor) : Nat → Screen → Screen
  | 0, s => s
  | p + 1, s =>
      match color p with
      | none => paintBits x y color p s
      | some c => (paintBits x y color p s).setPixel (x + (15 - p)) y c

theorem size_setPixel (s : Screen) (x y : Int) (c : TScreenColor) :
    (s.setPixel x y c).width = s.width ∧ (s.setPixel x y c).height = s.height := by
  unfold setPixel
  split <;> exact ⟨rfl, rfl⟩

theorem pixel_setPixel (s : Screen) (x y x' y' : Int) (c : TScreenColor) :
    (s.setPixel x y c).pixel x' y' =
      if s.Has x' y' ∧ x' = x ∧ y' = y then c else s.pixel x' y' := by
  unfold setPixel
  by_cases h : s.Has x y
  · rw [if_pos h]
    by_cases he : x' = x ∧ y' = y
    · obtain ⟨rfl, rfl⟩ := he
      simp [h]
    · simp [he]
  · rw [if_neg h, if_neg]
    rintro ⟨hx, rfl, rfl⟩
    exact h hx

section PaintBits

variable (x y x' y' : Int) (color : Nat → Option TScreenColor) (s : Screen)

theorem size_paintBits (n : Nat) : (paintBits x y color n s).width = s.width ∧
    (paintBits x y color n s).height = s.height := by
  induction n with
  | zero => exact ⟨rfl, rfl⟩
  | succ p ih =>
      rw [paintBits]
      split
      · exact ih
      · rwa [(size_setPixel ..).1, (size_setPixel ..).2]

theorem has_paintBits (n : Nat) : (paintBits x y color n s).Has x' y' ↔ s.Has x' y' := by
  rw [Has, (size_paintBits ..).1, (size_paintBits ..).2, Has]

/-- Each pixel is that of one bit, so that the order of the bits is no matter. -/
theorem pixel_paintBits (n : Nat) :
    (paintBits x y color n s).pixel x' y' =
      if s.Has x' y' ∧ y' = y ∧ x' ≤ x + 15 ∧ x + 15 < x' + n then
        (color (x + 15 - x').toNat).getD (s.pixel x' y')
      else s.pixel x' y' := by
  induction n with
  | zero =>
      rw [paintBits, if_neg]
      omega
  | succ p ih =>
      rw [paintBits]
      by_cases hp : x' = x + (15 - p)
      · -- this is the bit that is new in this round
        have hbit : (x + 15 - x').toNat = p := by omega
        cases hc : color p with
        | none =>
            simp only [ih, hbit, hc, Option.getD_none, ite_self]
        | some c =>
            simp only [pixel_setPixel, has_paintBits, hp, true_and]
            by_cases hxy : s.Has (x + (15 - p)) y' ∧ y' = y
            · rw [if_pos hxy, if_pos ⟨hxy.1, hxy.2, by omega, by omega⟩]
              rw [show (x + 15 - (x + (15 - (p : Int)))).toNat = p by omega, hc]
              rfl
            · have hold := ih
              rw [hp] at hold
              rw [if_neg hxy, hold, if_neg (fun h => hxy ⟨h.1, h.2.1⟩),
                if_neg (fun h => hxy ⟨h.1, h.2.1⟩)]
      · have hkeep : (paintBits x y color (p + 1) s).pixel x' y' =
            (paintBits x y color p s).pixel x' y' := by
          rw [paintBits]
          split
          · rfl
          · rw [pixel_setPixel, if_neg (fun h => hp h.2.1)]
        rw [paintBits] at hkeep
        rw [hkeep, ih]
        refine if_congr (and_congr_right fun _ => and_congr_right fun _ => ?_) rfl rfl
        omega

end PaintBits

end Screen

/-! ## The display -/

structure Rect where
  x : Int
  y : Int
  w : Int
  h : Int

/-- The pixel `(x, y)` lies in the rectangle. -/
def Rect.Has (r : Rect) (x y : Int) : Prop :=
  (r.x ≤ x ∧ x < r.x + r.w) ∧ r.y ≤ y ∧ y < r.y + r.h

/-- The members of the virtual machine that make up the display, those of the
interpreter that it looks at, and the static variables of `update_cursor`. -/
structure Display where
  memory : ObjectMemory
  currentDisplay : Nat
  currentDisplayWidth : Int
  currentDisplayHeight : Int
  screenInitialized : Bool
  textureNeedsUpdate : Bool
  displayWidth : Int
  displayHeight : Int
  dirtyRect : Rect
  screen : Screen
  offX : Int
  offY : Int
  myCursorSymbol : Nat → Nat
  cursorColor : TScreenColor
  prevX : Int
  prevY : Int

abbrev DM := StateT Display Option

/-- A program on the object memory that the display looks at. -/
def lookingAtMemory {α : Type} (x : OM α) : DM α := fun d =>
  match x d.memory with
  | none => none
  | some (a, m) => some (a, { d with memory := m })

theorem wp_lookingAtMemory {α : Type} (x : OM α) (Q : α → Display → Prop) (d : Display) :
    Wp (lookingAtMemory x) Q d ↔ Wp x (fun a m => Q a { d with memory := m }) d.memory := by
  simp only [Wp, lookingAtMemory]
  cases x d.memory with
  | none => simp
  | some r =>
      obtain ⟨a, m⟩ := r
      simp

theorem wlp_lookingAtMemory {α : Type} (x : OM α) (Q : α → Display → Prop) (d : Display) :
    Wlp (lookingAtMemory x) Q d ↔ Wlp x (fun a m => Q a { d with memory := m }) d.memory := by
  simp only [Wlp, lookingAtMemory]
  cases x d.memory with
  | none => simp
  | some r =>
      obtain ⟨a, m⟩ := r
      simp only [Option.some.injEq, Prod.mk.injEq, and_imp]
      exact ⟨fun h a' m' ha hm => by subst ha hm; exact h _ _ rfl rfl,
        fun h a' d' ha hd => by subst ha hd; exact h _ _ rfl rfl⟩

abbrev bitsInForm : Nat := 0

/-- The parameters are not used. -/
def getDisplayBits (_width _height : Int) : DM Nat := do
  let d ← get
  if d.currentDisplay = 0 then
    return 0
  else
    let displayBits ← lookingAtMemory (fetchPointerOfObject bitsInForm d.currentDisplay)
    let computedSize := d.currentDisplayHeight * (d.currentDisplayWidth + 15).tdiv 16
    let actualSize ← lookingAtMemory (fetchWordLengthOf displayBits)
    if computedSize ≠ actualSize then
      return 0
    else
      return displayBits

def fetchWordOfDisplayBits (wordIndex : Int) (displayBits : Nat) : DM Nat :=
  lookingAtMemory (fetchWordOfObject wordIndex displayBits)

namespace Display

/-- In words. -/
def displayWidthWords (d : Display) : Int := (d.displayWidth + 15).tdiv 16

/-- A pixel of the display is on the screen, whose centre the display takes. -/
def OnScreen (d : Display) (x y : Int) : Prop := d.screen.Has (d.offX + x) (d.offY + y)

instance (d : Display) (x y : Int) : Decidable (d.OnScreen x y) := by
  unfold OnScreen; infer_instance

/-- What the screen shows at a pixel of the display. -/
def shown (d : Display) (x y : Int) : TScreenColor := d.screen.pixel (d.offX + x) (d.offY + y)

/-- The colour of a pixel in the bitmap. -/
def bitColor (d : Display) (bits : Nat) (x y : Int) : TScreenColor :=
  if BitBlt.pixelAt (d.memory.wordAt bits) d.displayWidthWords x y then blackColor
  else normalColor

/-- The current display has a bitmap of the display's size. -/
structure HasBits (d : Display) (bits : Nat) : Prop where
  currentDisplay_ne : d.currentDisplay ≠ 0
  bitsField : HasField d.memory d.currentDisplay bitsInForm
  bits_eq : d.memory.chunkWord d.currentDisplay headerSize = bits
  bits_ne : bits ≠ 0
  width_nonneg : 0 ≤ d.displayWidth
  height_nonneg : 0 ≤ d.displayHeight
  width_eq : d.currentDisplayWidth = d.displayWidth
  height_eq : d.currentDisplayHeight = d.displayHeight
  isBitmap : d.memory.IsBitmap bits (d.displayHeight * d.displayWidthWords)

/-- The drawing has given the pixels of `area` the colours `color`, as far as
they are on the screen, and has left everything else as it was. -/
structure Painted (area : Int → Int → Prop) (color : Int → Int → TScreenColor)
    (d d' : Display) : Prop where
  rest : d' = { d with screen := d'.screen }
  has : ∀ x y, d'.screen.Has x y ↔ d.screen.Has x y
  inside : ∀ x y, d.OnScreen x y → area x y → d'.shown x y = color x y
  outside : ∀ x y, ¬(d.OnScreen x y ∧ area x y) → d'.shown x y = d.shown x y

section Painted

variable {area area' : Int → Int → Prop} {color : Int → Int → TScreenColor} {d d' d'' : Display}

theorem Painted.refl (hnone : ∀ x y, ¬area x y) : Painted area color d d where
  rest := rfl
  has _ _ := Iff.rfl
  inside x y _ h := (hnone x y h).elim
  outside _ _ _ := rfl

theorem Painted.exists_screen (h : Painted area color d d') :
    ∃ screen, d' = { d with screen } := ⟨_, h.rest⟩

theorem Painted.onScreen_iff (h : Painted area color d d') (x y : Int) :
    d'.OnScreen x y ↔ d.OnScreen x y := by
  have := h.has (d.offX + x) (d.offY + y)
  rw [h.rest]
  exact this

/-- Two pieces of drawing in the same colours paint the union of their areas. -/
theorem Painted.trans (h : Painted area color d d') (h' : Painted area' color d' d'') :
    Painted (fun x y => area x y ∨ area' x y) color d d'' where
  rest := by
    rw [h'.rest, h.rest]
  has x y := (h'.has x y).trans (h.has x y)
  inside x y hon harea := by
    by_cases ha' : area' x y
    · exact h'.inside x y ((h.onScreen_iff x y).2 hon) ha'
    · rw [h'.outside x y fun hx => ha' hx.2]
      exact h.inside x y hon (harea.resolve_right ha')
  outside x y hno := by
    rw [h'.outside x y fun hx => hno ⟨(h.onScreen_iff x y).1 hx.1, .inr hx.2⟩,
      h.outside x y fun hx => hno ⟨hx.1, .inl hx.2⟩]

theorem Painted.congr (h : Painted area color d d') (ha : ∀ x y, area x y ↔ area' x y) :
    Painted area' color d d' := by
  obtain rfl : area = area' := funext fun x => funext fun y => propext (ha x y)
  exact h

/-- The rounds of a loop paint the union of their areas. -/
theorem painted_forN (areas : Nat → Int → Int → Prop) {body : Nat → DM Unit} {n : Nat}
    (hround : ∀ v screen, v < n →
      Wp (body v) (fun _ => Painted (areas v) color { d with screen }) { d with screen }) :
    Wp (forN n body) (fun _ => Painted (fun x y => ∃ v < n, areas v x y) color d) d := by
  refine wp_forN (fun v => Painted (fun x y => ∃ v' < v, areas v' x y) color d)
    (fun v d' hv hp => ?_) (Painted.refl fun x y => by simp)
  obtain ⟨screen, rfl⟩ := hp.exists_screen
  refine (hround v screen hv).mono fun _ d'' hp' => (hp.trans hp').congr fun x y => ?_
  simp only [Nat.lt_succ_iff_lt_or_eq, or_and_right, exists_or, exists_eq_left]

end Painted

/-- A row of sixteen pixels from `x` on. -/
def paintRow (d : Display) (x y : Int) (color : Nat → Option TScreenColor) : Display :=
  { d with screen := d.screen.paintBits (d.offX + x) (d.offY + y) color 16 }

theorem shown_paintRow (d : Display) (x y x' y' : Int) (color : Nat → Option TScreenColor) :
    (d.paintRow x y color).shown x' y' =
      if d.OnScreen x' y' ∧ y' = y ∧ x ≤ x' ∧ x' < x + 16 then
        (color (x + 15 - x').toNat).getD (d.shown x' y')
      else d.shown x' y' := by
  show (Screen.paintBits _ _ color 16 d.screen).pixel (d.offX + x') (d.offY + y') = _
  rw [Screen.pixel_paintBits, show d.offX + x + 15 - (d.offX + x') = x + 15 - x' by omega]
  refine if_congr (and_congr_right fun _ => ?_) rfl rfl
  omega

theorem painted_paintRow (d : Display) {x y : Int} {color : Nat → Option TScreenColor}
    {meant : Int → Int → TScreenColor} {area : Int → Int → Prop}
    (harea : ∀ x' y', area x' y' ↔
      y' = y ∧ (x ≤ x' ∧ x' < x + 16) ∧ (color (x + 15 - x').toNat).isSome)
    (hcolor : ∀ x', x ≤ x' → x' < x + 16 → ∀ c, color (x + 15 - x').toNat = some c →
      c = meant x' y) : Painted area meant d (d.paintRow x y color) where
  rest := rfl
  has x' y' := Screen.has_paintBits ..
  inside x' y' hon ha := by
    obtain ⟨rfl, hx, hsome⟩ := (harea x' y').1 ha
    obtain ⟨c, hc⟩ := Option.isSome_iff_exists.1 hsome
    rw [shown_paintRow, if_pos ⟨hon, rfl, hx⟩, hc]
    exact hcolor x' hx.1 hx.2 c hc
  outside x' y' hno := by
    rw [shown_paintRow]
    refine ite_eq_right_iff.2 fun ⟨hon, hy, hx⟩ => ?_
    cases hc : color (x + 15 - x').toNat with
    | none => rfl
    | some c =>
        refine (hno ⟨hon, (harea x' y').2 ⟨hy, hx, ?_⟩⟩).elim
        rw [hc]
        rfl

/-! ## The bitmap -/

section Bits

variable {d : Display} {bits : Nat}

theorem HasBits.displayWidthWords_eq (h : d.HasBits bits) :
    d.displayWidthWords = (d.displayWidth + 15) / 16 :=
  Int.tdiv_eq_ediv_of_nonneg (by have := h.width_nonneg; omega)

theorem wp_getDisplayBits (h : d.HasBits bits) {width height : Int}
    {Q : Nat → Display → Prop} : Wp (getDisplayBits width height) Q d ↔ Q bits d := by
  have hlen : Wp (fetchWordLengthOf bits) (fun n m =>
      Q (if d.currentDisplayHeight * (d.currentDisplayWidth + 15).tdiv 16 ≠ n then 0 else bits)
        { d with memory := m }) d.memory ↔ Q bits d := by
    have hsize := h.isBitmap.size
    have hinside := h.isBitmap.inside
    rw [wp_fetchWordLengthOf, if_neg]
    · refine and_iff_right ⟨h.isBitmap.isEntry, ?_⟩
      have := h.isBitmap.size_pos
      omega
    · rw [h.width_eq, h.height_eq, not_not]
      rw [displayWidthWords] at hsize
      omega
  simp only [getDisplayBits, wp_bind, wp_get, if_neg h.currentDisplay_ne, wp_lookingAtMemory,
    fetchPointerOfObject_eq, wp_fetchWordOfObject]
  rw [and_iff_right (by exact h.bitsField)]
  rw [show headerSize + Int.toNat (bitsInForm : Nat) = headerSize from rfl, h.bits_eq, ← hlen]
  constructor
  · refine fun hQ => hQ.mono fun n m hn => ?_
    by_cases hne : d.currentDisplayHeight * (d.currentDisplayWidth + 15).tdiv 16 ≠ n
    · rw [if_pos hne] at hn ⊢
      exact (wp_pure ..).1 hn
    · rw [if_neg hne] at hn ⊢
      exact (wp_pure ..).1 hn
  · refine fun hQ => hQ.mono fun n m hn => ?_
    by_cases hne : d.currentDisplayHeight * (d.currentDisplayWidth + 15).tdiv 16 ≠ n
    · rw [if_pos hne] at hn ⊢
      exact (wp_pure ..).2 hn
    · rw [if_neg hne] at hn ⊢
      exact (wp_pure ..).2 hn

theorem wp_fetchWordOfDisplayBits (h : d.HasBits bits) {k : Int} {Q : Nat → Display → Prop} :
    Wp (fetchWordOfDisplayBits k bits) Q d ↔
      (0 ≤ k ∧ k < d.displayHeight * d.displayWidthWords) ∧ Q (d.memory.wordAt bits k) d := by
  have hsize := h.isBitmap.size
  rw [fetchWordOfDisplayBits, wp_lookingAtMemory, wp_fetchWordOfObject]
  refine and_congr_left fun _ => ⟨fun hf => ⟨hf.nonneg, ?_⟩, fun hk => ?_⟩
  · have := hf.lt_size
    omega
  · exact h.isBitmap.hasField hk.1 hk.2

/-- Reading the bitmap changes nothing. -/
theorem wlp_fetchWordOfDisplayBits (d : Display) (k : Int) (bits : Nat) :
    Wlp (fetchWordOfDisplayBits k bits) (fun _ d' => d' = d) d := by
  rw [fetchWordOfDisplayBits, wlp_lookingAtMemory]
  simp only [fetchWordOfObject, wlp_bind, wlp_fetchWordLengthOf, wlp_check, wlp_heapChunkOfWord]
  simp

theorem HasBits.withScreen (h : d.HasBits bits) (screen : Screen) :
    { d with screen }.HasBits bits :=
  ⟨h.1, h.2, h.3, h.4, h.5, h.6, h.7, h.8, h.9⟩

theorem HasBits.paintRow (h : d.HasBits bits) (x y : Int) (color : Nat → Option TScreenColor) :
    (d.paintRow x y color).HasBits bits := h.withScreen _

end Bits

end Display

end Crosstalk
