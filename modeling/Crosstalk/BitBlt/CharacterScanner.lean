import Crosstalk.BitBlt.Glyph
import Crosstalk.Interpreter.ByteObjects

/-!
# Scanning characters

`scanCharacters` goes along a line of text, up to a character with a stop
condition or beyond the right margin, and draws the glyphs on its way if it is
told to. Drawing changes the bitmap of the display only, so that a line is drawn
as it was measured; but it takes any combination rule, and halts on one that is
none of the 16.
-/

namespace Crosstalk

open ObjectMemory

namespace BitBlt

/-! ## The code -/

/-- The members that a `CharacterScanner` adds to those of a `BitBlt`. -/
structure CharacterScanner where
  bitBlt : BitBlt
  xTable : Nat
  lastIndex : Int
  stopConditions : Nat

/-- The arguments of a scan. -/
structure ScanCall where
  startIndex : Int
  stopIndex : Int
  sourceString : Nat
  rightX : Int
  stops : Nat
  displaying : Bool

abbrev endOfRun : Int := 257
abbrev crossedX : Int := 258

/-- What `clipRange` leaves in the clip members of one axis, origin and extent. -/
def keepClip (clip clipExtent destFormExtent : Int) : Int × Int :=
  let clipExtent := if clip < 0 then clipExtent + clip else clipExtent
  let clip := if clip < 0 then 0 else clip
  (clip, if clip + clipExtent > destFormExtent then destFormExtent - clip else clipExtent)

/-- `copyBits` as the scanner calls it: it keeps the members for the next glyph. -/
def drawGlyph (b : BitBlt) : OM BitBlt := do
  let (_, r) ← copyBits b
  let x := keepClip b.clipX b.clipWidth b.destFormWidth
  let y := keepClip b.clipY b.clipHeight b.destFormHeight
  return { r with clipX := x.1, clipWidth := x.2, clipY := y.1, clipHeight := y.2 }

def displayGlyph (displaying : Bool) (b : BitBlt) : OM BitBlt :=
  if displaying then drawGlyph b else return b

/-- `fetchByte_ofObject` with an index that may be negative: the words of the header lie
before the bytes. -/
def fetchByteAt (byteIndex : Int) (objectPointer : Nat) : OM Nat := do
  let segment ← segmentBitsOf objectPointer
  let word := (← locationBitsOf objectPointer) + (headerSize * 2 + byteIndex).tdiv 2
  let byteNumber := (headerSize * 2 + byteIndex).tmod 2
  check (0 ≤ word)
  check (0 ≤ byteNumber)
  segmentWordByte segment word.toNat byteNumber.toNat

theorem fetchByteAt_of_nonneg {byteIndex : Int} {p : Nat} (h : 0 ≤ byteIndex) :
    fetchByteAt byteIndex p = fetchByteOfObject byteIndex.toNat p := by
  have hword (l : Nat) : (l : Int) + (headerSize * 2 + byteIndex).tdiv 2 =
      (l + (headerSize * 2 + byteIndex.toNat) / 2 : Nat) := by
    rw [Int.tdiv_eq_ediv_of_nonneg (by omega)]
    omega
  have hbyte : (headerSize * 2 + byteIndex).tmod 2 =
      ((headerSize * 2 + byteIndex.toNat) % 2 : Nat) := by
    rw [Int.tmod_eq_emod_of_nonneg (by omega)]
    omega
  have hcheck {c : Prop} [Decidable c] (hc : c) : (check c : OM Unit) = pure () :=
    funext fun _ => if_pos hc
  refine bind_congr fun s => bind_congr fun l => ?_
  dsimp only
  rw [hword, hbyte, hcheck (Int.natCast_nonneg _), hcheck (Int.natCast_nonneg _)]
  rfl

/-- The body of the loop. The indices of the string count from 1. -/
def scanCharacter (q : ScanCall) (s : CharacterScanner) :
    OM (CharacterScanner ⊕ (Nat × CharacterScanner)) := do
  if s.lastIndex ≤ q.stopIndex then
    let ascii ← fetchByteAt (s.lastIndex - 1) q.sourceString
    if (← fetchPointerOfObject ascii s.stopConditions) ≠ nilPointer then
      return .inr (← fetchPointerOfObject ascii q.stops, s)
    else
      let sourceX := integerValueOf (← fetchPointerOfObject ascii s.xTable)
      let width := integerValueOf (← fetchPointerOfObject (ascii + 1) s.xTable) - sourceX
      let b := { s.bitBlt with sourceX, width }
      let nextDestX := b.destX + width
      if nextDestX > q.rightX then
        return .inr (← fetchPointerOfObject (crossedX - 1) q.stops, { s with bitBlt := b })
      else
        let b ← displayGlyph q.displaying b
        return .inl { s with
          bitBlt := { b with destX := nextDestX }, lastIndex := s.lastIndex + 1 }
  else
    return .inr (← fetchPointerOfObject (endOfRun - 1) q.stops,
      { s with lastIndex := q.stopIndex })

def scanCharacters (q : ScanCall) (s : CharacterScanner) : OM (Nat × CharacterScanner) :=
  iterate (scanCharacter q) { s with lastIndex := q.startIndex }

/-! ## The line of text -/

section Line

variable (m : ObjectMemory) (q : ScanCall) (s : CharacterScanner)

/-- Byte `k` of the string `p`, from 0. -/
def charAt (p k : Nat) : Nat := m.byte (m.entry p).segment (m.firstByte p + k)

/-- The `n`th character of the range. -/
def ascii (n : Nat) : Nat := charAt m q.sourceString (q.startIndex + n - 1).toNat

/-- The width of its glyph. -/
def advance (n : Nat) : Int :=
  integerValueOf (m.wordAt s.xTable (ascii m q n + 1)) -
    integerValueOf (m.wordAt s.xTable (ascii m q n))

/-- Where the `n`th character starts. -/
def penAt : Nat → Int
  | 0 => s.bitBlt.destX
  | n + 1 => penAt n + advance m q s n

/-- The scan ends at the `n`th character. -/
def StopsAt (n : Nat) : Prop :=
  m.wordAt s.stopConditions (ascii m q n) ≠ nilPointer ∨ q.rightX < penAt m q s (n + 1)

def lineLength : Nat := (q.stopIndex - q.startIndex + 1).toNat

/-- The scan ends at the first character that it can end at, or after the last
one of the range. -/
def Scanned (answer : Nat) (r : CharacterScanner) : Prop :=
  (∃ k < lineLength q, (∀ i < k, ¬StopsAt m q s i) ∧ StopsAt m q s k ∧
    r.lastIndex = q.startIndex + k ∧ r.bitBlt.destX = penAt m q s k ∧
    answer = m.wordAt q.stops (if m.wordAt s.stopConditions (ascii m q k) ≠ nilPointer then
      ascii m q k else crossedX - 1)) ∨
  ((∀ i < lineLength q, ¬StopsAt m q s i) ∧ r.lastIndex = q.stopIndex ∧
    r.bitBlt.destX = penAt m q s (lineLength q) ∧ answer = m.wordAt q.stops (endOfRun - 1))

/-- The scan measures the line, whether it draws or not. -/
def ScansLine : Prop := Wp (scanCharacters q s) (fun r _ => Scanned m q s r.1 r.2) m

/-- The copy of the `n`th glyph. -/
def glyphAt (n : Nat) : BitBlt :=
  { s.bitBlt with
    sourceX := integerValueOf (m.wordAt s.xTable (ascii m q n))
    width := advance m q s n
    destX := penAt m q s n }

/-- There is a combination rule, or no glyph of the line has a pixel to draw. -/
def DrawsWithRule (destLength sourceLength : Int) : Prop :=
  q.displaying = true → HasRule s.bitBlt ∨ ∀ n < lineLength q, (∀ i ≤ n, ¬StopsAt m q s i) →
    ¬Paints (glyphAt m q s n) destLength sourceLength

end Line

/-- The string, the tables and, for drawing, the forms. The bitmap of the display
is none of these objects. -/
structure Scannable (m : ObjectMemory) (q : ScanCall) (s : CharacterScanner)
    (destBits sourceBits halftoneBits : Nat) (destLength sourceLength : Int) : Prop where
  start : 1 ≤ q.startIndex
  string : ∃ n, m.IsBitmap q.sourceString n ∧ q.stopIndex ≤ 2 * n
  xTable : ∃ n, m.IsBitmap s.xTable n ∧ 257 ≤ n
  stopConditions : ∃ n, m.IsBitmap s.stopConditions n ∧ 256 ≤ n
  stops : ∃ n, m.IsBitmap q.stops n ∧ 258 ≤ n
  drawable : q.displaying = true →
    Drawable m s.bitBlt destBits sourceBits halftoneBits destLength sourceLength
  apart : q.displaying = true → m.Separate destBits q.sourceString ∧
    m.Separate destBits s.xTable ∧ m.Separate destBits s.stopConditions ∧
    m.Separate destBits q.stops

variable {m t : ObjectMemory} {q : ScanCall} {s r : CharacterScanner} {a b e : BitBlt} {n p k : Nat}
  {destBits sourceBits halftoneBits : Nat} {destLength sourceLength : Int}

/-! ## The clip rectangle -/

theorem keepClip_keepClip (c e f : Int) :
    keepClip (keepClip c e f).1 (keepClip c e f).2 f = keepClip c e f := by
  simp only [keepClip]
  ext <;> split_ifs <;> omega

/-- The clipping depends on what it leaves in the members only. -/
theorem clipSpan_congr {hasSource : Prop} [Decidable hasSource] {c e c' e' f d x y z : Int}
    (h : keepClip c e f = keepClip c' e' f) :
    clipSpan hasSource c e f d x y z = clipSpan hasSource c' e' f d x y z := by
  have hdest : ∀ c e : Int, clipToDest c e f d x y =
      (fun k : Int × Int =>
        let s := if d ≥ k.1 then y else y + (k.1 - d)
        let d' := if d ≥ k.1 then d else k.1
        let x' := if d ≥ k.1 then x else x - (k.1 - d)
        (⟨s, d', if d' + x' > k.1 + k.2 then x' - ((d' + x') - (k.1 + k.2)) else x'⟩ : Span))
        (keepClip c e f) := fun _ _ => rfl
  rw [clipSpan, clipSpan, hdest c e, hdest c' e', h]

/-- The members that all glyphs of a line have in common. -/
structure SameLine (a b : BitBlt) : Prop where
  destForm : b.destForm = a.destForm
  sourceForm : b.sourceForm = a.sourceForm
  halftoneForm : b.halftoneForm = a.halftoneForm
  combinationRule : b.combinationRule = a.combinationRule
  destY : b.destY = a.destY
  height : b.height = a.height
  sourceY : b.sourceY = a.sourceY
  sourceFormWidth : b.sourceFormWidth = a.sourceFormWidth
  sourceFormHeight : b.sourceFormHeight = a.sourceFormHeight
  destFormWidth : b.destFormWidth = a.destFormWidth
  destFormHeight : b.destFormHeight = a.destFormHeight
  clipX : keepClip b.clipX b.clipWidth b.destFormWidth =
    keepClip a.clipX a.clipWidth a.destFormWidth
  clipY : keepClip b.clipY b.clipHeight b.destFormHeight =
    keepClip a.clipY a.clipHeight a.destFormHeight

theorem SameLine.refl (a : BitBlt) : SameLine a a := by
  constructor <;> rfl

theorem SameLine.paints_iff (h : SameLine a b) (hx : b.destX = a.destX) (hw : b.width = a.width)
    (hs : b.sourceX = a.sourceX) :
    Paints b destLength sourceLength ↔ Paints a destLength sourceLength := by
  have hclipX := h.clipX
  have hclipY := h.clipY
  rw [h.destFormWidth] at hclipX
  rw [h.destFormHeight] at hclipY
  have hw' : (clipRange b).w = (clipRange a).w := by
    simp only [clipRange, h.sourceForm, h.destFormWidth, h.sourceFormWidth, hx, hw, hs]
    rw [clipSpan_congr hclipX]
  have hh' : (clipRange b).h = (clipRange a).h := by
    simp only [clipRange, h.sourceForm, h.destFormHeight, h.sourceFormHeight, h.destY, h.height,
      h.sourceY]
    rw [clipSpan_congr hclipY]
  rw [Paints, hw', hh', h.sourceForm, h.sourceFormWidth, h.sourceFormHeight, h.destFormWidth,
    h.destFormHeight, Paints]

/-- The members of a glyph are none of these. -/
theorem SameLine.withGlyph (h : SameLine a b) (x y x' y' z : Int) :
    SameLine { a with sourceX := x, width := y, destX := z }
      { b with sourceX := x', width := y' } :=
  ⟨h.destForm, h.sourceForm, h.halftoneForm, h.combinationRule, h.destY, h.height, h.sourceY,
    h.sourceFormWidth, h.sourceFormHeight, h.destFormWidth, h.destFormHeight, h.clipX, h.clipY⟩

theorem destX_withGlyph (b : BitBlt) (x y : Int) :
    ({ b with sourceX := x, width := y } : BitBlt).destX = b.destX := rfl

theorem SameLine.paints_withGlyph (h : SameLine a b) {x y z : Int} (hz : b.destX = z) :
    Paints { b with sourceX := x, width := y } destLength sourceLength ↔
      Paints { a with sourceX := x, width := y, destX := z } destLength sourceLength :=
  (h.withGlyph x y x y z).paints_iff hz rfl rfl

theorem SameLine.drawable_withGlyph (h : SameLine a b) {x y : Int}
    (ha : Drawable m a destBits sourceBits halftoneBits destLength sourceLength) :
    Drawable m { b with sourceX := x, width := y } destBits sourceBits halftoneBits destLength
      sourceLength :=
  ha.of_sameInputs h.destForm h.sourceForm h.halftoneForm

/-- After the copy of a glyph, with the clip members as it leaves them. -/
theorem SameLine.copied (h : SameLine a b) (hs : SameInputs b e) :
    SameLine a { e with
      clipX := (keepClip b.clipX b.clipWidth b.destFormWidth).1
      clipWidth := (keepClip b.clipX b.clipWidth b.destFormWidth).2
      clipY := (keepClip b.clipY b.clipHeight b.destFormHeight).1
      clipHeight := (keepClip b.clipY b.clipHeight b.destFormHeight).2 } := by
  refine ⟨hs.destForm.trans h.destForm, hs.sourceForm.trans h.sourceForm,
    hs.halftoneForm.trans h.halftoneForm, hs.combinationRule.trans h.combinationRule,
    hs.destY.trans h.destY, hs.height.trans h.height, hs.sourceY.trans h.sourceY,
    hs.sourceFormWidth.trans h.sourceFormWidth, hs.sourceFormHeight.trans h.sourceFormHeight,
    hs.destFormWidth.trans h.destFormWidth, hs.destFormHeight.trans h.destFormHeight, ?_, ?_⟩
  · dsimp only
    rw [hs.destFormWidth, keepClip_keepClip, h.clipX]
  · dsimp only
    rw [hs.destFormHeight, keepClip_keepClip, h.clipY]

theorem SameLine.moved (h : SameLine a b) (x : Int) : SameLine a { b with destX := x } :=
  ⟨h.destForm, h.sourceForm, h.halftoneForm, h.combinationRule, h.destY, h.height, h.sourceY,
    h.sourceFormWidth, h.sourceFormHeight, h.destFormWidth, h.destFormHeight, h.clipX, h.clipY⟩

/-! ## Reading while drawing -/

/-- The memory is as it was, but for what has been drawn. -/
def Drawn (q : ScanCall) (destBits : Nat) (m t : ObjectMemory) : Prop :=
  t = m ∨ q.displaying = true ∧ OnlyFields destBits m t

theorem charAt_eq (m : ObjectMemory) (p k : Nat) :
    charAt m p k = field (m.chunkWord p ((4 + k) / 2)) (8 * ((4 + k) % 2)) 8 := by
  have haddr : (m.firstByte p + k) / 2 = m.location p + (4 + k) / 2 ∧
      (m.firstByte p + k) % 2 = (4 + k) % 2 := by
    rw [firstByte]
    omega
  rw [charAt, byte, haddr.1, haddr.2, chunkWord]

theorem ascii_lt (m : ObjectMemory) (q : ScanCall) (n : Nat) : ascii m q n < 256 := by
  rw [ascii, charAt_eq]
  exact field_lt _ _ 8

section Reads

variable (h : Scannable m q s destBits sourceBits halftoneBits destLength sourceLength)
  (ht : Drawn q destBits m t)

include h ht

/-- An object that is not the bitmap of the display. -/
theorem Scannable.kept {size : Int} (hp : m.IsBitmap p size)
    (hsep : q.displaying = true → m.Separate destBits p) :
    t.IsBitmap p size ∧ ∀ i < m.chunkWord p 0, t.chunkWord p i = m.chunkWord p i := by
  rcases ht with rfl | ⟨hd, ho⟩
  · exact ⟨hp, fun _ _ => rfl⟩
  · have hheap := (h.drawable hd).dest.isBitmap.heap
    exact ⟨ho.isBitmap_separate hheap (hsep hd) hp,
      fun i hi => ho.chunkWord_separate hheap (hsep hd) hi⟩

theorem Scannable.fetch_run {i size : Int} (hp : ∃ n, m.IsBitmap p n ∧ size ≤ n)
    (hsep : q.displaying = true → m.Separate destBits p) (h0 : 0 ≤ i) (hi : i < size) :
    fetchPointerOfObject i p t = some (m.wordAt p i, t) := by
  obtain ⟨n, hp, hn⟩ := hp
  obtain ⟨hkept, hword⟩ := h.kept ht hp hsep
  have hsize := hp.size
  refine Wp.run_eq ?_
  rw [fetchPointerOfObject_eq, wp_fetchBits hkept h0 (by omega)]
  exact ⟨hword _ (by omega), rfl⟩

theorem Scannable.fetchByte_run (hn : n < lineLength q) :
    fetchByteOfObject (q.startIndex + n - 1).toNat q.sourceString t =
      some (ascii m q n, t) := by
  obtain ⟨size, hp, hstop⟩ := h.string
  obtain ⟨hkept, hword⟩ := h.kept ht hp fun hd => (h.apart hd).1
  have hstart := h.start
  have hsize := hp.size
  have hsize' := hkept.size
  have hinside := hkept.inside
  have hheader : headerSize = 2 := rfl
  rw [lineLength] at hn
  refine Wp.run_eq ?_
  rw [wp_fetchByteOfObject]
  refine ⟨⟨hkept.isEntry, by omega⟩, ?_, rfl⟩
  change charAt t _ _ = charAt m _ _
  rw [charAt_eq, charAt_eq, hword _ (by omega)]

end Reads

/-! ## One character -/

/-- The scan comes to the `n`th character. -/
structure AtChar (m : ObjectMemory) (q : ScanCall) (s : CharacterScanner) (destBits n : Nat)
    (r : CharacterScanner) (t : ObjectMemory) : Prop where
  drawn : Drawn q destBits m t
  lastIndex : r.lastIndex = q.startIndex + n
  xTable : r.xTable = s.xTable
  stopConditions : r.stopConditions = s.stopConditions
  destX : r.bitBlt.destX = penAt m q s n
  sameLine : SameLine s.bitBlt r.bitBlt

/-- The copy that the scanner sets up for the `n`th character. -/
def glyphOf (m : ObjectMemory) (q : ScanCall) (s r : CharacterScanner) (n : Nat) : BitBlt :=
  { r.bitBlt with
    sourceX := integerValueOf (m.wordAt s.xTable (ascii m q n)), width := advance m q s n }

theorem AtChar.le_stopIndex (ha : AtChar m q s destBits n r t) (hn : n < lineLength q) :
    r.lastIndex ≤ q.stopIndex := by
  rw [lineLength] at hn
  rw [ha.lastIndex]
  omega

section Step

variable (h : Scannable m q s destBits sourceBits halftoneBits destLength sourceLength)
  (ha : AtChar m q s destBits n r t) (hn : n < lineLength q)

include ha

theorem AtChar.sameLine_glyphOf : SameLine s.bitBlt (glyphOf m q s r n) :=
  ha.sameLine.withGlyph _ _ _ _ _

theorem AtChar.paints_iff : Paints (glyphOf m q s r n) destLength sourceLength ↔
    Paints (glyphAt m q s n) destLength sourceLength :=
  ha.sameLine.paints_withGlyph ha.destX

include h

theorem AtChar.drawable (hd : q.displaying = true) : Drawable t (glyphOf m q s r n) destBits
    sourceBits halftoneBits destLength sourceLength := by
  have hm := h.drawable hd
  have ht : Drawable t s.bitBlt destBits sourceBits halftoneBits destLength sourceLength := by
    rcases ha.drawn with rfl | ⟨-, ho⟩
    · exact hm
    · exact hm.of_onlyFields ho
  exact ha.sameLine.drawable_withGlyph ht

/-- The glyph is drawn, or is not to be. -/
theorem AtChar.wp_glyph (hrule : q.displaying = true →
      HasRule s.bitBlt ∨ ¬Paints (glyphAt m q s n) destLength sourceLength) :
    Wp (displayGlyph q.displaying (glyphOf m q s r n)) (fun b t' =>
       Drawn q destBits m t' ∧ SameLine s.bitBlt b) t := by
  have hline : SameLine s.bitBlt (glyphOf m q s r n) := ha.sameLine_glyphOf
  by_cases hd : q.displaying = true
  · have hdrawable := ha.drawable h hd
    have hrule' : Paints (glyphOf m q s r n) destLength sourceLength →
        HasRule (glyphOf m q s r n) := by
      intro hp
      rw [HasRule, hline.combinationRule]
      exact (hrule hd).resolve_right (not_not.2 (ha.paints_iff.1 hp))
    rw [displayGlyph, if_pos hd, drawGlyph, wp_bind]
    refine (hdrawable.wp_copyBits hrule').mono ?_
    rintro ⟨_, b⟩ t' ⟨ho, hs⟩
    rw [wp_pure]
    refine ⟨.inr ⟨hd, ?_⟩, ?_⟩
    · rcases ha.drawn with rfl | ⟨-, ho'⟩
      · exact ho
      · exact ho'.trans (h.drawable hd).dest.isBitmap.heap ho
    · exact hline.copied hs
  · rw [displayGlyph, if_neg hd, wp_pure]
    exact ⟨ha.drawn, hline⟩

theorem AtChar.condition_run : fetchPointerOfObject (ascii m q n) r.stopConditions t =
    some (m.wordAt s.stopConditions (ascii m q n), t) := by
  have := ascii_lt m q n
  rw [ha.stopConditions]
  exact h.fetch_run ha.drawn h.stopConditions (fun hd => (h.apart hd).2.2.1) (by omega) (by omega)

theorem AtChar.xTable_run : fetchPointerOfObject (ascii m q n) r.xTable t =
      some (m.wordAt s.xTable (ascii m q n), t) ∧
    fetchPointerOfObject (ascii m q n + 1) r.xTable t =
      some (m.wordAt s.xTable (ascii m q n + 1), t) := by
  have := ascii_lt m q n
  rw [ha.xTable]
  exact ⟨h.fetch_run ha.drawn h.xTable (fun hd => (h.apart hd).2.1) (by omega) (by omega),
    h.fetch_run ha.drawn h.xTable (fun hd => (h.apart hd).2.1) (by omega) (by omega)⟩

include hn

theorem AtChar.ascii_run : fetchByteAt (r.lastIndex - 1) q.sourceString t =
    some (ascii m q n, t) := by
  have hstart := h.start
  rw [ha.lastIndex, fetchByteAt_of_nonneg (by omega)]
  exact h.fetchByte_run ha.drawn hn

/-- A character without a stop condition. -/
theorem AtChar.scan_eq (hc : ¬m.wordAt s.stopConditions (ascii m q n) ≠ nilPointer) :
    scanCharacter q r t =
      (if penAt m q s (n + 1) > q.rightX then do
        return .inr (← fetchPointerOfObject (crossedX - 1) q.stops,
          { r with bitBlt := glyphOf m q s r n })
      else do
        let b ← displayGlyph q.displaying (glyphOf m q s r n)
        return .inl { r with
          bitBlt := { b with destX := penAt m q s (n + 1) }, lastIndex := r.lastIndex + 1 } :
        OM (CharacterScanner ⊕ (Nat × CharacterScanner))) t := by
  obtain ⟨hleft, hright⟩ := ha.xTable_run h
  rw [scanCharacter, if_pos (ha.le_stopIndex hn), bind_of_run (ha.ascii_run h hn),
    bind_of_run (ha.condition_run h), if_neg hc, bind_of_run hleft, bind_of_run hright,
    penAt, ← ha.destX]
  rfl

theorem AtChar.stops (hbefore : ∀ i < n, ¬StopsAt m q s i) (hstop : StopsAt m q s n) :
    ∃ answer r', scanCharacter q r t = some (.inr (answer, r'), t) ∧
      Scanned m q s answer r' := by
  have hlt := ascii_lt m q n
  have hstops : ∀ i : Int, 0 ≤ i → i < 258 →
      fetchPointerOfObject i q.stops t = some (m.wordAt q.stops i, t) := fun i h0 hi =>
    h.fetch_run ha.drawn h.stops (fun hd => (h.apart hd).2.2.2) h0 hi
  by_cases hc : m.wordAt s.stopConditions (ascii m q n) ≠ nilPointer
  · have hrun : scanCharacter q r t = some (.inr (m.wordAt q.stops (ascii m q n), r), t) := by
      rw [scanCharacter, if_pos (ha.le_stopIndex hn), bind_of_run (ha.ascii_run h hn),
        bind_of_run (ha.condition_run h), if_pos hc,
        bind_of_run (hstops _ (by omega) (by omega))]
      rfl
    exact ⟨_, _, hrun, .inl ⟨n, hn, hbefore, hstop, ha.lastIndex, ha.destX, by rw [if_pos hc]⟩⟩
  · have hrun : scanCharacter q r t = some (.inr (m.wordAt q.stops (crossedX - 1),
        { r with bitBlt := glyphOf m q s r n }), t) := by
      rw [ha.scan_eq h hn hc, if_pos (hstop.resolve_left hc),
        bind_of_run (hstops _ (by decide) (by decide))]
      rfl
    have hdestX : (glyphOf m q s r n).destX = penAt m q s n :=
      (destX_withGlyph _ _ _).trans ha.destX
    exact ⟨_, _, hrun, .inl ⟨n, hn, hbefore, hstop, ha.lastIndex, hdestX, by rw [if_neg hc]⟩⟩

theorem AtChar.next (hgo : ¬StopsAt m q s n) (hrule : q.displaying = true →
      HasRule s.bitBlt ∨ ¬Paints (glyphAt m q s n) destLength sourceLength) :
    ∃ r' t', scanCharacter q r t = some (.inl r', t') ∧
      AtChar m q s destBits (n + 1) r' t' := by
  obtain ⟨hc, hright⟩ := not_or.1 hgo
  obtain ⟨b, t', hb, hdrawn, hline⟩ := ha.wp_glyph h hrule
  have hrun : scanCharacter q r t = some (.inl { r with
      bitBlt := { b with destX := penAt m q s (n + 1) }, lastIndex := r.lastIndex + 1 }, t') := by
    rw [ha.scan_eq h hn hc, if_neg hright, bind_of_run hb]
    rfl
  refine ⟨_, t', hrun, hdrawn, ?_, ha.xTable, ha.stopConditions, rfl, hline.moved _⟩
  dsimp only
  rw [ha.lastIndex]
  push_cast
  ring

/-- Where the scan gets past a glyph with a pixel to draw, there is a rule. -/
theorem AtChar.rule (hgo : ¬StopsAt m q s n) (hd : q.displaying = true)
    (hp : Paints (glyphAt m q s n) destLength sourceLength)
    {Q : CharacterScanner ⊕ (Nat × CharacterScanner) → ObjectMemory → Prop}
    (hscan : Wp (scanCharacter q r) Q t) : HasRule s.bitBlt := by
  obtain ⟨hc, hright⟩ := not_or.1 hgo
  rw [Wp, ha.scan_eq h hn hc, if_neg hright, ← Wp, wp_bind, displayGlyph, if_pos hd, drawGlyph,
    wp_bind] at hscan
  have hcopy : Wp (copyBits (glyphOf m q s r n)) (fun _ _ => True) t :=
    hscan.mono fun _ _ _ => trivial
  have hrule := (ha.drawable h hd).rule_of_wp_copyBits (ha.paints_iff.2 hp) hcopy
  rwa [HasRule, ha.sameLine_glyphOf.combinationRule] at hrule

end Step

/-! ## The line -/

section Run

variable (h : Scannable m q s destBits sourceBits halftoneBits destLength sourceLength)

include h

/-- The scan comes to the `n`th character if no character before it ends it. -/
theorem Scannable.reaches (hn : n ≤ lineLength q) (hbefore : ∀ i < n, ¬StopsAt m q s i)
    (hrule : ∀ i < n, q.displaying = true →
      HasRule s.bitBlt ∨ ¬Paints (glyphAt m q s i) destLength sourceLength) :
    ∃ r t, scanCharacters q s m = iterate (scanCharacter q) r t ∧
      AtChar m q s destBits n r t := by
  induction n with
  | zero => exact ⟨_, m, rfl, .inl rfl, by simp, rfl, rfl, rfl, .refl _⟩
  | succ n ih =>
      obtain ⟨r, t, hrun, ha⟩ := ih (by omega) (fun i hi => hbefore i (by omega))
        fun i hi => hrule i (by omega)
      obtain ⟨r', t', hnext, ha'⟩ := ha.next h (by omega) (hbefore n (by omega))
        (hrule n (by omega))
      exact ⟨r', t', hrun.trans (iterate_inl hnext), ha'⟩

/-- After the last character. -/
theorem Scannable.endOfRun (ha : AtChar m q s destBits (lineLength q) r t)
    (hbefore : ∀ i < lineLength q, ¬StopsAt m q s i) :
    ∃ answer r', scanCharacter q r t = some (.inr (answer, r'), t) ∧
      Scanned m q s answer r' := by
  have hend : ¬r.lastIndex ≤ q.stopIndex := by
    rw [ha.lastIndex, lineLength]
    omega
  have hstops : fetchPointerOfObject (BitBlt.endOfRun - 1) q.stops t =
      some (m.wordAt q.stops (BitBlt.endOfRun - 1), t) :=
    h.fetch_run ha.drawn h.stops (fun hd => (h.apart hd).2.2.2) (by decide) (by decide)
  have hrun : scanCharacter q r t = some (.inr (m.wordAt q.stops (BitBlt.endOfRun - 1),
      { r with lastIndex := q.stopIndex }), t) := by
    rw [scanCharacter, if_neg hend, bind_of_run hstops]
    rfl
  exact ⟨_, _, hrun, .inr ⟨hbefore, rfl, ha.destX, rfl⟩⟩

theorem Scannable.scansLine (hrule : DrawsWithRule m q s destLength sourceLength) :
    ScansLine m q s := by
  classical
  have hglyph : ∀ n ≤ lineLength q, (∀ i < n, ¬StopsAt m q s i) → ∀ i < n,
      q.displaying = true →
        HasRule s.bitBlt ∨ ¬Paints (glyphAt m q s i) destLength sourceLength :=
    fun n hn hbefore i hi hd => (hrule hd).imp_right fun hno =>
      hno i (by omega) fun j hj => hbefore j (by omega)
  by_cases hex : ∃ k, k < lineLength q ∧ StopsAt m q s k
  · obtain ⟨hk, hstop⟩ := Nat.find_spec hex
    have hbefore : ∀ i < Nat.find hex, ¬StopsAt m q s i := fun i hi hs =>
      Nat.find_min hex hi ⟨hi.trans hk, hs⟩
    obtain ⟨r, t, hrun, ha⟩ := h.reaches hk.le hbefore (hglyph _ hk.le hbefore)
    obtain ⟨answer, r', hend, hscanned⟩ := ha.stops h hk hbefore hstop
    exact ⟨_, t, hrun.trans (iterate_inr hend), hscanned⟩
  · have hbefore : ∀ i < lineLength q, ¬StopsAt m q s i := fun i hi hs => hex ⟨i, hi, hs⟩
    obtain ⟨r, t, hrun, ha⟩ := h.reaches le_rfl hbefore (hglyph _ le_rfl hbefore)
    obtain ⟨answer, r', hend, hscanned⟩ := h.endOfRun ha hbefore
    exact ⟨_, t, hrun.trans (iterate_inr hend), hscanned⟩

theorem Scannable.drawsWithRule (hscan : ScansLine m q s) :
    DrawsWithRule m q s destLength sourceLength := by
  intro hd
  by_cases hrule : HasRule s.bitBlt
  · exact .inl hrule
  · refine .inr fun n => ?_
    induction n using Nat.strong_induction_on with
    | _ n ih =>
        intro hn hgo hp
        obtain ⟨r, t, hrun, ha⟩ := h.reaches hn.le (fun i hi => hgo i hi.le) fun i hi _ =>
          .inr (ih i hi (by omega) fun j hj => hgo j (by omega))
        obtain ⟨answer, t', hscan, -⟩ := hscan
        rw [hrun] at hscan
        have hround : Wp (scanCharacter q r) (fun _ _ => True) t := by
          cases hstep : scanCharacter q r t with
          | none =>
              rw [iterate_none hstep] at hscan
              cases hscan
          | some out => exact ⟨out.1, out.2, hstep, trivial⟩
        exact hrule (ha.rule h hn (hgo n le_rfl) hd hp hround)

end Run

/-- The small forms, a string with the bytes 0, 1 and 0, glyphs of four and of three pixels for
them, and no stop condition. -/
def smallLine : ObjectMemory :=
  (((smallForms.place 68 256 140 [4, 0, 256, 0]).place 70 256 1000 [259, 0, 1, 9, 15]).place
    72 256 2000 [258, 0, 2, 2]).place 74 256 3000 [260, 0, 0]

def wholeLine : ScanCall where
  startIndex := 1
  stopIndex := 3
  sourceString := 68
  rightX := 100
  stops := 74
  displaying := true

def smallScanner : CharacterScanner where
  bitBlt := smallCopy
  xTable := 70
  lastIndex := 0
  stopConditions := 72

/-- The same with a number that is no combination rule. -/
def scannerWithoutRule : CharacterScanner :=
  { smallScanner with bitBlt := { smallCopy with combinationRule := 16 } }

theorem hasBitmap_smallLine : HasBitmap smallLine 60 62 1 ∧ HasBitmap smallLine 64 66 1 := by
  constructor <;>
    exact ⟨⟨by decide, by decide, by decide, by decide⟩, by decide,
      ⟨by decide, by decide, by decide, by decide, by decide⟩⟩

theorem scannable_smallLine (s : CharacterScanner) (hx : s.xTable = 70)
    (hstop : s.stopConditions = 72) (hdest : s.bitBlt.destForm = 60)
    (hsource : s.bitBlt.sourceForm = 64) (hhalf : s.bitBlt.halftoneForm = nilPointer) :
    Scannable smallLine wholeLine s 62 66 nilPointer 1 1 where
  start := by decide
  string := ⟨2, ⟨by decide, by decide, by decide, by decide, by decide⟩, by decide⟩
  xTable := ⟨257, hx ▸ ⟨by decide, by decide, by decide, by decide, by decide⟩, by decide⟩
  stopConditions := ⟨256, hstop ▸ ⟨by decide, by decide, by decide, by decide, by decide⟩,
    by decide⟩
  stops := ⟨258, ⟨by decide, by decide, by decide, by decide, by decide⟩, by decide⟩
  drawable _ := by
    refine ⟨?_, ?_, fun _ => ?_, fun h => absurd hhalf h, ?_, fun _ => ?_,
      fun h => absurd hhalf h⟩
    · rw [hdest]
      decide
    · rw [hdest]
      exact hasBitmap_smallLine.1
    · rw [hsource]
      exact hasBitmap_smallLine.2
    · rw [hdest]
      exact fun _ => by decide
    · rw [hsource]
      exact ⟨fun _ => by decide, .inr fun _ => by decide⟩
  apart _ := by
    rw [hx, hstop]
    exact ⟨fun _ => by decide, fun _ => by decide, fun _ => by decide, fun _ => by decide⟩

end BitBlt

end Crosstalk
