import Crosstalk.BitBlt.Frame
import Crosstalk.Display.Damage
import Crosstalk.Interpreter.Arithmetic

/-!
# What the interpreter reports as drawn

`updateDisplay` reports a rectangle to the virtual machine, whose assertions want
it inside the display. `primitiveCopyBits` reports the rectangle that it has
clipped; `primitiveScanCharacters` reports the clip rectangle of the scanner as
the program has set it.
-/

namespace Crosstalk

open ObjectMemory

namespace Display

/-! ## The code -/

/-- The interpreter and the display that it draws on. The memory of the display
is that of the interpreter. -/
structure Workstation where
  interpreter : Interpreter
  display : Display

abbrev WM := StateT Workstation Option

def inInterpreter {α : Type} (x : IM α) : WM α := fun s =>
  match x s.interpreter with
  | none => none
  | some (a, i) => some (a, { s with interpreter := i })

def onDisplay {α : Type} (x : DM α) : WM α := fun s =>
  match x { s.display with memory := s.interpreter.memory } with
  | none => none
  | some (a, d) => some (a, { s with display := d })

abbrev widthInForm : Int := 1
abbrev heightInForm : Int := 2

/-- The part of `updateDisplay` on the size: does it go on to report? -/
def noteSize (width height : Int) : WM Bool := do
  let d := (← get).display
  if d.currentDisplayWidth ≠ width ∨ d.currentDisplayHeight ≠ height then
    if height ≤ 100 then
      return false
    else
      let _ ← onDisplay (setDisplaySize width height)
      modify fun s => { s with display := { s.display with
        currentDisplayWidth := width, currentDisplayHeight := height } }
      return true
  else
    return true

/-- `updateDisplay` up to its call of `display_changed`, with the rectangle of
the call. -/
def updateArea (r : Rect) : WM (Option Rect) := do
  let currentDisplay := (← get).display.currentDisplay
  let width ← inInterpreter (fetchIntegerOfObject widthInForm currentDisplay)
  let height ← inInterpreter (fetchIntegerOfObject heightInForm currentDisplay)
  let noted ← noteSize width height
  return if noted ∧ r.w > 0 ∧ r.h > 0 then some r else none

def report : Option Rect → WM Unit
  | none => return
  | some r => onDisplay (displayChanged r.x r.y r.w r.h)

/-- The fields of a BitBlt object. -/
def bitBltFields (p : Nat) : IM BitBlt := do
  let destForm ← inMemory (fetchPointerOfObject 0 p)
  let sourceForm ← inMemory (fetchPointerOfObject 1 p)
  let destX ← fetchIntegerOfObject 4 p
  let destY ← fetchIntegerOfObject 5 p
  let clipX ← fetchIntegerOfObject 10 p
  let clipY ← fetchIntegerOfObject 11 p
  let clipWidth ← fetchIntegerOfObject 12 p
  let clipHeight ← fetchIntegerOfObject 13 p
  let sourceX ← fetchIntegerOfObject 8 p
  let sourceY ← fetchIntegerOfObject 9 p
  let width ← fetchIntegerOfObject 6 p
  let height ← fetchIntegerOfObject 7 p
  let combinationRule ← fetchIntegerOfObject 3 p
  return { destForm, sourceForm, halftoneForm := nilPointer, combinationRule, destX, destY
           width, height, sourceX, sourceY, clipX, clipY, clipWidth, clipHeight }

/-- The copy of the BitBlt on the stack, unless a field is none. -/
def copyBitsOfStack : IM (Option BitBlt) := do
  let bitBltPointer ← stackTop
  let b ← bitBltFields bitBltPointer
  success (decide (0 ≤ b.combinationRule ∧ b.combinationRule ≤ 15))
  if (← get).successFlag then
    let halftoneForm ← inMemory (fetchPointerOfObject 2 bitBltPointer)
    let bitBlt ← inMemory (BitBlt.new { b with halftoneForm })
    let (_, bitBlt) ← inMemory (BitBlt.copyBits bitBlt)
    return some bitBlt
  else
    return none

/-- The rectangle that the copy reports. -/
def copyArea (b : BitBlt) : WM (Option Rect) := do
  if b.destForm = (← get).display.currentDisplay ∧ b.updatedWidth > 0 ∧ b.updatedHeight > 0 then
    updateArea ⟨b.updatedX, b.updatedY, b.updatedWidth, b.updatedHeight⟩
  else
    return none

/-- `primitiveCopyBits` up to the report. -/
def copyBitsArea : WM (Option Rect) := do
  match ← inInterpreter copyBitsOfStack with
  | none => return none
  | some b => copyArea b

def primitiveCopyBits : WM Unit := do
  report (← copyBitsArea)

/-- The fields that are read for drawing only. -/
structure DrawingFields where
  destY : Int
  clip : Rect
  sourceY : Int
  rule : Int
  height : Int

def drawingFields (displaying : Bool) (p : Nat) : IM DrawingFields :=
  if displaying then do
    let destY ← fetchIntegerOfObject 5 p
    let clipX ← fetchIntegerOfObject 10 p
    let clipY ← fetchIntegerOfObject 11 p
    let clipWidth ← fetchIntegerOfObject 12 p
    let clipHeight ← fetchIntegerOfObject 13 p
    let sourceY ← fetchIntegerOfObject 9 p
    let rule ← fetchIntegerOfObject 3 p
    let height ← fetchIntegerOfObject 7 p
    return ⟨destY, ⟨clipX, clipY, clipWidth, clipHeight⟩, sourceY, rule, height⟩
  else
    return ⟨0, ⟨0, 0, 0, 0⟩, 0, 0, 0⟩

/-- What `primitiveScanCharacters` has when it comes to the display. -/
structure ScanEnd where
  destForm : Nat
  displaying : Bool
  clip : Rect
  result : Nat

/-- The members that the scan has changed go back to the scanner. -/
def storeScanner (p : Nat) (r : BitBlt.CharacterScanner) : IM Unit := do
  storeIntegerOfObjectWithValue 4 p r.bitBlt.destX
  storeIntegerOfObjectWithValue 6 p r.bitBlt.width
  storeIntegerOfObjectWithValue 8 p r.bitBlt.sourceX
  storeIntegerOfObjectWithValue 14 p r.lastIndex

/-- The scan with the arguments on the stack, unless one of them is none. -/
def scanCharactersOfStack : IM (Option ScanEnd) := do
  let displaying := decide ((← popStack) = truePointer)
  let stops ← popStack
  let rightX ← popInteger
  let sourceString ← popStack
  let stopIndex ← popInteger
  let startIndex ← popInteger
  let p ← popStack
  let destForm ← inMemory (fetchPointerOfObject 0 p)
  let sourceForm ← inMemory (fetchPointerOfObject 1 p)
  let destX ← fetchIntegerOfObject 4 p
  let xTable ← inMemory (fetchPointerOfObject 15 p)
  let lastIndex ← fetchIntegerOfObject 14 p
  let stopConditions ← inMemory (fetchPointerOfObject 16 p)
  let f ← drawingFields displaying p
  if (← get).successFlag then
    let halftoneForm ← inMemory (fetchPointerOfObject 2 p)
    let bitBlt ← inMemory (BitBlt.new {
      destForm, sourceForm, halftoneForm, combinationRule := f.rule, destX, destY := f.destY
      width := 0, height := f.height, sourceX := 0, sourceY := f.sourceY
      clipX := f.clip.x, clipY := f.clip.y, clipWidth := f.clip.w, clipHeight := f.clip.h })
    let (result, r) ← inMemory (BitBlt.scanCharacters
      ⟨startIndex, stopIndex, sourceString, rightX, stops, displaying⟩
      ⟨bitBlt, xTable, lastIndex, stopConditions⟩)
    storeScanner p r
    return some ⟨destForm, displaying, f.clip, result⟩
  else
    unPop 7
    return none

/-- The rectangle that the scan reports. -/
def scanArea (e : ScanEnd) : WM (Option Rect) := do
  if e.destForm = (← get).display.currentDisplay ∧ e.displaying then
    updateArea e.clip
  else
    return none

/-- `primitiveScanCharacters` up to the report. -/
def scanCharactersArea : WM (Option Rect) := do
  match ← inInterpreter scanCharactersOfStack with
  | none => return none
  | some e => scanArea e

def primitiveScanCharacters : WM Unit := do
  match ← inInterpreter scanCharactersOfStack with
  | none => return
  | some e => do
      report (← scanArea e)
      inInterpreter (push e.result)

def primitiveBeDisplay : WM Unit := do
  let newDisplay ← inInterpreter stackTop
  if (← get).display.currentDisplay ≠ newDisplay then
    let width ← inInterpreter (fetchIntegerOfObject widthInForm newDisplay)
    let height ← inInterpreter (fetchIntegerOfObject heightInForm newDisplay)
    if height > 100 then
      -- `set_display_size` always answers true
      let _ ← onDisplay (setDisplaySize width height)
      modify fun s => { s with display := { s.display with
        currentDisplay := newDisplay
        currentDisplayWidth := width
        currentDisplayHeight := height } }
    else
      modify fun s => { s with display := { s.display with currentDisplay := 0 } }

/-! ## Runs -/

/-- The sizes of the virtual machine and the interpreter, and the display. -/
structure SameSizes (d d' : Display) : Prop where
  currentDisplay : d'.currentDisplay = d.currentDisplay
  displayWidth : d'.displayWidth = d.displayWidth
  displayHeight : d'.displayHeight = d.displayHeight
  currentDisplayWidth : d'.currentDisplayWidth = d.currentDisplayWidth
  currentDisplayHeight : d'.currentDisplayHeight = d.currentDisplayHeight

/-- The states of a workstation. Whatever else the program does leaves the display
alone, and the frames that are drawn leave its size. -/
inductive Reachable : Workstation → Prop where
  | start (i : Interpreter) (d : Display) : d.currentDisplay = 0 → d.displayWidth = 0 →
      d.displayHeight = 0 → d.currentDisplayWidth = 0 → d.currentDisplayHeight = 0 →
      Reachable ⟨i, d⟩
  | copyBits {s s' : Workstation} : Reachable s → primitiveCopyBits s = some ((), s') →
      Reachable s'
  | scanCharacters {s s' : Workstation} : Reachable s →
      primitiveScanCharacters s = some ((), s') → Reachable s'
  | beDisplay {s s' : Workstation} : Reachable s → primitiveBeDisplay s = some ((), s') →
      Reachable s'
  | interpreter {s : Workstation} (i : Interpreter) : Reachable s →
      Reachable { s with interpreter := i }
  | frame {s : Workstation} (d : Display) : Reachable s → SameSizes s.display d →
      Reachable { s with display := d }

/-- The size is the same in the virtual machine and in the interpreter. -/
def Synced (s : Workstation) : Prop :=
  s.display.displayWidth = s.display.currentDisplayWidth ∧
    s.display.displayHeight = s.display.currentDisplayHeight

/-! ## The property -/

/-- The assertions of `display_changed` hold for the rectangle that `x` comes
to. -/
def ReportsInside (x : WM (Option Rect)) (s : Workstation) : Prop :=
  Wlp x (fun area s' => Wp (report area) (fun _ _ => True) s') s

/-- The sizes of the form are SmallIntegers. -/
structure HasSize (m : ObjectMemory) (form : Nat) : Prop where
  hasField : HasField m form 2
  width : isIntegerObject (m.wordAt form widthInForm)
  height : isIntegerObject (m.wordAt form heightInForm)

def formWidth (m : ObjectMemory) (form : Nat) : Int := integerValueOf (m.wordAt form widthInForm)

def formHeight (m : ObjectMemory) (form : Nat) : Int := integerValueOf (m.wordAt form heightInForm)

/-- A form that became too low for a display is not reported on. -/
def TooLow (s : Workstation) : Prop :=
  (s.display.currentDisplayWidth ≠ formWidth s.interpreter.memory s.display.currentDisplay ∨
    s.display.currentDisplayHeight ≠ formHeight s.interpreter.memory s.display.currentDisplay) ∧
    formHeight s.interpreter.memory s.display.currentDisplay ≤ 100

/-- The rectangle lies inside the form, or is not reported. -/
def SafeToReport (s : Workstation) (r : Rect) : Prop :=
  (r.w ≤ 0 ∨ r.h ≤ 0) ∨ TooLow s ∨
    (0 ≤ r.x ∧ r.x + r.w ≤ formWidth s.interpreter.memory s.display.currentDisplay) ∧
      0 ≤ r.y ∧ r.y + r.h ≤ formHeight s.interpreter.memory s.display.currentDisplay

/-! ## Rules -/

section Rules

variable {α : Type} {s : Workstation}

theorem wlp_inInterpreter {x : IM α} {Q : α → Workstation → Prop} :
    Wlp (inInterpreter x) Q s ↔
      Wlp x (fun a i => Q a { s with interpreter := i }) s.interpreter := by
  simp only [Wlp, inInterpreter]
  cases x s.interpreter with
  | none => simp
  | some r =>
      obtain ⟨a, i⟩ := r
      simp only [Option.some.injEq, Prod.mk.injEq, and_imp]
      exact ⟨fun h a' i' ha hi => by subst ha hi; exact h _ _ rfl rfl,
        fun h a' s' ha hs => by subst ha hs; exact h _ _ rfl rfl⟩

theorem wp_inInterpreter {x : IM α} {Q : α → Workstation → Prop} :
    Wp (inInterpreter x) Q s ↔
      Wp x (fun a i => Q a { s with interpreter := i }) s.interpreter := by
  simp only [Wp, inInterpreter]
  cases x s.interpreter with
  | none => simp
  | some r =>
      obtain ⟨a, i⟩ := r
      simp

theorem wlp_onDisplay {x : DM α} {Q : α → Workstation → Prop} :
    Wlp (onDisplay x) Q s ↔ Wlp x (fun a d => Q a { s with display := d })
      { s.display with memory := s.interpreter.memory } := by
  simp only [Wlp, onDisplay]
  cases x { s.display with memory := s.interpreter.memory } with
  | none => simp
  | some r =>
      obtain ⟨a, d⟩ := r
      simp only [Option.some.injEq, Prod.mk.injEq, and_imp]
      exact ⟨fun h a' d' ha hd => by subst ha hd; exact h _ _ rfl rfl,
        fun h a' s' ha hs => by subst ha hs; exact h _ _ rfl rfl⟩

theorem wp_onDisplay {x : DM α} {Q : α → Workstation → Prop} :
    Wp (onDisplay x) Q s ↔ Wp x (fun a d => Q a { s with display := d })
      { s.display with memory := s.interpreter.memory } := by
  simp only [Wp, onDisplay]
  cases x { s.display with memory := s.interpreter.memory } with
  | none => simp
  | some r =>
      obtain ⟨a, d⟩ := r
      simp

theorem wp_setDisplaySize {width height : Int} {d : Display} :
    Wp (setDisplaySize width height) (fun _ d' => d'.displayWidth = width ∧
      d'.displayHeight = height ∧ d'.currentDisplay = d.currentDisplay) d := by
  rw [setDisplaySize, wp_bind, wp_get]
  by_cases hne : d.displayWidth ≠ width ∨ d.displayHeight ≠ height
  · simp only [if_pos hne, wp_bind, wp_set, wp_pure, and_self]
  · simp only [if_neg hne, wp_pure]
    push Not at hne
    exact ⟨hne.1, hne.2, trivial⟩

theorem sameSizes_displayChanged {x y width height : Int} {d : Display} :
    Wlp (displayChanged x y width height) (fun _ d' => SameSizes d d') d := by
  simp only [displayChanged, wlp_bind, wlp_modify, wlp_get, wlp_check, wlp_ite, wlp_set]
  exact fun _ _ _ _ => ⟨fun _ => ⟨rfl, rfl, rfl, rfl, rfl⟩, fun _ => ⟨rfl, rfl, rfl, rfl, rfl⟩⟩

theorem wp_report {r : Rect} : Wp (report (some r)) (fun _ _ => True) s ↔
    ((r.x ≥ 0 ∧ r.x < s.display.displayWidth) ∧ r.y ≥ 0 ∧ r.y < s.display.displayHeight) ∧
      r.x + r.w ≤ s.display.displayWidth ∧ r.y + r.h ≤ s.display.displayHeight := by
  rw [report, wp_onDisplay]
  simp only [displayChanged, wp_bind, wp_modify, wp_get, wp_check, wp_ite, wp_set, and_true,
    implies_true, and_assoc]

end Rules

/-! ## The size of the display -/

section Synced

variable {α : Type} {s : Workstation}

theorem keeps_inInterpreter (x : IM α) : Keeps Synced (inInterpreter x) := fun _ h => by
  rw [wlp_inInterpreter]
  exact fun _ _ _ => h

theorem keeps_report : ∀ area : Option Rect, Keeps Synced (report area)
  | none => Keeps.pure _
  | some _ => fun _ h => by
      rw [report, wlp_onDisplay]
      refine sameSizes_displayChanged.mono fun _ d hd => ?_
      exact ⟨hd.displayWidth.trans (h.1.trans hd.currentDisplayWidth.symm),
        hd.displayHeight.trans (h.2.trans hd.currentDisplayHeight.symm)⟩

theorem keeps_noteSize (width height : Int) : Keeps Synced (noteSize width height) := by
  refine Keeps.get.bind fun s => Keeps.ite (Keeps.ite (Keeps.pure _) fun s' _ => ?_) (Keeps.pure _)
  rw [wlp_bind, wlp_onDisplay]
  refine wp_setDisplaySize.toWlp.mono fun _ d hd => ?_
  rw [wlp_bind, wlp_modify, wlp_pure]
  exact ⟨hd.1, hd.2.1⟩

theorem keeps_updateArea (r : Rect) : Keeps Synced (updateArea r) :=
  Keeps.get.bind fun _ => (keeps_inInterpreter _).bind fun _ => (keeps_inInterpreter _).bind
    fun _ => (keeps_noteSize _ _).bind fun _ => Keeps.pure _

theorem keeps_primitiveCopyBits : Keeps Synced primitiveCopyBits := by
  refine ((keeps_inInterpreter _).bind fun b => ?_).bind keeps_report
  cases b with
  | none => exact Keeps.pure _
  | some b => exact Keeps.get.bind fun _ => Keeps.ite (keeps_updateArea _) (Keeps.pure _)

theorem keeps_primitiveScanCharacters : Keeps Synced primitiveScanCharacters := by
  refine (keeps_inInterpreter _).bind fun e => ?_
  cases e with
  | none => exact Keeps.pure _
  | some e =>
      exact (Keeps.get.bind fun _ => Keeps.ite (keeps_updateArea _) (Keeps.pure _)).bind
        fun _ => (keeps_report _).bind fun _ => keeps_inInterpreter _

theorem keeps_primitiveBeDisplay : Keeps Synced primitiveBeDisplay := by
  refine (keeps_inInterpreter _).bind fun newDisplay => Keeps.get.bind fun s => Keeps.ite ?_
    (Keeps.pure _)
  refine (keeps_inInterpreter _).bind fun width => (keeps_inInterpreter _).bind fun height =>
    Keeps.ite (fun s' _ => ?_) (Keeps.modify fun _ h => h)
  rw [wlp_bind, wlp_onDisplay]
  refine wp_setDisplaySize.toWlp.mono fun _ d hd => ?_
  rw [wlp_modify]
  exact ⟨hd.1, hd.2.1⟩

theorem Reachable.synced (h : Reachable s) : Synced s := by
  induction h with
  | start i d _ hw hh hw' hh' => exact ⟨hw.trans hw'.symm, hh.trans hh'.symm⟩
  | copyBits _ hrun ih => exact keeps_primitiveCopyBits _ ih _ _ hrun
  | scanCharacters _ hrun ih => exact keeps_primitiveScanCharacters _ ih _ _ hrun
  | beDisplay _ hrun ih => exact keeps_primitiveBeDisplay _ ih _ _ hrun
  | interpreter _ _ ih => exact ih
  | frame _ _ hd ih =>
      exact ⟨hd.displayWidth.trans (ih.1.trans hd.currentDisplayWidth.symm),
        hd.displayHeight.trans (ih.2.trans hd.currentDisplayHeight.symm)⟩

end Synced

/-! ## One report -/

section Report

variable {s : Workstation} {r : Rect}

theorem wp_fetchSize {i : Interpreter} {form : Nat} {k : Int} (hf : HasField i.memory form k)
    (hint : isIntegerObject (i.memory.wordAt form k)) {Q : Int → Interpreter → Prop} :
    Wp (fetchIntegerOfObject k form) Q i ↔ Q (integerValueOf (i.memory.wordAt form k)) i := by
  rw [fetchIntegerOfObject, wp_bind, wp_inMemory, fetchPointerOfObject_eq, wp_fetchWordOfObject,
    wp_ite, wp_pure]
  exact ⟨fun h => h.2.1 hint, fun h => ⟨hf, fun _ => h, fun hno => absurd hint hno⟩⟩

theorem wp_noteSize (hs : Synced s) (width height : Int) :
    Wp (noteSize width height) (fun noted t =>
      (noted = false ↔ (s.display.currentDisplayWidth ≠ width ∨
        s.display.currentDisplayHeight ≠ height) ∧ height ≤ 100) ∧
      (noted = true → t.display.displayWidth = width ∧ t.display.displayHeight = height)) s := by
  rw [noteSize, wp_bind, wp_get]
  dsimp only
  by_cases hne : s.display.currentDisplayWidth ≠ width ∨ s.display.currentDisplayHeight ≠ height
  · rw [if_pos hne]
    by_cases hlow : height ≤ 100
    · rw [if_pos hlow, wp_pure]
      exact ⟨⟨fun _ => ⟨hne, hlow⟩, fun _ => rfl⟩, nofun⟩
    · rw [if_neg hlow, wp_bind, wp_onDisplay]
      refine wp_setDisplaySize.mono fun _ d hd => ?_
      rw [wp_bind, wp_modify, wp_pure]
      exact ⟨⟨nofun, fun h => absurd h.2 hlow⟩, fun _ => ⟨hd.1, hd.2.1⟩⟩
  · rw [if_neg hne, wp_pure]
    push Not at hne
    exact ⟨⟨nofun, fun h => absurd hne (by simpa [imp_iff_not_or] using h.1)⟩,
      fun _ => ⟨hs.1.trans hne.1, hs.2.trans hne.2⟩⟩

/-- `updateDisplay` reports the rectangle to a display of the form's size, or
does not report. -/
theorem wp_updateArea (hs : Synced s)
    (hf : HasSize s.interpreter.memory s.display.currentDisplay) :
    Wp (updateArea r) (fun area t =>
      (area = none ∧ ((r.w ≤ 0 ∨ r.h ≤ 0) ∨ TooLow s)) ∨
      (area = some r ∧ (0 < r.w ∧ 0 < r.h) ∧ ¬TooLow s ∧
        t.display.displayWidth = formWidth s.interpreter.memory s.display.currentDisplay ∧
        t.display.displayHeight =
          formHeight s.interpreter.memory s.display.currentDisplay)) s := by
  have hfield := hf.hasField
  have hlt := hfield.lt_size
  have hinside := hfield.inside
  have hwidth : HasField s.interpreter.memory s.display.currentDisplay widthInForm :=
    ⟨hfield.isEntry, by decide, by simp only [widthInForm]; omega, by
      simp only [widthInForm]; omega⟩
  rw [updateArea, wp_bind, wp_get, wp_bind, wp_inInterpreter, wp_fetchSize hwidth hf.width,
    wp_bind, wp_inInterpreter, wp_fetchSize hfield hf.height, wp_bind]
  refine (wp_noteSize hs _ _).mono fun noted t hnoted => ?_
  rw [wp_pure]
  cases noted with
  | false => exact .inl ⟨rfl, .inr (hnoted.1.1 rfl)⟩
  | true =>
      by_cases hpos : 0 < r.w ∧ 0 < r.h
      · refine .inr ⟨if_pos ⟨rfl, hpos⟩, hpos, fun hlow => ?_, hnoted.2 rfl⟩
        exact absurd (hnoted.1.2 hlow) nofun
      · exact .inl ⟨if_neg fun h => hpos h.2, .inl (by omega)⟩

theorem reportsInside_updateArea (hs : Synced s)
    (hf : HasSize s.interpreter.memory s.display.currentDisplay) :
    ReportsInside (updateArea r) s ↔ SafeToReport s r := by
  obtain ⟨area, t, hrun, harea⟩ := wp_updateArea (r := r) hs hf
  have hiff : ReportsInside (updateArea r) s ↔ Wp (report area) (fun _ _ => True) t := by
    refine ⟨fun h => h _ _ hrun, fun h a u hu => ?_⟩
    rw [hrun] at hu
    cases hu
    exact h
  rw [hiff, SafeToReport]
  rcases harea with ⟨rfl, hnone⟩ | ⟨rfl, hpos, hlow, hw, hh⟩
  · have hreport : Wp (report none) (fun _ _ => True) t := (wp_pure ..).2 trivial
    exact iff_of_true hreport (hnone.elim .inl fun h => .inr (.inl h))
  · rw [wp_report, hw, hh]
    constructor
    · rintro ⟨⟨hx, hy⟩, hright, hbottom⟩
      exact .inr (.inr ⟨⟨hx.1, hright⟩, hy.1, hbottom⟩)
    · rintro (hempty | htoo | ⟨hx, hy⟩)
      · omega
      · exact absurd htoo hlow
      · exact ⟨⟨⟨hx.1, by omega⟩, hy.1, by omega⟩, hx.2, hy.2⟩

end Report

/-! ## Programs that read fields -/

/-- The program leaves the memory `m` as it is, and what it answers has `Q`. -/
def Reads {α : Type} (m : ObjectMemory) (x : IM α) (Q : α → Prop) : Prop :=
  ∀ i : Interpreter, i.memory = m → Wlp x (fun a j => j.memory = m ∧ Q a) i

namespace Reads

variable {α : Type} {m : ObjectMemory} {p : Nat} {k : Int} {Q : α → Prop}

theorem pure {a : α} (h : Q a) : Reads m (Pure.pure a) Q := fun _ hi => (wlp_pure ..).2 ⟨hi, h⟩

theorem fetchPointer {f : Nat → IM α} (h : Reads m (f (m.wordAt p k)) Q) :
    Reads m (inMemory (fetchPointerOfObject k p) >>= f) Q := fun i hi => by
  rw [wlp_bind]
  refine wlp_fetchPointer ?_
  rw [hi]
  exact h i hi

theorem fetchInteger {f : Int → IM α} (h : ∀ v, Reads m (f v) Q) :
    Reads m (fetchIntegerOfObject k p >>= f) Q := fun i hi => by
  rw [wlp_bind]
  exact (fetchInteger_memory k p i).mono fun v j hj => h v j (hj.trans hi)

theorem fetchSmallInteger {f : Int → IM α} (hint : isIntegerObject (m.wordAt p k))
    (h : Reads m (f (integerValueOf (m.wordAt p k))) Q) :
    Reads m (fetchIntegerOfObject k p >>= f) Q := fun i hi => by
  rw [wlp_bind, fetchIntegerOfObject, wlp_bind]
  refine wlp_fetchPointer ?_
  rw [hi, wlp_ite, wlp_pure]
  exact ⟨fun _ => h i hi, fun hno => absurd hint hno⟩

end Reads

theorem reads_bitBltFields (m : ObjectMemory) (p : Nat) :
    Reads m (bitBltFields p) (fun b => b.destForm = m.wordAt p 0) := by
  unfold bitBltFields
  refine Reads.fetchPointer (Reads.fetchPointer ?_)
  iterate 11 refine Reads.fetchInteger fun _ => ?_
  exact Reads.pure rfl

/-! ## The copy -/

section Copy

variable {s : Workstation} {i : Interpreter}

/-- The form has the size and the bitmap that it had. -/
structure FormKept (form : Nat) (m t : ObjectMemory) : Prop where
  hasField : HasField t form 2
  word : ∀ k : Int, k ≤ 2 → t.wordAt form k = m.wordAt form k

/-- The destination of the BitBlt on the stack. -/
def stackDestForm (i : Interpreter) : Nat := i.memory.wordAt i.stackTop 0

/-- What the copy of `i` leaves, and what it has clipped. -/
structure Copied (i j : Interpreter) (b : BitBlt) : Prop where
  destForm : b.destForm = stackDestForm i
  kept : BitBlt.FormApart i.memory (stackDestForm i) →
    FormKept (stackDestForm i) i.memory j.memory
  inside : ∀ x y, BitBlt.Updated b x y →
    (0 ≤ x ∧ x < formWidth i.memory (stackDestForm i)) ∧
      0 ≤ y ∧ y < formHeight i.memory (stackDestForm i)

theorem FormKept.of_onlyFields {m t : ObjectMemory} {form : Nat} (h : BitBlt.FormApart m form)
    (ht : OnlyFields (BitBlt.formBits m form) m t) : FormKept form m t :=
  ⟨(h.of_onlyFields ht).hasField, fun _ hk => h.wordAt_eq ht hk⟩

theorem wlp_copyBits {a : BitBlt} {m : ObjectMemory} :
    Wlp (BitBlt.copyBits a) (fun r t => r.2.destForm = a.destForm ∧
      (BitBlt.FormApart m a.destForm → FormKept a.destForm m t) ∧
      ∀ x y, BitBlt.Updated r.2 x y →
        (0 ≤ x ∧ x < a.destFormWidth) ∧ 0 ≤ y ∧ y < a.destFormHeight) m := by
  refine Wlp.and BitBlt.copyBits_destForm (Wlp.and ?_ BitBlt.wlp_updated)
  intro r t hrun h
  exact .of_onlyFields h (BitBlt.copyBits_onlyFields h.heap r t hrun)

theorem wlp_copyBitsOfStack :
    Wlp copyBitsOfStack (fun r j => ∀ b, r = some b → Copied i j b) i := by
  rw [copyBitsOfStack, wlp_bind, stackTop, wlp_bind, wlp_get]
  refine wlp_fetchPointer ?_
  rw [wlp_bind]
  refine (reads_bitBltFields _ _ i rfl).mono fun b i₁ ⟨hmem₁, hdest⟩ => ?_
  have hdest : b.destForm = stackDestForm i := hdest
  rw [wlp_bind, success, wlp_modify, wlp_bind, wlp_get, wlp_ite]
  refine ⟨fun _ => ?_, fun _ => ?_⟩
  · rw [wlp_bind]
    refine wlp_fetchPointer ?_
    rw [wlp_bind, wlp_inMemory]
    refine BitBlt.wlp_new.mono ?_
    rintro a m ⟨hm, hform, hw, hh⟩
    have hform : a.destForm = stackDestForm i := hform.trans hdest
    have hm : m = i.memory := hm.trans hmem₁
    have hw : a.destFormWidth = integerValueOf (i₁.memory.wordAt b.destForm 1) := hw
    have hh : a.destFormHeight = integerValueOf (i₁.memory.wordAt b.destForm 2) := hh
    rw [hmem₁, hdest] at hw hh
    rw [wlp_bind, wlp_inMemory]
    have hcopy : Wlp (BitBlt.copyBits a) _ m := wlp_copyBits
    rw [hform, hw, hh, hm] at hcopy
    rw [hm]
    refine Wlp.mono hcopy ?_
    rintro ⟨done, r⟩ t ⟨hr, hkept, hinside⟩
    dsimp only
    rw [wlp_pure]
    intro b' hb'
    cases hb'
    exact ⟨hr, hkept, hinside⟩
  · rw [wlp_pure]
    exact fun b hb => absurd hb.symm (Option.some_ne_none b)

/-- The display is a form with SmallIntegers for its size, and its bitmap
elsewhere in the heap. -/
structure HasDisplay (s : Workstation) : Prop where
  apart : BitBlt.FormApart s.interpreter.memory s.display.currentDisplay
  width : isIntegerObject (s.interpreter.memory.wordAt s.display.currentDisplay widthInForm)
  height : isIntegerObject (s.interpreter.memory.wordAt s.display.currentDisplay heightInForm)

variable {j : Interpreter}

theorem HasDisplay.hasSize (h : HasDisplay s)
    (hk : FormKept s.display.currentDisplay s.interpreter.memory j.memory) :
    HasSize j.memory s.display.currentDisplay where
  hasField := hk.hasField
  width := by
    rw [hk.word _ (by decide)]
    exact h.width
  height := by
    rw [hk.word _ (by decide)]
    exact h.height

/-- Where the form has kept its size, the same rectangles are safe. -/
theorem safeToReport_kept {r : Rect}
    (hk : FormKept s.display.currentDisplay s.interpreter.memory j.memory) :
    SafeToReport { s with interpreter := j } r ↔ SafeToReport s r := by
  have hw : formWidth j.memory s.display.currentDisplay =
      formWidth s.interpreter.memory s.display.currentDisplay := by
    rw [formWidth, hk.word _ (by decide), formWidth]
  have hh : formHeight j.memory s.display.currentDisplay =
      formHeight s.interpreter.memory s.display.currentDisplay := by
    rw [formHeight, hk.word _ (by decide), formHeight]
  rw [SafeToReport, SafeToReport, TooLow, TooLow, hw, hh]

theorem reportsInside_none (t : Workstation) : ReportsInside (return none) t :=
  (wlp_pure ..).2 ((wp_pure ..).2 trivial)

/-- What a copy reports lies inside the display. -/
theorem reportsInside_copyBitsArea (hs : Synced s) (hd : HasDisplay s) :
    ReportsInside copyBitsArea s := by
  rw [ReportsInside, copyBitsArea, wlp_bind, wlp_inInterpreter]
  refine wlp_copyBitsOfStack.mono fun r j hr => ?_
  cases r with
  | none => exact reportsInside_none _
  | some b =>
      have hcopied := hr b rfl
      dsimp only
      rw [copyArea, wlp_bind, wlp_get, wlp_ite]
      refine ⟨fun h => ?_, fun _ => reportsInside_none _⟩
      obtain ⟨hform, hw, hh⟩ := h
      have hform : stackDestForm s.interpreter = s.display.currentDisplay :=
        hcopied.destForm.symm.trans hform
      have hkept := hcopied.kept (hform ▸ hd.apart)
      have hinside := hcopied.inside
      rw [hform] at hkept hinside
      refine (reportsInside_updateArea (s := { s with interpreter := j }) hs
        (hd.hasSize hkept)).2 ((safeToReport_kept hkept).2 (.inr (.inr ?_)))
      -- the corners of the rectangle
      have hfirst := hinside b.updatedX b.updatedY
        ⟨⟨le_rfl, by omega⟩, le_rfl, by omega⟩
      have hlast := hinside (b.updatedX + b.updatedWidth - 1) (b.updatedY + b.updatedHeight - 1)
        ⟨⟨by omega, by omega⟩, by omega, by omega⟩
      exact ⟨⟨hfirst.1.1, by dsimp only; omega⟩, hfirst.2.1, by dsimp only; omega⟩

end Copy

/-! ## The scan -/

section Scan

variable {i j : Interpreter} {m t : ObjectMemory} {p : Nat}

/-- A scanner with SmallIntegers for its numbers, apart from the form and its
bitmap. -/
structure ScannerApart (m : ObjectMemory) (form p : Nat) : Prop where
  hasField : HasField m p 16
  heap : (m.entry p).segment ≠ objectTableSegment
  integer : ∀ k : Int, 3 ≤ k → k ≤ 14 → isIntegerObject (m.wordAt p k)
  apart_form : m.Separate p form
  apart_bits : m.Separate (BitBlt.formBits m form) p

/-- The scanner under the six arguments on the stack. -/
def stackScanner (i : Interpreter) : Nat :=
  i.memory.chunkWord i.activeContext (headerSize + (i.stackPointer - 6).toNat)

/-- The clip rectangle of the scanner `p`. -/
def clipRect (m : ObjectMemory) (p : Nat) : Rect :=
  ⟨integerValueOf (m.wordAt p 10), integerValueOf (m.wordAt p 11),
    integerValueOf (m.wordAt p 12), integerValueOf (m.wordAt p 13)⟩

/-- `n` arguments have been popped. -/
structure Popped (i : Interpreter) (n : Int) (j : Interpreter) : Prop where
  memory : j.memory = i.memory
  activeContext : j.activeContext = i.activeContext
  stackPointer : j.stackPointer = i.stackPointer - n

theorem Popped.popStack {n : Int} (h : Popped i n j) :
    Wlp popStack (fun a k => a = j.stackTop ∧ Popped i (n + 1) k) j := by
  refine wlp_popStack ⟨rfl, h.memory, h.activeContext, ?_⟩
  have := h.stackPointer
  dsimp only
  omega

theorem Popped.popInteger {n : Int} (h : Popped i n j) :
    Wlp popInteger (fun _ k => Popped i (n + 1) k) j := by
  rw [Crosstalk.popInteger, wlp_bind]
  refine h.popStack.mono ?_
  rintro a k ⟨-, hk⟩
  rw [wlp_bind, success, wlp_modify, wlp_bind, wlp_get, wlp_ite, wlp_pure, wlp_pure]
  exact ⟨fun _ => ⟨hk.memory, hk.activeContext, hk.stackPointer⟩,
    fun _ => ⟨hk.memory, hk.activeContext, hk.stackPointer⟩⟩

theorem reads_drawingFields {displaying : Bool} (h : ∀ k : Int, 3 ≤ k → k ≤ 14 →
    isIntegerObject (m.wordAt p k)) :
    Reads m (drawingFields displaying p) (fun f => displaying = true → f.clip = clipRect m p) := by
  unfold drawingFields
  cases displaying with
  | false => exact Reads.pure nofun
  | true =>
      simp only [if_true]
      refine Reads.fetchInteger fun _ => ?_
      refine Reads.fetchSmallInteger (h 10 (by decide) (by decide)) ?_
      refine Reads.fetchSmallInteger (h 11 (by decide) (by decide)) ?_
      refine Reads.fetchSmallInteger (h 12 (by decide) (by decide)) ?_
      refine Reads.fetchSmallInteger (h 13 (by decide) (by decide)) ?_
      iterate 3 refine Reads.fetchInteger fun _ => ?_
      exact Reads.pure fun _ => rfl

/-- Stores of SmallIntegers into the scanner. -/
structure Stored (m : ObjectMemory) (p : Nat) (t : ObjectMemory) : Prop where
  onlyFields : OnlyFields p m t
  hasField : HasField t p 16
  integer : ∀ k : Int, 3 ≤ k → k ≤ 14 → isIntegerObject (t.wordAt p k)

theorem Stored.setChunkWord {k v : Int} (h : Stored m p t)
    (hp : (m.entry p).segment ≠ objectTableSegment) (h3 : 3 ≤ k) (h14 : k ≤ 14) :
    Stored m p (t.setChunkWord p (headerSize + k.toNat) (integerObjectOf v)) := by
  have hf := h.hasField
  have hlt := hf.lt_size
  have hin := hf.inside
  have hk : HasField t p k := ⟨hf.isEntry, by omega, by omega, by omega⟩
  have honly := onlyFields_of_hasField (v := integerObjectOf v) hk
  have hpt : (t.entry p).segment ≠ objectTableSegment := by
    rw [h.onlyFields.entry_eq hp]
    exact hp
  refine ⟨h.onlyFields.trans hp honly, ⟨hf.isEntry, by decide, ?_, ?_⟩, fun n hn hn' => ?_⟩
  · rw [honly.size_eq hpt]
    exact hlt
  · rw [honly.location_eq hpt]
    exact hin
  · rw [ObjectMemory.wordAt, ObjectMemory.chunkWord_setChunkWord hpt (integerObjectOf_lt v)]
    split
    · exact integerObjectOf_odd v
    · exact h.integer n hn hn'

theorem wp_storeInteger (hp : (m.entry p).segment ≠ objectTableSegment) {k v : Int}
    (h3 : 3 ≤ k) (h14 : k ≤ 14) (h : Stored m p i.memory) :
    Wp (storeIntegerOfObjectWithValue k p v) (fun _ i' => Stored m p i'.memory) i := by
  have hf := h.hasField
  have hlt := hf.lt_size
  have hin := hf.inside
  rw [storeIntegerOfObjectWithValue, wp_ite]
  refine ⟨fun _ => ?_, fun _ => ?_⟩
  · rw [wp_inMemory]
    exact wp_storePointer_integer ⟨hf.isEntry, by omega, by omega, by omega⟩
      (h.integer k h3 h14) (integerObjectOf_odd v) (integerObjectOf_lt v)
      (h.setChunkWord hp h3 h14)
  · rw [wp_bind, primitiveFail, wp_bind, wp_modify, wp_pure, wp_pure]
    exact h

theorem wp_storeScanner (hp : (m.entry p).segment ≠ objectTableSegment)
    (r : BitBlt.CharacterScanner) (h : Stored m p i.memory) :
    Wp (storeScanner p r) (fun _ i' => Stored m p i'.memory) i := by
  rw [storeScanner, wp_bind]
  refine (wp_storeInteger hp (by decide) (by decide) h).mono fun _ i₁ h₁ => ?_
  rw [wp_bind]
  refine (wp_storeInteger hp (by decide) (by decide) h₁).mono fun _ i₂ h₂ => ?_
  rw [wp_bind]
  refine (wp_storeInteger hp (by decide) (by decide) h₂).mono fun _ i₃ h₃ => ?_
  exact wp_storeInteger hp (by decide) (by decide) h₃

/-- Drawing leaves the scanner as it is. -/
theorem ScannerApart.stored {form : Nat} (h : ScannerApart m form p)
    (hform : BitBlt.FormApart m form) (ht : OnlyFields (BitBlt.formBits m form) m t) :
    Stored t p t := by
  have hf := h.hasField
  have hlt := hf.lt_size
  have hin := hf.inside
  have hkeep : ∀ k < m.chunkWord p 0, t.chunkWord p k = m.chunkWord p k := fun k hk =>
    ht.chunkWord_separate hform.heap h.apart_bits hk
  refine ⟨.refl _ _, ⟨hf.isEntry, by decide, ?_, ?_⟩, fun k h3 h14 => ?_⟩
  · rw [hkeep 0 (by omega)]
    exact hlt
  · rw [ht.location_eq hform.heap]
    exact hin
  · rw [ObjectMemory.wordAt, hkeep _ (by omega)]
    exact h.integer k h3 h14

/-- Drawing and then the stores leave the size of the form. -/
theorem ScannerApart.formKept {form : Nat} {u : ObjectMemory} (h : ScannerApart m form p)
    (hform : BitBlt.FormApart m form) (ht : OnlyFields (BitBlt.formBits m form) m t)
    (hu : Stored t p u) : FormKept form m u := by
  have hformt := hform.of_onlyFields ht
  have hlt := hformt.hasField.lt_size
  have hltm := hform.hasField.lt_size
  have hp : (t.entry p).segment ≠ objectTableSegment := by
    rw [ht.entry_eq hform.heap]
    exact h.heap
  have hseparate : t.Separate p form := by
    have hsize := h.hasField.lt_size
    intro hsegment
    rw [ht.entry_eq hform.heap, ht.entry_eq hform.heap] at hsegment
    rw [ht.location_eq hform.heap, ht.location_eq hform.heap,
      ht.size_separate hform.heap h.apart_bits (by omega),
      ht.size_separate hform.heap hform.separate (by omega)]
    exact h.apart_form hsegment
  have hkeep : ∀ k < t.chunkWord form 0, u.chunkWord form k = t.chunkWord form k :=
    fun k hk => hu.onlyFields.chunkWord_separate hp hseparate hk
  refine ⟨⟨hformt.hasField.isEntry, by decide, ?_, ?_⟩, fun k hk => ?_⟩
  · rw [hkeep 0 (by omega)]
    exact hlt
  · rw [hu.onlyFields.location_eq hp]
    exact hformt.hasField.inside
  · rw [← hform.wordAt_eq ht hk]
    exact hkeep _ (by omega)

/-- What the scan leaves, and the rectangle that it reports. -/
structure ScannedTo (i j : Interpreter) (e : ScanEnd) : Prop where
  destForm : e.destForm = i.memory.wordAt (stackScanner i) 0
  clip : e.displaying = true → e.clip = clipRect i.memory (stackScanner i)
  kept : FormKept e.destForm i.memory j.memory

theorem wlp_scanCharactersOfStack {form : Nat}
    (hdest : i.memory.wordAt (stackScanner i) 0 = form) (hform : BitBlt.FormApart i.memory form)
    (hp : ScannerApart i.memory form (stackScanner i)) :
    Wlp scanCharactersOfStack (fun r j => ∀ e, r = some e → ScannedTo i j e) i := by
  have hstart : Popped i 0 i := ⟨rfl, rfl, by omega⟩
  rw [scanCharactersOfStack, wlp_bind]
  refine hstart.popStack.mono ?_
  rintro a i₁ ⟨-, h₁⟩
  dsimp only
  generalize decide (a = truePointer) = displaying
  rw [wlp_bind]
  refine h₁.popStack.mono ?_
  rintro stops i₂ ⟨-, h₂⟩
  rw [wlp_bind]
  refine h₂.popInteger.mono fun rightX i₃ h₃ => ?_
  rw [wlp_bind]
  refine h₃.popStack.mono ?_
  rintro sourceString i₄ ⟨-, h₄⟩
  rw [wlp_bind]
  refine h₄.popInteger.mono fun stopIndex i₅ h₅ => ?_
  rw [wlp_bind]
  refine h₅.popInteger.mono fun startIndex i₆ h₆ => ?_
  rw [wlp_bind]
  refine h₆.popStack.mono ?_
  rintro p i₇ ⟨hscanner, h₇⟩
  have hscanner : p = stackScanner i := by
    rw [hscanner, Interpreter.stackTop, h₆.memory, h₆.activeContext, h₆.stackPointer, stackScanner]
    rfl
  rw [← hscanner] at hdest hp
  have hmemory := h₇.memory
  rw [wlp_bind]
  refine wlp_fetchPointer ?_
  rw [wlp_bind]
  refine wlp_fetchPointer ?_
  have hdest₇ : i₇.memory.chunkWord p (headerSize + (0 : Int).toNat) = form := by
    rw [hmemory]
    exact hdest
  rw [hdest₇]
  generalize i₇.memory.chunkWord p (headerSize + (1 : Int).toNat) = sourceForm
  rw [wlp_bind]
  refine (fetchInteger_memory _ _ _).mono fun destX i₈ h₈ => ?_
  rw [wlp_bind]
  refine wlp_fetchPointer ?_
  generalize i₈.memory.chunkWord p (headerSize + (15 : Int).toNat) = xTable
  rw [wlp_bind]
  refine (fetchInteger_memory _ _ _).mono fun lastIndex i₉ h₉ => ?_
  rw [wlp_bind]
  refine wlp_fetchPointer ?_
  generalize i₉.memory.chunkWord p (headerSize + (16 : Int).toNat) = stopConditions
  rw [wlp_bind]
  refine (reads_drawingFields hp.integer i₉ ((h₉.trans h₈).trans hmemory)).mono ?_
  rintro f k ⟨hk, hclip⟩
  rw [wlp_bind, wlp_get, wlp_ite]
  refine ⟨fun _ => ?_, fun _ => ?_⟩
  · rw [wlp_bind]
    refine wlp_fetchPointer ?_
    generalize k.memory.chunkWord p (headerSize + (2 : Int).toNat) = halftoneForm
    rw [wlp_bind, wlp_inMemory]
    refine BitBlt.wlp_new.mono ?_
    rintro b u ⟨hu, hb, -, -⟩
    have hb : b.destForm = form := hb
    have hu : u = i.memory := hu.trans hk
    have hscan : ∀ q, Wlp (BitBlt.scanCharacters q ⟨b, xTable, lastIndex, stopConditions⟩)
        (fun _ t => OnlyFields (BitBlt.formBits i.memory form) i.memory t) i.memory := by
      intro q
      rw [← hb] at hform ⊢
      exact BitBlt.scanCharacters_onlyFields hform
    rw [wlp_bind, wlp_inMemory, hu]
    refine (hscan _).mono ?_
    rintro ⟨result, r⟩ t ht
    have hheap : (t.entry p).segment ≠ objectTableSegment := by
      rw [ht.entry_eq hform.heap]
      exact hp.heap
    dsimp only
    rw [wlp_bind]
    refine (wp_storeScanner (m := t) hheap r ?_).toWlp.mono fun _ l hl => ?_
    · exact hp.stored hform ht
    · rw [wlp_pure]
      intro e he
      cases he
      refine ⟨?_, fun hd => ?_, hp.formKept hform ht hl⟩
      · rw [← hscanner]
        exact hdest.symm
      · rw [← hscanner]
        exact hclip hd
  · rw [wlp_bind, unPop, wlp_modify, wlp_pure]
    exact fun e he => absurd he.symm (Option.some_ne_none e)

variable {s : Workstation}

/-- The scanner on the stack draws on the display. -/
structure ScansDisplay (s : Workstation) : Prop where
  destForm : s.interpreter.memory.wordAt (stackScanner s.interpreter) 0 = s.display.currentDisplay
  scanner : ScannerApart s.interpreter.memory s.display.currentDisplay
    (stackScanner s.interpreter)

/-- The scan ends, and was to display. -/
def ComesToDisplay (s : Workstation) : Prop :=
  ∃ e j, scanCharactersOfStack s.interpreter = some (some e, j) ∧ e.displaying = true

/-- The clip rectangle of the scanner on the stack. -/
def stackClip (s : Workstation) : Rect :=
  clipRect s.interpreter.memory (stackScanner s.interpreter)

theorem reportsInside_scanArea (hs : Synced s) (hd : HasDisplay s) (hscan : ScansDisplay s)
    {e : ScanEnd} (he : ScannedTo s.interpreter j e) (hdisplaying : e.displaying = true) :
    ReportsInside (scanArea e) { s with interpreter := j } ↔ SafeToReport s (stackClip s) := by
  have hform : e.destForm = s.display.currentDisplay := he.destForm.trans hscan.destForm
  have hkept := he.kept
  rw [hform] at hkept
  rw [ReportsInside, scanArea, wlp_bind, wlp_get, if_pos ⟨hform, hdisplaying⟩, stackClip,
    ← he.clip hdisplaying, ← safeToReport_kept hkept]
  exact reportsInside_updateArea (s := { s with interpreter := j }) hs (hd.hasSize hkept)

theorem reportsInside_scanCharactersArea (hs : Synced s) (hd : HasDisplay s)
    (hscan : ScansDisplay s) :
    ReportsInside scanCharactersArea s ↔ (ComesToDisplay s → SafeToReport s (stackClip s)) := by
  have hends := wlp_scanCharactersOfStack hscan.destForm hd.apart hscan.scanner
  rw [ReportsInside, scanCharactersArea, wlp_bind, wlp_inInterpreter]
  constructor
  · rintro h ⟨e, j, hrun, hdisplaying⟩
    exact (reportsInside_scanArea hs hd hscan (hends _ _ hrun e rfl) hdisplaying).1 (h _ _ hrun)
  · intro h r j hrun
    cases r with
    | none => exact reportsInside_none _
    | some e =>
        have he := hends _ _ hrun e rfl
        by_cases hdisplaying : e.displaying = true
        · exact (reportsInside_scanArea hs hd hscan he hdisplaying).2 (h ⟨e, j, hrun, hdisplaying⟩)
        · dsimp only
          rw [scanArea, wlp_bind, wlp_get, if_neg fun hand => hdisplaying hand.2]
          exact reportsInside_none _

/-- Whatever is copied or scanned onto the display, the report lies inside it. -/
def ReportsStayInside (s : Workstation) : Prop :=
  ReportsInside copyBitsArea s ∧ (ScansDisplay s → ReportsInside scanCharactersArea s)

/-- A copy reports what it has clipped; a scan reports the clip rectangle as it
was set, which has to lie inside the display then. -/
theorem reportsStayInside_iff (h : Reachable s) (hd : HasDisplay s) :
    ReportsStayInside s ↔
      (ScansDisplay s → ComesToDisplay s → SafeToReport s (stackClip s)) := by
  rw [ReportsStayInside, and_iff_right (reportsInside_copyBitsArea h.synced hd)]
  exact forall_congr' fun hscan => reportsInside_scanCharactersArea h.synced hd hscan

end Scan

/-! ## A clip rectangle wider than the display -/

/-- A display form of 16 by 101 pixels with its bitmap, a scanner with a clip
rectangle of the width given, a table of stops, and a context with the arguments
of a scan of no characters; above them is the form. -/
def clipMemory (clipWidth : Int) : ObjectMemory :=
  ((((ObjectMemory.blank.place 60 256 100
    [5, 0, 62, integerObjectOf 16, integerObjectOf 101]).place 62 256 200 [103, 0]).place
    64 256 400 [19, 0, 60, nilPointer, nilPointer, 7, 1, 1, 1, 1, 1, 1, 1, 1,
      integerObjectOf clipWidth, integerObjectOf 101, 1, nilPointer, nilPointer]).place
    66 256 1000 [260, 0]).place 68 256 2000 [10, 0, 64, 3, 1, nilPointer, 1, 66, truePointer, 60]

/-- The stack goes up to the field `k` of the context. -/
def clipCall (clipWidth k : Int) : Interpreter :=
  { crowdState with
    host := { crowdState.host with memory := clipMemory clipWidth }
    activeContext := 68
    stackPointer := k }

/-- The display has the size of the form. -/
def clipStation (clipWidth : Int) : Workstation :=
  ⟨clipCall clipWidth 6, { sized with
    currentDisplayWidth := 16, currentDisplayHeight := 101, displayWidth := 16
    displayHeight := 101 }⟩

theorem hasDisplay_clipStation {w : Int} (hw : w = 16 ∨ w = 17) : HasDisplay (clipStation w) := by
  rcases hw with rfl | rfl
  all_goals
    exact ⟨⟨⟨by decide, by decide, by decide, by decide⟩, by decide, fun _ => by decide⟩,
      by decide, by decide⟩

theorem reachable_clipStation {w : Int} (hw : w = 16 ∨ w = 17) : Reachable (clipStation w) := by
  have hstart : Reachable ⟨clipCall w 7, { blackScreen with currentDisplay := 0 }⟩ :=
    .start _ _ rfl rfl rfl rfl rfl
  have htop : stackTop (clipCall w 7) = some (60, clipCall w 7) := by
    rcases hw with rfl | rfl <;> rfl
  have hsize := hasDisplay_clipStation hw
  have hheight : HasField (clipCall w 7).memory 60 heightInForm := hsize.apart.hasField
  have hints : isIntegerObject ((clipCall w 7).memory.wordAt 60 widthInForm) ∧
      isIntegerObject ((clipCall w 7).memory.wordAt 60 heightInForm) :=
    ⟨hsize.width, hsize.height⟩
  have hw₁ : formWidth (clipMemory w) 60 = 16 := by rcases hw with rfl | rfl <;> decide
  have hh₁ : formHeight (clipMemory w) 60 = 101 := by rcases hw with rfl | rfl <;> decide
  have hwidth : HasField (clipCall w 7).memory 60 widthInForm := by
    rcases hw with rfl | rfl <;> exact ⟨by decide, by decide, by decide, by decide⟩
  have hrun : Wp primitiveBeDisplay (fun _ t => SameSizes t.display (clipStation w).display)
      ⟨clipCall w 7, { blackScreen with currentDisplay := 0 }⟩ := by
    rw [primitiveBeDisplay, wp_bind, wp_inInterpreter, wp_of_run htop, wp_bind, wp_get]
    dsimp only
    rw [if_pos (by decide), wp_bind, wp_inInterpreter, wp_fetchSize hwidth hints.1, wp_bind,
      wp_inInterpreter, wp_fetchSize hheight hints.2]
    have hw₂ : integerValueOf ((clipCall w 7).memory.wordAt 60 widthInForm) = 16 := hw₁
    have hh₂ : integerValueOf ((clipCall w 7).memory.wordAt 60 heightInForm) = 101 := hh₁
    rw [hw₂, hh₂, if_pos (by decide), wp_bind, wp_onDisplay]
    refine wp_setDisplaySize.mono fun _ d hd => ?_
    rw [wp_modify]
    exact ⟨rfl, hd.1.symm, hd.2.1.symm, rfl, rfl⟩
  obtain ⟨⟨⟩, t, hbe, hsame⟩ := hrun
  exact ((hstart.beDisplay hbe).interpreter (clipCall w 6)).frame _ hsame

theorem scansDisplay_clipStation {w : Int} (hw : w = 16 ∨ w = 17) :
    ScansDisplay (clipStation w) := by
  rcases hw with rfl | rfl
  all_goals
    refine ⟨by decide, ⟨⟨by decide, by decide, by decide, by decide⟩, by decide, ?_,
      fun _ => by decide, fun _ => by decide⟩⟩
    intro k h3 h14
    interval_cases k <;> decide

theorem wp_new_nil {b : BitBlt} {m : ObjectMemory} (hs : b.sourceForm = nilPointer)
    (h₁ : HasField m b.destForm 1) (h₂ : HasField m b.destForm 2) :
    Wp (BitBlt.new b) (fun a t => t = m ∧ a.destForm = b.destForm) m := by
  rw [BitBlt.new, wp_bind, BitBlt.sourceFormSize, if_neg (not_not.2 hs), wp_pure]
  dsimp only
  rw [wp_bind, BitBlt.formSize, wp_bind, wp_fetchWordOfObject]
  refine ⟨h₁, ?_⟩
  rw [wp_bind, wp_fetchWordOfObject]
  refine ⟨h₂, ?_⟩
  rw [wp_pure]
  dsimp only
  rw [wp_pure]
  exact ⟨rfl, rfl⟩

/-- A scan of no characters draws nothing. -/
theorem wp_scanCharacters_nothing {q : BitBlt.ScanCall} {r : BitBlt.CharacterScanner}
    {m : ObjectMemory} (hempty : ¬q.startIndex ≤ q.stopIndex) (hf : HasField m q.stops 256) :
    Wp (BitBlt.scanCharacters q r) (fun _ t => t = m) m := by
  rw [BitBlt.scanCharacters]
  refine wp_iterate_of_round ?_
  rw [BitBlt.scanCharacter, if_neg hempty, wp_bind, fetchPointerOfObject_eq, wp_fetchWordOfObject]
  refine ⟨hf, ?_⟩
  rw [wp_pure]
  rfl

/-- A scan of no characters comes to the display. -/
theorem comesToDisplay_clipStation : ComesToDisplay (clipStation 17) := by
  have hscanner := (scansDisplay_clipStation (w := 17) (.inr rfl)).scanner
  obtain ⟨c, hc⟩ : ∃ c, c = clipCall 17 (-1) := ⟨_, rfl⟩
  have hmemory : c.memory = clipMemory 17 := by rw [hc]; rfl
  have hf : HasField c.memory 64 16 := by rw [hmemory]; exact hscanner.hasField
  have hints (k : Int) (h3 : 3 ≤ k) (h14 : k ≤ 14) : isIntegerObject (c.memory.wordAt 64 k) := by
    rw [hmemory]
    exact hscanner.integer k h3 h14
  have hfield (k : Int) (h0 : 0 ≤ k) (hk : k ≤ 16) : HasField c.memory 64 k := by
    have hlt := hf.lt_size
    have hin := hf.inside
    exact ⟨hf.isEntry, h0, by omega, by omega⟩
  have hpointer (k : Int) (h0 : 0 ≤ k) (hk : k ≤ 16) :
      inMemory (fetchPointerOfObject k 64) c = some (c.memory.wordAt 64 k, c) := by
    refine Wp.run_eq ?_
    rw [wp_inMemory, fetchPointerOfObject_eq, wp_fetchWordOfObject]
    exact ⟨hfield k h0 hk, rfl, rfl⟩
  have hinteger (k : Int) (h3 : 3 ≤ k) (h14 : k ≤ 14) :
      fetchIntegerOfObject k 64 c = some (integerValueOf (c.memory.wordAt 64 k), c) :=
    Wp.run_eq ((wp_fetchSize (hfield k (by omega) (by omega)) (hints k h3 h14)).2 ⟨rfl, rfl⟩)
  have hdraw : Wp (drawingFields true 64) (fun _ t => t = c) c := by
    simp only [drawingFields, if_true, wp_bind, wp_of_run (hinteger 5 (by decide) (by decide)),
      wp_of_run (hinteger 10 (by decide) (by decide)),
      wp_of_run (hinteger 11 (by decide) (by decide)),
      wp_of_run (hinteger 12 (by decide) (by decide)),
      wp_of_run (hinteger 13 (by decide) (by decide)),
      wp_of_run (hinteger 9 (by decide) (by decide)),
      wp_of_run (hinteger 3 (by decide) (by decide)),
      wp_of_run (hinteger 7 (by decide) (by decide)), wp_pure]
  have hd := hasDisplay_clipStation (w := 17) (.inr rfl)
  have hflag : c.successFlag = true := by rw [hc]; rfl
  have hdest : c.memory.wordAt 64 0 = 60 := by rw [hmemory]; decide
  have hsource : c.memory.wordAt 64 1 = nilPointer := by rw [hmemory]; decide
  have hsize : HasField c.memory 60 1 ∧ HasField c.memory 60 2 := by
    rw [hmemory]
    exact ⟨⟨by decide, by decide, by decide, by decide⟩, hd.apart.hasField⟩
  have h₁ : popStack (clipCall 17 6) = some (truePointer, clipCall 17 5) := rfl
  have h₂ : popStack (clipCall 17 5) = some (66, clipCall 17 4) := rfl
  have h₃ : popInteger (clipCall 17 4) = some (integerValueOf 1, clipCall 17 3) := rfl
  have h₄ : popStack (clipCall 17 3) = some (nilPointer, clipCall 17 2) := rfl
  have h₅ : popInteger (clipCall 17 2) = some (integerValueOf 1, clipCall 17 1) := rfl
  have h₆ : popInteger (clipCall 17 1) = some (integerValueOf 3, clipCall 17 0) := rfl
  have h₇ : popStack (clipCall 17 0) = some (64, c) := by rw [hc]; rfl
  have hwp : Wp scanCharactersOfStack (fun r _ => ∃ e, r = some e ∧ e.displaying = true)
      (clipCall 17 6) := by
    rw [scanCharactersOfStack, wp_bind, wp_of_run h₁]
    dsimp only
    rw [decide_eq_true rfl, wp_bind, wp_of_run h₂, wp_bind, wp_of_run h₃, wp_bind, wp_of_run h₄,
      wp_bind, wp_of_run h₅, wp_bind, wp_of_run h₆, wp_bind, wp_of_run h₇, wp_bind,
      wp_of_run (hpointer 0 (by decide) (by decide)), wp_bind,
      wp_of_run (hpointer 1 (by decide) (by decide)), wp_bind,
      wp_of_run (hinteger 4 (by decide) (by decide)), wp_bind,
      wp_of_run (hpointer 15 (by decide) (by decide)), wp_bind,
      wp_of_run (hinteger 14 (by decide) (by decide)), wp_bind,
      wp_of_run (hpointer 16 (by decide) (by decide)), wp_bind]
    refine hdraw.mono fun f t ht => ?_
    rw [ht, wp_bind, wp_get, if_pos hflag, wp_bind,
      wp_of_run (hpointer 2 (by decide) (by decide)), wp_bind, wp_inMemory, hdest, hsource]
    refine (wp_new_nil rfl hsize.1 hsize.2).mono ?_
    rintro b u ⟨hu, -⟩
    have hu : u = clipMemory 17 := hu.trans hmemory
    rw [wp_bind, wp_inMemory]
    have hstops : HasField u 66 256 := by
      rw [hu]
      exact ⟨by decide, by decide, by decide, by decide⟩
    refine (wp_scanCharacters_nothing (by decide) hstops).mono ?_
    rintro ⟨result, r⟩ v hv
    have hv : v = clipMemory 17 := Eq.trans hv hu
    dsimp only
    rw [wp_bind]
    refine (wp_storeScanner (m := clipMemory 17) hscanner.heap r ?_).mono fun _ _ _ => ?_
    · have hstored : Stored (clipMemory 17) 64 (clipMemory 17) :=
        hscanner.stored hd.apart (.refl _ _)
      rw [← hv] at hstored ⊢
      exact hstored
    · rw [wp_pure]
      exact ⟨_, rfl, rfl⟩
  obtain ⟨r, j, hrun, e, rfl, he⟩ := hwp
  exact ⟨e, j, hrun, he⟩

theorem reportsStayInside_clipStation : ReportsStayInside (clipStation 16) :=
  (reportsStayInside_iff (reachable_clipStation (.inl rfl))
    (hasDisplay_clipStation (.inl rfl))).2 fun _ _ => .inr (.inr (by decide))

theorem not_reportsStayInside_clipStation :
    Reachable (clipStation 17) ∧ HasDisplay (clipStation 17) ∧ ScansDisplay (clipStation 17) ∧
      ¬ReportsStayInside (clipStation 17) := by
  have hreachable := reachable_clipStation (w := 17) (.inr rfl)
  have hd := hasDisplay_clipStation (w := 17) (.inr rfl)
  have hscan := scansDisplay_clipStation (w := 17) (.inr rfl)
  refine ⟨hreachable, hd, hscan, fun h => ?_⟩
  have hsafe := (reportsInside_scanCharactersArea hreachable.synced hd hscan).1 (h.2 hscan)
    comesToDisplay_clipStation
  exact absurd hsafe (by unfold SafeToReport TooLow; decide)

end Display

end Crosstalk
