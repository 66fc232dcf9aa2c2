import Crosstalk.BitBlt.CharacterScanner
import Crosstalk.Lib.Keeps

/-!
# What drawing leaves

Whatever the forms and the numbers are, a copy that ends has stored into the
bitmap of its destination only.
-/

namespace Crosstalk

open ObjectMemory

/-! ## Fetches and stores -/

section Memory

variable {R : ObjectMemory → Prop} {m t : ObjectMemory} {p q v : Nat} {k : Int}

theorem wlp_fetchWordOfObject {Q : Nat → ObjectMemory → Prop}
    (h : HasField m p k → Q (m.wordAt p k) m) : Wlp (fetchWordOfObject k p) Q m := by
  intro a t hrun
  have hw : Wp (fetchWordOfObject k p) (fun a' t' => a' = a ∧ t' = t) m :=
    ⟨a, t, hrun, rfl, rfl⟩
  rw [wp_fetchWordOfObject] at hw
  obtain ⟨hf, rfl, rfl⟩ := hw
  exact h hf

theorem leavesMemory_fetchWord : LeavesMemory (fetchWordOfObject k p) := fun _ =>
  wlp_fetchWordOfObject fun _ => rfl

theorem keeps_fetchWordOfObject : Keeps R (fetchWordOfObject k p) := fun _ h =>
  wlp_fetchWordOfObject fun _ => h

theorem onlyFields_of_hasField (hf : HasField m p k) :
    OnlyFields p m (m.setChunkWord p (headerSize + k.toNat) v) := by
  have h0 := hf.nonneg
  have hlt := hf.lt_size
  refine ⟨fun s w hw => ?_, rfl, rfl, rfl⟩
  rw [setChunkWord, word_setWord, if_neg]
  rintro ⟨rfl, rfl⟩
  exact hw ⟨rfl, by omega, by omega⟩

/-- A store into `p` changes fields of `p` only. -/
theorem keeps_storeWordOfObject (hp : (m.entry p).segment ≠ objectTableSegment) :
    Keeps (OnlyFields p m) (storeWordOfObjectWithValue k p v) := by
  intro t ht a t' hrun
  have hw : Wp (storeWordOfObjectWithValue k p v) (fun _ u => u = t') t := ⟨a, t', hrun, rfl⟩
  rw [wp_storeWordOfObjectWithValue] at hw
  obtain ⟨⟨hf, -⟩, rfl⟩ := hw
  exact ht.trans hp (onlyFields_of_hasField hf)

end Memory

namespace BitBlt

variable {R : ObjectMemory → Prop} {m t : ObjectMemory} {b e : BitBlt} {c : Shifter} {p : Nat}

/-! ## The loop -/

theorem keeps_shiftSource {word : Nat} : Keeps R (shiftSource b word c) := by
  intro s h
  unfold shiftSource
  by_cases hf : (word : Int) ≤ b.sourceRaster ∧ c.sourceIndex ≥ 0 ∧
      c.sourceIndex < b.sourceBitsWordLength
  · simp only [hf, and_self, if_true, wlp_bind, wlp_pure]
    exact wlp_fetchWordOfObject fun _ => h
  · simpa only [hf, if_false, wlp_pure] using h

theorem keeps_mergeWith {rule : Int} {x y : Nat} : Keeps R (mergeWith rule x y) := by
  unfold mergeWith
  split
  all_goals first
    | exact Keeps.pure _
    | exact (Keeps.check _).bind fun _ => Keeps.pure _

theorem keeps_mergeIntoDest {halftoneWord word : Nat}
    (hp : (m.entry b.destBits).segment ≠ objectTableSegment) :
    Keeps (OnlyFields b.destBits m) (mergeIntoDest b halftoneWord word c) :=
  Keeps.ite (Keeps.pure _) <|
    keeps_fetchWordOfObject.bind fun _ => keeps_mergeWith.bind fun _ =>
      (keeps_storeWordOfObject hp).bind fun _ => Keeps.pure _

theorem keeps_copyWord {halftoneWord word : Nat}
    (hp : (m.entry b.destBits).segment ≠ objectTableSegment) :
    Keeps (OnlyFields b.destBits m) (copyWord b halftoneWord word c) := by
  unfold copyWord
  split
  · exact keeps_shiftSource.bind fun _ => keeps_mergeIntoDest hp
  · exact keeps_mergeIntoDest hp

theorem keeps_startLine : Keeps R (startLine b c) :=
  (Keeps.ite keeps_fetchWordOfObject (Keeps.pure _)).bind fun _ =>
    (Keeps.ite keeps_fetchWordOfObject (Keeps.pure _)).bind fun _ => Keeps.pure _

theorem keeps_copyRow (hp : (m.entry b.destBits).segment ≠ objectTableSegment) :
    Keeps (OnlyFields b.destBits m) (copyRow b c) := by
  refine keeps_startLine.bind fun _ =>
    (Keeps.foldN (fun _ _ => keeps_copyWord hp) _ _).bind fun r => ?_
  cases r with
  | none => exact Keeps.pure _
  | some _ => exact Keeps.pure _

theorem keeps_copyLoop (hp : (m.entry b.destBits).segment ≠ objectTableSegment) :
    Keeps (OnlyFields b.destBits m) (copyLoop b) :=
  (Keeps.foldN (fun _ _ => keeps_copyRow hp) _ _).bind fun _ => Keeps.pure _

/-! ## The copy -/

/-- The bitmap of a form. -/
abbrev formBits (m : ObjectMemory) (form : Nat) : Nat := m.wordAt form bitsInForm

theorem wlp_findBits : Wlp (findBits b) (fun a t =>
    t = m ∧ a.destBits = formBits m b.destForm ∧ a.destForm = b.destForm) m := by
  have hhalf : ∀ a : BitBlt, Wlp (findHalftoneBits a) (fun a' t =>
      t = m ∧ a'.destBits = a.destBits ∧ a'.destForm = a.destForm) m := by
    intro a
    unfold findHalftoneBits
    split
    · rw [wlp_bind]
      refine wlp_fetchWordOfObject fun _ => ?_
      rw [wlp_pure]
      exact ⟨rfl, rfl, rfl⟩
    · rw [wlp_pure]
      exact ⟨rfl, rfl, rfl⟩
  have hsource : ∀ a : BitBlt, Wlp (findSourceBits a) (fun a' t =>
      t = m ∧ a'.destBits = a.destBits ∧ a'.destForm = a.destForm) m := by
    intro a
    unfold findSourceBits
    split
    · rw [wlp_bind]
      refine wlp_fetchWordOfObject fun _ => ?_
      rw [wlp_bind, wlp_fetchWordLengthOf]
      intro _ _
      rw [wlp_pure]
      exact ⟨rfl, rfl, rfl⟩
    · rw [wlp_pure]
      exact ⟨rfl, rfl, rfl⟩
  rw [findBits, wlp_bind]
  refine wlp_fetchWordOfObject fun _ => ?_
  rw [wlp_bind, wlp_fetchWordLengthOf]
  intro _ _
  rw [wlp_bind]
  refine (hsource _).mono ?_
  rintro a _ ⟨rfl, hbits, hform⟩
  refine (hhalf a).mono ?_
  rintro a' _ ⟨rfl, hbits', hform'⟩
  exact ⟨rfl, hbits'.trans hbits, hform'.trans hform⟩

theorem copyMasked_onlyFields (hp : (m.entry b.destBits).segment ≠ objectTableSegment) :
    Wlp (copyMasked b) (fun _ t => OnlyFields b.destBits m t) m := by
  rw [copyMasked, wlp_ite, wlp_ite]
  refine ⟨fun _ => ?_, fun _ => ⟨fun _ => ?_, fun _ => ?_⟩⟩
  · exact (wlp_pure ..).2 (.refl _ _)
  · exact (wlp_pure ..).2 (.refl _ _)
  · have hloop : ∀ a : BitBlt, a.destBits = b.destBits →
        Wlp (do copyLoop a; return (true, a)) (fun _ t => OnlyFields b.destBits m t) m := by
      intro a hbits
      rw [← hbits] at hp ⊢
      rw [wlp_bind]
      refine (keeps_copyLoop hp _ (.refl _ _)).mono fun _ t ht => ?_
      rw [wlp_pure]
      exact ht
    obtain ⟨hDir, vDir, sx, sy, dx, dy, skewMask, mask1, mask2, hover⟩ := exists_setUp b
    rw [hover]
    exact hloop _ rfl

/-- A copy changes the bitmap of its destination only. -/
theorem copyBits_onlyFields
    (hp : (m.entry (formBits m b.destForm)).segment ≠ objectTableSegment) :
    Wlp (copyBits b) (fun _ t => OnlyFields (formBits m b.destForm) m t) m := by
  rw [copyBits, wlp_ite]
  refine ⟨fun _ => ?_, fun _ => ?_⟩
  · rw [wlp_bind, computeMasks, wlp_bind]
    refine wlp_findBits.mono ?_
    rintro a t ⟨rfl, hbits, -⟩
    have hbits : (edgeMasks a).destBits = formBits t b.destForm := hbits
    rw [wlp_pure, ← hbits]
    exact copyMasked_onlyFields (hbits ▸ hp)
  · exact (wlp_pure ..).2 (.refl _ _)

/-- Every copy keeps its destination. -/
theorem copyBits_destForm : Wlp (copyBits b) (fun r _ => r.2.destForm = b.destForm) m := by
  rw [copyBits, wlp_ite]
  refine ⟨fun _ => ?_, fun _ => (wlp_pure ..).2 rfl⟩
  rw [wlp_bind, computeMasks, wlp_bind]
  refine wlp_findBits.mono ?_
  rintro a t ⟨-, -, hform⟩
  have hform : (edgeMasks a).destForm = b.destForm := hform
  rw [wlp_pure, copyMasked, wlp_ite, wlp_ite]
  refine ⟨fun _ => (wlp_pure ..).2 hform, fun _ => ⟨fun _ => (wlp_pure ..).2 hform, fun _ => ?_⟩⟩
  obtain ⟨hDir, vDir, sx, sy, dx, dy, skewMask, mask1, mask2, hover⟩ := exists_setUp (edgeMasks a)
  rw [hover, wlp_bind]
  exact fun _ _ _ => (wlp_pure ..).2 hform

/-- The constructor reads the size of the destination. -/
theorem wlp_new : Wlp (new b) (fun a t => t = m ∧ a.destForm = b.destForm ∧
    a.destFormWidth = integerValueOf (m.wordAt b.destForm 1) ∧
    a.destFormHeight = integerValueOf (m.wordAt b.destForm 2)) m := by
  have hsize : ∀ form, Wlp (formSize form) (fun r t => t = m ∧
      r.1 = integerValueOf (m.wordAt form 1) ∧ r.2 = integerValueOf (m.wordAt form 2)) m := by
    intro form
    rw [formSize, wlp_bind]
    refine wlp_fetchWordOfObject fun _ => ?_
    rw [wlp_bind]
    refine wlp_fetchWordOfObject fun _ => ?_
    rw [wlp_pure]
    dsimp only
    exact ⟨rfl, rfl, rfl⟩
  have hsource : Wlp (sourceFormSize b) (fun _ t => t = m) m := by
    rw [sourceFormSize, wlp_ite]
    refine ⟨fun _ => (hsize _).mono fun _ _ h => h.1, fun _ => (wlp_pure ..).2 rfl⟩
  rw [new, wlp_bind]
  refine hsource.mono ?_
  rintro ⟨w, h⟩ _ rfl
  rw [wlp_bind]
  refine (hsize _).mono ?_
  rintro ⟨w', h'⟩ _ ⟨rfl, hw, hh⟩
  rw [wlp_pure]
  exact ⟨rfl, rfl, hw, hh⟩

/-! ## Forms that are drawn into -/

/-- A form with its size, and its bitmap elsewhere in the heap. -/
structure FormApart (m : ObjectMemory) (form : Nat) : Prop where
  hasField : HasField m form 2
  heap : (m.entry (formBits m form)).segment ≠ objectTableSegment
  separate : m.Separate (formBits m form) form

theorem FormApart.wordAt_eq {form : Nat} {k : Int} (h : FormApart m form)
    (ht : OnlyFields (formBits m form) m t) (hk : k ≤ 2) :
    t.wordAt form k = m.wordAt form k := by
  have hlt := h.hasField.lt_size
  exact ht.chunkWord_separate h.heap h.separate (by omega)

theorem FormApart.of_onlyFields {form : Nat} (h : FormApart m form)
    (ht : OnlyFields (formBits m form) m t) : FormApart t form := by
  have hlt := h.hasField.lt_size
  have hinside := h.hasField.inside
  have hbits : formBits t form = formBits m form := h.wordAt_eq ht (by decide)
  have hsize : t.chunkWord form 0 = m.chunkWord form 0 :=
    ht.size_separate h.heap h.separate (by omega)
  refine ⟨⟨h.hasField.isEntry, by decide, ?_, ?_⟩, ?_, ?_⟩
  · rw [hsize]
    exact hlt
  · rw [ht.location_eq h.heap]
    exact hinside
  · rw [hbits, ht.entry_eq h.heap]
    exact h.heap
  · rw [hbits]
    exact ht.separate h.heap h.separate (by omega)

/-- The members of a scanner between two glyphs, with what has been drawn. -/
def StillApart (m : ObjectMemory) (form : Nat) (r : CharacterScanner) (t : ObjectMemory) : Prop :=
  OnlyFields (formBits m form) m t ∧ r.bitBlt.destForm = form

theorem displayGlyph_onlyFields {form : Nat} {displaying : Bool} (h : FormApart m form)
    (ht : OnlyFields (formBits m form) m t) (hb : b.destForm = form) :
    Wlp (displayGlyph displaying b) (fun r u =>
      OnlyFields (formBits m form) m u ∧ r.destForm = form) t := by
  have hbits : formBits t form = formBits m form := h.wordAt_eq ht (by decide)
  rw [displayGlyph, wlp_ite]
  refine ⟨fun _ => ?_, fun _ => (wlp_pure ..).2 ⟨ht, hb⟩⟩
  rw [drawGlyph, wlp_bind]
  have hheap : (t.entry (formBits t b.destForm)).segment ≠ objectTableSegment :=
    hb ▸ (h.of_onlyFields ht).heap
  refine (Wlp.and (copyBits_onlyFields hheap) copyBits_destForm).mono ?_
  rintro r u ⟨hu, hdest⟩
  rw [hb, hbits] at hu
  exact (wlp_pure ..).2 ⟨ht.trans h.heap hu, hdest.trans hb⟩

theorem leavesMemory_fetchByteAt {byteIndex : Int} {p : Nat} :
    LeavesMemory (fetchByteAt byteIndex p) :=
  .bind (fun _ => wlp_segmentBitsOf.mpr fun _ => rfl) fun _ =>
    .bind (fun _ => wlp_locationBitsOf.mpr fun _ => rfl) fun _ =>
    .bind .check fun _ => .bind .check fun _ => .segmentWordByte

theorem stillApart_scanCharacter {form : Nat} {q : ScanCall} {r : CharacterScanner}
    (h : FormApart m form) (hr : StillApart m form r t) :
    Wlp (scanCharacter q r) (LoopPost (StillApart m form)
      fun a u => StillApart m form a.2 u) t := by
  obtain ⟨ht, hform⟩ := hr
  rw [scanCharacter, wlp_ite]
  refine ⟨fun _ => ?_, fun _ => ?_⟩
  · rw [wlp_bind]
    refine (leavesMemory_fetchByteAt t).mono ?_
    rintro ascii _ rfl
    rw [wlp_bind]
    refine wlp_fetchWordOfObject fun _ => ?_
    rw [wlp_ite]
    refine ⟨fun _ => ?_, fun _ => ?_⟩
    · rw [wlp_bind]
      exact wlp_fetchWordOfObject fun _ => (wlp_pure ..).2 ⟨ht, hform⟩
    · rw [wlp_bind]
      refine (leavesMemory_fetchWord _).mono ?_
      rintro word _ rfl
      generalize integerValueOf word = sourceX
      rw [wlp_bind]
      refine (leavesMemory_fetchWord _).mono ?_
      rintro word' _ rfl
      generalize integerValueOf word' = nextX
      obtain ⟨b, hb, hbform⟩ : ∃ b : BitBlt,
          b = { r.bitBlt with sourceX, width := nextX - sourceX } ∧ b.destForm = form :=
        ⟨_, rfl, hform⟩
      dsimp only
      rw [wlp_ite, ← hb]
      refine ⟨fun _ => ?_, fun _ => ?_⟩
      · rw [wlp_bind]
        exact wlp_fetchWordOfObject fun _ => (wlp_pure ..).2 ⟨ht, hbform⟩
      · rw [wlp_bind]
        refine (displayGlyph_onlyFields h ht hbform).mono fun b' u hu => ?_
        exact (wlp_pure ..).2 hu
  · rw [wlp_bind]
    exact wlp_fetchWordOfObject fun _ => (wlp_pure ..).2 ⟨ht, hform⟩

/-- A scan changes the bitmap of the form only. -/
theorem scanCharacters_onlyFields {q : ScanCall} {r : CharacterScanner}
    (h : FormApart m r.bitBlt.destForm) : Wlp (scanCharacters q r) (fun _ t =>
      OnlyFields (formBits m r.bitBlt.destForm) m t) m := by
  rw [scanCharacters]
  refine (wlp_iterate (StillApart m r.bitBlt.destForm)
    (fun _ _ hr => stillApart_scanCharacter h hr) ?_).mono fun _ _ hu => hu.1
  exact ⟨.refl _ _, rfl⟩

end BitBlt

end Crosstalk
