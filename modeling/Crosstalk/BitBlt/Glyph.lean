import Crosstalk.BitBlt.Bounds

/-!
# Drawing as a step of a longer run

A copy into a form ends, whatever its numbers are, and changes nothing but the
bitmap of the destination: the indices stay inside the bitmaps. Only a
combination rule that is none of the 16 halts it, at the first word.
-/

namespace Crosstalk

/-- A loop with a first round does that round. -/
theorem wp_first_of_foldN {σ α : Type} {body : Nat → α → StateT σ Option (Option α)} {a : α}
    {s : σ} : ∀ {n : Nat} {Q : Option α → σ → Prop}, Wp (foldN (n + 1) body a) Q s →
      Wp (body 0 a) (fun _ _ => True) s
  | 0, _, h => by
      rw [foldN, foldN, wp_bind, wp_pure] at h
      exact h.mono fun _ _ _ => trivial
  | n + 1, _, h => by
      rw [foldN, wp_bind] at h
      exact wp_first_of_foldN h

namespace BitBlt

open ObjectMemory

/-! ## What to draw with -/

/-- The form `form` has the bitmap `bits` of `n` words. -/
structure HasBitmap (m : ObjectMemory) (form bits : Nat) (n : Int) : Prop where
  field : HasField m form 0
  bits_eq : m.chunkWord form headerSize = bits
  isBitmap : m.IsBitmap bits n

/-- The forms of a BitBlt have bitmaps, of any length but that of the halftone,
and the bitmap of the destination overlaps no other object. -/
structure Drawable (m : ObjectMemory) (b : BitBlt) (destBits sourceBits halftoneBits : Nat)
    (destLength sourceLength : Int) : Prop where
  dest_ne_nil : b.destForm ≠ nilPointer
  dest : HasBitmap m b.destForm destBits destLength
  source : b.sourceForm ≠ nilPointer → HasBitmap m b.sourceForm sourceBits sourceLength
  halftone : b.halftoneForm ≠ nilPointer → HasBitmap m b.halftoneForm halftoneBits 16
  apart_dest : m.Separate destBits b.destForm
  apart_source : b.sourceForm ≠ nilPointer → m.Separate destBits b.sourceForm ∧
    (sourceBits = destBits ∨ m.Separate destBits sourceBits)
  apart_halftone : b.halftoneForm ≠ nilPointer → m.Separate destBits b.halftoneForm ∧
    m.Separate destBits halftoneBits

/-- The copy has a pixel to draw: the rectangle is not empty, and the bitmaps
have the words of their forms. -/
def Paints (b : BitBlt) (destLength sourceLength : Int) : Prop :=
  ((clipRange b).w > 0 ∧ (clipRange b).h > 0) ∧
    (b.sourceForm ≠ nilPointer →
      formWordCount b.sourceFormWidth b.sourceFormHeight = sourceLength) ∧
    formWordCount b.destFormWidth b.destFormHeight = destLength

/-- One of the 16 combination rules. -/
def HasRule (b : BitBlt) : Prop := 0 ≤ b.combinationRule ∧ b.combinationRule ≤ 15

instance (b : BitBlt) : Decidable (HasRule b) := by unfold HasRule; infer_instance

/-- The members that the copy does not compute. -/
structure SameInputs (b b' : BitBlt) : Prop where
  destForm : b'.destForm = b.destForm
  sourceForm : b'.sourceForm = b.sourceForm
  halftoneForm : b'.halftoneForm = b.halftoneForm
  combinationRule : b'.combinationRule = b.combinationRule
  destX : b'.destX = b.destX
  destY : b'.destY = b.destY
  width : b'.width = b.width
  height : b'.height = b.height
  sourceX : b'.sourceX = b.sourceX
  sourceY : b'.sourceY = b.sourceY
  clipX : b'.clipX = b.clipX
  clipY : b'.clipY = b.clipY
  clipWidth : b'.clipWidth = b.clipWidth
  clipHeight : b'.clipHeight = b.clipHeight
  sourceFormWidth : b'.sourceFormWidth = b.sourceFormWidth
  sourceFormHeight : b'.sourceFormHeight = b.sourceFormHeight
  destFormWidth : b'.destFormWidth = b.destFormWidth
  destFormHeight : b'.destFormHeight = b.destFormHeight

theorem SameInputs.trans {a b c : BitBlt} (h : SameInputs a b) (h' : SameInputs b c) :
    SameInputs a c where
  destForm := h'.destForm.trans h.destForm
  sourceForm := h'.sourceForm.trans h.sourceForm
  halftoneForm := h'.halftoneForm.trans h.halftoneForm
  combinationRule := h'.combinationRule.trans h.combinationRule
  destX := h'.destX.trans h.destX
  destY := h'.destY.trans h.destY
  width := h'.width.trans h.width
  height := h'.height.trans h.height
  sourceX := h'.sourceX.trans h.sourceX
  sourceY := h'.sourceY.trans h.sourceY
  clipX := h'.clipX.trans h.clipX
  clipY := h'.clipY.trans h.clipY
  clipWidth := h'.clipWidth.trans h.clipWidth
  clipHeight := h'.clipHeight.trans h.clipHeight
  sourceFormWidth := h'.sourceFormWidth.trans h.sourceFormWidth
  sourceFormHeight := h'.sourceFormHeight.trans h.sourceFormHeight
  destFormWidth := h'.destFormWidth.trans h.destFormWidth
  destFormHeight := h'.destFormHeight.trans h.destFormHeight

variable {a b e : BitBlt} {c : Shifter} {m t : ObjectMemory} {i : Nat}
  {destBits sourceBits halftoneBits : Nat} {destLength sourceLength : Int}

theorem HasBitmap.wordLength_eq {form bits : Nat} {n : Int} (h : HasBitmap m form bits n) :
    wordLength m bits = n := by
  have := h.isBitmap.size
  rw [wordLength]
  omega

theorem HasBitmap.of_onlyFields {form bits p : Nat} {n : Int} (h : HasBitmap m form bits n)
    (hp : (m.entry p).segment ≠ objectTableSegment) (ht : OnlyFields p m t)
    (hform : m.Separate p form) (hbits : bits = p ∨ m.Separate p bits) :
    HasBitmap t form bits n := by
  have hsize := h.field.lt_size
  have hkeep : ∀ k < m.chunkWord form 0, t.chunkWord form k = m.chunkWord form k :=
    fun k hk => ht.chunkWord_separate hp hform hk
  have hinside := h.field.inside
  refine ⟨⟨h.field.isEntry, le_rfl, ?_, ?_⟩, ?_, ?_⟩
  · rw [hkeep 0 (by omega)]
    exact hsize
  · rw [ht.location_eq hp]
    exact hinside
  · rw [hkeep headerSize (by omega)]
    exact h.bits_eq
  · rcases hbits with rfl | hsep
    · exact ht.isBitmap hp h.isBitmap
    · exact ht.isBitmap_separate hp hsep h.isBitmap

/-- Drawing leaves the forms to draw with. -/
theorem Drawable.of_onlyFields
    (h : Drawable m b destBits sourceBits halftoneBits destLength sourceLength)
    (ht : OnlyFields destBits m t) :
    Drawable t b destBits sourceBits halftoneBits destLength sourceLength := by
  have hp := h.dest.isBitmap.heap
  have hpos : ∀ {form bits : Nat} {n : Int}, HasBitmap m form bits n → 0 < m.chunkWord form 0 := by
    intro form bits n hform
    have := hform.field.lt_size
    omega
  refine ⟨h.dest_ne_nil, h.dest.of_onlyFields hp ht h.apart_dest (.inl rfl), fun hs => ?_,
    fun hh => ?_, ht.separate hp h.apart_dest (hpos h.dest), fun hs => ?_, fun hh => ?_⟩
  · exact (h.source hs).of_onlyFields hp ht (h.apart_source hs).1 (h.apart_source hs).2
  · exact (h.halftone hh).of_onlyFields hp ht (h.apart_halftone hh).1
      (.inr (h.apart_halftone hh).2)
  · obtain ⟨hform, hbits⟩ := h.apart_source hs
    refine ⟨ht.separate hp hform (hpos (h.source hs)), hbits.imp_right fun hsep => ?_⟩
    exact ht.separate hp hsep (h.source hs).isBitmap.size_pos
  · obtain ⟨hform, hbits⟩ := h.apart_halftone hh
    exact ⟨ht.separate hp hform (hpos (h.halftone hh)),
      ht.separate hp hbits (h.halftone hh).isBitmap.size_pos⟩

theorem Drawable.of_sameInputs
    (h : Drawable m b destBits sourceBits halftoneBits destLength sourceLength)
    (hdest : a.destForm = b.destForm) (hsource : a.sourceForm = b.sourceForm)
    (hhalf : a.halftoneForm = b.halftoneForm) :
    Drawable m a destBits sourceBits halftoneBits destLength sourceLength := by
  constructor
  · rw [hdest]; exact h.dest_ne_nil
  · rw [hdest]; exact h.dest
  · rw [hsource]; exact h.source
  · rw [hhalf]; exact h.halftone
  · rw [hdest]; exact h.apart_dest
  · rw [hsource]; exact h.apart_source
  · rw [hhalf]; exact h.apart_halftone

/-! ## The bitmaps -/

theorem Drawable.wp_computeMasks
    (h : Drawable m b destBits sourceBits halftoneBits destLength sourceLength)
    {Q : BitBlt → ObjectMemory → Prop} : Wp (computeMasks b) Q m ↔
      Q (edgeMasks (b.foundBits m destBits sourceBits halftoneBits)) m := by
  have hhalf : ∀ (b' : BitBlt) (R : BitBlt → ObjectMemory → Prop),
      b'.halftoneForm = b.halftoneForm → (Wp (findHalftoneBits b') R m ↔ R { b' with
        halftoneBits := if b'.halftoneForm ≠ nilPointer then halftoneBits
          else b'.halftoneBits } m) := by
    intro b' R hb'
    unfold findHalftoneBits
    split
    · next hh =>
        have hform := h.halftone (hb' ▸ hh)
        rw [hb', wp_bind, wp_fetchPointer_bits hform.field hform.bits_eq, wp_pure]
    · rw [wp_pure]
  have hdest := h.dest.wordLength_eq
  rw [computeMasks, wp_bind]
  simp only [findBits, wp_bind, wp_fetchPointer_bits h.dest.field h.dest.bits_eq,
    wp_bitmapLength h.dest.isBitmap]
  unfold findSourceBits foundBits withBits
  by_cases hs : b.sourceForm ≠ nilPointer
  · have hform := h.source hs
    have hsource := hform.wordLength_eq
    simp only [if_pos hs, wp_bind, wp_fetchPointer_bits hform.field hform.bits_eq,
      wp_bitmapLength hform.isBitmap, wp_pure, hhalf, hdest, hsource]
  · simp only [if_neg hs, wp_pure, hhalf, hdest]

/-! ## The loop -/

theorem Bounded.wp_copyRow (hb : Bounded b) (hr : Ready b m) (hi : i < b.h.toNat)
    (hc : AtRow b i c) :
    Wp (copyRow b c) (fun r t => (∃ d, r = some d ∧ AtRow b (i + 1) d) ∧
      OnlyFields b.destBits m t) m := by
  have hrow : Wp (copyRow b c) (fun _ t => OnlyFields b.destBits m t) m := by
    rw [copyRow, wp_bind]
    refine (wp_startLine (y := c.dy) hr (fun _ => rfl) hb.preload fun hs => ?_).mono ?_
    · rw [hc.1]
      exact hb.source hs i hi
    · rintro _ m ⟨rfl, rfl⟩
      rw [wp_bind]
      refine (wp_copyLine (n := b.nWords.toNat)
        ⟨hr, halftoneAt_lt b _ _, hb.hDir, fun j hj => ?_⟩).mono ?_
      · rw [storeIndex, lineShifter, hc.2]
        exact hb.dest i hi j hj
      · rintro _ t ⟨d, rfl, taken, hd⟩
        rw [wp_pure]
        exact hd.onlyFields
  exact (hrow.and_wlp (hb.wlp_copyRow hi hc)).mono fun _ _ h => ⟨h.2, h.1⟩

theorem Bounded.wp_copyLoop (hb : Bounded b) (hr : Ready b m) :
    Wp (copyLoop b) (fun _ t => OnlyFields b.destBits m t) m := by
  rw [copyLoop_eq, wp_bind]
  refine (wp_foldN (fun i c t => AtRow b i c ∧ OnlyFields b.destBits m t)
    (fun i c t hi ⟨hat, ht⟩ => ?_) ⟨⟨by simp [firstShifter], by simp [firstShifter]⟩, .refl _ _⟩).mono
    fun _ t h => ?_
  · refine (hb.wp_copyRow (hr.of_onlyFields ht) hi hat).mono ?_
    rintro _ t' ⟨⟨d, rfl, hat'⟩, ht'⟩
    exact ⟨d, rfl, hat', ht.trans hr.dest.heap ht'⟩
  · obtain ⟨c, -, -, ht⟩ := h
    exact (wp_pure ..).2 ht

theorem rule_of_wp_mergeWith {rule : Int} {x y : Nat} {Q : Nat → ObjectMemory → Prop}
    (h : Wp (mergeWith rule x y) Q m) : 0 ≤ rule ∧ rule ≤ 15 := by
  have hhalts : mergeWith rule x y = (do check False; return 0) → False := by
    intro heq
    rw [heq, wp_bind, wp_check] at h
    exact h.1
  by_contra hrule
  cases rule with
  | ofNat n =>
      have hlarge : ¬n ≤ 15 := fun hle => hrule ⟨Int.natCast_nonneg n, Int.ofNat_le.2 hle⟩
      obtain ⟨k, rfl⟩ : ∃ k, n = k + 16 := ⟨n - 16, by omega⟩
      exact hhalts rfl
  | negSucc n => exact hhalts rfl

/-- The first word asks for the rule. -/
theorem rule_of_wp_copyWord {halftoneWord word : Nat} {Q : Option Shifter → ObjectMemory → Prop}
    (hlt : c.destIndex < b.destBitsWordLength) (h : Wp (copyWord b halftoneWord word c) Q m) :
    HasRule b := by
  have hmerge : ∀ {d : Shifter} {t : ObjectMemory} {Q : Option Shifter → ObjectMemory → Prop},
      d.destIndex = c.destIndex → Wp (mergeIntoDest b halftoneWord word d) Q t → HasRule b := by
    intro d t Q hd h
    rw [mergeIntoDest, if_neg (by omega), wp_bind] at h
    obtain ⟨destWord, t', -, h⟩ := h
    rw [wp_bind] at h
    exact rule_of_wp_mergeWith h
  rw [copyWord] at h
  by_cases hs : b.sourceForm ≠ nilPointer
  · rw [if_pos hs, wp_bind] at h
    obtain ⟨d, t, -, h, hd⟩ := h.and_wlp wlp_shiftSource
    exact hmerge hd.2 h
  · rw [if_neg hs, wp_bind, wp_pure] at h
    exact hmerge rfl h

theorem rule_of_wp_copyRow (hn : 0 < b.nWords) (hlt : c.destIndex < b.destBitsWordLength)
    {Q : Option Shifter → ObjectMemory → Prop} (h : Wp (copyRow b c) Q m) : HasRule b := by
  obtain ⟨k, hk⟩ : ∃ k, b.nWords.toNat = k + 1 := ⟨b.nWords.toNat - 1, by omega⟩
  rw [copyRow, wp_bind] at h
  obtain ⟨⟨halftoneWord, d⟩, t, -, hrow, hstart⟩ := h.and_wlp wlp_startLine
  dsimp only at hrow hstart
  rw [wp_bind, hk] at hrow
  have hword : Wp (copyWord b halftoneWord 1 d) (fun _ _ => True) t := wp_first_of_foldN hrow
  exact rule_of_wp_copyWord (hstart.2 ▸ hlt) hword

theorem Bounded.rule_of_wp_copyLoop (hb : Bounded b) (hn : 0 < b.nWords) (hh : 0 < b.h)
    {Q : Unit → ObjectMemory → Prop} (h : Wp (copyLoop b) Q m) : HasRule b := by
  obtain ⟨k, hk⟩ : ∃ k, b.h.toNat = k + 1 := ⟨b.h.toNat - 1, by omega⟩
  have hfirst := (hb.dest 0 (by omega) 0 (by omega)).2
  rw [copyLoop_eq, wp_bind, hk] at h
  refine rule_of_wp_copyRow hn ?_ (wp_first_of_foldN h)
  change b.destIndex < b.destBitsWordLength
  simpa using hfirst

/-! ## The whole copy -/

section Found

variable (b : BitBlt) (m : ObjectMemory) (destBits sourceBits halftoneBits : Nat)

theorem sameInputs_foundBits :
    SameInputs b (b.foundBits m destBits sourceBits halftoneBits) := by
  constructor <;> rfl

theorem sameInputs_clipRange : SameInputs b (updateBounds (clipRange b)) := by
  constructor <;> rfl

variable {b}

theorem foundBits_source (hs : b.sourceForm ≠ nilPointer) :
    (b.foundBits m destBits sourceBits halftoneBits).sourceBits = sourceBits ∧
      (b.foundBits m destBits sourceBits halftoneBits).sourceBitsWordLength =
        wordLength m sourceBits :=
  ⟨if_pos hs, if_pos hs⟩

theorem foundBits_halftone (hh : b.halftoneForm ≠ nilPointer) :
    (b.foundBits m destBits sourceBits halftoneBits).halftoneBits = halftoneBits := if_pos hh

end Found

/-- The test of `copyBits` on the bitmaps. -/
def BitsMatch (b : BitBlt) (destLength sourceLength : Int) : Prop :=
  (b.sourceForm ≠ nilPointer →
      formWordCount b.sourceFormWidth b.sourceFormHeight = sourceLength) ∧
    formWordCount b.destFormWidth b.destFormHeight = destLength

/-- The copy that comes to the loop, from the one with its bitmaps. -/
def setUp (a : BitBlt) : BitBlt := calculateOffsets (checkOverlap (edgeMasks a))

theorem sameInputs_setUp (a : BitBlt) : SameInputs a (setUp a) := by
  obtain ⟨hDir, vDir, sx, sy, dx, dy, skewMask, mask1, mask2, hover⟩ := exists_setUp (edgeMasks a)
  rw [setUp, hover]
  constructor <;> rfl

theorem setUp_eq (a : BitBlt) : (setUp a).destBits = a.destBits ∧
    (setUp a).nWords = (edgeMasks a).nWords ∧ (setUp a).h = a.h := by
  obtain ⟨hDir, vDir, sx, sy, dx, dy, skewMask, mask1, mask2, hover⟩ := exists_setUp (edgeMasks a)
  rw [setUp, hover]
  exact ⟨rfl, rfl, rfl⟩

theorem ready_setUp (hr : Ready a m) : Ready (setUp a) m := by
  obtain ⟨hDir, vDir, sx, sy, dx, dy, skewMask, mask1, mask2, hover⟩ := exists_setUp (edgeMasks a)
  rw [setUp, hover]
  exact ⟨hr.dest, hr.source, hr.apart, hr.halftone, hr.rule⟩

theorem copyMasked_eq (hp : BitsMatch a a.destBitsWordLength a.sourceBitsWordLength) :
    copyMasked (edgeMasks a) m =
      (do copyLoop (setUp a); return (true, setUp a) : OM (Bool × BitBlt)) m := by
  have hs : (edgeMasks a).sourceForm ≠ nilPointer →
      formWordCount (edgeMasks a).sourceFormWidth (edgeMasks a).sourceFormHeight =
        (edgeMasks a).sourceBitsWordLength := hp.1
  have hd : formWordCount (edgeMasks a).destFormWidth (edgeMasks a).destFormHeight =
      (edgeMasks a).destBitsWordLength := hp.2
  rw [copyMasked, if_neg fun hne => hne.2 (hs hne.1), if_neg (not_not.2 hd)]
  rfl

theorem copyMasked_refused (hp : ¬BitsMatch a a.destBitsWordLength a.sourceBitsWordLength) :
    copyMasked (edgeMasks a) m = some ((false, edgeMasks a), m) := by
  by_cases hsource : a.sourceForm ≠ nilPointer →
      formWordCount a.sourceFormWidth a.sourceFormHeight = a.sourceBitsWordLength
  · have hs : (edgeMasks a).sourceForm ≠ nilPointer →
        formWordCount (edgeMasks a).sourceFormWidth (edgeMasks a).sourceFormHeight =
          (edgeMasks a).sourceBitsWordLength := hsource
    have hd : formWordCount (edgeMasks a).destFormWidth (edgeMasks a).destFormHeight ≠
        (edgeMasks a).destBitsWordLength := fun hdest => hp ⟨hsource, hdest⟩
    rw [copyMasked, if_neg fun hne => hne.2 (hs hne.1), if_pos hd]
    rfl
  · have hs : (edgeMasks a).sourceForm ≠ nilPointer ∧
        formWordCount (edgeMasks a).sourceFormWidth (edgeMasks a).sourceFormHeight ≠
          (edgeMasks a).sourceBitsWordLength := Classical.not_imp.1 hsource
    rw [copyMasked, if_pos hs]
    rfl

section Copy

variable (h : Drawable m b destBits sourceBits halftoneBits destLength sourceLength)

include h

theorem Drawable.ready (hrule : HasRule b) :
    Ready (b.foundBits m destBits sourceBits halftoneBits) m := by
  obtain ⟨a, ha⟩ : ∃ a, a = b.foundBits m destBits sourceBits halftoneBits := ⟨_, rfl⟩
  have hsame : SameInputs b a := ha ▸ sameInputs_foundBits ..
  have hdest : a.destBits = destBits ∧ a.destBitsWordLength = destLength := by
    rw [ha, ← h.dest.wordLength_eq]
    exact ⟨rfl, rfl⟩
  have hsource : b.sourceForm ≠ nilPointer →
      a.sourceBits = sourceBits ∧ a.sourceBitsWordLength = sourceLength := by
    intro hs
    rw [ha, ← (h.source hs).wordLength_eq]
    exact foundBits_source _ _ _ _ hs
  rw [← ha]
  refine ⟨?_, fun hs => ?_, fun hs => ?_, fun hh => ?_, ?_⟩
  · rw [hdest.1, hdest.2]
    exact h.dest.isBitmap
  · rw [hsame.sourceForm] at hs
    rw [(hsource hs).1, (hsource hs).2]
    exact (h.source hs).isBitmap
  · rw [hsame.sourceForm] at hs
    rw [(hsource hs).1, hdest.1]
    exact (h.apart_source hs).2
  · rw [hsame.halftoneForm] at hh
    have hhalf : a.halftoneBits = halftoneBits := by
      rw [ha]
      exact foundBits_halftone _ _ _ _ hh
    rw [hhalf, hdest.1]
    exact ⟨(h.halftone hh).isBitmap, (h.apart_halftone hh).2⟩
  · rw [hsame.combinationRule]
    exact hrule

/-- The lengths that the test compares. -/
theorem Drawable.bitsMatch_iff :
    BitsMatch (b.foundBits m destBits sourceBits halftoneBits)
        (b.foundBits m destBits sourceBits halftoneBits).destBitsWordLength
        (b.foundBits m destBits sourceBits halftoneBits).sourceBitsWordLength ↔
      BitsMatch b destLength sourceLength := by
  obtain ⟨a, ha⟩ : ∃ a, a = b.foundBits m destBits sourceBits halftoneBits := ⟨_, rfl⟩
  have hsame : SameInputs b a := ha ▸ sameInputs_foundBits ..
  have hdest : a.destBitsWordLength = destLength := by
    rw [ha, ← h.dest.wordLength_eq]
    rfl
  rw [← ha, BitsMatch, BitsMatch, hsame.sourceForm, hsame.sourceFormWidth, hsame.sourceFormHeight,
    hsame.destFormWidth, hsame.destFormHeight, hdest]
  refine and_congr_left fun _ => forall_congr' fun hs => ?_
  have hsource : a.sourceBitsWordLength = sourceLength := by
    rw [ha, ← (h.source hs).wordLength_eq]
    exact (foundBits_source _ _ _ _ hs).2
  rw [hsource]

theorem Drawable.edgeMasks_foundBits (hp : BitsMatch b destLength sourceLength) :
    edgeMasks (b.foundBits m destBits sourceBits halftoneBits) =
      edgeMasks (b.withBits destBits sourceBits halftoneBits) := by
  rw [foundBits_eq_withBits (fun hs => (hp.1 hs).trans (h.source hs).wordLength_eq.symm)
    (hp.2.trans h.dest.wordLength_eq.symm)]

theorem Drawable.computeMasks_run : computeMasks b m =
    some (edgeMasks (b.foundBits m destBits sourceBits halftoneBits), m) :=
  Wp.run_eq (h.wp_computeMasks.2 ⟨rfl, rfl⟩)

theorem Drawable.clipped : Drawable m (updateBounds (clipRange b)) destBits sourceBits
    halftoneBits destLength sourceLength :=
  h.of_sameInputs rfl rfl rfl

/-- With nothing to draw the memory stays as it is. -/
theorem Drawable.copyBits_idle (hp : ¬Paints b destLength sourceLength) :
    ∃ r, copyBits b m = some (r, m) ∧ SameInputs b r.2 := by
  rw [copyBits]
  by_cases hpos : (clipRange b).w > 0 ∧ (clipRange b).h > 0
  · have hrefused : ¬BitsMatch (updateBounds (clipRange b)) destLength sourceLength :=
      fun hmatch => hp ⟨hpos, hmatch⟩
    rw [if_pos hpos, bind_of_run h.clipped.computeMasks_run,
      copyMasked_refused (mt h.clipped.bitsMatch_iff.1 hrefused)]
    refine ⟨_, rfl, (sameInputs_clipRange b).trans ((sameInputs_foundBits _ m destBits sourceBits
      halftoneBits).trans ?_)⟩
    generalize (updateBounds (clipRange b)).foundBits m destBits sourceBits halftoneBits = a
    constructor <;> rfl
  · rw [if_neg hpos]
    exact ⟨_, rfl, by constructor <;> rfl⟩

section Paint

variable (hp : Paints b destLength sourceLength)

include hp

theorem Drawable.copyBits_eq : copyBits b m = (do
    copyLoop (setUp ((updateBounds (clipRange b)).foundBits m destBits sourceBits halftoneBits))
    return (true, setUp ((updateBounds (clipRange b)).foundBits m destBits sourceBits
      halftoneBits)) : OM (Bool × BitBlt)) m := by
  have hmatch : BitsMatch (updateBounds (clipRange b)) destLength sourceLength := hp.2
  rw [copyBits, if_pos hp.1, bind_of_run h.clipped.computeMasks_run,
    copyMasked_eq (h.clipped.bitsMatch_iff.2 hmatch)]

theorem Drawable.bounded : Bounded
    (setUp ((updateBounds (clipRange b)).foundBits m destBits sourceBits halftoneBits)) := by
  have hmatch : BitsMatch (updateBounds (clipRange b)) destLength sourceLength := hp.2
  rw [setUp, h.clipped.edgeMasks_foundBits hmatch]
  exact (clipped_rectangle hp.1.1 hp.1.2).bounded h.dest_ne_nil

end Paint

theorem Drawable.wp_copyBits (hrule : Paints b destLength sourceLength → HasRule b) :
    Wp (copyBits b) (fun r t => OnlyFields destBits m t ∧ SameInputs b r.2) m := by
  by_cases hp : Paints b destLength sourceLength
  · have hrule' : HasRule (updateBounds (clipRange b)) := hrule hp
    have hloop := (h.bounded hp).wp_copyLoop (ready_setUp (h.clipped.ready hrule'))
    rw [(setUp_eq _).1] at hloop
    rw [Wp, h.copyBits_eq hp, ← Wp, wp_bind]
    refine hloop.mono fun _ t ht => ?_
    rw [wp_pure]
    exact ⟨ht, (sameInputs_clipRange b).trans
      ((sameInputs_foundBits ..).trans (sameInputs_setUp _))⟩
  · obtain ⟨r, hrun, hsame⟩ := h.copyBits_idle hp
    exact (wp_of_run hrun).2 ⟨.refl _ _, hsame⟩

/-- Where the copy ends and has a pixel to draw, it has a rule. -/
theorem Drawable.rule_of_wp_copyBits (hp : Paints b destLength sourceLength)
    {Q : Bool × BitBlt → ObjectMemory → Prop} (hq : Wp (copyBits b) Q m) : HasRule b := by
  have hbounded := h.bounded hp
  rw [Wp, h.copyBits_eq hp, ← Wp, wp_bind] at hq
  obtain ⟨a, ha⟩ : ∃ a, a = (updateBounds (clipRange b)).foundBits m destBits sourceBits
    halftoneBits := ⟨_, rfl⟩
  have hsize : a.w = (clipRange b).w ∧ a.h = (clipRange b).h := by
    rw [ha]
    exact ⟨rfl, rfl⟩
  have hrule : a.combinationRule = b.combinationRule := by
    rw [ha]
    rfl
  have hpos := hp.1
  rw [← ha] at hq hbounded
  have hn := nWords_eq (b := a) (by omega)
  have hloop := hbounded.rule_of_wp_copyLoop (by rw [(setUp_eq a).2.1, hn]; omega)
    (by rw [(setUp_eq a).2.2]; omega) hq
  rwa [HasRule, (sameInputs_setUp a).combinationRule, hrule] at hloop

end Copy

end BitBlt

end Crosstalk
