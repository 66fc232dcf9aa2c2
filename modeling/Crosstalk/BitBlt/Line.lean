import Crosstalk.BitBlt.Bitmap
import Crosstalk.BitBlt.Words
import Mathlib.Tactic.Ring

/-!
# One line of a copy

What the inner loop of `copyLoop` leaves in the destination: word `j` of the
line takes the bits of `lineBit`, computed from the source words that the loop
took up on its way. Those are the words that the source held when the line
began, but for the ones that the loop had overwritten by then.
-/

namespace Crosstalk

namespace BitBlt

open ObjectMemory

/-! ## The words that pass through the shifter -/

section Shift

variable (b : BitBlt) (c : Shifter) (taken : Nat → Nat)

/-- The index of the source word that word `j` of the line takes up. -/
def fetchIndex (j : Nat) : Int := c.sourceIndex + b.hDir * j

def storeIndex (j : Nat) : Int := c.destIndex + b.hDir * j

/-- Word `j` of the line does take up a source word. -/
def Fetches (j : Nat) : Prop :=
  ((j + 1 : Nat) : Int) ≤ b.sourceRaster ∧ b.fetchIndex c j ≥ 0 ∧
    b.fetchIndex c j < b.sourceBitsWordLength

instance (j : Nat) : Decidable (b.Fetches c j) := by unfold Fetches; infer_instance

/-- `thisWord` at word `j` of the line, where word `i` takes up `taken i`: past
the end of the source it is still the last word that was taken up. -/
def thisAt : Nat → Nat
  | 0 => if b.Fetches c 0 then taken 0 else c.thisWord
  | j + 1 => if b.Fetches c (j + 1) then taken (j + 1) else thisAt j

def prevAt : Nat → Nat
  | 0 => c.prevWord
  | j + 1 => b.thisAt c taken j

def skewAt (j : Nat) : Nat :=
  if b.sourceForm ≠ nilPointer then
    rotate (blend b.skewMask (b.prevAt c taken j) (b.thisAt c taken j)) b.skew
  else c.skewWord

def maskAt (j : Nat) : Nat :=
  if j = 0 then c.mergeMask else if (j : Int) = b.nWords - 1 then b.mask2 else allOnes

/-- Bit `i` of word `j` of the line, where the destination holds `old`. -/
def lineBit (halftoneWord j old i : Nat) : Bool :=
  if (b.maskAt c j).testBit i then
    combine b.combinationRule
      ((b.skewAt c taken j).testBit i && halftoneWord.testBit i) (old.testBit i)
  else old.testBit i

variable {b c taken} {j k v : Nat}

theorem thisAt_update (h : j < k) :
    b.thisAt c (Function.update taken k v) j = b.thisAt c taken j := by
  induction j with
  | zero => rw [thisAt, thisAt, Function.update_of_ne (by omega)]
  | succ j ih => rw [thisAt, thisAt, Function.update_of_ne (by omega), ih (by omega)]

theorem prevAt_update (h : j ≤ k) :
    b.prevAt c (Function.update taken k v) j = b.prevAt c taken j := by
  cases j with
  | zero => rfl
  | succ j => exact thisAt_update h

theorem skewAt_update (h : j < k) :
    b.skewAt c (Function.update taken k v) j = b.skewAt c taken j := by
  rw [skewAt, skewAt, thisAt_update h, prevAt_update (by omega)]

end Shift

/-! ## The loop -/

/-- What `copyBits` has set up for the loop: the bitmaps of the source and the
destination, which are the same object or do not overlap, and that of the
halftone, which does not overlap the destination. -/
structure Ready (b : BitBlt) (m : ObjectMemory) : Prop where
  dest : m.IsBitmap b.destBits b.destBitsWordLength
  source : b.sourceForm ≠ nilPointer → m.IsBitmap b.sourceBits b.sourceBitsWordLength
  apart : b.sourceForm ≠ nilPointer →
    b.sourceBits = b.destBits ∨ m.Separate b.destBits b.sourceBits
  halftone : b.halftoneForm ≠ nilPointer →
    m.IsBitmap b.halftoneBits 16 ∧ m.Separate b.destBits b.halftoneBits
  rule : 0 ≤ b.combinationRule ∧ b.combinationRule ≤ 15

variable {b : BitBlt} {c : Shifter} {m m' : ObjectMemory} {halftoneWord : Nat}

theorem Ready.of_onlyFields (hr : b.Ready m) (h : OnlyFields b.destBits m m') :
    b.Ready m' := by
  have hp := hr.dest.heap
  refine ⟨h.isBitmap hp hr.dest, fun hs => ?_, fun hs => ?_, fun hh => ?_, hr.rule⟩
  · rcases hr.apart hs with heq | hsep
    · have h0 := hr.source hs
      rw [heq] at h0 ⊢
      exact h.isBitmap hp h0
    · exact h.isBitmap_separate hp hsep (hr.source hs)
  · exact (hr.apart hs).imp_right fun hsep => h.separate hp hsep (hr.source hs).size_pos
  · obtain ⟨hb, hsep⟩ := hr.halftone hh
    exact ⟨h.isBitmap_separate hp hsep hb, h.separate hp hsep hb.size_pos⟩

/-- Word `k` of the source, in a memory where word `k` of the destination is as
it was if the two are the same. -/
theorem Ready.source_eq (hr : b.Ready m) (h : OnlyFields b.destBits m m')
    (hs : b.sourceForm ≠ nilPointer) {k : Int} (h0 : 0 ≤ k) (hk : k < b.sourceBitsWordLength)
    (hkeep : b.sourceBits = b.destBits → m'.wordAt b.destBits k = m.wordAt b.destBits k) :
    m'.wordAt b.sourceBits k = m.wordAt b.sourceBits k := by
  rcases hr.apart hs with heq | hsep
  · rw [heq]
    exact hkeep heq
  · exact h.wordAt_separate hr.dest.heap hsep (hr.source hs) h0 hk

/-- What the loop has done before it comes to word `j` of the line. -/
structure LineDone (b : BitBlt) (c : Shifter) (halftoneWord : Nat) (m : ObjectMemory)
    (j : Nat) (taken : Nat → Nat) (c' : Shifter) (m' : ObjectMemory) : Prop where
  sourceIndex : c'.sourceIndex = b.fetchIndex c j
  destIndex : c'.destIndex = b.storeIndex c j
  dy : c'.dy = c.dy
  prevWord : b.sourceForm ≠ nilPointer → c'.prevWord = b.prevAt c taken j
  thisWord : b.sourceForm ≠ nilPointer →
    c'.thisWord = if j = 0 then c.thisWord else b.thisAt c taken (j - 1)
  skewWord : b.sourceForm = nilPointer → c'.skewWord = c.skewWord
  mergeMask : c'.mergeMask = b.maskAt c j
  onlyFields : OnlyFields b.destBits m m'
  taken_lt : ∀ i, taken i < 65536
  /-- A word that the loop had not overwritten is taken up as it was. -/
  taken_eq : b.sourceForm ≠ nilPointer → ∀ i < j, b.Fetches c i →
    (b.sourceBits = b.destBits → ∀ i' < i, b.fetchIndex c i ≠ b.storeIndex c i') →
    taken i = m.wordAt b.sourceBits (b.fetchIndex c i)
  stored : ∀ i < j, ∀ k < 16, (m'.wordAt b.destBits (b.storeIndex c i)).testBit k =
    b.lineBit c taken halftoneWord i (m.wordAt b.destBits (b.storeIndex c i)) k
  kept : ∀ k, 0 ≤ k → (∀ i < j, k ≠ b.storeIndex c i) →
    m'.wordAt b.destBits k = m.wordAt b.destBits k

/-- What the loop relies on: it goes one way and stores inside the destination. -/
structure LineReady (b : BitBlt) (c : Shifter) (halftoneWord : Nat) (m : ObjectMemory)
    (n : Nat) : Prop where
  ready : b.Ready m
  halftone : halftoneWord < 65536
  hDir : b.hDir = 1 ∨ b.hDir = -1
  inside : ∀ j < n, 0 ≤ b.storeIndex c j ∧ b.storeIndex c j < b.destBitsWordLength

variable {n j : Nat} {c' : Shifter} {taken : Nat → Nat}

theorem storeIndex_inj (h : b.hDir = 1 ∨ b.hDir = -1) {i : Nat} (hij : i ≠ j) :
    b.storeIndex c i ≠ b.storeIndex c j := by
  unfold storeIndex
  rcases h with h | h <;> rw [h] <;> omega

/-- The words taken up so far do not depend on the next one. -/
theorem LineDone.update (hd : LineDone b c halftoneWord m j taken c' m') {v : Nat}
    (hv : v < 65536) :
    LineDone b c halftoneWord m j (Function.update taken j v) c' m' where
  sourceIndex := hd.sourceIndex
  destIndex := hd.destIndex
  dy := hd.dy
  prevWord hs := (hd.prevWord hs).trans (prevAt_update le_rfl).symm
  thisWord hs := by
    rw [hd.thisWord hs]
    split
    · rfl
    · rw [thisAt_update (by omega)]
  skewWord := hd.skewWord
  mergeMask := hd.mergeMask
  onlyFields := hd.onlyFields
  taken_lt i := by
    rw [Function.update_apply]
    split
    · exact hv
    · exact hd.taken_lt i
  taken_eq hs i hi hf hne := by
    rw [Function.update_of_ne (by omega)]
    exact hd.taken_eq hs i hi hf hne
  stored i hi k hk := by
    rw [hd.stored i hi k hk, lineBit, lineBit, skewAt_update hi]
  kept := hd.kept

theorem wp_shiftSource (hl : b.LineReady c halftoneWord m n)
    (hd : LineDone b c halftoneWord m j taken c' m') (hs : b.sourceForm ≠ nilPointer) :
    Wp (shiftSource b (j + 1) c') (fun d t => t = m' ∧ ∃ v, v < 65536 ∧
      (b.Fetches c j →
        (b.sourceBits = b.destBits → ∀ i < j, b.fetchIndex c j ≠ b.storeIndex c i) →
        v = m.wordAt b.sourceBits (b.fetchIndex c j)) ∧
      d = { c' with
        prevWord := b.thisAt c (Function.update taken j v) j
        thisWord := b.thisAt c (Function.update taken j v) j
        skewWord := b.skewAt c (Function.update taken j v) j }) m' := by
  have hthis : ∀ v, b.thisAt c (Function.update taken j v) j =
      if b.Fetches c j then v else c'.thisWord := by
    intro v
    rw [hd.thisWord hs]
    cases j with
    | zero => simp [thisAt]
    | succ j => simp [thisAt, thisAt_update]
  have hskew : ∀ v, b.skewAt c (Function.update taken j v) j =
      rotate ((c'.prevWord &&& b.skewMask) |||
        (b.thisAt c (Function.update taken j v) j &&& bitInvert b.skewMask)) b.skew := by
    intro v
    rw [skewAt, if_pos hs, blend, prevAt_update le_rfl, ← hd.prevWord hs,
      Nat.and_comm b.skewMask, Nat.and_comm (bitInvert b.skewMask)]
  unfold shiftSource
  by_cases hf : b.Fetches c j
  · have hf' := hf
    unfold Fetches at hf'
    rw [← hd.sourceIndex] at hf'
    simp only [hf', and_self, if_true, wp_bind, wp_pure]
    rw [wp_fetchBits ((hl.ready.of_onlyFields hd.onlyFields).source hs) hf'.2.1 hf'.2.2]
    refine ⟨rfl, m'.wordAt b.sourceBits c'.sourceIndex, m'.wordAt_lt _ _,
      fun _ hne => ?_, by rw [hskew, hthis, if_pos hf]⟩
    rw [hd.sourceIndex]
    exact hl.ready.source_eq hd.onlyFields hs hf.2.1 hf.2.2
      fun heq => hd.kept _ hf.2.1 (hne heq)
  · have hf' := hf
    unfold Fetches at hf'
    rw [← hd.sourceIndex] at hf'
    simp only [hf', if_false, wp_pure]
    exact ⟨trivial, 0, by decide, fun h => absurd h hf, by rw [hskew, hthis, if_neg hf]⟩

/-- One word more. -/
theorem LineDone.step (hl : b.LineReady c halftoneWord m n) (hj : j < n)
    (hd : LineDone b c halftoneWord m j taken c' m')
    (htaken : b.sourceForm ≠ nilPointer → b.Fetches c j →
      (b.sourceBits = b.destBits → ∀ i < j, b.fetchIndex c j ≠ b.storeIndex c i) →
      taken j = m.wordAt b.sourceBits (b.fetchIndex c j))
    {d : Shifter} {v : Nat} (hv : v < 65536)
    (hbits : ∀ k < 16, v.testBit k =
      b.lineBit c taken halftoneWord j (m.wordAt b.destBits (b.storeIndex c j)) k)
    (hsource : d.sourceIndex = c'.sourceIndex + b.hDir)
    (hdest : d.destIndex = c'.destIndex + b.hDir) (hdy : d.dy = c'.dy)
    (hprev : b.sourceForm ≠ nilPointer →
      d.prevWord = b.thisAt c taken j ∧ d.thisWord = b.thisAt c taken j)
    (hskew : b.sourceForm = nilPointer → d.skewWord = c'.skewWord)
    (hmask : d.mergeMask = if ((j + 1 : Nat) : Int) = b.nWords - 1 then b.mask2 else allOnes) :
    LineDone b c halftoneWord m (j + 1) taken d
      (m'.setChunkWord b.destBits (headerSize + (b.storeIndex c j).toNat) v) := by
  obtain ⟨h0, hlt⟩ := hl.inside j hj
  have hb := (hl.ready.of_onlyFields hd.onlyFields).dest
  have hword : ∀ k, 0 ≤ k →
      (m'.setChunkWord b.destBits (headerSize + (b.storeIndex c j).toNat) v).wordAt
        b.destBits k = if k = b.storeIndex c j then v else m'.wordAt b.destBits k :=
    fun k hk => wordAt_setChunkWord hb h0 hk hv
  refine ⟨?_, ?_, hdy.trans hd.dy, fun hs => (hprev hs).1, fun hs => ?_,
    fun hs => (hskew hs).trans (hd.skewWord hs), ?_, ?_, hd.taken_lt,
    fun hs i hi => ?_, fun i hi k hk => ?_, fun k hk hne => ?_⟩
  · rw [hsource, hd.sourceIndex, fetchIndex, fetchIndex]
    push_cast
    ring
  · rw [hdest, hd.destIndex, storeIndex, storeIndex]
    push_cast
    ring
  · simpa using (hprev hs).2
  · rw [hmask, maskAt, if_neg (Nat.succ_ne_zero j)]
  · exact hd.onlyFields.trans hl.ready.dest.heap (onlyFields_setChunkWord hb h0 hlt)
  · rcases Nat.lt_succ_iff_lt_or_eq.mp hi with hi | rfl
    · exact hd.taken_eq hs i hi
    · exact htaken hs
  · rw [hword _ (hl.inside i (by omega)).1]
    rcases Nat.lt_succ_iff_lt_or_eq.mp hi with hi | rfl
    · rw [if_neg (storeIndex_inj hl.hDir (by omega))]
      exact hd.stored i hi k hk
    · rw [if_pos rfl]
      exact hbits k hk
  · rw [hword k hk, if_neg (hne j (by omega))]
    exact hd.kept k hk fun i hi => hne i (by omega)

theorem wp_mergeIntoDest (hl : b.LineReady c halftoneWord m n) (hj : j < n)
    (hd : LineDone b c halftoneWord m j taken c' m')
    (htaken : b.sourceForm ≠ nilPointer → b.Fetches c j →
      (b.sourceBits = b.destBits → ∀ i < j, b.fetchIndex c j ≠ b.storeIndex c i) →
      taken j = m.wordAt b.sourceBits (b.fetchIndex c j))
    {d : Shifter}
    (hsource : d.sourceIndex = c'.sourceIndex) (hdest : d.destIndex = c'.destIndex)
    (hdy : d.dy = c'.dy) (hmask : d.mergeMask = c'.mergeMask)
    (hskew : d.skewWord = b.skewAt c taken j)
    (hprev : b.sourceForm ≠ nilPointer →
      d.prevWord = b.thisAt c taken j ∧ d.thisWord = b.thisAt c taken j) :
    Wp (mergeIntoDest b halftoneWord (j + 1) d) (fun r t =>
      ∃ d, r = some d ∧ LineDone b c halftoneWord m (j + 1) taken d t) m' := by
  obtain ⟨h0, hlt⟩ := hl.inside j hj
  have hb := (hl.ready.of_onlyFields hd.onlyFields).dest
  have hidx : d.destIndex = b.storeIndex c j := hdest.trans hd.destIndex
  have hold : m'.wordAt b.destBits (b.storeIndex c j) =
      m.wordAt b.destBits (b.storeIndex c j) :=
    hd.kept _ h0 fun i hi => storeIndex_inj hl.hDir (by omega)
  obtain ⟨r, hr, hr16, hrbits⟩ := mergeWith_eq hl.ready.rule.1 hl.ready.rule.2
    (Nat.and_lt_two_pow (n := 16) d.skewWord hl.halftone)
    (m.wordAt_lt b.destBits (b.storeIndex c j))
  have hlt16 : blend d.mergeMask r (m.wordAt b.destBits (b.storeIndex c j)) < 65536 :=
    blend_lt hr16 (m.wordAt_lt _ _)
  rw [mergeIntoDest, hidx, if_neg (by omega), wp_bind, wp_fetchBits hb h0 hlt, hold,
    wp_bind, hr, wp_pure, wp_bind]
  change Wp (storeWordOfObjectWithValue _ _ (blend d.mergeMask r _)) _ m'
  rw [wp_storeBits hb h0 hlt hlt16, wp_pure]
  refine ⟨_, rfl,
    hd.step hl hj htaken hlt16 (fun k hk => ?_) ?_ ?_ hdy hprev (fun hs => ?_) rfl⟩
  · rw [testBit_blend hk, hmask, hd.mergeMask, hrbits k hk, lineBit, Nat.testBit_and, hskew]
  · exact congrArg (· + b.hDir) hsource
  · exact congrArg (· + b.hDir) hd.destIndex.symm
  · rw [hd.skewWord hs]
    exact hskew.trans (by rw [skewAt, if_neg (not_not.mpr hs)])

theorem wp_copyWord (hl : b.LineReady c halftoneWord m n) (hj : j < n)
    (hd : LineDone b c halftoneWord m j taken c' m') :
    Wp (copyWord b halftoneWord (j + 1) c') (fun r t =>
      ∃ d, r = some d ∧ ∃ taken, LineDone b c halftoneWord m (j + 1) taken d t) m' := by
  rw [copyWord]
  by_cases hs : b.sourceForm ≠ nilPointer
  · rw [if_pos hs, wp_bind]
    refine (wp_shiftSource hl hd hs).mono ?_
    rintro d _ ⟨rfl, v, hv, htaken, rfl⟩
    have htaken' : b.sourceForm ≠ nilPointer → b.Fetches c j →
        (b.sourceBits = b.destBits → ∀ i < j, b.fetchIndex c j ≠ b.storeIndex c i) →
        Function.update taken j v j = m.wordAt b.sourceBits (b.fetchIndex c j) := by
      rw [Function.update_self]
      exact fun _ => htaken
    have := wp_mergeIntoDest hl hj (hd.update hv) htaken' (d := { c' with
      prevWord := b.thisAt c (Function.update taken j v) j
      thisWord := b.thisAt c (Function.update taken j v) j
      skewWord := b.skewAt c (Function.update taken j v) j }) rfl rfl rfl rfl rfl
      fun _ => ⟨rfl, rfl⟩
    exact this.mono fun r t ⟨d, hr, h⟩ => ⟨d, hr, _, h⟩
  · rw [if_neg hs, wp_bind, wp_pure]
    refine (wp_mergeIntoDest hl hj hd (fun h => absurd h hs) rfl rfl rfl rfl ?_
      fun h => absurd h hs).mono fun r t ⟨d, hr, h⟩ => ⟨d, hr, _, h⟩
    rw [hd.skewWord (not_not.mp hs), skewAt, if_neg hs]

/-- The inner loop leaves `lineBit` in every word of the line, and nothing else
changes. -/
theorem wp_copyLine (hl : b.LineReady c halftoneWord m n) :
    Wp (foldN n (fun i => copyWord b halftoneWord (i + 1)) c) (fun r t =>
      ∃ d, r = some d ∧ ∃ taken, LineDone b c halftoneWord m n taken d t) m := by
  refine wp_foldN (fun j d t => ∃ taken, LineDone b c halftoneWord m j taken d t)
    (fun j d t hj ⟨taken, hd⟩ => wp_copyWord hl hj hd) ⟨fun _ => 0, ?_⟩
  refine ⟨?_, ?_, rfl, fun _ => rfl, fun _ => rfl, fun _ => rfl, ?_, .refl _ _,
    fun _ => by decide, ?_, ?_, ?_⟩
  · simp [fetchIndex]
  · simp [storeIndex]
  · simp [maskAt]
  · exact fun _ i hi => absurd hi (Nat.not_lt_zero i)
  · exact fun i hi => absurd hi (Nat.not_lt_zero i)
  · exact fun _ _ _ => rfl

end BitBlt

end Crosstalk
