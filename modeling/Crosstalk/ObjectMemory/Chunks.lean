import Crosstalk.ObjectMemory.Frame

/-!
# Chunks of the heap

How far the pointers of an object go, what space it takes, and how its chunk
goes back to the free lists (the sections *NonpointerObjs* and *RefCntGarbage*
of the source, without the traversal).
-/

namespace Crosstalk

/-- The offset after the last pointer of an object. A CompiledMethod is no
pointer object, but has literals. -/
def lastPointerOf (objectPointer : Nat) : OM Nat := do
  if (← pointerBitOf objectPointer) = 0 then
    if (← classBitsOf objectPointer) = classCompiledMethod then
      let methodHeader ← heapChunkOfWord objectPointer headerSize
      return headerSize + 1 + ((methodHeader &&& 126) >>> 1)
    else
      return headerSize
  else
    sizeBitsOf objectPointer

/-- A pointer object of `hugeSize` words or more has an extra word, for the
traversal. -/
def spaceOccupiedBy (objectPointer : Nat) : OM Nat := do
  let size ← sizeBitsOf objectPointer
  if size < hugeSize ∨ (← pointerBitOf objectPointer) = 0 then
    return size
  else
    return size + 1

def deallocate (objectPointer : Nat) : OM Unit := do
  let space ← spaceOccupiedBy objectPointer
  sizeBitsOfPut objectPointer space
  toFreeChunkListAdd (min space bigSize) objectPointer

/-- The count sticks at 128. -/
def countUp (objectPointer : Nat) : OM Unit := do
  if ¬isIntegerObject objectPointer then
    let count := (← countBitsOf objectPointer) + 1
    if count < 129 then
      countBitsOfPut objectPointer count

namespace ObjectMemory

variable (m : ObjectMemory) (p : Nat)

def last : Nat :=
  if (m.entry p).pointer = 0 then
    if m.chunkWord p 1 = classCompiledMethod then 3 + ((m.chunkWord p 2 &&& 126) >>> 1) else 2
  else m.chunkWord p 0

def space : Nat :=
  if m.chunkWord p 0 < hugeSize ∨ (m.entry p).pointer = 0 then m.chunkWord p 0
  else m.chunkWord p 0 + 1

/-- The chunk of `p` at the head of its list. -/
def deallocated : ObjectMemory :=
  ((m.setChunkWord p 0 (m.space p)).setChunkWord p 1
    (m.chunkHead (m.entry p).segment (min (m.space p) bigSize))).setChunkHead
      (m.entry p).segment (min (m.space p) bigSize) p

def countedUp : ObjectMemory :=
  if p % 2 = 0 ∧ (m.entry p).count < 128 then m.setCount p ((m.entry p).count + 1) else m

variable {m p} {q i : Nat}

/-- The header tells, and in a method its first word. -/
theorem last_congr {m' : ObjectMemory} (he : (m'.entry p).pointer = (m.entry p).pointer)
    (h0 : m'.chunkWord p 0 = m.chunkWord p 0) (h1 : m'.chunkWord p 1 = m.chunkWord p 1)
    (h2 : 3 ≤ m.last p → m'.chunkWord p 2 = m.chunkWord p 2) : m'.last p = m.last p := by
  unfold last at h2 ⊢
  rw [he, h0, h1]
  by_cases hp : (m.entry p).pointer = 0
  · by_cases hc : m.chunkWord p 1 = classCompiledMethod
    · rw [if_pos hp, if_pos hc] at h2
      rw [if_pos hp, if_pos hc, if_pos hp, if_pos hc, h2 (by omega)]
    · rw [if_pos hp, if_neg hc, if_pos hp, if_neg hc]
  · rw [if_neg hp, if_neg hp]

theorem space_congr {m' : ObjectMemory} (he : (m'.entry p).pointer = (m.entry p).pointer)
    (hw : m'.chunkWord p 0 = m.chunkWord p 0) : m'.space p = m.space p := by
  unfold space
  rw [he, hw]

theorem size_le_space : m.chunkWord p 0 ≤ m.space p := by
  unfold space
  split <;> omega

theorem two_le_last (h : 2 ≤ m.chunkWord p 0) : 2 ≤ m.last p := by
  unfold last
  split
  · split <;> omega
  · exact h

theorem last_lt : m.last p < 65536 := by
  have hsize := m.chunkWord_lt p 0
  have hlit : m.chunkWord p 2 &&& 126 ≤ 126 := Nat.and_le_right
  rw [last, Nat.shiftRight_eq_div_pow]
  split
  · split <;> omega
  · exact hsize

/-- Only pointer objects have that many pointers. -/
theorem last_huge (h : 256 ≤ m.last p) :
    m.last p = m.chunkWord p 0 ∧ m.space p = m.chunkWord p 0 + 1 := by
  unfold last at h ⊢
  have hlit : (m.chunkWord p 2 &&& 126) >>> 1 ≤ 63 := by
    have h126 : m.chunkWord p 2 &&& 126 ≤ 126 := Nat.and_le_right
    rw [Nat.shiftRight_eq_div_pow]
    omega
  split at h
  · split at h <;> omega
  · next hp =>
      rw [if_neg hp]
      refine ⟨rfl, if_neg ?_⟩
      simp only [hugeSize]
      omega

section CountedUp

variable {v k s : Nat}

theorem entry_countedUp (p : Nat) : (m.countedUp v).entry p =
    { m.entry p with count := ((m.countedUp v).entry p).count } := by
  rw [countedUp]
  split
  · rw [entry_setCount (by omega)]
    split
    · next hpv => rw [hpv]
    · rfl
  · rfl

theorem count_countedUp (hp : p % 2 = 0) : ((m.countedUp v).entry p).count =
    if p = v ∧ (m.entry p).count < 128 then (m.entry p).count + 1 else (m.entry p).count := by
  rw [countedUp]
  split
  · next hv =>
      rw [entry_setCount (by omega)]
      by_cases hpv : p = v
      · subst hpv
        rw [if_pos rfl, if_pos ⟨rfl, hv.2⟩]
      · rw [if_neg hpv, if_neg fun hall => hpv hall.1]
  · next hv =>
      rw [if_neg]
      rintro ⟨rfl, hlt⟩
      exact hv ⟨hp, hlt⟩

theorem location_countedUp (hp : p % 2 = 0) : (m.countedUp v).location p = m.location p := by
  rw [countedUp]
  split
  · next hv => exact location_setField (by omega)
  · rfl

theorem chunkWord_countedUp (hp : p % 2 = 0) (hs : (m.entry p).segment ≠ objectTableSegment) :
    (m.countedUp v).chunkWord p i = m.chunkWord p i := by
  rw [countedUp]
  split
  · next hv => exact chunkWord_setCount (by omega) (by omega) hs
  · rfl

theorem chunkHead_countedUp {s : Nat} (hs : s ≠ 15) :
    (m.countedUp v).chunkHead s k = m.chunkHead s k := by
  rw [countedUp]
  split
  · exact chunkHead_setField hs
  · rfl

end CountedUp

end ObjectMemory

section Rules

open ObjectMemory

variable {m : ObjectMemory} {p : Nat}

theorem wp_lastPointerOf {Q : Nat → ObjectMemory → Prop} (hp : IsEntry p)
    (hl : m.location p + 2 < 65536) : Wp (lastPointerOf p) Q m ↔ Q (m.last p) m := by
  have h0 : m.location p + 0 < 65536 := by omega
  have h1 : m.location p + 1 < 65536 := by omega
  simp only [lastPointerOf, wp_bind, wp_pointerBitOf, wp_ite, wp_classBitsOf,
    wp_heapChunkOfWord, wp_pure, wp_sizeBitsOf, iff_true_intro hp, iff_true_intro hl,
    iff_true_intro h0, iff_true_intro h1, true_and, last]
  by_cases hpointer : (m.entry p).pointer = 0
  · by_cases hclass : m.chunkWord p 1 = classCompiledMethod <;> simp [hpointer, hclass]
  · simp [hpointer]

theorem wp_spaceOccupiedBy {Q : Nat → ObjectMemory → Prop} (hp : IsEntry p)
    (hl : m.location p + 2 < 65536) : Wp (spaceOccupiedBy p) Q m ↔ Q (m.space p) m := by
  have h0 : m.location p + 0 < 65536 := by omega
  simp only [spaceOccupiedBy, wp_bind, wp_sizeBitsOf, wp_pointerBitOf, wp_ite, wp_pure,
    iff_true_intro hp, iff_true_intro h0, true_and, space]
  by_cases h : m.chunkWord p 0 < hugeSize ∨ (m.entry p).pointer = 0 <;> simp [h]

theorem wp_countUp {R : Unit → ObjectMemory → Prop} :
    Wp (countUp p) R m ↔ (p % 2 = 0 → p < 65536) ∧ R () (m.countedUp p) := by
  rcases Nat.mod_two_eq_zero_or_one p with h | h
  · have hi : ¬isIntegerObject p := by rw [isIntegerObject, h]; decide
    simp only [countUp, if_pos hi, wp_bind, wp_countBitsOf, wp_ite, wp_countBitsOfPut, wp_pure,
      countedUp, h, true_and]
    by_cases hlt : (m.entry p).count < 128
    · rw [if_pos hlt]
      constructor
      · rintro ⟨he, h1, -⟩
        exact ⟨fun _ => he.2, (h1 (by omega)).2⟩
      · rintro ⟨he, hR⟩
        exact ⟨⟨h, he trivial⟩, fun _ => ⟨⟨⟨h, he trivial⟩, by omega⟩, hR⟩,
          fun hn => absurd hlt (by omega)⟩
    · rw [if_neg hlt]
      constructor
      · rintro ⟨he, -, h2⟩
        exact ⟨fun _ => he.2, h2 (by omega)⟩
      · rintro ⟨he, hR⟩
        exact ⟨⟨h, he trivial⟩, fun hn => absurd hn (by omega), fun _ => hR⟩
  · have hi : ¬¬isIntegerObject p := not_not.mpr h
    simp only [countUp, if_neg hi, wp_pure, countedUp, h]
    simp

end Rules

end Crosstalk
