import Crosstalk.ObjectMemory.View

/-!
# The free lists

The list of free object table entries, linked through their locations, and for
each heap segment the lists of its free chunks, one for each size below
`bigSize` and one for all larger chunks, linked through the class word (the
section *UnallocatedSpc* of the source).
-/

namespace Crosstalk

def checkCurrentSegment : OM Unit := do
  let m ← get
  check (firstHeapSegment ≤ m.currentSegment ∧ m.currentSegment ≤ lastHeapSegment)

def headOfFreePointerList : OM Nat := segmentWord objectTableSegment freePointerList

def headOfFreePointerListPut (objectPointer : Nat) : OM Unit :=
  segmentWordPut objectTableSegment freePointerList objectPointer

def toFreePointerListAdd (objectPointer : Nat) : OM Unit := do
  locationBitsOfPut objectPointer (← headOfFreePointerList)
  headOfFreePointerListPut objectPointer

def removeFromFreePointerList : OM Nat := do
  let objectPointer ← headOfFreePointerList
  if objectPointer = nonPointer then
    return nilPointer
  else
    headOfFreePointerListPut (← locationBitsOf objectPointer)
    return objectPointer

def headOfFreeChunkListInSegment (size segment : Nat) : OM Nat := do
  check (2 ≤ size ∧ size ≤ bigSize)
  segmentWord segment (firstFreeChunkList + size)

def headOfFreeChunkListInSegmentPut (size segment objectPointer : Nat) : OM Unit := do
  check (headerSize ≤ size ∧ size ≤ bigSize)
  segmentWordPut segment (firstFreeChunkList + size) objectPointer

def resetFreeChunkListInSegment (size segment : Nat) : OM Unit := do
  check (2 ≤ size ∧ size ≤ bigSize)
  headOfFreeChunkListInSegmentPut size segment nonPointer

def toFreeChunkListAdd (size objectPointer : Nat) : OM Unit := do
  let segment ← segmentBitsOf objectPointer
  classBitsOfPut objectPointer (← headOfFreeChunkListInSegment size segment)
  headOfFreeChunkListInSegmentPut size segment objectPointer

def removeFromFreeChunkList (size : Nat) : OM Nat := do
  checkCurrentSegment
  let segment := (← get).currentSegment.toNat
  let objectPointer ← headOfFreeChunkListInSegment size segment
  if objectPointer = nonPointer then
    return nilPointer
  else
    headOfFreeChunkListInSegmentPut size segment (← classBitsOf objectPointer)
    return objectPointer

/-! ## The heads of the lists -/

namespace ObjectMemory

def freeHead (m : ObjectMemory) : Nat := m.word objectTableSegment freePointerList

def chunkHead (m : ObjectMemory) (segment size : Nat) : Nat :=
  m.word segment (firstFreeChunkList + size)

def setFreeHead (m : ObjectMemory) (v : Nat) : ObjectMemory :=
  m.setWord objectTableSegment freePointerList v

def setChunkHead (m : ObjectMemory) (segment size v : Nat) : ObjectMemory :=
  m.setWord segment (firstFreeChunkList + size) v

theorem headWord_lt {size : Nat} (h : size ≤ 20) : firstFreeChunkList + size < segmentSize := by
  simp only [firstFreeChunkList, heapSpaceStop, firstFreeChunkListSize, bigSize, segmentSize]
  omega

theorem freeHead_lt (m : ObjectMemory) : m.freeHead < 65536 := m.word_lt _ _

theorem chunkHead_lt (m : ObjectMemory) (s k : Nat) : m.chunkHead s k < 65536 := m.word_lt _ _

end ObjectMemory

section Rules

open ObjectMemory

variable {m : ObjectMemory} {p k s v : Nat} {Q : Nat → ObjectMemory → Prop}
  {R : Unit → ObjectMemory → Prop}

@[simp] theorem wp_segmentWord : Wp (segmentWord s p) Q m ↔
    (s < segmentCount ∧ p < segmentSize) ∧ Q (m.word s p) m := by
  simp only [segmentWord, wp_bind, wp_check, wp_get, wp_pure, and_assoc]

@[simp] theorem wlp_segmentWord : Wlp (segmentWord s p) Q m ↔
    (s < segmentCount → p < segmentSize → Q (m.word s p) m) := by
  simp only [segmentWord, wlp_bind, wlp_check, wlp_get, wlp_pure]

@[simp] theorem wp_segmentWordPut : Wp (segmentWordPut s p v) R m ↔
    (s < segmentCount ∧ p < segmentSize ∧ v < 65536) ∧ R () (m.setWord s p v) := by
  simp only [segmentWordPut, wp_bind, wp_check, wp_modify, and_assoc]

@[simp] theorem wlp_segmentWordPut : Wlp (segmentWordPut s p v) R m ↔
    (s < segmentCount → p < segmentSize → v < 65536 → R () (m.setWord s p v)) := by
  simp only [segmentWordPut, wlp_bind, wlp_check, wlp_modify]

@[simp] theorem wp_checkCurrentSegment : Wp checkCurrentSegment R m ↔
    (0 ≤ m.currentSegment ∧ m.currentSegment ≤ 14) ∧ R () m := by
  simp only [checkCurrentSegment, wp_bind, wp_get, wp_check]
  rfl

@[simp] theorem wp_headOfFreePointerList :
    Wp headOfFreePointerList Q m ↔ Q m.freeHead m := by
  simp only [headOfFreePointerList, wp_segmentWord, freeHead]
  exact and_iff_right (by decide)

@[simp] theorem wp_headOfFreePointerListPut :
    Wp (headOfFreePointerListPut v) R m ↔ v < 65536 ∧ R () (m.setFreeHead v) := by
  simp only [headOfFreePointerListPut, wp_segmentWordPut, setFreeHead]
  exact and_congr ⟨fun h => h.2.2, fun h => ⟨by decide, by decide, h⟩⟩ Iff.rfl

@[simp] theorem wp_headOfFreeChunkListInSegment :
    Wp (headOfFreeChunkListInSegment k s) Q m ↔
      (2 ≤ k ∧ k ≤ 20 ∧ s < 16) ∧ Q (m.chunkHead s k) m := by
  simp only [headOfFreeChunkListInSegment, wp_bind, wp_check, wp_segmentWord, chunkHead]
  constructor
  · rintro ⟨⟨h2, h20⟩, ⟨hs, -⟩, hQ⟩
    exact ⟨⟨h2, h20, hs⟩, hQ⟩
  · rintro ⟨⟨h2, h20, hs⟩, hQ⟩
    exact ⟨⟨h2, h20⟩, ⟨hs, headWord_lt h20⟩, hQ⟩

@[simp] theorem wlp_headOfFreeChunkListInSegment :
    Wlp (headOfFreeChunkListInSegment k s) Q m ↔
      (2 ≤ k ∧ k ≤ 20 → s < 16 → Q (m.chunkHead s k) m) := by
  simp only [headOfFreeChunkListInSegment, wlp_bind, wlp_check, wlp_segmentWord, chunkHead]
  constructor
  · intro hQ hk hs
    exact hQ hk hs (headWord_lt hk.2)
  · exact fun hQ hk hs _ => hQ hk hs

@[simp] theorem wp_headOfFreeChunkListInSegmentPut :
    Wp (headOfFreeChunkListInSegmentPut k s v) R m ↔
      (2 ≤ k ∧ k ≤ 20 ∧ s < 16 ∧ v < 65536) ∧ R () (m.setChunkHead s k v) := by
  simp only [headOfFreeChunkListInSegmentPut, wp_bind, wp_check, wp_segmentWordPut,
    setChunkHead]
  constructor
  · rintro ⟨⟨h2, h20⟩, ⟨hs, -, hv⟩, hR⟩
    exact ⟨⟨h2, h20, hs, hv⟩, hR⟩
  · rintro ⟨⟨h2, h20, hs, hv⟩, hR⟩
    exact ⟨⟨h2, h20⟩, ⟨hs, headWord_lt h20, hv⟩, hR⟩

@[simp] theorem wlp_headOfFreeChunkListInSegmentPut :
    Wlp (headOfFreeChunkListInSegmentPut k s v) R m ↔
      (2 ≤ k ∧ k ≤ 20 → s < 16 → v < 65536 → R () (m.setChunkHead s k v)) := by
  simp only [headOfFreeChunkListInSegmentPut, wlp_bind, wlp_check, wlp_segmentWordPut,
    setChunkHead]
  constructor
  · intro hR hk hs hv
    exact hR hk hs (headWord_lt hk.2) hv
  · exact fun hR hk hs _ hv => hR hk hs hv

@[simp] theorem wp_resetFreeChunkListInSegment :
    Wp (resetFreeChunkListInSegment k s) R m ↔
      (2 ≤ k ∧ k ≤ 20 ∧ s < 16) ∧ R () (m.setChunkHead s k nonPointer) := by
  simp only [resetFreeChunkListInSegment, wp_bind, wp_check,
    wp_headOfFreeChunkListInSegmentPut]
  constructor
  · rintro ⟨-, ⟨h2, h20, hs, -⟩, hR⟩
    exact ⟨⟨h2, h20, hs⟩, hR⟩
  · rintro ⟨⟨h2, h20, hs⟩, hR⟩
    exact ⟨⟨h2, h20⟩, ⟨h2, h20, hs, by decide⟩, hR⟩

end Rules

end Crosstalk
