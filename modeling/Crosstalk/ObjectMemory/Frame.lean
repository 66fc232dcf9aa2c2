import Crosstalk.ObjectMemory.FreeLists

/-!
# What a store leaves as it was

A store in an object table entry leaves the heap and the heads of the lists
alone, a store in a heap segment leaves the object table alone, and a store in
the words for objects leaves the heads of the chunk lists at the end of the
segment alone.
-/

namespace Crosstalk

namespace ObjectMemory

/-- The oops: all but 0, which is reserved, have an entry for an object. -/
abbrev IsOop (p : Nat) : Prop := p % 2 = 0 ∧ 2 ≤ p ∧ p ≤ 65532

variable {m m' : ObjectMemory} {p q s k v w i j n : Nat}

theorem IsOop.isEntry (h : IsOop p) : IsEntry p := ⟨h.1, by omega⟩

/-! ## The heads of the lists -/

theorem chunkHead_setWord (hv : v < 65536) : (m.setWord s w v).chunkHead n k =
    if n = s ∧ firstFreeChunkList + k = w then v else m.chunkHead n k := by
  rw [chunkHead, word_setWord, Nat.mod_eq_of_lt hv, chunkHead]

theorem freeHead_setWord (h : s ≠ objectTableSegment) :
    (m.setWord s w v).freeHead = m.freeHead := by
  rw [freeHead, word_setWord, if_neg fun hs => h hs.1.symm, freeHead]

@[simp] theorem freeHead_setFreeHead (hv : v < 65536) : (m.setFreeHead v).freeHead = v := by
  rw [freeHead, setFreeHead, word_setWord, if_pos ⟨rfl, rfl⟩, Nat.mod_eq_of_lt hv]

theorem chunkHead_setChunkHead (hv : v < 65536) : (m.setChunkHead s k v).chunkHead n j =
    if n = s ∧ j = k then v else m.chunkHead n j := by
  rw [setChunkHead, chunkHead_setWord hv]
  simp only [Nat.add_left_cancel_iff]

theorem freeHead_setChunkHead (h : s ≠ 15) : (m.setChunkHead s k v).freeHead = m.freeHead :=
  freeHead_setWord h

theorem entry_setChunkHead (h : s ≠ 15) : (m.setChunkHead s k v).entry q = m.entry q :=
  entry_setWord h

theorem location_setChunkHead (h : s ≠ 15) : (m.setChunkHead s k v).location q = m.location q :=
  location_setWord h

/-- The words for objects end before the heads of the lists. -/
theorem chunkWord_setChunkHead (hs : s ≠ 15) (h : m.location q + i < 65515) :
    (m.setChunkHead s k v).chunkWord q i = m.chunkWord q i := by
  rw [chunkWord, entry_setChunkHead hs, location_setChunkHead hs, setChunkHead, word_setWord,
    if_neg, chunkWord]
  simp only [firstFreeChunkList, heapSpaceStop, firstFreeChunkListSize, bigSize, segmentSize]
  omega

theorem entry_setFreeHead (h : q ≤ 65532) : (m.setFreeHead v).entry q = m.entry q := by
  rw [entry, setFreeHead, word_setWord, if_neg, entry]
  simp only [freePointerList, objectTableStart, objectTableSize, segmentSize]
  omega

theorem location_setFreeHead (h : q ≤ 65532) :
    (m.setFreeHead v).location q = m.location q := by
  rw [location, setFreeHead, word_setWord, if_neg, location]
  simp only [freePointerList, objectTableStart, objectTableSize, segmentSize]
  omega

/-! ## Stores in an entry -/

/-- The heap and the place of `q` in it determine its chunk. -/
theorem chunkWord_congr (hs : (m'.entry q).segment = (m.entry q).segment)
    (hl : m'.location q = m.location q) (hw : ∀ w,
      m'.word (m.entry q).segment w = m.word (m.entry q).segment w) :
    m'.chunkWord q i = m.chunkWord q i := by
  rw [chunkWord, hs, hl, hw, chunkWord]

theorem word_setField (h : s ≠ 15) : (m.setField p k n v).word s w = m.word s w :=
  word_setField_of_ne fun hw => h hw.1

theorem chunkHead_setField (h : s ≠ 15) :
    (m.setField p k n v).chunkHead s j = m.chunkHead s j := word_setField h

theorem freeHead_setField (h : p ≤ 65532) : (m.setField p k n v).freeHead = m.freeHead := by
  rw [freeHead, word_setField_of_ne, freeHead]
  simp only [freePointerList, objectTableStart, objectTableSize, segmentSize]
  omega

theorem chunkWord_setField (hseg : ((m.setField p k n v).entry q).segment = (m.entry q).segment)
    (h : q + 1 ≠ p) (hs : (m.entry q).segment ≠ 15) :
    (m.setField p k n v).chunkWord q i = m.chunkWord q i :=
  chunkWord_congr hseg (location_setField h) fun _ => word_setField hs

theorem chunkWord_setCount (hv : v < 256) (h : q + 1 ≠ p) (hs : (m.entry q).segment ≠ 15) :
    (m.setCount p v).chunkWord q i = m.chunkWord q i := by
  refine chunkWord_setField ?_ h hs
  change ((m.setCount p v).entry q).segment = _
  rw [entry_setCount hv]
  split
  · next h => rw [h]
  · rfl

theorem freeHead_setLocation (h : p ≤ 65532) : (m.setLocation p v).freeHead = m.freeHead := by
  rw [freeHead, word_setLocation_of_ne, freeHead]
  simp only [freePointerList, objectTableStart, objectTableSize, segmentSize]
  omega

/-! ## Stores in a chunk -/

theorem chunkHead_setChunkWord (hv : v < 65536) (h : m.location p + i < 65515) :
    (m.setChunkWord p i v).chunkHead s k = m.chunkHead s k := by
  rw [setChunkWord, chunkHead_setWord hv, if_neg]
  simp only [firstFreeChunkList, heapSpaceStop, firstFreeChunkListSize, bigSize, segmentSize]
  omega

theorem freeHead_setChunkWord (h : (m.entry p).segment ≠ 15) :
    (m.setChunkWord p i v).freeHead = m.freeHead := freeHead_setWord h

end ObjectMemory

end Crosstalk
