import Crosstalk.ObjectMemory.Entry

/-!
# Reading the object memory

The accessors of `ObjectMemory.Entry` as functions of the memory: `entry` is
the decoded first word of an object table entry, `location` the second,
`chunkWord` a word of the chunk it describes. Every accessor gets its rules
here, and no later proof unfolds one.
-/

namespace Crosstalk

/-- The fields of the first word of an object table entry. -/
structure Entry where
  count : Nat
  odd : Nat
  pointer : Nat
  free : Nat
  segment : Nat
  deriving DecidableEq, Repr

def decodeEntry (w : Nat) : Entry where
  count := field w 8 8
  odd := field w 7 1
  pointer := field w 6 1
  free := field w 5 1
  segment := field w 0 4

section Decode

variable {w v : Nat}

theorem decodeEntry_putCount (hv : v < 256) :
    decodeEntry (putField w 8 8 v) = { decodeEntry w with count := v } := by
  have hv : v < 2 ^ 8 := hv
  simp [decodeEntry, field_putField_same hv, field_putField_disjoint hv]

theorem decodeEntry_putOdd (hv : v < 2) :
    decodeEntry (putField w 7 1 v) = { decodeEntry w with odd := v } := by
  have hv : v < 2 ^ 1 := hv
  simp [decodeEntry, field_putField_same hv, field_putField_disjoint hv]

theorem decodeEntry_putPointer (hv : v < 2) :
    decodeEntry (putField w 6 1 v) = { decodeEntry w with pointer := v } := by
  have hv : v < 2 ^ 1 := hv
  simp [decodeEntry, field_putField_same hv, field_putField_disjoint hv]

theorem decodeEntry_putFree (hv : v < 2) :
    decodeEntry (putField w 5 1 v) = { decodeEntry w with free := v } := by
  have hv : v < 2 ^ 1 := hv
  simp [decodeEntry, field_putField_same hv, field_putField_disjoint hv]

theorem decodeEntry_putSegment (hv : v < 16) :
    decodeEntry (putField w 0 4 v) = { decodeEntry w with segment := v } := by
  have hv : v < 2 ^ 4 := hv
  simp [decodeEntry, field_putField_same hv, field_putField_disjoint hv]

theorem decodeEntry_zero : decodeEntry 0 = ⟨0, 0, 0, 0, 0⟩ := by simp [decodeEntry]

theorem decodeEntry_segment : ∀ u < 15, decodeEntry u = ⟨0, 0, 0, 0, u⟩ := by decide

end Decode

namespace ObjectMemory

variable (m : ObjectMemory) (p : Nat)

def entry : Entry := decodeEntry (m.word objectTableSegment p)

/-- The second word of the entry. -/
def location : Nat := m.word objectTableSegment (p + 1)

def chunkWord (i : Nat) : Nat := m.word (m.entry p).segment (m.location p + i)

theorem count_lt : (m.entry p).count < 256 := field_lt _ 8 8
theorem odd_lt : (m.entry p).odd < 2 := field_lt _ 7 1
theorem pointer_lt : (m.entry p).pointer < 2 := field_lt _ 6 1
theorem free_lt : (m.entry p).free < 2 := field_lt _ 5 1
theorem segment_lt : (m.entry p).segment < 16 := field_lt _ 0 4
theorem location_lt : m.location p < 65536 := m.word_lt _ _
theorem chunkWord_lt (i : Nat) : m.chunkWord p i < 65536 := m.word_lt _ _

/-! ## Stores -/

def setField (k n v : Nat) : ObjectMemory :=
  m.setWord objectTableSegment p (putField (m.word objectTableSegment p) k n v)
def setCount (v : Nat) : ObjectMemory := m.setField p 8 8 v
def setOdd (v : Nat) : ObjectMemory := m.setField p 7 1 v
def setPointer (v : Nat) : ObjectMemory := m.setField p 6 1 v
def setFree (v : Nat) : ObjectMemory := m.setField p 5 1 v
def setSegment (v : Nat) : ObjectMemory := m.setField p 0 4 v
def setLocation (v : Nat) : ObjectMemory := m.setWord objectTableSegment (p + 1) v
def setChunkWord (i v : Nat) : ObjectMemory :=
  m.setWord (m.entry p).segment (m.location p + i) v

/-! ## What the stores change

A store in the object table leaves the heap alone, and a store in a heap
segment leaves the object table alone. Entries occupy an even word and the odd
word after it, so that two of them never overlap. -/

section Stores

variable {m p} {q s w v i j k n : Nat}

theorem word_setField_of_ne (h : ¬(s = objectTableSegment ∧ w = p)) :
    (m.setField p k n v).word s w = m.word s w := by
  rw [setField, word_setWord, if_neg h]

theorem entry_setField_self (hv : v < 2 ^ n) (h16 : k + n ≤ 16) :
    (m.setField p k n v).entry p =
      decodeEntry (putField (m.word objectTableSegment p) k n v) := by
  rw [entry, setField, word_setWord, if_pos ⟨rfl, rfl⟩,
    Nat.mod_eq_of_lt (putField_lt (m.word_lt _ _) hv h16)]

theorem entry_setField_of_ne (h : q ≠ p) : (m.setField p k n v).entry q = m.entry q := by
  rw [entry, word_setField_of_ne (by simp [h]), entry]

theorem location_setField (h : q + 1 ≠ p) :
    (m.setField p k n v).location q = m.location q := by
  rw [location, word_setField_of_ne (by simp [h]), location]

theorem entry_setCount (hv : v < 256) :
    (m.setCount p v).entry q = if q = p then { m.entry p with count := v } else m.entry q := by
  split
  · next h => rw [h, setCount, entry_setField_self hv (by omega), decodeEntry_putCount hv, entry]
  · next h => exact entry_setField_of_ne h

theorem entry_setOdd (hv : v < 2) :
    (m.setOdd p v).entry q = if q = p then { m.entry p with odd := v } else m.entry q := by
  split
  · next h => rw [h, setOdd, entry_setField_self hv (by omega), decodeEntry_putOdd hv, entry]
  · next h => exact entry_setField_of_ne h

theorem entry_setPointer (hv : v < 2) :
    (m.setPointer p v).entry q =
      if q = p then { m.entry p with pointer := v } else m.entry q := by
  split
  · next h =>
      rw [h, setPointer, entry_setField_self hv (by omega), decodeEntry_putPointer hv, entry]
  · next h => exact entry_setField_of_ne h

theorem entry_setFree (hv : v < 2) :
    (m.setFree p v).entry q = if q = p then { m.entry p with free := v } else m.entry q := by
  split
  · next h => rw [h, setFree, entry_setField_self hv (by omega), decodeEntry_putFree hv, entry]
  · next h => exact entry_setField_of_ne h

theorem entry_setSegment (hv : v < 16) :
    (m.setSegment p v).entry q =
      if q = p then { m.entry p with segment := v } else m.entry q := by
  split
  · next h =>
      rw [h, setSegment, entry_setField_self hv (by omega), decodeEntry_putSegment hv, entry]
  · next h => exact entry_setField_of_ne h

theorem entry_setLocation (h : q ≠ p + 1) : (m.setLocation p v).entry q = m.entry q := by
  rw [entry, setLocation, word_setWord, if_neg (by simp [h]), entry]

theorem location_setLocation (hv : v < 65536) :
    (m.setLocation p v).location q = if q = p then v else m.location q := by
  rw [location, setLocation, word_setWord, Nat.mod_eq_of_lt hv]
  simp only [true_and, Nat.add_right_cancel_iff, location]

theorem word_setLocation_of_ne (h : ¬(s = objectTableSegment ∧ w = p + 1)) :
    (m.setLocation p v).word s w = m.word s w := by
  rw [setLocation, word_setWord, if_neg h]

/-- A store of the first word of an entry. -/
theorem entry_setWord_entry (hv : v < 65536) :
    (m.setWord objectTableSegment p v).entry q = if q = p then decodeEntry v else m.entry q := by
  rw [entry, word_setWord, Nat.mod_eq_of_lt hv]
  simp only [true_and]
  split <;> rfl

theorem location_setWord_entry (h : q + 1 ≠ p) :
    (m.setWord objectTableSegment p v).location q = m.location q := by
  rw [location, word_setWord, if_neg (by simp [h]), location]

/-- A store in a heap segment, at word `w` of segment `s`. -/
theorem entry_setWord (h : s ≠ objectTableSegment) : (m.setWord s w v).entry q = m.entry q := by
  rw [entry, word_setWord, if_neg (fun hs => h hs.1.symm), entry]

theorem location_setWord (h : s ≠ objectTableSegment) :
    (m.setWord s w v).location q = m.location q := by
  rw [location, word_setWord, if_neg (fun hs => h hs.1.symm), location]

theorem chunkWord_setWord (h : s ≠ objectTableSegment) (hv : v < 65536) :
    (m.setWord s w v).chunkWord q j =
      if (m.entry q).segment = s ∧ m.location q + j = w then v else m.chunkWord q j := by
  rw [chunkWord, entry_setWord h, location_setWord h, word_setWord, Nat.mod_eq_of_lt hv, chunkWord]

theorem entry_setChunkWord (h : (m.entry p).segment ≠ objectTableSegment) :
    (m.setChunkWord p i v).entry q = m.entry q := entry_setWord h

theorem location_setChunkWord (h : (m.entry p).segment ≠ objectTableSegment) :
    (m.setChunkWord p i v).location q = m.location q := location_setWord h

theorem chunkWord_setChunkWord (h : (m.entry p).segment ≠ objectTableSegment)
    (hv : v < 65536) :
    (m.setChunkWord p i v).chunkWord q j =
      if (m.entry q).segment = (m.entry p).segment ∧ m.location q + j = m.location p + i then v
      else m.chunkWord q j := chunkWord_setWord h hv

end Stores

end ObjectMemory

/-! ## Rules of the accessors -/

section Rules

open ObjectMemory

variable {m : ObjectMemory} {p v i : Nat} {Q : Nat → ObjectMemory → Prop}
  {R : Unit → ObjectMemory → Prop}

/-- The object table index `p` names an entry. -/
abbrev IsEntry (p : Nat) : Prop := p % 2 = 0 ∧ p < 65536

theorem wp_ot : Wp (ot p) Q m ↔ IsEntry p ∧ Q (m.word objectTableSegment p) m := by
  simp only [ot, cantBeIntegerObject, segmentWord, wp_bind, wp_check, wp_get, wp_pure,
    objectTableStart, Nat.zero_add]
  constructor
  · rintro ⟨hp, -, hw, hQ⟩
    exact ⟨⟨by omega, hw⟩, hQ⟩
  · rintro ⟨⟨hp, hw⟩, hQ⟩
    exact ⟨by omega, by decide, hw, hQ⟩

theorem wp_otPut : Wp (otPut p v) R m ↔
    (IsEntry p ∧ v < 65536) ∧ R () (m.setWord objectTableSegment p v) := by
  simp only [otPut, cantBeIntegerObject, segmentWordPut, wp_bind, wp_check, wp_modify,
    objectTableStart, Nat.zero_add]
  constructor
  · rintro ⟨hp, -, hw, hv, hR⟩
    exact ⟨⟨⟨by omega, hw⟩, hv⟩, hR⟩
  · rintro ⟨⟨⟨hp, hw⟩, hv⟩, hR⟩
    exact ⟨by omega, by decide, hw, hv, hR⟩

@[simp] theorem wp_otBitsTo {f l : Nat} :
    Wp (otBitsTo p f l) Q m ↔
      IsEntry p ∧ Q (field (m.word objectTableSegment p) (15 - l) (l - f + 1)) m := by
  simp [otBitsTo, segmentWordBitsTo, cantBeIntegerObject, and_assoc]

@[simp] theorem wlp_otBitsTo {f l : Nat} :
    Wlp (otBitsTo p f l) Q m ↔
      (IsEntry p → Q (field (m.word objectTableSegment p) (15 - l) (l - f + 1)) m) := by
  simp [otBitsTo, segmentWordBitsTo, cantBeIntegerObject]

theorem wp_otBitsToPut {f l : Nat} (h16 : l - f + 1 ≤ 16) :
    Wp (otBitsToPut p f l v) R m ↔
      (IsEntry p ∧ v < 2 ^ (l - f + 1)) ∧ R () (m.setField p (15 - l) (l - f + 1) v) := by
  have h : v < 2 ^ (l - f + 1) → v < 65536 := fun hv =>
    Nat.lt_of_lt_of_le hv (Nat.pow_le_pow_right (by omega) h16 : _ ≤ 2 ^ 16)
  simp only [otBitsToPut, segmentWordBitsToPut, cantBeIntegerObject, wp_bind, wp_check,
    wp_modify, and_fieldMask_eq_self, setField, segmentSize, objectTableStart,
    Nat.zero_add]
  constructor
  · rintro ⟨hp, -, hw, -, hv, hR⟩
    exact ⟨⟨⟨by omega, by omega⟩, hv⟩, by simpa using hR⟩
  · rintro ⟨⟨⟨hp, hw⟩, hv⟩, hR⟩
    exact ⟨by omega, by decide, by omega, h hv, hv, by simpa using hR⟩

theorem wlp_otBitsToPut {f l : Nat} (h16 : l - f + 1 ≤ 16) :
    Wlp (otBitsToPut p f l v) R m ↔
      (IsEntry p → v < 2 ^ (l - f + 1) → R () (m.setField p (15 - l) (l - f + 1) v)) := by
  have h : v < 2 ^ (l - f + 1) → v < 65536 := fun hv =>
    Nat.lt_of_lt_of_le hv (Nat.pow_le_pow_right (by omega) h16 : _ ≤ 2 ^ 16)
  simp only [otBitsToPut, segmentWordBitsToPut, cantBeIntegerObject, wlp_bind, wlp_check,
    wlp_modify, and_fieldMask_eq_self, setField, segmentSize, objectTableStart,
    Nat.zero_add]
  constructor
  · rintro hR ⟨hp, hw⟩ hv
    simpa using hR (by omega) (by decide) (by omega) (h hv) hv
  · rintro hR hp - hw - hv
    simpa using hR ⟨by omega, by omega⟩ hv

@[simp] theorem wp_countBitsOf :
    Wp (countBitsOf p) Q m ↔ IsEntry p ∧ Q (m.entry p).count m := wp_otBitsTo

@[simp] theorem wlp_countBitsOf :
    Wlp (countBitsOf p) Q m ↔ (IsEntry p → Q (m.entry p).count m) := wlp_otBitsTo

@[simp] theorem wp_countBitsOfPut :
    Wp (countBitsOfPut p v) R m ↔ (IsEntry p ∧ v < 256) ∧ R () (m.setCount p v) :=
  wp_otBitsToPut (by omega)

@[simp] theorem wp_oddBitOf :
    Wp (oddBitOf p) Q m ↔ IsEntry p ∧ Q (m.entry p).odd m := wp_otBitsTo

@[simp] theorem wlp_oddBitOf :
    Wlp (oddBitOf p) Q m ↔ (IsEntry p → Q (m.entry p).odd m) := wlp_otBitsTo

@[simp] theorem wp_oddBitOfPut :
    Wp (oddBitOfPut p v) R m ↔ (IsEntry p ∧ v < 2) ∧ R () (m.setOdd p v) :=
  wp_otBitsToPut (by omega)

@[simp] theorem wp_pointerBitOf :
    Wp (pointerBitOf p) Q m ↔ IsEntry p ∧ Q (m.entry p).pointer m := wp_otBitsTo

@[simp] theorem wlp_pointerBitOf :
    Wlp (pointerBitOf p) Q m ↔ (IsEntry p → Q (m.entry p).pointer m) := wlp_otBitsTo

@[simp] theorem wp_pointerBitOfPut :
    Wp (pointerBitOfPut p v) R m ↔ (IsEntry p ∧ v < 2) ∧ R () (m.setPointer p v) :=
  wp_otBitsToPut (by omega)

@[simp] theorem wp_freeBitOf :
    Wp (freeBitOf p) Q m ↔ IsEntry p ∧ Q (m.entry p).free m := wp_otBitsTo

@[simp] theorem wlp_freeBitOf :
    Wlp (freeBitOf p) Q m ↔ (IsEntry p → Q (m.entry p).free m) := wlp_otBitsTo

@[simp] theorem wp_freeBitOfPut :
    Wp (freeBitOfPut p v) R m ↔ (IsEntry p ∧ v < 2) ∧ R () (m.setFree p v) :=
  wp_otBitsToPut (by omega)

@[simp] theorem wp_segmentBitsOf :
    Wp (segmentBitsOf p) Q m ↔ IsEntry p ∧ Q (m.entry p).segment m := wp_otBitsTo

@[simp] theorem wlp_segmentBitsOf :
    Wlp (segmentBitsOf p) Q m ↔ (IsEntry p → Q (m.entry p).segment m) := wlp_otBitsTo

@[simp] theorem wp_segmentBitsOfPut :
    Wp (segmentBitsOfPut p v) R m ↔ (IsEntry p ∧ v < 16) ∧ R () (m.setSegment p v) :=
  wp_otBitsToPut (by omega)

@[simp] theorem wlp_segmentBitsOfPut :
    Wlp (segmentBitsOfPut p v) R m ↔ (IsEntry p → v < 16 → R () (m.setSegment p v)) :=
  wlp_otBitsToPut (by omega)

@[simp] theorem wp_locationBitsOf :
    Wp (locationBitsOf p) Q m ↔ IsEntry p ∧ Q (m.location p) m := by
  simp only [locationBitsOf, segmentWord, cantBeIntegerObject, wp_bind, wp_check, wp_get,
    wp_pure, location, segmentSize, objectTableStart, Nat.zero_add]
  constructor
  · rintro ⟨hp, -, hw, hQ⟩
    exact ⟨⟨by omega, by omega⟩, by simpa using hQ⟩
  · rintro ⟨⟨hp, hw⟩, hQ⟩
    exact ⟨by omega, by decide, by omega, by simpa using hQ⟩

@[simp] theorem wlp_locationBitsOf :
    Wlp (locationBitsOf p) Q m ↔ (IsEntry p → Q (m.location p) m) := by
  simp only [locationBitsOf, segmentWord, cantBeIntegerObject, wlp_bind, wlp_check, wlp_get,
    wlp_pure, location, segmentSize, objectTableStart, Nat.zero_add]
  constructor
  · rintro hQ ⟨hp, hw⟩
    simpa using hQ (by omega) (by decide) (by omega)
  · rintro hQ hp - hw
    simpa using hQ ⟨by omega, by omega⟩

@[simp] theorem wp_locationBitsOfPut :
    Wp (locationBitsOfPut p v) R m ↔ (IsEntry p ∧ v < 65536) ∧ R () (m.setLocation p v) := by
  simp only [locationBitsOfPut, segmentWordPut, cantBeIntegerObject, wp_bind, wp_check,
    wp_modify, setLocation, segmentSize, objectTableStart, Nat.zero_add]
  constructor
  · rintro ⟨hp, -, hw, hv, hR⟩
    exact ⟨⟨⟨by omega, by omega⟩, hv⟩, by simpa using hR⟩
  · rintro ⟨⟨⟨hp, hw⟩, hv⟩, hR⟩
    exact ⟨by omega, by decide, by omega, hv, by simpa using hR⟩

@[simp] theorem wlp_locationBitsOfPut :
    Wlp (locationBitsOfPut p v) R m ↔ (IsEntry p → v < 65536 → R () (m.setLocation p v)) := by
  simp only [locationBitsOfPut, segmentWordPut, cantBeIntegerObject, wlp_bind, wlp_check,
    wlp_modify, setLocation, segmentSize, objectTableStart, Nat.zero_add]
  constructor
  · rintro hR ⟨hp, hw⟩ hv
    simpa using hR (by omega) (by decide) (by omega) hv
  · rintro hR hp - hw hv
    simpa using hR ⟨by omega, by omega⟩ hv

@[simp] theorem wp_heapChunkOfWord :
    Wp (heapChunkOfWord p i) Q m ↔
      (IsEntry p ∧ m.location p + i < 65536) ∧ Q (m.chunkWord p i) m := by
  have h := m.segment_lt p
  simp only [heapChunkOfWord, segmentWord, wp_bind, wp_segmentBitsOf, wp_locationBitsOf,
    wp_check, wp_get, wp_pure, chunkWord]
  constructor
  · rintro ⟨hp, -, -, hw, hQ⟩
    exact ⟨⟨hp, hw⟩, hQ⟩
  · rintro ⟨⟨hp, hw⟩, hQ⟩
    exact ⟨hp, hp, h, hw, hQ⟩

@[simp] theorem wlp_heapChunkOfWord :
    Wlp (heapChunkOfWord p i) Q m ↔
      (IsEntry p → m.location p + i < 65536 → Q (m.chunkWord p i) m) := by
  have h := m.segment_lt p
  simp only [heapChunkOfWord, segmentWord, wlp_bind, wlp_segmentBitsOf, wlp_locationBitsOf,
    wlp_check, wlp_get, wlp_pure, chunkWord]
  exact ⟨fun hQ hp hw => hQ hp hp h hw, fun hQ hp _ _ hw => hQ hp hw⟩

@[simp] theorem wp_heapChunkOfWordPut :
    Wp (heapChunkOfWordPut p i v) R m ↔
      (IsEntry p ∧ m.location p + i < 65536 ∧ v < 65536) ∧ R () (m.setChunkWord p i v) := by
  have h := m.segment_lt p
  simp only [heapChunkOfWordPut, segmentWordPut, wp_bind, wp_segmentBitsOf,
    wp_locationBitsOf, wp_check, wp_modify, setChunkWord]
  constructor
  · rintro ⟨hp, -, -, hw, hv, hR⟩
    exact ⟨⟨hp, hw, hv⟩, hR⟩
  · rintro ⟨⟨hp, hw, hv⟩, hR⟩
    exact ⟨hp, hp, h, hw, hv, hR⟩

@[simp] theorem wlp_heapChunkOfWordPut :
    Wlp (heapChunkOfWordPut p i v) R m ↔
      (IsEntry p → m.location p + i < 65536 → v < 65536 → R () (m.setChunkWord p i v)) := by
  have h := m.segment_lt p
  simp only [heapChunkOfWordPut, segmentWordPut, wlp_bind, wlp_segmentBitsOf,
    wlp_locationBitsOf, wlp_check, wlp_modify, setChunkWord]
  exact ⟨fun hR hp hw hv => hR hp hp h hw hv, fun hR hp _ _ hw hv => hR hp hw hv⟩

@[simp] theorem wp_sizeBitsOf :
    Wp (sizeBitsOf p) Q m ↔ (IsEntry p ∧ m.location p + 0 < 65536) ∧ Q (m.chunkWord p 0) m :=
  wp_heapChunkOfWord

@[simp] theorem wlp_sizeBitsOf :
    Wlp (sizeBitsOf p) Q m ↔
      (IsEntry p → m.location p + 0 < 65536 → Q (m.chunkWord p 0) m) :=
  wlp_heapChunkOfWord

@[simp] theorem wp_sizeBitsOfPut :
    Wp (sizeBitsOfPut p v) R m ↔
      (IsEntry p ∧ m.location p + 0 < 65536 ∧ v < 65536) ∧ R () (m.setChunkWord p 0 v) :=
  wp_heapChunkOfWordPut

@[simp] theorem wlp_sizeBitsOfPut :
    Wlp (sizeBitsOfPut p v) R m ↔
      (IsEntry p → m.location p + 0 < 65536 → v < 65536 → R () (m.setChunkWord p 0 v)) :=
  wlp_heapChunkOfWordPut

@[simp] theorem wp_classBitsOf :
    Wp (classBitsOf p) Q m ↔ (IsEntry p ∧ m.location p + 1 < 65536) ∧ Q (m.chunkWord p 1) m :=
  wp_heapChunkOfWord

@[simp] theorem wlp_classBitsOf :
    Wlp (classBitsOf p) Q m ↔
      (IsEntry p → m.location p + 1 < 65536 → Q (m.chunkWord p 1) m) :=
  wlp_heapChunkOfWord

@[simp] theorem wp_classBitsOfPut :
    Wp (classBitsOfPut p v) R m ↔
      (IsEntry p ∧ m.location p + 1 < 65536 ∧ v < 65536) ∧ R () (m.setChunkWord p 1 v) :=
  wp_heapChunkOfWordPut

@[simp] theorem wlp_classBitsOfPut :
    Wlp (classBitsOfPut p v) R m ↔
      (IsEntry p → m.location p + 1 < 65536 → v < 65536 → R () (m.setChunkWord p 1 v)) :=
  wlp_heapChunkOfWordPut

end Rules

end Crosstalk
