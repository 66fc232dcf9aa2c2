import Crosstalk.ObjectMemory.View

/-!
# Reading and writing fields

The part of the interface to the bytecode interpreter that neither counts
references nor allocates: SmallIntegers, lengths, classes and the words of an
object.
-/

namespace Crosstalk

/-! ## SmallIntegers -/

def isIntegerValue (valueWord : Int) : Bool := -16384 ≤ valueWord && valueWord ≤ 16383

/-- The cast to `int16_t` reads the word in two's complement. -/
def integerValueOf (objectPointer : Nat) : Int :=
  (Int.bmod (objectPointer &&& 0xFFFE : Nat) 65536).tdiv 2

def integerObjectOf (value : Int) : Nat := ((2 * value + 1) % 65536).toNat

/-! ## Objects -/

def fetchWordLengthOf (objectPointer : Nat) : OM Int := do
  return (← sizeBitsOf objectPointer : Int) - headerSize

def fetchByteLengthOf (objectPointer : Nat) : OM Int := do
  return (← fetchWordLengthOf objectPointer) * 2 - (← oddBitOf objectPointer)

def fetchClassOf (objectPointer : Nat) : OM Nat := do
  if isIntegerObject objectPointer then
    return classSmallInteger
  else
    classBitsOf objectPointer

def fetchWordOfObject (wordIndex : Int) (objectPointer : Nat) : OM Nat := do
  check (0 ≤ wordIndex ∧ wordIndex < (← fetchWordLengthOf objectPointer))
  heapChunkOfWord objectPointer (headerSize + wordIndex.toNat)

def fetchPointerOfObject (fieldIndex : Int) (objectPointer : Nat) : OM Nat := do
  check (0 ≤ fieldIndex ∧ fieldIndex < (← fetchWordLengthOf objectPointer))
  heapChunkOfWord objectPointer (headerSize + fieldIndex.toNat)

def storeWordOfObjectWithValue (wordIndex : Int) (objectPointer valueWord : Nat) :
    OM Unit := do
  check (0 ≤ wordIndex ∧ wordIndex < (← fetchWordLengthOf objectPointer))
  heapChunkOfWordPut objectPointer (headerSize + wordIndex.toNat) valueWord

/-! ## Rules -/

section Rules

variable {m : ObjectMemory} {p v : Nat} {i : Int}

@[simp] theorem wp_fetchWordLengthOf {Q : Int → ObjectMemory → Prop} :
    Wp (fetchWordLengthOf p) Q m ↔
      (IsEntry p ∧ m.location p + 0 < 65536) ∧ Q ((m.chunkWord p 0 : Int) - headerSize) m := by
  simp only [fetchWordLengthOf, wp_bind, wp_sizeBitsOf, wp_pure]

@[simp] theorem wlp_fetchWordLengthOf {Q : Int → ObjectMemory → Prop} :
    Wlp (fetchWordLengthOf p) Q m ↔
      (IsEntry p → m.location p + 0 < 65536 →
        Q ((m.chunkWord p 0 : Int) - headerSize) m) := by
  simp only [fetchWordLengthOf, wlp_bind, wlp_sizeBitsOf, wlp_pure]

theorem wp_fetchClassOf (hp : p % 2 = 0) {Q : Nat → ObjectMemory → Prop} :
    Wp (fetchClassOf p) Q m ↔ (IsEntry p ∧ m.location p + 1 < 65536) ∧ Q (m.chunkWord p 1) m := by
  have hn : ¬isIntegerObject p := by
    rw [isIntegerObject]
    omega
  rw [fetchClassOf, if_neg hn, wp_classBitsOf]

theorem wp_fetchByteLengthOf {Q : Int → ObjectMemory → Prop} :
    Wp (fetchByteLengthOf p) Q m ↔ (IsEntry p ∧ m.location p + 0 < 65536) ∧
      Q (((m.chunkWord p 0 : Int) - headerSize) * 2 - (m.entry p).odd) m := by
  rw [fetchByteLengthOf, wp_bind, wp_fetchWordLengthOf, wp_bind, wp_oddBitOf, wp_pure]
  exact ⟨fun h => ⟨h.1, h.2.2⟩, fun h => ⟨h.1, h.1.1, h.2⟩⟩

/-- Field `i` of `p` exists: its index is within the size of `p`, and its word
within the segment. -/
structure HasField (m : ObjectMemory) (p : Nat) (i : Int) : Prop where
  isEntry : IsEntry p
  nonneg : 0 ≤ i
  lt_size : i + headerSize < m.chunkWord p 0
  inside : m.location p + (headerSize + i.toNat) < 65536

theorem wp_fetchWordOfObject {Q : Nat → ObjectMemory → Prop} :
    Wp (fetchWordOfObject i p) Q m ↔
      HasField m p i ∧ Q (m.chunkWord p (headerSize + i.toNat)) m := by
  simp only [fetchWordOfObject, wp_bind, wp_fetchWordLengthOf, wp_check, wp_heapChunkOfWord]
  constructor
  · rintro ⟨-, ⟨h0, h1⟩, ⟨he, hw⟩, hQ⟩
    exact ⟨⟨he, h0, by omega, hw⟩, hQ⟩
  · rintro ⟨h, hQ⟩
    have h1 := h.lt_size
    have h2 := h.inside
    exact ⟨⟨h.isEntry, by omega⟩, ⟨h.nonneg, by omega⟩, ⟨h.isEntry, h2⟩, hQ⟩

theorem fetchPointerOfObject_eq : fetchPointerOfObject = fetchWordOfObject := rfl

theorem wp_storeWordOfObjectWithValue {R : Unit → ObjectMemory → Prop} :
    Wp (storeWordOfObjectWithValue i p v) R m ↔
      (HasField m p i ∧ v < 65536) ∧ R () (m.setChunkWord p (headerSize + i.toNat) v) := by
  simp only [storeWordOfObjectWithValue, wp_bind, wp_fetchWordLengthOf, wp_check,
    wp_heapChunkOfWordPut]
  constructor
  · rintro ⟨-, ⟨h0, h1⟩, ⟨he, hw, hv⟩, hR⟩
    exact ⟨⟨⟨he, h0, by omega, hw⟩, hv⟩, hR⟩
  · rintro ⟨⟨h, hv⟩, hR⟩
    have h1 := h.lt_size
    have h2 := h.inside
    exact ⟨⟨h.isEntry, by omega⟩, ⟨h.nonneg, by omega⟩, ⟨h.isEntry, h2, hv⟩, hR⟩

end Rules

/-! ## Memories with a few objects -/

namespace ObjectMemory

def blank : ObjectMemory where
  wordMemory := ⟨fun _ _ => 0, fun _ _ => by decide⟩
  currentSegment := 0
  freeWords := 0
  freeOops := 0

/-- The memory with the object `p`: its entry and the words of its chunk. -/
def place (m : ObjectMemory) (p entryWord location : Nat) (words : List Nat) : ObjectMemory :=
  words.zipIdx.foldl (fun m (w, i) => m.setWord (decodeEntry entryWord).segment (location + i) w)
    ((m.setWord objectTableSegment p entryWord).setWord objectTableSegment (p + 1) location)

end ObjectMemory

end Crosstalk
