import Crosstalk.Interpreter.Collection
import Crosstalk.Interpreter.Semaphores

/-!
# New objects with bytes

What `instantiateClass_withBytes` leaves in the memory when its allocation
succeeds, and the bytes of such an object: `storeBytes` puts them there and
`fetchByteOfObject` reads them.
-/

namespace Crosstalk

open ObjectMemory

def instantiateClassWithBytes (classPointer length : Nat) : IM Nat :=
  allocateOddPointerExtraClass (headerSize + (length + 1) / 2) (length % 2) 0 0 classPointer

/-- An argument of type `int`. A negative one fails the assertion of the store. -/
def storeByteOfObjectWithInt (byteIndex objectPointer : Nat) (valueByte : Int) : OM Unit := do
  check (0 ≤ valueByte)
  storeByteOfObjectWithValue byteIndex objectPointer valueByte.toNat

/-! ## Allocation -/

/-- The object fits in the heap: the allocation ends, with the chunk `p` of a heap
segment. -/
structure Allocates (i : Interpreter) (classPointer size p : Nat) (j : Interpreter) : Prop where
  run : (do inMemory (countUp classPointer); allocateChunk size : IM Nat) i = some (p, j)
  isEntry : IsEntry p
  heap : (j.memory.entry p).segment ≠ objectTableSegment
  inside : j.memory.location p + size ≤ heapSpaceStop + 1

/-- `p` is an object of the class with `length` bytes. -/
structure IsByteObject (m : ObjectMemory) (p classPointer length : Nat) : Prop where
  isEntry : IsEntry p
  heap : (m.entry p).segment ≠ objectTableSegment
  inside : m.location p + (headerSize + (length + 1) / 2) ≤ heapSpaceStop + 1
  size : m.chunkWord p 0 = headerSize + (length + 1) / 2
  odd : (m.entry p).odd = length % 2
  fetchClass : m.chunkWord p 1 = classPointer

variable {m m' t : ObjectMemory} {p c n k : Nat} {i j : Interpreter}

/-- The entry of `p` is `e`, and its chunk, of the class `c`, at `l`. -/
structure ChunkAt (m : ObjectMemory) (p : Nat) (e : Entry) (l c : Nat) : Prop where
  entry_eq : m.entry p = e
  location_eq : m.location p = l
  class_eq : m.chunkWord p 1 = c

theorem ChunkAt.setChunkWord {e : Entry} {l v : Nat} (h : ChunkAt m p e l c)
    (hheap : e.segment ≠ objectTableSegment) (hk : k ≠ 1) (hv : v < 65536) :
    ChunkAt (m.setChunkWord p k v) p e l c := by
  have hseg : (m.entry p).segment ≠ objectTableSegment := by rwa [h.entry_eq]
  refine ⟨(entry_setChunkWord hseg).trans h.entry_eq,
    (location_setChunkWord hseg).trans h.location_eq, ?_⟩
  rw [chunkWord_setChunkWord hseg hv, if_neg (by omega), h.class_eq]

/-- The stores that make a chunk an object. -/
theorem wp_makeObject {e : Entry} {l : Nat} (hp : IsEntry p) (he : m.entry p = e)
    (hl : m.location p = l) (hheap : e.segment ≠ objectTableSegment)
    (hin : l + (headerSize + k) ≤ heapSpaceStop + 1) (hc : c < 65536) (odd : Nat) (hodd : odd < 2) :
    Wp (do
      oddBitOfPut p odd
      pointerBitOfPut p 0
      classBitsOfPut p c
      let defaultValue := if (0 : Nat) = 0 then 0 else nilPointer
      forN (headerSize + k - headerSize) fun i =>
        heapChunkOfWordPut p (headerSize + i) defaultValue
      sizeBitsOfPut p (headerSize + k)
      modify fun m => { m with freeOops := m.freeOops - 1 } : OM Unit)
      (fun _ t => t.entry p = { e with odd, pointer := 0 } ∧ t.location p = l ∧
        t.chunkWord p 0 = headerSize + k ∧ t.chunkWord p 1 = c) m := by
  have hentry : ((m.setOdd p odd).setPointer p 0).entry p = { e with odd, pointer := 0 } := by
    rw [entry_setPointer (by decide), if_pos rfl, entry_setOdd hodd, if_pos rfl, he]
  have hloc : ((m.setOdd p odd).setPointer p 0).location p = l := by
    rw [setPointer, setOdd, location_setField (by omega), location_setField (by omega), hl]
  have hseg : (((m.setOdd p odd).setPointer p 0).entry p).segment ≠ objectTableSegment := by
    rwa [hentry]
  have hsize : headerSize = 2 := rfl
  have hstop : heapSpaceStop = 65514 := rfl
  have hplaced : ChunkAt (((m.setOdd p odd).setPointer p 0).setChunkWord p 1 c) p
      { e with odd, pointer := 0 } l c := by
    refine ⟨(entry_setChunkWord hseg).trans hentry, (location_setChunkWord hseg).trans hloc, ?_⟩
    rw [chunkWord_setChunkWord hseg hc, if_pos ⟨rfl, rfl⟩]
  simp only [wp_bind, wp_oddBitOfPut, wp_pointerBitOfPut, wp_classBitsOfPut, hloc]
  refine ⟨⟨hp, hodd⟩, ⟨hp, by decide⟩, ⟨hp, by omega, hc⟩, ?_⟩
  refine (wp_forN (fun _ t => ChunkAt t p { e with odd, pointer := 0 } l c) ?_ hplaced).mono ?_
  · intro f t hf ht
    rw [wp_heapChunkOfWordPut, ht.location_eq]
    exact ⟨⟨hp, by omega, by decide⟩, ht.setChunkWord hheap (by omega) (by decide)⟩
  · intro _ t ht
    have hlt : headerSize + k < 65536 := by omega
    have hkeep := ht.setChunkWord hheap (k := 0) (by decide) hlt
    rw [wp_sizeBitsOfPut, ht.location_eq, wp_modify]
    refine ⟨⟨hp, by omega, hlt⟩, hkeep.entry_eq, hkeep.location_eq, ?_, hkeep.class_eq⟩
    show (t.setChunkWord p 0 (headerSize + k)).chunkWord p 0 = _
    rw [chunkWord_setChunkWord (by rwa [ht.entry_eq]) hlt, if_pos ⟨rfl, rfl⟩]

theorem wp_bind_of_run {α β γ : Type} {x : IM α} {y : IM β} {f : β → IM γ} {b : β}
    {Q : γ → Interpreter → Prop} (h : (do let _ ← x; y : IM β) i = some (b, j)) :
    Wp (do let _ ← x; let b ← y; f b : IM γ) Q i ↔ Wp (f b) Q j := by
  have hrun : (do let _ ← x; let b ← y; f b : IM γ) i = f b j := by
    rw [← bind_assoc, bind_of_run h]
  rw [Wp, Wp, hrun]

/-- The new object has the class and the length that were asked for. -/
theorem wp_instantiateClassWithBytes (h : Allocates i c (headerSize + (n + 1) / 2) p j)
    (hc : c < 65536) :
    Wp (instantiateClassWithBytes c n)
      (fun q i' => q = p ∧ ∃ t, i' = j.withMemory t ∧ IsByteObject t p c n) i := by
  rw [instantiateClassWithBytes, allocateOddPointerExtraClass, Nat.add_zero]
  refine (wp_bind_of_run h.run).2 ?_
  rw [wp_bind, wp_inMemory]
  refine (wp_makeObject h.isEntry rfl rfl h.heap h.inside hc (n % 2) (by omega)).mono
    fun _ t ht => ?_
  obtain ⟨hentry, hloc, hsize, hclass⟩ := ht
  rw [wp_pure]
  refine ⟨rfl, t, rfl, h.isEntry, ?_, ?_, hsize, ?_, hclass⟩
  · rw [hentry]
    exact h.heap
  · rw [hloc]
    exact h.inside
  · rw [hentry]

/-! ## Bytes -/

variable {data : Nat → UInt8} {v : Nat}

theorem wp_storeByte {R : Unit → ObjectMemory → Prop} :
    Wp (storeByteOfObjectWithValue k p v) R m ↔
      (IsEntry p ∧ m.location p + (4 + k) / 2 < 65536 ∧ v < 65536) ∧
        R () (m.setWord (m.entry p).segment (m.location p + (4 + k) / 2)
          (putField (m.word (m.entry p).segment (m.location p + (4 + k) / 2)) (8 * ((4 + k) % 2)) 8
            (v % 256))) := by
  have hs := m.segment_lt p
  have hbyte : (4 + k) % 2 = 1 ∨ (4 + k) % 2 = 0 := by omega
  simp only [storeByteOfObjectWithValue, heapChunkOfBytePut, segmentWordBytePut, wp_bind,
    wp_segmentBitsOf, wp_locationBitsOf, wp_check, wp_modify, headerSize, segmentCount,
    segmentSize]
  constructor
  · rintro ⟨he, -, -, hw, hv, -, h⟩
    exact ⟨⟨he, hw, hv⟩, h⟩
  · rintro ⟨⟨he, hw, hv⟩, h⟩
    exact ⟨he, he, hs, hw, hv, hbyte, h⟩

theorem wp_fetchByteOfObject {Q : Nat → ObjectMemory → Prop} :
    Wp (fetchByteOfObject k p) Q m ↔ (IsEntry p ∧ m.location p + (4 + k) / 2 < 65536) ∧
      Q (m.byte (m.entry p).segment (m.firstByte p + k)) m := by
  have hs := m.segment_lt p
  have hbyte : (4 + k) % 2 = 1 ∨ (4 + k) % 2 = 0 := by omega
  have haddr : (m.firstByte p + k) / 2 = m.location p + (4 + k) / 2 ∧
      (m.firstByte p + k) % 2 = (4 + k) % 2 := by
    rw [firstByte]
    omega
  simp only [fetchByteOfObject, heapChunkOfByte, segmentWordByte, wp_bind, wp_segmentBitsOf,
    wp_locationBitsOf, wp_check, wp_get, wp_pure, headerSize, segmentCount, segmentSize, byte, haddr]
  constructor
  · rintro ⟨he, -, -, hw, -, h⟩
    exact ⟨⟨he, hw⟩, h⟩
  · rintro ⟨⟨he, hw⟩, h⟩
    exact ⟨he, he, hs, hw, hbyte, h⟩

namespace IsByteObject

variable (h : IsByteObject m p c n)

include h

theorem byteLength_eq : ((m.chunkWord p 0 : Int) - headerSize) * 2 - (m.entry p).odd = n := by
  rw [h.size, h.odd]
  omega

theorem wp_fetchByteLength {Q : Int → ObjectMemory → Prop} :
    Wp (fetchByteLengthOf p) Q m ↔ Q n m := by
  have hin := h.inside
  have hstop : heapSpaceStop = 65514 := rfl
  rw [wp_fetchByteLengthOf, h.byteLength_eq]
  exact and_iff_right ⟨h.isEntry, by omega⟩

theorem wp_fetchByte (hk : k < n) {Q : Nat → ObjectMemory → Prop} :
    Wp (fetchByteOfObject k p) Q m ↔ Q (m.byte (m.entry p).segment (m.firstByte p + k)) m := by
  have hin := h.inside
  have hstop : heapSpaceStop = 65514 := rfl
  rw [wp_fetchByteOfObject]
  exact and_iff_right ⟨h.isEntry, by omega⟩

/-- Storing bytes into the object leaves its header and its entry alone. -/
theorem of_storedBytes (hs : StoredBytes m p k data m') : IsByteObject m' p c n := by
  have hsize : headerSize = 2 := rfl
  have hword : ∀ w, w < m.location p + headerSize →
      m'.word (m.entry p).segment w = m.word (m.entry p).segment w := by
    intro w hw
    rw [word_eq_iff, hs, hs, firstByte, if_neg (by omega), if_neg (by omega)]
    exact ⟨rfl, rfl⟩
  have hentry : m'.entry p = m.entry p := by
    rw [entry, entry, hs.word h.heap.symm]
  have hloc : m'.location p = m.location p := hs.word h.heap.symm
  refine ⟨h.isEntry, by rw [hentry]; exact h.heap, by rw [hloc]; exact h.inside, ?_,
    by rw [hentry]; exact h.odd, ?_⟩
  · rw [chunkWord, hentry, hloc, hword _ (by omega)]
    exact h.size
  · rw [chunkWord, hentry, hloc, hword _ (by omega)]
    exact h.fetchClass

/-- The next byte of the object. -/
theorem wp_storeNext (hs : StoredBytes m p k data m') (hk : k < n) :
    Wp (storeByteOfObjectWithValue k p (data k).toNat) (fun _ => StoredBytes m p (k + 1) data)
      m' := by
  have h' := h.of_storedBytes hs
  have hin := h'.inside
  have hstop : heapSpaceStop = 65514 := rfl
  have hlt : (data k).toNat < 256 := (data k).toNat_lt
  have hends : Wp (storeByteOfObjectWithValue k p (data k).toNat) (fun _ _ => True) m' :=
    wp_storeByte.2 ⟨⟨h'.isEntry, by omega, by omega⟩, trivial⟩
  exact (hends.and_wlp (StoredBytes.next h.heap hs)).mono fun _ _ hboth => hboth.2

/-- The bytes that have been stored are the ones that are read. -/
theorem byte_of_storedBytes {l : Nat} (hs : StoredBytes m p l data m') (hk : k < l) :
    m'.byte (m'.entry p).segment (m'.firstByte p + k) = (data k).toNat := by
  have hentry : m'.entry p = m.entry p := by
    rw [entry, entry, hs.word h.heap.symm]
  have hloc : m'.location p = m.location p := hs.word h.heap.symm
  rw [hentry, firstByte, hloc, hs, firstByte, if_pos ⟨rfl, by omega, by omega⟩]
  rw [Nat.add_sub_cancel_left]

end IsByteObject

end Crosstalk
