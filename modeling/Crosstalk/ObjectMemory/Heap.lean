import Crosstalk.Lib.Linked
import Crosstalk.ObjectMemory.Chunks
import Mathlib.Data.List.Nodup

/-!
# The invariant of the heap

Every heap segment is tiled by the chunks of the object table entries in use,
each of which is an allocated object or on the free list for its size. The
invariant is stated with a `Layout`, the lists and the extents of the chunks;
the sections below say what the elementary stores do to it.
-/

namespace Crosstalk

namespace ObjectMemory

/-- The lists that the memory links together, and the space that the chunk of
each entry takes. -/
structure Layout where
  freePointers : List Nat
  /-- The free chunks of a segment, by the size of their list. -/
  chunks : Nat → Nat → List Nat
  extent : Nat → Nat

/-- The layout with `p` at the head of the free list `k` of segment `s`. -/
def Layout.push (L : Layout) (s k p : Nat) : Layout :=
  { L with chunks := fun s' k' => if s' = s ∧ k' = k then p :: L.chunks s k else L.chunks s' k' }

theorem Layout.mem_push {L : Layout} {s k p s' k' q : Nat} :
    q ∈ (L.push s k p).chunks s' k' ↔ (q = p ∧ s' = s ∧ k' = k) ∨ q ∈ L.chunks s' k' := by
  rw [Layout.push]
  by_cases h : s' = s ∧ k' = k
  · obtain ⟨rfl, rfl⟩ := h
    simp
  · simp only [if_neg h]
    exact ⟨.inr, fun h' => h'.resolve_left fun h'' => h h''.2⟩

def InUse (m : ObjectMemory) (p : Nat) : Prop := IsOop p ∧ (m.entry p).free = 0

/-- The chunks in use do not overlap and cover the words 0 to 65514 of each heap
segment, but for at most one word at the top. -/
structure Tiled (m : ObjectMemory) (extent : Nat → Nat) : Prop where
  segment_lt : ∀ p, InUse m p → (m.entry p).segment < 15
  two_le : ∀ p, InUse m p → 2 ≤ extent p
  inside : ∀ p, InUse m p → m.location p + extent p ≤ 65515
  apart : ∀ p q, InUse m p → InUse m q → p ≠ q →
    (m.entry p).segment = (m.entry q).segment →
      m.location p + extent p ≤ m.location q ∨ m.location q + extent q ≤ m.location p
  cover : ∀ s w, s < 15 → w < 65514 → ∃ p, InUse m p ∧ (m.entry p).segment = s ∧
    m.location p ≤ w ∧ w < m.location p + extent p

/-- What is known of a chunk on the free list for `k`. -/
structure FreeChunk (m : ObjectMemory) (s k p : Nat) : Prop where
  inUse : InUse m p
  segment : (m.entry p).segment = s
  segment_lt : s < 15
  two_le : 2 ≤ k
  le_bigSize : k ≤ 20
  size : k < 20 → m.chunkWord p 0 = k
  count : (m.entry p).count = 0

/-- The free lists of the memory are those of the layout. -/
structure FreeLists (m : ObjectMemory) (L : Layout) : Prop where
  pointers : Linked m.location nonPointer m.freeHead L.freePointers
  mem_pointers : ∀ p, p ∈ L.freePointers ↔ IsOop p ∧ (m.entry p).free = 1
  chunks : ∀ s k, s < 15 → 2 ≤ k → k ≤ 20 →
    Linked (m.chunkWord · 1) nonPointer (m.chunkHead s k) (L.chunks s k)
  freeChunk : ∀ s k p, p ∈ L.chunks s k → FreeChunk m s k p
  unique : ∀ s k k' p, p ∈ L.chunks s k → p ∈ L.chunks s k' → k = k'

/-- An entry in use whose chunk is not free. -/
def Allocated (m : ObjectMemory) (L : Layout) (p : Nat) : Prop :=
  InUse m p ∧ ∀ s k, p ∉ L.chunks s k

structure Heap (m : ObjectMemory) (L : Layout) : Prop where
  tiled : Tiled m L.extent
  lists : FreeLists m L
  extent_chunk : ∀ s k p, p ∈ L.chunks s k → L.extent p = m.chunkWord p 0
  extent_allocated : ∀ p, Allocated m L p → L.extent p = m.space p

variable {m m' : ObjectMemory} {L L' : Layout} {extent : Nat → Nat}
  {p q s k v i j : Nat}

theorem InUse.isEntry (h : InUse m p) : IsEntry p := h.1.isEntry

theorem InUse.even (h : InUse m p) : p % 2 = 0 := h.1.1

theorem InUse.le (h : InUse m p) : p ≤ 65532 := h.1.2.2

theorem Allocated.inUse (h : Allocated m L p) : InUse m p := h.1

/-- An entry in use is allocated or on a free list. -/
theorem allocated_or_chunk (L : Layout) (h : InUse m p) :
    Allocated m L p ∨ ∃ s k, p ∈ L.chunks s k := by
  by_cases hc : ∃ s k, p ∈ L.chunks s k
  · exact .inr hc
  · exact .inl ⟨h, fun s k hm => hc ⟨s, k, hm⟩⟩

/-! ## The place of a chunk -/

namespace Tiled

variable (h : Tiled m extent)

include h

theorem onHeap (hp : InUse m p) : (m.entry p).segment ≠ 15 := by
  have := h.segment_lt p hp
  omega

/-- The accessors of the header and of a method's first word stay inside the
segment. -/
theorem location_lt (hp : InUse m p) : m.location p + 2 < 65536 := by
  have := h.two_le p hp
  have := h.inside p hp
  omega

theorem word_lt (hp : InUse m p) (hi : i < extent p) : m.location p + i < 65515 := by
  have := h.inside p hp
  omega

/-- No two chunks have a word in common. -/
theorem eq_of_word (hp : InUse m p) (hq : InUse m q) (hi : i < extent p) (hj : j < extent q)
    (hs : (m.entry q).segment = (m.entry p).segment)
    (hw : m.location q + j = m.location p + i) : q = p ∧ j = i := by
  by_cases hne : q = p
  · subst hne
    exact ⟨rfl, by omega⟩
  · rcases h.apart q p hq hp hne hs with h' | h' <;> omega

theorem chunkWord_setChunkWord (hp : InUse m p) (hq : InUse m q) (hi : i < extent p)
    (hj : j < extent q) (hv : v < 65536) :
    (m.setChunkWord p i v).chunkWord q j =
      if q = p ∧ j = i then v else m.chunkWord q j := by
  rw [ObjectMemory.chunkWord_setChunkWord (h.onHeap hp) hv]
  refine if_congr ⟨fun ⟨hs, hw⟩ => h.eq_of_word hp hq hi hj hs hw, ?_⟩ rfl rfl
  rintro ⟨rfl, rfl⟩
  exact ⟨rfl, rfl⟩

end Tiled

/-- The tiling depends on the places of the entries in use. -/
theorem Tiled.congr (h : Tiled m extent)
    (hfree : ∀ p, IsOop p → (m'.entry p).free = (m.entry p).free)
    (hsegment : ∀ p, IsOop p → (m'.entry p).segment = (m.entry p).segment)
    (hlocation : ∀ p, IsOop p → m'.location p = m.location p) : Tiled m' extent := by
  have huse : ∀ p, InUse m' p ↔ InUse m p := fun p =>
    and_congr_right fun hp => by rw [hfree p hp]
  constructor
  · intro p hp
    rw [hsegment p hp.1]
    exact h.segment_lt p ((huse p).mp hp)
  · exact fun p hp => h.two_le p ((huse p).mp hp)
  · intro p hp
    rw [hlocation p hp.1]
    exact h.inside p ((huse p).mp hp)
  · intro p q hp hq hne hs
    rw [hsegment p hp.1, hsegment q hq.1] at hs
    rw [hlocation p hp.1, hlocation q hq.1]
    exact h.apart p q ((huse p).mp hp) ((huse q).mp hq) hne hs
  · intro s w hs hw
    obtain ⟨p, hp, h1, h2, h3⟩ := h.cover s w hs hw
    refine ⟨p, (huse p).mpr hp, ?_⟩
    rw [hsegment p hp.1, hlocation p hp.1]
    exact ⟨h1, h2, h3⟩

/-! ## Chunks that do not overlap -/

/-- The chunks of the entries `A` lie in the words for objects and do not
overlap. -/
structure Apart (m : ObjectMemory) (extent : Nat → Nat) (A : Nat → Prop) : Prop where
  isOop : ∀ p, A p → IsOop p
  segment_lt : ∀ p, A p → (m.entry p).segment < 15
  two_le : ∀ p, A p → 2 ≤ extent p
  inside : ∀ p, A p → m.location p + extent p ≤ 65515
  apart : ∀ p q, A p → A q → p ≠ q → (m.entry p).segment = (m.entry q).segment →
    m.location p + extent p ≤ m.location q ∨ m.location q + extent q ≤ m.location p

theorem Tiled.toApart (h : Tiled m extent) : Apart m extent (InUse m) :=
  ⟨fun _ hp => hp.1, h.segment_lt, h.two_le, h.inside, h.apart⟩

namespace Apart

variable {A : Nat → Prop} (h : Apart m extent A)

include h

theorem onHeap (hp : A p) : (m.entry p).segment ≠ 15 := by
  have := h.segment_lt p hp
  omega

theorem location_lt (hp : A p) : m.location p + 2 < 65536 := by
  have := h.two_le p hp
  have := h.inside p hp
  omega

theorem word_lt (hp : A p) (hi : i < extent p) : m.location p + i < 65515 := by
  have := h.inside p hp
  omega

theorem chunkWord_setChunkWord (hp : A p) (hq : A q) (hi : i < extent p)
    (hj : j < extent q) (hv : v < 65536) :
    (m.setChunkWord p i v).chunkWord q j =
      if q = p ∧ j = i then v else m.chunkWord q j := by
  rw [ObjectMemory.chunkWord_setChunkWord (h.onHeap hp) hv]
  refine if_congr ⟨fun ⟨hs, hw⟩ => ?_, ?_⟩ rfl rfl
  · by_cases hne : q = p
    · subst hne
      exact ⟨rfl, by omega⟩
    · rcases h.apart q p hq hp hne hs with h' | h' <;> omega
  · rintro ⟨rfl, rfl⟩
    exact ⟨rfl, rfl⟩

theorem congr {m' : ObjectMemory} (hsegment : ∀ p, A p → (m'.entry p).segment = (m.entry p).segment)
    (hlocation : ∀ p, A p → m'.location p = m.location p) : Apart m' extent A := by
  refine ⟨h.isOop, fun p hp => ?_, h.two_le, fun p hp => ?_, fun p q hp hq hne hs => ?_⟩
  · rw [hsegment p hp]
    exact h.segment_lt p hp
  · rw [hlocation p hp]
    exact h.inside p hp
  · rw [hsegment p hp, hsegment q hq] at hs
    rw [hlocation p hp, hlocation q hq]
    exact h.apart p q hp hq hne hs

theorem setChunkWord (hp : A p) : Apart (m.setChunkWord p i v) extent A :=
  h.congr (fun _ _ => by rw [entry_setChunkWord (h.onHeap hp)])
    fun _ _ => location_setChunkWord (h.onHeap hp)

end Apart

/-! ## The chunk that is put on a list -/

section Chunk

variable (hseg : (m.entry p).segment < 15)

include hseg

theorem entry_deallocated : (m.deallocated p).entry q = m.entry q := by
  have hs : (m.entry p).segment ≠ 15 := by omega
  rw [deallocated, entry_setChunkHead hs, entry_setChunkWord, entry_setChunkWord hs]
  rwa [entry_setChunkWord hs]

theorem location_deallocated : (m.deallocated p).location q = m.location q := by
  have hs : (m.entry p).segment ≠ 15 := by omega
  rw [deallocated, location_setChunkHead hs, location_setChunkWord, location_setChunkWord hs]
  rwa [entry_setChunkWord hs]

variable (hp : IsEntry p) (hloc : m.location p + 2 ≤ 65515) (hspace : m.space p < 65536)

include hp hloc hspace

theorem chunkHead_deallocated : (m.deallocated p).chunkHead s k =
    if s = (m.entry p).segment ∧ k = min (m.space p) bigSize then p else m.chunkHead s k := by
  have hs : (m.entry p).segment ≠ 15 := by omega
  rw [deallocated, chunkHead_setChunkHead hp.2, chunkHead_setChunkWord (chunkHead_lt _ _ _),
    chunkHead_setChunkWord hspace (by omega)]
  rw [location_setChunkWord hs]
  omega

theorem wp_deallocate (htwo : 2 ≤ m.space p) {R : Unit → ObjectMemory → Prop} :
    Wp (deallocate p) R m ↔ R () (m.deallocated p) := by
  have hs : (m.entry p).segment ≠ 15 := by omega
  have h0 : m.location p + 0 < 65536 := by omega
  have h1 : m.location p + 1 < 65536 := by omega
  have h2 : m.location p + 2 < 65536 := by omega
  have hk : 2 ≤ min (m.space p) bigSize ∧ min (m.space p) bigSize ≤ 20 := by
    simp only [bigSize]
    omega
  have hword : m.location p + 0 < 65515 := by omega
  simp only [deallocate, toFreeChunkListAdd, wp_bind, wp_spaceOccupiedBy hp h2,
    wp_sizeBitsOfPut, wp_segmentBitsOf, wp_headOfFreeChunkListInSegment, wp_classBitsOfPut,
    wp_headOfFreeChunkListInSegmentPut, entry_setChunkWord hs, location_setChunkWord hs,
    chunkHead_setChunkWord hspace hword, hspace, h0, h1, iff_true_intro hp, hk,
    chunkHead_lt, hp.2, show (m.entry p).segment < 16 by omega, and_self, true_and]
  rfl

end Chunk

theorem Apart.chunkWord_deallocated {A : Nat → Prop} (ha : Apart m extent A) (hp : A p)
    (hspace : m.space p < 65536) (hq : A q) (hi : i < extent q) :
    (m.deallocated p).chunkWord q i =
      if q = p ∧ i = 0 then m.space p
      else if q = p ∧ i = 1 then m.chunkHead (m.entry p).segment (min (m.space p) bigSize)
      else m.chunkWord q i := by
  have hs := ha.onHeap hp
  have htwo := ha.two_le p hp
  have hword := ha.word_lt hq hi
  rw [deallocated, chunkWord_setChunkHead hs,
    (ha.setChunkWord hp).chunkWord_setChunkWord hp hq (by omega) hi (chunkHead_lt _ _ _),
    ha.chunkWord_setChunkWord hp hq (by omega) hi hspace]
  · by_cases h0 : q = p ∧ i = 0
    · rw [if_pos h0, if_pos h0, if_neg]
      omega
    · rw [if_neg h0, if_neg h0]
  · rw [location_setChunkWord, location_setChunkWord hs]
    · exact hword
    · rwa [entry_setChunkWord hs]

theorem Tiled.chunkWord_deallocated (ht : Tiled m extent) (hp : InUse m p)
    (hspace : m.space p < 65536) (hq : InUse m q) (hi : i < extent q) :
    (m.deallocated p).chunkWord q i =
      if q = p ∧ i = 0 then m.space p
      else if q = p ∧ i = 1 then m.chunkHead (m.entry p).segment (min (m.space p) bigSize)
      else m.chunkWord q i :=
  ht.toApart.chunkWord_deallocated hp hspace hq hi

namespace Heap

section Facts

variable (h : Heap m L)

include h

theorem onHeap (hp : InUse m p) : (m.entry p).segment ≠ 15 := h.tiled.onHeap hp

theorem chunk_inUse (hp : p ∈ L.chunks s k) : InUse m p := (h.lists.freeChunk s k p hp).inUse

theorem size_le_extent (hp : InUse m p) : m.chunkWord p 0 ≤ L.extent p := by
  rcases allocated_or_chunk L hp with ha | ⟨s, k, hc⟩
  · rw [h.extent_allocated p ha]
    exact size_le_space
  · rw [h.extent_chunk s k p hc]

theorem not_chunk_of_count (hc : (m.entry p).count ≠ 0) : p ∉ L.chunks s k :=
  fun hm => hc (h.lists.freeChunk s k p hm).count

end Facts

/-- The heap depends on the entries, the heads of the lists, and the headers of
the chunks. -/
theorem congr (h : Heap m L)
    (hfree : ∀ p, IsOop p → (m'.entry p).free = (m.entry p).free)
    (hsegment : ∀ p, IsOop p → (m'.entry p).segment = (m.entry p).segment)
    (hpointer : ∀ p, IsOop p → (m'.entry p).pointer = (m.entry p).pointer)
    (hlocation : ∀ p, IsOop p → m'.location p = m.location p)
    (hfreeHead : m'.freeHead = m.freeHead)
    (hchunkHead : ∀ s k, s < 15 → m'.chunkHead s k = m.chunkHead s k)
    (hsize : ∀ p, InUse m p → m'.chunkWord p 0 = m.chunkWord p 0)
    (hlink : ∀ s k p, p ∈ L.chunks s k → m'.chunkWord p 1 = m.chunkWord p 1)
    (hcount : ∀ s k p, p ∈ L.chunks s k → (m'.entry p).count = 0) : Heap m' L := by
  have huse : ∀ p, InUse m' p ↔ InUse m p := fun p =>
    and_congr_right fun hp => by rw [hfree p hp]
  refine ⟨h.tiled.congr hfree hsegment hlocation, ?_, fun s k p hp => ?_, fun p hp => ?_⟩
  · constructor
    · rw [hfreeHead]
      refine h.lists.pointers.congr fun p hp => hlocation p ?_
      exact ((h.lists.mem_pointers p).mp hp).1
    · intro p
      rw [h.lists.mem_pointers p]
      exact and_congr_right fun hp => by rw [hfree p hp]
    · intro s k hs h2 h20
      rw [hchunkHead s k hs]
      exact (h.lists.chunks s k hs h2 h20).congr fun p hp => hlink s k p hp
    · intro s k p hp
      have hc := h.lists.freeChunk s k p hp
      refine ⟨(huse p).mpr hc.inUse, ?_, hc.segment_lt, hc.two_le, hc.le_bigSize, ?_,
        hcount s k p hp⟩
      · rw [hsegment p hc.inUse.1, hc.segment]
      · rw [hsize p hc.inUse]
        exact hc.size
    · exact h.lists.unique
  · rw [hsize p (h.chunk_inUse hp)]
    exact h.extent_chunk s k p hp
  · have hp' : Allocated m L p := ⟨(huse p).mp hp.1, hp.2⟩
    rw [h.extent_allocated p hp', space_congr (hpointer p hp.1.1) (hsize p hp'.1)]

/-! ## Stores -/

theorem setCount (h : Heap m L) (hp : p % 2 = 0) (hp' : p ≤ 65532)
    (hv : v < 256) (hc : ∀ s k, p ∈ L.chunks s k → v = 0) : Heap (m.setCount p v) L := by
  have hentry : ∀ q, ((m.setCount p v).entry q).free = (m.entry q).free ∧
      ((m.setCount p v).entry q).segment = (m.entry q).segment ∧
      ((m.setCount p v).entry q).pointer = (m.entry q).pointer := by
    intro q
    rw [entry_setCount hv]
    split
    · next hq => rw [hq]; exact ⟨rfl, rfl, rfl⟩
    · exact ⟨rfl, rfl, rfl⟩
  refine h.congr (fun q _ => (hentry q).1) (fun q _ => (hentry q).2.1)
    (fun q _ => (hentry q).2.2) (fun q hq => location_setField (by omega))
    (freeHead_setField hp') (fun s k hs => chunkHead_setField (by omega))
    (fun q hq => chunkWord_setCount hv (by have := hq.even; omega) (h.onHeap hq))
    (fun s k q hq => chunkWord_setCount hv
      (by have := (h.chunk_inUse hq).even; omega) (h.onHeap (h.chunk_inUse hq)))
    (fun s k q hq => ?_)
  rw [entry_setCount hv]
  split
  · next hqp => exact hc s k (hqp ▸ hq)
  · exact (h.lists.freeChunk s k q hq).count

/-- A store in an object, its size apart. -/
theorem setChunkWord (h : Heap m L) (hp : Allocated m L p) (h0 : i ≠ 0) (hi : i < L.extent p)
    (hv : v < 65536) : Heap (m.setChunkWord p i v) L := by
  have hs := h.onHeap hp.inUse
  have htwo := h.tiled.two_le
  refine h.congr (fun q _ => by rw [entry_setChunkWord hs])
    (fun q _ => by rw [entry_setChunkWord hs]) (fun q _ => by rw [entry_setChunkWord hs])
    (fun q _ => location_setChunkWord hs) (freeHead_setChunkWord hs)
    (fun s k _ => chunkHead_setChunkWord hv (h.tiled.word_lt hp.inUse hi))
    (fun q hq => ?_) (fun s k q hq => ?_) (fun s k q hq => ?_)
  · have := htwo q hq
    rw [h.tiled.chunkWord_setChunkWord hp.inUse hq hi (by omega) hv, if_neg fun hqi => h0 hqi.2.symm]
  · have hq' := h.chunk_inUse hq
    have := htwo q hq'
    rw [h.tiled.chunkWord_setChunkWord hp.inUse hq' hi (by omega) hv, if_neg]
    rintro ⟨rfl, -⟩
    exact hp.2 s k hq
  · rw [entry_setChunkWord hs]
    exact (h.lists.freeChunk s k q hq).count

/-! ## Deallocation -/

section Deallocated

variable (h : Heap m L) (hp : Allocated m L p)

include h hp

theorem two_le_space : 2 ≤ m.space p :=
  h.extent_allocated p hp ▸ h.tiled.two_le p hp.inUse

theorem space_lt : m.space p < 65536 := by
  have := h.tiled.inside p hp.inUse
  rw [h.extent_allocated p hp] at this
  omega

theorem entry_deallocated : (m.deallocated p).entry q = m.entry q :=
  ObjectMemory.entry_deallocated (h.tiled.segment_lt p hp.inUse)

theorem location_deallocated : (m.deallocated p).location q = m.location q :=
  ObjectMemory.location_deallocated (h.tiled.segment_lt p hp.inUse)

theorem freeHead_deallocated : (m.deallocated p).freeHead = m.freeHead := by
  have hs := h.onHeap hp.inUse
  rw [ObjectMemory.deallocated, freeHead_setChunkHead hs, freeHead_setChunkWord,
    freeHead_setChunkWord hs]
  rwa [entry_setChunkWord hs]

theorem chunkHead_deallocated : (m.deallocated p).chunkHead s k =
    if s = (m.entry p).segment ∧ k = min (m.space p) bigSize then p else m.chunkHead s k := by
  have htwo := h.tiled.two_le p hp.inUse
  have hword := h.tiled.inside p hp.inUse
  exact ObjectMemory.chunkHead_deallocated (h.tiled.segment_lt p hp.inUse) hp.inUse.isEntry
    (by omega) (h.space_lt hp)

theorem chunkWord_deallocated (hq : InUse m q) (hi : i < L.extent q) :
    (m.deallocated p).chunkWord q i =
      if q = p ∧ i = 0 then m.space p
      else if q = p ∧ i = 1 then m.chunkHead (m.entry p).segment (min (m.space p) bigSize)
      else m.chunkWord q i :=
  h.tiled.chunkWord_deallocated hp.inUse (h.space_lt hp) hq hi

theorem wp_deallocate {R : Unit → ObjectMemory → Prop} :
    Wp (deallocate p) R m ↔ R () (m.deallocated p) := by
  have htwo := h.tiled.two_le p hp.inUse
  have hword := h.tiled.inside p hp.inUse
  exact ObjectMemory.wp_deallocate (h.tiled.segment_lt p hp.inUse) hp.inUse.isEntry (by omega)
    (h.space_lt hp) (h.two_le_space hp)

theorem deallocated (hcount : (m.entry p).count = 0) :
    Heap (m.deallocated p) (L.push (m.entry p).segment (min (m.space p) bigSize) p) := by
  have hlt := h.tiled.segment_lt p hp.inUse
  have htwo := h.two_le_space hp
  have hext := h.extent_allocated p hp
  have hinUse : ∀ q, InUse (m.deallocated p) q ↔ InUse m q := fun q => by
    rw [InUse, InUse, h.entry_deallocated hp]
  have hsize : ∀ q, InUse m q → q ≠ p → (m.deallocated p).chunkWord q 0 = m.chunkWord q 0 := by
    intro q hq hne
    have := h.tiled.two_le q hq
    rw [h.chunkWord_deallocated hp hq (by omega), if_neg (by simp [hne]), if_neg (by simp [hne])]
  have hsize' : (m.deallocated p).chunkWord p 0 = m.space p := by
    rw [h.chunkWord_deallocated hp hp.inUse (by omega), if_pos ⟨rfl, rfl⟩]
  have hmem : ∀ s k q, q ∈ (L.push (m.entry p).segment (min (m.space p) bigSize) p).chunks s k →
      (q = p ∧ s = (m.entry p).segment ∧ k = min (m.space p) bigSize) ∨
        (q ≠ p ∧ q ∈ L.chunks s k) := by
    intro s k q hq
    rw [Layout.mem_push] at hq
    rcases hq with h' | h'
    · exact .inl h'
    · exact .inr ⟨fun hqp => hp.2 s k (hqp ▸ h'), h'⟩
  refine ⟨h.tiled.congr (fun _ _ => by rw [h.entry_deallocated hp])
    (fun _ _ => by rw [h.entry_deallocated hp]) (fun _ _ => h.location_deallocated hp),
    ⟨?_, fun q => ?_, fun s k hs h2 h20 => ?_, fun s k q hq => ?_, fun s k k' q hq hq' => ?_⟩,
    fun s k q hq => ?_, fun q hq => ?_⟩
  · rw [h.freeHead_deallocated hp]
    exact h.lists.pointers.congr fun q _ => h.location_deallocated hp
  · rw [h.entry_deallocated hp]
    exact h.lists.mem_pointers q
  · -- the links of the chunks that were free stay as they are
    have hlinks : Linked ((m.deallocated p).chunkWord · 1) nonPointer (m.chunkHead s k)
        (L.chunks s k) := by
      refine (h.lists.chunks s k hs h2 h20).congr fun q hq => ?_
      have hne : q ≠ p := fun hqp => hp.2 s k (hqp ▸ hq)
      have hq' := h.chunk_inUse hq
      have := h.tiled.two_le q hq'
      rw [h.chunkWord_deallocated hp hq' (by omega), if_neg (by simp [hne]),
        if_neg (by simp [hne])]
    rw [h.chunkHead_deallocated hp, Layout.push]
    by_cases hsk : s = (m.entry p).segment ∧ k = min (m.space p) bigSize
    · obtain ⟨rfl, rfl⟩ := hsk
      have hodd : p ≠ nonPointer := by
        have := hp.inUse.le
        simp only [nonPointer]
        omega
      simp only [and_self, if_true]
      refine ⟨rfl, hodd, ?_⟩
      dsimp only
      rw [h.chunkWord_deallocated hp hp.inUse (by omega), if_neg (by omega), if_pos ⟨rfl, rfl⟩]
      exact hlinks
    · simp only [if_neg hsk]
      exact hlinks
  · rcases hmem s k q hq with ⟨rfl, rfl, rfl⟩ | ⟨hne, hq⟩
    · refine ⟨(hinUse q).mpr hp.inUse, by rw [h.entry_deallocated hp], hlt, ?_, ?_, ?_, ?_⟩
      · simp only [bigSize]
        omega
      · simp only [bigSize]
        omega
      · rw [hsize']
        simp only [bigSize]
        omega
      · rw [h.entry_deallocated hp]
        exact hcount
    · have hc := h.lists.freeChunk s k q hq
      refine ⟨(hinUse q).mpr hc.inUse, by rw [h.entry_deallocated hp]; exact hc.segment,
        hc.segment_lt, hc.two_le, hc.le_bigSize, ?_, by rw [h.entry_deallocated hp]; exact hc.count⟩
      rw [hsize q hc.inUse hne]
      exact hc.size
  · rcases hmem s k q hq with ⟨hqp, hs, hk⟩ | ⟨hne, hq⟩
    · rcases hmem s k' q hq' with ⟨-, -, hk'⟩ | ⟨hne', -⟩
      · rw [hk, hk']
      · exact absurd hqp hne'
    · rcases hmem s k' q hq' with ⟨hqp', -, -⟩ | ⟨-, hq'⟩
      · exact absurd hqp' hne
      · exact h.lists.unique s k k' q hq hq'
  · change L.extent q = _
    rcases hmem s k q hq with ⟨rfl, -, -⟩ | ⟨hne, hq⟩
    · rw [hsize', hext]
    · rw [hsize q (h.chunk_inUse hq) hne]
      exact h.extent_chunk s k q hq
  · change L.extent q = _
    have hne : q ≠ p := by
      rintro rfl
      exact hq.2 _ _ (Layout.mem_push.mpr (.inl ⟨rfl, rfl, rfl⟩))
    have hq' : Allocated m L q := ⟨(hinUse q).mp hq.1, fun s k hm =>
      hq.2 s k (Layout.mem_push.mpr (.inr hm))⟩
    rw [h.extent_allocated q hq', space_congr (by rw [h.entry_deallocated hp])
      (hsize q hq'.inUse hne)]

end Deallocated

/-! ## Lists -/

theorem registers {a b : Int} (h : Heap m L) :
    Heap { m with freeWords := a, freeOops := b } L :=
  h.congr (fun _ _ => rfl) (fun _ _ => rfl) (fun _ _ => rfl) (fun _ _ => rfl) rfl
    (fun _ _ _ => rfl) (fun _ _ => rfl) (fun _ _ _ _ => rfl) fun s k p hp =>
      (h.lists.freeChunk s k p hp).count

/-- A chunk is on one list only, and there once. -/
theorem listed_once (h : Heap m L) (hp : p ∈ L.chunks s k) :
    (L.chunks s k).count p = 1 ∧ ∀ s' k', p ∈ L.chunks s' k' → s' = s ∧ k' = k := by
  have hc := h.lists.freeChunk s k p hp
  refine ⟨List.count_eq_one_of_mem (h.lists.chunks s k hc.segment_lt hc.two_le hc.le_bigSize).nodup
    hp, fun s' k' hp' => ?_⟩
  have hc' := h.lists.freeChunk s' k' p hp'
  have hs : s' = s := hc'.segment.symm.trans hc.segment
  subst hs
  exact ⟨rfl, h.lists.unique s' k' k p hp' hp⟩

/-- A chunk is taken from the head of its list. -/
theorem unlisted (h : Heap m L) (hs : s < 15) (hk : 2 ≤ k ∧ k ≤ 20)
    (hl : L.chunks s k = p :: l) (hspace : m.space p = m.chunkWord p 0) :
    Heap (m.setChunkHead s k (m.chunkWord p 1))
      { L with chunks := fun s' k' => if s' = s ∧ k' = k then l else L.chunks s' k' } := by
  have hs15 : s ≠ 15 := by omega
  have hlt := m.chunkWord_lt p 1
  have hlinked := h.lists.chunks s k hs hk.1 hk.2
  rw [hl] at hlinked
  have hsub : ∀ s' k' q, q ∈ (if s' = s ∧ k' = k then l else L.chunks s' k') →
      q ∈ L.chunks s' k' ∧ q ≠ p := by
    intro s' k' q hq
    split at hq
    · next hsk =>
        obtain ⟨rfl, rfl⟩ := hsk
        rw [hl]
        have hnot := (List.nodup_cons.mp hlinked.nodup).1
        exact ⟨List.mem_cons_of_mem _ hq, fun hqp => hnot (hqp ▸ hq)⟩
    · next hsk =>
        refine ⟨hq, fun hqp => hsk ?_⟩
        subst hqp
        have hmem : q ∈ L.chunks s k := hl ▸ List.mem_cons_self
        obtain ⟨hs', hk'⟩ := (h.listed_once hmem).2 s' k' hq
        exact ⟨hs', hk'⟩
  have hentry : ∀ q, (m.setChunkHead s k (m.chunkWord p 1)).entry q = m.entry q := fun q =>
    entry_setChunkHead hs15
  have hlocation : ∀ q, (m.setChunkHead s k (m.chunkWord p 1)).location q = m.location q := fun q =>
    location_setChunkHead hs15
  have hword : ∀ q i, InUse m q → i < L.extent q →
      (m.setChunkHead s k (m.chunkWord p 1)).chunkWord q i = m.chunkWord q i := fun q i hq hi =>
    chunkWord_setChunkHead hs15 (h.tiled.word_lt hq hi)
  have huse : ∀ q, InUse (m.setChunkHead s k (m.chunkWord p 1)) q ↔ InUse m q := fun q => by
    rw [InUse, InUse, hentry]
  have htwo : ∀ q, InUse m q → 2 ≤ L.extent q := h.tiled.two_le
  have hp : p ∈ L.chunks s k := hl ▸ List.mem_cons_self
  refine ⟨h.tiled.congr (fun _ _ => by rw [hentry]) (fun _ _ => by rw [hentry])
    fun _ _ => hlocation _, ⟨?_, fun q => ?_, fun s' k' hs' h2 h20 => ?_, fun s' k' q hq => ?_,
    fun s' k' k'' q hq hq' => ?_⟩, fun s' k' q hq => ?_, fun q hq => ?_⟩
  · rw [freeHead_setChunkHead hs15]
    exact h.lists.pointers.congr fun q _ => hlocation q
  · rw [hentry]
    exact h.lists.mem_pointers q
  · have hkept : ∀ q, q ∈ L.chunks s' k' →
        (m.setChunkHead s k (m.chunkWord p 1)).chunkWord q 1 = m.chunkWord q 1 := fun q hq => by
      have hq' := h.chunk_inUse hq
      exact hword q 1 hq' (by have := htwo q hq'; omega)
    rw [chunkHead_setChunkHead hlt]
    by_cases hsk : s' = s ∧ k' = k
    · obtain ⟨rfl, rfl⟩ := hsk
      simp only [and_self, if_true]
      exact hlinked.2.2.congr fun q hq => hkept q (hl ▸ List.mem_cons_of_mem _ hq)
    · simp only [if_neg hsk]
      exact (h.lists.chunks s' k' hs' h2 h20).congr hkept
  · obtain ⟨hq, -⟩ := hsub s' k' q hq
    have hc := h.lists.freeChunk s' k' q hq
    refine ⟨(huse q).mpr hc.inUse, by rw [hentry]; exact hc.segment, hc.segment_lt, hc.two_le,
      hc.le_bigSize, ?_, by rw [hentry]; exact hc.count⟩
    rw [hword q 0 hc.inUse (by have := htwo q hc.inUse; omega)]
    exact hc.size
  · exact h.lists.unique s' k' k'' q (hsub s' k' q hq).1 (hsub s' k'' q hq').1
  · obtain ⟨hq, -⟩ := hsub s' k' q hq
    have hq' := h.chunk_inUse hq
    rw [hword q 0 hq' (by have := htwo q hq'; omega)]
    exact h.extent_chunk s' k' q hq
  · have hq' := (huse q).mp hq.1
    have hsize := hword q 0 hq' (by have := htwo q hq'; omega)
    rw [space_congr (by rw [hentry]) hsize]
    by_cases hqp : q = p
    · subst hqp
      rw [hspace]
      exact h.extent_chunk s k q hp
    · refine h.extent_allocated q ⟨hq', fun s' k' hmem => hq.2 s' k' ?_⟩
      show q ∈ if s' = s ∧ k' = k then l else L.chunks s' k'
      split
      · next hsk =>
          obtain ⟨rfl, rfl⟩ := hsk
          rw [hl] at hmem
          exact (List.mem_cons.mp hmem).resolve_left hqp
      · exact hmem

end Heap

/-! ## One free chunk for each segment -/

/-- The layout with one free chunk in each segment, on the list of the big ones. -/
def Layout.big (l : List Nat) (c extent : Nat → Nat) : Layout where
  freePointers := l
  chunks s k := if s < 15 ∧ k = 20 then [c s] else []
  extent := extent

section Big

variable {l : List Nat} {c : Nat → Nat}

theorem Layout.mem_big :
    p ∈ (Layout.big l c extent).chunks s k ↔ (s < 15 ∧ k = 20) ∧ p = c s := by
  show p ∈ (if s < 15 ∧ k = 20 then [c s] else []) ↔ _
  by_cases h : s < 15 ∧ k = 20
  · rw [if_pos h, List.mem_singleton, and_iff_right h]
  · rw [if_neg h]
    exact iff_of_false List.not_mem_nil fun hall => h hall.1

theorem Heap.of_big (ht : Tiled m extent) (hl : Linked m.location nonPointer m.freeHead l)
    (hmem : ∀ p, p ∈ l ↔ IsOop p ∧ (m.entry p).free = 1)
    (hhead : ∀ s k, s < 15 → 2 ≤ k → k ≤ 20 →
      m.chunkHead s k = if k = 20 then c s else nonPointer)
    (hchunk : ∀ s < 15, InUse m (c s) ∧ (m.entry (c s)).segment = s ∧
      (m.entry (c s)).count = 0 ∧ m.chunkWord (c s) 1 = nonPointer ∧
      extent (c s) = m.chunkWord (c s) 0)
    (hspace : ∀ p, InUse m p → (∀ s < 15, p ≠ c s) → extent p = m.space p) :
    Heap m (Layout.big l c extent) := by
  refine ⟨ht, ⟨hl, hmem, fun s k hs h2 h20 => ?_, fun s k p hp => ?_, fun s k k' p hp hp' => ?_⟩,
    fun s k p hp => ?_, fun p hp => ?_⟩
  · obtain ⟨hin, -, -, hlink, -⟩ := hchunk s hs
    have hne : c s ≠ nonPointer := by
      have hle := hin.le
      simp only [nonPointer]
      omega
    rw [hhead s k hs h2 h20]
    show Linked _ _ _ (if s < 15 ∧ k = 20 then [c s] else [])
    by_cases hk : k = 20
    · rw [if_pos hk, if_pos ⟨hs, hk⟩]
      exact ⟨rfl, hne, hlink⟩
    · rw [if_neg hk, if_neg fun hall => hk hall.2]
      rfl
  · obtain ⟨⟨hs, rfl⟩, rfl⟩ := Layout.mem_big.mp hp
    obtain ⟨hin, hseg, hcount, -, -⟩ := hchunk s hs
    exact ⟨hin, hseg, hs, by omega, le_rfl, fun hlt => absurd hlt (lt_irrefl _), hcount⟩
  · rw [(Layout.mem_big.mp hp).1.2, (Layout.mem_big.mp hp').1.2]
  · obtain ⟨⟨hs, rfl⟩, rfl⟩ := Layout.mem_big.mp hp
    exact (hchunk s hs).2.2.2.2
  · exact hspace p hp.inUse fun s hs hps => hp.2 s 20 (Layout.mem_big.mpr ⟨⟨hs, rfl⟩, hps⟩)

end Big

end ObjectMemory

end Crosstalk
