import Crosstalk.ObjectMemory.Attempts
import Mathlib.Logic.Relation

/-!
# The allocator

Attempts to allocate a chunk and deallocations, in any order: the chunks handed out
never overlap, stay as they are, and the free lists stay as they should be.
-/

namespace Crosstalk

namespace ObjectMemory

variable {m u v : ObjectMemory} {L L' : Layout} {p q s k w i size : Nat}

/-! ## The object in a new chunk -/

/-- The chunk of `p`, of `size` words, has got its object: its odd bit, its pointer bit,
its class and its fields. -/
structure Furnished (u : ObjectMemory) (p size : Nat) (v : ObjectMemory) : Prop where
  entry : ∃ o b, v.entry p = { u.entry p with odd := o, pointer := b }
  table : ∀ w, w ≠ p → v.word 15 w = u.word 15 w
  heap : ∀ s w, s < 15 →
    (s = (u.entry p).segment → w < u.location p ∨ u.location p + size ≤ w) →
      v.word s w = u.word s w
  space : v.space p = size
  class_ne : v.chunkWord p 1 ≠ nonPointer
  currentSegment : v.currentSegment = u.currentSegment

section Furnished

variable (hm : Orderly m L) (hg : Granted m L size p L' u) (hp : p ≠ nilPointer)
  (hv : Furnished u p size v)

include hm hg hp hv

/-- The memory is in order again. -/
theorem Furnished.orderly : Orderly v L' ∧ Retained m L p L' v := by
  obtain ⟨hout, ha, hextent, hsize, hcount⟩ := hg.granted hp
  have hpuse := ha.inUse
  have hpoop := hpuse.1
  have hin := hg.tiled.inside p hpuse
  have htwo := hg.tiled.two_le
  have hpseg := hg.tiled.segment_lt p hpuse
  obtain ⟨o, b, hpentry⟩ := hv.entry
  have hentry : ∀ q, q ≠ p → v.entry q = u.entry q := fun q hq =>
    congrArg decodeEntry (hv.table q hq)
  have hfixed : ∀ q, (v.entry q).free = (u.entry q).free ∧
      (v.entry q).segment = (u.entry q).segment ∧ (v.entry q).count = (u.entry q).count := by
    intro q
    by_cases hq : q = p
    · rw [hq, hpentry]
      exact ⟨rfl, rfl, rfl⟩
    · rw [hentry q hq]
      exact ⟨rfl, rfl, rfl⟩
  have hlocation : ∀ q, IsOop q → v.location q = u.location q := fun q hq =>
    hv.table (q + 1) (by have := hq.1; have := hpoop.1; omega)
  have huse : ∀ q, InUse v q ↔ InUse u q := fun q => by rw [InUse, InUse, (hfixed q).1]
  have hallocated : ∀ q, Allocated v L' q ↔ Allocated u L' q := fun q =>
    and_congr_left' (huse q)
  -- the chunk of `p` is apart from the others
  have hword : ∀ q, InUse u q → q ≠ p → ∀ i < L'.extent q, v.chunkWord q i = u.chunkWord q i :=
    fun q hq hqp i hi => by
      rw [chunkWord, hentry q hqp, hlocation q hq.1, chunkWord]
      refine hv.heap _ _ (hg.tiled.segment_lt q hq) fun hs => ?_
      rcases hg.tiled.apart q p hq hpuse hqp hs with h' | h' <;> omega
  have hspace : ∀ q, Allocated u L' q → q ≠ p → v.space q = u.space q := fun q hq hqp =>
    space_congr (by rw [hentry q hqp]) (hword q hq.inUse hqp 0 (by have := htwo q hq.inUse; omega))
  have hchunk : ∀ s k q, q ∈ L'.chunks s k → q ≠ p := fun s k q hq hqp => ha.2 s k (hqp ▸ hq)
  have hfirst : firstFreeChunkList = 65515 := rfl
  have hheap : Heap v L' := by
    refine ⟨hg.tiled.congr (fun q _ => (hfixed q).1) (fun q _ => (hfixed q).2.1) hlocation,
      ⟨?_, fun q => ?_, fun s k hs h2 h20 => ?_, fun s k q hq => ?_, hg.lists.unique⟩,
      fun s k q hq => ?_, fun q hq => ?_⟩
    · have hhead : v.freeHead = u.freeHead := hv.table 65534 (by have := hpoop.2.2; omega)
      rw [hhead]
      exact hg.lists.pointers.congr fun q hq => hlocation q ((hg.lists.mem_pointers q).mp hq).1
    · rw [(hfixed q).1]
      exact hg.lists.mem_pointers q
    · have hhead : v.chunkHead s k = u.chunkHead s k := by
        refine hv.heap s _ hs fun _ => .inr ?_
        omega
      rw [hhead]
      refine (hg.lists.chunks s k hs h2 h20).congr fun q hq => ?_
      have hquse := (hg.lists.freeChunk s k q hq).inUse
      exact hword q hquse (hchunk s k q hq) 1 (by have := htwo q hquse; omega)
    · have hc := hg.lists.freeChunk s k q hq
      refine ⟨(huse q).mpr hc.inUse, by rw [(hfixed q).2.1]; exact hc.segment, hc.segment_lt,
        hc.two_le, hc.le_bigSize, ?_, by rw [(hfixed q).2.2]; exact hc.count⟩
      rw [hword q hc.inUse (hchunk s k q hq) 0 (by have := htwo q hc.inUse; omega)]
      exact hc.size
    · have hquse := (hg.lists.freeChunk s k q hq).inUse
      rw [hword q hquse (hchunk s k q hq) 0 (by have := htwo q hquse; omega)]
      exact hg.extent_chunk s k q hq
    · have hq' := (hallocated q).mp hq
      by_cases hqp : q = p
      · rw [hqp, hv.space]
        exact hextent
      · rw [hspace q hq' hqp]
        exact hg.extent_allocated q hq' (.inl hqp)
  have hne : ∀ q, Allocated m L q → q ≠ p := fun q hq hqp => hout (hqp ▸ hq)
  have hold : ∀ q, Allocated m L q → ∀ i < m.space q, v.chunkWord q i = m.chunkWord q i :=
    fun q hq i hi => by
      have hq' := hg.retained.old q hq
      have hext := hg.extent_allocated q hq' (.inl (hne q hq))
      have heq := hg.retained.space_eq hq (hm.heap.two_le_space hq)
      rw [hword q hq'.inUse (hne q hq) i (by omega)]
      exact hg.retained.content q hq i hi
  have hzero : v.word objectTableSegment 0 = m.word objectTableSegment 0 :=
    (hv.table 0 (by have := hpoop.2.1; omega)).trans hg.retained.reserved
  have hretained : Retained m L p L' v :=
    ⟨fun q hq => (hallocated q).mpr (hg.retained.old q hq),
      fun q hq => hg.retained.new q ((hallocated q).mp hq),
      fun q hq => (hv.table q (hne q hq)).trans (hg.retained.entry q hq), hold, hzero⟩
  refine ⟨⟨hheap, ?_, hretained.old nilPointer hm.nil, fun q hq => ?_⟩, hretained⟩
  · rw [show v.entry 0 = m.entry 0 from congrArg decodeEntry hzero]
    exact hm.reserved
  · rcases hretained.new q hq with hq | rfl
    · rw [hold q hq 1 (by have := hm.heap.two_le_space hq; omega)]
      exact hm.class_ne q hq
    · exact hv.class_ne

end Furnished

/-- The odd bit and the pointer bit have been set, and words of the chunk. -/
structure Furnishing (u : ObjectMemory) (p size o b : Nat) (v : ObjectMemory) : Prop where
  entry : v.entry p = { u.entry p with odd := o, pointer := b }
  table : ∀ w, w ≠ p → v.word 15 w = u.word 15 w
  heap : ∀ s w, s < 15 →
    (s = (u.entry p).segment → w < u.location p ∨ u.location p + size ≤ w) →
      v.word s w = u.word s w
  currentSegment : v.currentSegment = u.currentSegment

section Furnishing

variable {o b e c d x : Nat} (hp : IsOop p) (hseg : (u.entry p).segment < 15)

theorem Furnishing.location (h : Furnishing u p size o b v) : v.location p = u.location p :=
  h.table (p + 1) (by omega)

theorem furnishing_bits (hp : IsOop p) (ho : o < 2) (hb : b < 2) :
    Furnishing u p size o b ((u.setOdd p o).setPointer p b) := by
  refine ⟨?_, fun w hw => ?_, fun s w hs _ => ?_, rfl⟩
  · rw [entry_setPointer hb, if_pos rfl, entry_setOdd ho, if_pos rfl]
  · rw [setPointer, word_setField_of_ne (by omega), setOdd, word_setField_of_ne (by omega)]
  · rw [setPointer, word_setField (by omega), setOdd, word_setField (by omega)]

include hseg

theorem Furnishing.setChunkWord (h : Furnishing u p size o b v) (hi : i < size) :
    Furnishing u p size o b (v.setChunkWord p i x) := by
  have hvseg : (v.entry p).segment = (u.entry p).segment := by rw [h.entry]
  have hword : ∀ s w, (v.setChunkWord p i x).word s w = _ := fun s w => word_setChunkWord
  refine ⟨?_, fun w hw => ?_, fun s w hs hw => ?_, h.currentSegment⟩
  · rw [entry_setChunkWord (by rw [hvseg]; exact Nat.ne_of_lt hseg)]
    exact h.entry
  · rw [hword, if_neg (by omega)]
    exact h.table w hw
  · rw [hword, hvseg, h.location, if_neg fun hall => by have := hw hall.1; omega]
    exact h.heap s w hs hw

include hp

/-- The stores of an allocation furnish the chunk that it has got. -/
theorem wp_furnished (hin : u.location p + (size + e) ≤ 65515) (hsize : 2 ≤ size) (ho : o < 2)
    (hb : b < 2) (he : e = if size < hugeSize ∨ b = 0 then 0 else 1) (hc : c < 65536)
    (hd : d < 65536) (hclass : c ≠ nonPointer) :
    Wp (do
      oddBitOfPut p o
      pointerBitOfPut p b
      classBitsOfPut p c
      forN (size - headerSize) fun i => heapChunkOfWordPut p (headerSize + i) d
      sizeBitsOfPut p size) (fun _ v => Furnished u p (size + e) v) u := by
  have hheader : headerSize = 2 := rfl
  have hbits : Furnishing u p (size + e) o b ((u.setOdd p o).setPointer p b) :=
    furnishing_bits hp ho hb
  have hplace := hbits.location
  rw [wp_bind, wp_oddBitOfPut, and_iff_right ⟨hp.isEntry, ho⟩, wp_bind, wp_pointerBitOfPut,
    and_iff_right ⟨hp.isEntry, hb⟩, wp_bind, wp_classBitsOfPut,
    and_iff_right ⟨hp.isEntry, by omega, hc⟩, wp_bind]
  -- a word of the chunk, as long as its entry is that of `u`
  have hput : ∀ {v : ObjectMemory} {i j x : Nat}, Furnishing u p (size + e) o b v → x < 65536 →
      (v.setChunkWord p i x).chunkWord p j = if j = i then x else v.chunkWord p j :=
    fun {v i j x} hv hx => by
      have hvseg : (v.entry p).segment ≠ 15 := by
        rw [hv.entry]
        exact Nat.ne_of_lt hseg
      rw [chunkWord_setChunkWord hvseg hx]
      exact if_congr (by omega) rfl rfl
  have hclassed := hbits.setChunkWord hseg (x := c) (show 1 < size + e by omega)
  refine (wp_forN (fun _ v => Furnishing u p (size + e) o b v ∧ v.chunkWord p 1 = c) ?_
    ⟨hclassed, by rw [hput hbits hc, if_pos rfl]⟩).mono ?_
  · rintro i v hi ⟨hv, h1⟩
    have hvplace := hv.location
    rw [wp_heapChunkOfWordPut, and_iff_right ⟨hp.isEntry, by omega, hd⟩]
    refine ⟨hv.setChunkWord hseg (by omega), ?_⟩
    rw [hput hv hd, if_neg (by omega)]
    exact h1
  · rintro - v ⟨hv, h1⟩
    have hvplace := hv.location
    rw [wp_sizeBitsOfPut, and_iff_right ⟨hp.isEntry, by omega, by omega⟩]
    have hlast := hv.setChunkWord hseg (x := size) (show 0 < size + e by omega)
    refine ⟨⟨o, b, hlast.entry⟩, hlast.table, hlast.heap, ?_, ?_, hlast.currentSegment⟩
    · have hzero : (v.setChunkWord p 0 size).chunkWord p 0 = size := by
        rw [hput hv (by omega), if_pos rfl]
      rw [ObjectMemory.space, hzero, hlast.entry, he]
      dsimp only
      split <;> rfl
    · rw [hput hv (by omega), if_neg (by omega), h1]
      exact hclass

end Furnishing

/-! ## Giving back a chunk -/

section Deallocated

variable (hm : Orderly m L) (hp : Allocated m L p) (hcount : (m.entry p).count = 0)

include hm hp

theorem Orderly.allocated_deallocated : Allocated (m.deallocated p)
    (L.push (m.entry p).segment (min (m.space p) bigSize) p) q ↔ Allocated m L q ∧ q ≠ p := by
  have huse : InUse (m.deallocated p) q ↔ InUse m q := by
    rw [InUse, InUse, hm.heap.entry_deallocated hp]
  constructor
  · rintro ⟨hq, hout⟩
    exact ⟨⟨huse.mp hq, fun s k hk => hout s k (Layout.mem_push.mpr (.inr hk))⟩, fun hqp =>
      hout _ _ (Layout.mem_push.mpr (.inl ⟨hqp, rfl, rfl⟩))⟩
  · rintro ⟨hq, hqp⟩
    refine ⟨huse.mpr hq.inUse, fun s k hk => ?_⟩
    rcases Layout.mem_push.mp hk with ⟨rfl, -, -⟩ | hk
    · exact hqp rfl
    · exact hq.2 s k hk

/-- The other objects stay. -/
theorem Orderly.word_deallocated (hq : Allocated m L q) (hqp : q ≠ p) (hi : i < m.space q) :
    (m.deallocated p).chunkWord q i = m.chunkWord q i := by
  rw [← hm.heap.extent_allocated q hq] at hi
  rw [hm.heap.chunkWord_deallocated hp hq.inUse hi, if_neg fun hall => hqp hall.1,
    if_neg fun hall => hqp hall.1]

include hcount

theorem Orderly.deallocated (hpn : p ≠ nilPointer) : Orderly (m.deallocated p)
    (L.push (m.entry p).segment (min (m.space p) bigSize) p) := by
  refine ⟨hm.heap.deallocated hp hcount, ?_,
    (hm.allocated_deallocated hp).mpr ⟨hm.nil, hpn.symm⟩, fun q hq => ?_⟩
  · rw [hm.heap.entry_deallocated hp]
    exact hm.reserved
  · obtain ⟨hq, hqp⟩ := (hm.allocated_deallocated hp).mp hq
    rw [hm.word_deallocated hp hq hqp (by have := hm.heap.two_le_space hq; omega)]
    exact hm.class_ne q hq

end Deallocated

end ObjectMemory

/-! ## Runs of the allocator -/

open ObjectMemory

/-- The memory, and the entries that have been handed out, with the sizes of their chunks. -/
structure Allocator where
  memory : ObjectMemory
  handed : List (Nat × Nat)

namespace Allocator

variable {a b : Allocator} {m : ObjectMemory} {L : Layout}

/-- One operation of the allocator. -/
inductive Step : Allocator → Allocator → Prop
  | allocate {a : Allocator} {u v : ObjectMemory} {p size : Nat} (htwo : 2 ≤ size)
      (hrun : attemptToAllocateChunk size a.memory = some (p, u)) (hp : p ≠ nilPointer)
      (hv : Furnished u p size v) : Step a ⟨v, (p, size) :: a.handed⟩
  | refuse {a : Allocator} {u : ObjectMemory} {size : Nat} (htwo : 2 ≤ size)
      (hrun : attemptToAllocateChunk size a.memory = some (nilPointer, u)) : Step a ⟨u, a.handed⟩
  | deallocate {a : Allocator} {u : ObjectMemory} {x : Nat × Nat} (hx : x ∈ a.handed)
      (hrun : deallocate x.1 a.memory = some ((), u)) : Step a ⟨u, a.handed.erase x⟩

/-- The chunks `x` and `y`, each with its size, have no word in common. -/
structure Disjoint (m : ObjectMemory) (x y : Nat × Nat) : Prop where
  apart : (m.entry x.1).segment = (m.entry y.1).segment →
    m.location x.1 + x.2 ≤ m.location y.1 ∨ m.location y.1 + y.2 ≤ m.location x.1

/-- The chunks that are handed out lie in the heap and do not overlap, and the free lists
are as they should be. -/
structure Sound (a : Allocator) : Prop where
  distinct : (a.handed.map Prod.fst).Nodup
  inside : ∀ x ∈ a.handed, InUse a.memory x.1 ∧ (a.memory.entry x.1).segment < 15 ∧
    a.memory.location x.1 + x.2 ≤ heapSpaceStop + 1
  disjoint : a.handed.Pairwise (Disjoint a.memory)
  lists : ∃ L, FreeLists a.memory L ∧ L.freePointers.Nodup ∧
    (∀ s k, s < 15 → 2 ≤ k → k ≤ bigSize → (L.chunks s k).Nodup) ∧
    ∀ s k s' k' p, p ∈ L.chunks s k → p ∈ L.chunks s' k' → s = s' ∧ k = k'

/-- What is handed out before and after is the same, but for its place. -/
def Retains (a b : Allocator) : Prop :=
  ∀ x ∈ a.handed, x ∈ b.handed → b.memory.entry x.1 = a.memory.entry x.1 ∧
    ∀ i < x.2, b.memory.chunkWord x.1 i = a.memory.chunkWord x.1 i

/-- The chunk `x` that has been handed out, with its size, is that of an object. -/
structure Handed (m : ObjectMemory) (L : Layout) (x : Nat × Nat) : Prop where
  allocated : Allocated m L x.1
  space : m.space x.1 = x.2
  count : (m.entry x.1).count = 0
  ne_nil : x.1 ≠ nilPointer

structure Inv (a : Allocator) (L : Layout) : Prop where
  orderly : Orderly a.memory L
  current : 0 ≤ a.memory.currentSegment ∧ a.memory.currentSegment ≤ 14
  handed : ∀ x ∈ a.handed, Handed a.memory L x
  distinct : (a.handed.map Prod.fst).Nodup

theorem Handed.retained {u : ObjectMemory} {L' : Layout} {x : Nat × Nat} {p : Nat}
    (hm : Orderly m L) (hx : Handed m L x) (h : Retained m L p L' u) : Handed u L' x := by
  refine ⟨h.old x.1 hx.allocated, ?_, ?_, hx.ne_nil⟩
  · rw [h.space_eq hx.allocated (hm.heap.two_le_space hx.allocated)]
    exact hx.space
  · rw [show u.entry x.1 = m.entry x.1 from congrArg decodeEntry (h.entry x.1 hx.allocated)]
    exact hx.count

namespace Inv

theorem sound (h : Inv a L) : Sound a := by
  have hheap := h.orderly.heap
  have hspan : ∀ x ∈ a.handed, L.extent x.1 = x.2 := fun x hx => by
    rw [hheap.extent_allocated x.1 (h.handed x hx).allocated]
    exact (h.handed x hx).space
  refine ⟨h.distinct, fun x hx => ?_, ?_, L, hheap.lists, hheap.lists.pointers.nodup,
    fun s k hs h2 h20 => (hheap.lists.chunks s k hs h2 h20).nodup, fun s k s' k' p hp hp' => ?_⟩
  · have huse := (h.handed x hx).allocated.inUse
    have hin := hheap.tiled.inside x.1 huse
    rw [hspan x hx] at hin
    exact ⟨huse, hheap.tiled.segment_lt x.1 huse, hin⟩
  · have hpairs : a.handed.Pairwise fun x y => x.1 ≠ y.1 := List.pairwise_map.mp h.distinct
    refine hpairs.imp_of_mem fun {x y} hx hy hne => ⟨fun hs => ?_⟩
    have happ := hheap.tiled.apart x.1 y.1 (h.handed x hx).allocated.inUse
      (h.handed y hy).allocated.inUse hne hs
    rwa [hspan x hx, hspan y hy] at happ
  · have hc := hheap.listed_once hp
    obtain ⟨hs, hk⟩ := hc.2 s' k' hp'
    exact ⟨hs.symm, hk.symm⟩

/-- One operation keeps the invariant, and what stays handed out. -/
theorem step (h : Inv a L) (hstep : Step a b) : (∃ L', Inv b L') ∧ Retains a b := by
  cases hstep with
  | @allocate u v p size htwo hrun hp hv =>
      obtain ⟨⟨L', hg⟩, ⟨c, hc, hcurrent⟩, -⟩ :=
        (wp_of_run hrun).mp (wp_attemptToAllocateChunk h.orderly h.current htwo)
      obtain ⟨horderly, hretained⟩ := hv.orderly h.orderly hg hp
      obtain ⟨hout, hnew, -, -, hcount⟩ := hg.granted hp
      have hcur := hv.currentSegment
      have hhanded : ∀ x ∈ a.handed, Handed v L' x := fun x hx =>
        (h.handed x hx).retained h.orderly hretained
      refine ⟨⟨L', horderly, by rw [hcur, hcurrent]; omega, fun x hx => ?_, ?_⟩, fun x hx _ => ?_⟩
      · rcases List.mem_cons.mp hx with rfl | hx
        · refine ⟨?_, hv.space, ?_, hp⟩
          · obtain ⟨o, e, hentry⟩ := hv.entry
            refine ⟨⟨hnew.inUse.1, ?_⟩, hnew.2⟩
            rw [hentry]
            exact hnew.inUse.2
          · obtain ⟨o, e, hentry⟩ := hv.entry
            rw [hentry]
            exact hcount
        · exact hhanded x hx
      · rw [List.map_cons, List.nodup_cons]
        refine ⟨fun hmem => ?_, h.distinct⟩
        obtain ⟨x, hx, hxp⟩ := List.mem_map.mp hmem
        have hxp : x.1 = p := hxp
        exact hout (hxp ▸ (h.handed x hx).allocated)
      · have ha := (h.handed x hx).allocated
        refine ⟨congrArg decodeEntry (hretained.entry x.1 ha), fun i hi => ?_⟩
        exact hretained.content x.1 ha i (by rw [(h.handed x hx).space]; exact hi)
  | @refuse u size htwo hrun =>
      obtain ⟨⟨L', hg⟩, ⟨c, hc, hcurrent⟩, -⟩ :=
        (wp_of_run hrun).mp (wp_attemptToAllocateChunk h.orderly h.current htwo)
      have hretained := hg.retained
      have hspace : ∀ q, Allocated a.memory L q → 2 ≤ a.memory.space q := fun q hq =>
        h.orderly.heap.two_le_space hq
      refine ⟨⟨L', ⟨hg.heap, ?_, hretained.old nilPointer h.orderly.nil, fun q hq => ?_⟩,
        by rw [hcurrent]; omega, fun x hx => (h.handed x hx).retained h.orderly hretained,
        h.distinct⟩, fun x hx _ => ?_⟩
      · rw [show u.entry 0 = a.memory.entry 0 from congrArg decodeEntry hretained.reserved]
        exact h.orderly.reserved
      · have hq : Allocated a.memory L q := (hretained.new q hq).elim id fun hqn =>
          hqn ▸ h.orderly.nil
        rw [hretained.content q hq 1 (by have := hspace q hq; omega)]
        exact h.orderly.class_ne q hq
      · have ha := (h.handed x hx).allocated
        refine ⟨congrArg decodeEntry (hretained.entry x.1 ha), fun i hi => ?_⟩
        exact hretained.content x.1 ha i (by rw [(h.handed x hx).space]; exact hi)
  | @deallocate u x hx hrun =>
      have hxh := h.handed x hx
      have hu : u = a.memory.deallocated x.1 := by
        have hwp : Wp (Crosstalk.deallocate x.1) (fun _ v => v = a.memory.deallocated x.1)
            a.memory := (h.orderly.heap.wp_deallocate hxh.allocated).mpr rfl
        exact (wp_of_run hrun).mp hwp
      subst hu
      have hrest : ∀ y ∈ a.handed.erase x, y ∈ a.handed ∧ y.1 ≠ x.1 := fun y hy => by
        have hnodup : a.handed.Nodup := List.Nodup.of_map _ h.distinct
        obtain ⟨hne, hy⟩ := (hnodup.mem_erase_iff).mp hy
        refine ⟨hy, fun heq => hne ?_⟩
        exact List.inj_on_of_nodup_map h.distinct hy hx heq
      refine ⟨⟨_, h.orderly.deallocated hxh.allocated hxh.count hxh.ne_nil, h.current,
        fun y hy => ?_, ?_⟩, fun y hy hy' => ?_⟩
      · obtain ⟨hy, hne⟩ := hrest y hy
        have hyh := h.handed y hy
        have hentry := h.orderly.heap.entry_deallocated hxh.allocated (q := y.1)
        refine ⟨(h.orderly.allocated_deallocated hxh.allocated).mpr ⟨hyh.allocated, hne⟩, ?_, ?_,
          hyh.ne_nil⟩
        · have htwo := h.orderly.heap.two_le_space hyh.allocated
          rw [space_congr (by rw [hentry])
            (h.orderly.word_deallocated hxh.allocated hyh.allocated hne (by omega))]
          exact hyh.space
        · rw [hentry]
          exact hyh.count
      · exact h.distinct.sublist ((List.erase_sublist).map _)
      · obtain ⟨-, hne⟩ := hrest y hy'
        have hyh := h.handed y hy
        refine ⟨h.orderly.heap.entry_deallocated hxh.allocated, fun i hi => ?_⟩
        exact h.orderly.word_deallocated hxh.allocated hyh.allocated hne
          (by rw [hyh.space]; exact hi)

theorem run (h : Inv a L) (hrun : Relation.ReflTransGen Step a b) : ∃ L', Inv b L' := by
  induction hrun with
  | refl => exact ⟨L, h⟩
  | tail _ hstep ih =>
      obtain ⟨L', hb⟩ := ih
      exact (hb.step hstep).1

end Inv

/-- In every state that the operations reach, from a memory in order, the allocator is
sound, no operation halts, an operation leaves alone what stays handed out, and an entry
that is handed out is new and has a chunk of the size asked for. -/
theorem reachable_sound (hm : Orderly m L)
    (hcurrent : 0 ≤ m.currentSegment ∧ m.currentSegment ≤ 14)
    (hrun : Relation.ReflTransGen Step ⟨m, []⟩ a) :
    a.Sound ∧ (∀ b, Step a b → a.Retains b) ∧
    (∀ size, 2 ≤ size → ∃ p u, attemptToAllocateChunk size a.memory = some (p, u) ∧
      (p ≠ nilPointer → p ∉ a.handed.map Prod.fst ∧ u.chunkWord p 0 = size)) ∧
    ∀ x ∈ a.handed, ∃ u, deallocate x.1 a.memory = some ((), u) := by
  obtain ⟨L', h⟩ := Inv.run ⟨hm, hcurrent, by simp, by simp⟩ hrun
  refine ⟨h.sound, fun b hstep => (h.step hstep).2, fun size h2 => ?_, fun x hx => ?_⟩
  · obtain ⟨p, u, hattempt, ⟨L₁, hg⟩, -, -⟩ := wp_attemptToAllocateChunk h.orderly h.current h2
    refine ⟨p, u, hattempt, fun hp => ?_⟩
    obtain ⟨hout, -, -, hsize, -⟩ := hg.granted hp
    refine ⟨fun hmem => ?_, hsize⟩
    obtain ⟨x, hx, hxp⟩ := List.mem_map.mp hmem
    exact hout (hxp ▸ (h.handed x hx).allocated)
  · obtain ⟨⟨⟩, u, hrun, -⟩ := (h.orderly.heap.wp_deallocate (h.handed x hx).allocated
      (R := fun _ _ => True)).mpr trivial
    exact ⟨u, hrun⟩

/-- Where nil is the only object ten words are allocated, given back, and asked for again. -/
theorem reachable_sound_sparse : ∃ (p : Nat) (v w : ObjectMemory),
    Step ⟨sparse 2, []⟩ ⟨v, [(p, 10)]⟩ ∧ Step ⟨v, [(p, 10)]⟩ ⟨w, []⟩ ∧
      (⟨v, [(p, 10)]⟩ : Allocator).Sound ∧ (⟨w, []⟩ : Allocator).Sound ∧
      ∃ q u, attemptToAllocateChunk 10 w = some (q, u) ∧
        (q ≠ nilPointer → u.chunkWord q 0 = 10) := by
  have hcurrent : 0 ≤ (sparse 2).currentSegment ∧ (sparse 2).currentSegment ≤ 14 :=
    ⟨by decide, by decide⟩
  obtain ⟨p, u, hattempt, ⟨L', hg⟩, -, hsucceeds⟩ :=
    wp_attemptToAllocateChunk orderly_sparse hcurrent (show 2 ≤ 10 by decide)
  have hadd := unoccupied_add (s := 1) orderly_sparse.heap
  have hp : p ≠ nilPointer := by
    refine hsucceeds (List.cons_ne_nil _ _) 1 (by decide) (.inr ?_)
    have hnone : residents (sparse 2) (sparseLayout 2) 1 = ∅ := by
      refine Finset.eq_empty_of_forall_notMem fun q hq => ?_
      obtain ⟨hq, hqs⟩ := mem_residents.mp hq
      rw [allocated_sparse.mp hq] at hqs
      exact absurd hqs (by decide)
    rw [hnone, Finset.sum_empty] at hadd
    rw [show unoccupied (sparse 2) (sparseLayout 2) 1 = 65515 from hadd]
    exact ⟨by decide, by decide⟩
  obtain ⟨-, ha, hextent, -, -⟩ := hg.granted hp
  have hin := hg.tiled.inside p ha.inUse
  rw [hextent] at hin
  obtain ⟨_, v, -, hv⟩ := wp_furnished (o := 0) (b := 0) (c := 12) (d := 0) (e := 0)
    ha.inUse.1 (hg.tiled.segment_lt p ha.inUse) hin (by decide) (by decide) (by decide) (by decide)
    (by decide) (by decide) (by decide)
  have hallocate : Step ⟨sparse 2, []⟩ ⟨v, [(p, 10)]⟩ := .allocate (by decide) hattempt hp hv
  obtain ⟨hsound, -, -, hends⟩ := reachable_sound orderly_sparse hcurrent (.single hallocate)
  obtain ⟨w, hw⟩ := hends (p, 10) (List.mem_singleton_self _)
  have hdeallocate : Step ⟨v, [(p, 10)]⟩ ⟨w, []⟩ := by
    have hstep := Step.deallocate (a := ⟨v, [(p, 10)]⟩) (List.mem_singleton_self _) hw
    rwa [List.erase_cons_head] at hstep
  obtain ⟨hsound', -, hattempts, -⟩ :=
    reachable_sound orderly_sparse hcurrent (.tail (.single hallocate) hdeallocate)
  obtain ⟨q, u', hagain, hgranted⟩ := hattempts 10 (by decide)
  exact ⟨p, v, w, hallocate, hdeallocate, hsound, hsound', q, u', hagain, fun hq => (hgranted hq).2⟩

end Allocator

end Crosstalk
