import Crosstalk.ObjectMemory.Allocation
import Crosstalk.ObjectMemory.References
import Crosstalk.Snapshot.Fidelity

/-!
# Cascaded freeing

`countDown` takes a reference away from an object. An object that loses its last
reference is put on the list for its size, and its pointers are taken away from
the objects that they refer to.
-/

namespace Crosstalk

namespace ObjectMemory

variable {extent : Nat → Nat} {A : Nat → Prop} {base : Nat} {loose l : List Nat}
  {frames : List (Nat × Nat)} {m u u' t : ObjectMemory} {p q r s k v w i o : Nat}

/-! ## Deallocation during the traversal -/

/-- The same store in both memories, on the heap. -/
theorem Touched.setWord_both {c : Nat} (h : Touched extent A u t) (hs : s ≠ 15) :
    Touched extent A (u.setWord s w c) (t.setWord s w c) := by
  refine ⟨fun s' w' hA hw => ?_, fun p hp => ?_, h.currentSegment, h.freeWords, h.freeOops⟩
  · rw [word_setWord, word_setWord]
    split
    · rfl
    · refine h.outside s' w' hA fun p i hp hi hall => hw p i hp hi ?_
      rwa [entry_setWord hs, location_setWord hs]
  · rw [word_setWord, word_setWord, if_neg fun hall => hs hall.1.symm,
      if_neg fun hall => hs hall.1.symm]
    exact h.entryWord p hp

/-- The words of a deallocated chunk, in the memory with reversed pointers. -/
theorem Reversed.deallocated (h : Reversed extent A base loose frames u t)
    (hstack : Stack extent A u ((v, i) :: frames)) (hsize : t.chunkWord v 0 = u.chunkWord v 0)
    (hspace : u.space v < 65536) :
    Reversed extent A base loose frames (u.deallocated v) (t.deallocated v) := by
  have hs := hstack.tail
  have hv := (hstack.sound v i List.mem_cons_self).mem
  have hout : v ∉ frames.map Prod.fst := (List.nodup_cons.mp hstack.nodup).1
  have hat := h.apart_reversed
  have hseg := h.apart.segment_lt v hv
  have hsegt := hat.segment_lt v hv
  have hentryt : (t.entry v).segment = (u.entry v).segment := by rw [h.entry v]
  have hspacet : t.space v = u.space v := space_congr (by rw [h.entry v]) hsize
  have hhead := h.touched.chunkHead (k := min (u.space v) bigSize) h.apart hseg
  have hloc := h.location (h.apart.isOop v hv).1
  have hentry : ∀ q, (u.deallocated v).entry q = u.entry q := fun q => entry_deallocated hseg
  have hentry' : ∀ q, (t.deallocated v).entry q = t.entry q := fun q => entry_deallocated hsegt
  have hword : ∀ q i, A q → i < extent q → (t.deallocated v).chunkWord q i =
      if q = v ∧ i = 0 then u.space v
      else if q = v ∧ i = 1 then u.chunkHead (u.entry v).segment (min (u.space v) bigSize)
      else t.chunkWord q i := fun q i hq hi => by
    rw [hat.chunkWord_deallocated hv (by omega) hq hi, hspacet, hentryt, hhead]
  have hword' : ∀ q i, A q → i < extent q → (u.deallocated v).chunkWord q i = _ :=
    fun q i hq hi => h.apart.chunkWord_deallocated hv hspace hq hi
  have hother : ∀ q o, (q, o) ∈ frames → q ≠ v := fun q o hm hqv =>
    hout (hqv ▸ List.mem_map.mpr ⟨_, hm, rfl⟩)
  have hlast : ∀ q o, (q, o) ∈ frames → (u.deallocated v).last q = u.last q := fun q o hm => by
    have hq := hs.sound q o hm
    have hext := hq.last_le_extent
    have htwo := hq.two_le
    have hne := hother q o hm
    have hsame : ∀ i, i < extent q → (u.deallocated v).chunkWord q i = u.chunkWord q i :=
      fun i hi => by rw [hword' q i hq.mem hi, if_neg fun hall => hne hall.1,
        if_neg fun hall => hne hall.1]
    exact last_congr (by rw [hentry]) (hsame 0 (by omega)) (hsame 1 (by omega))
      fun h3 => hsame 2 (by omega)
  refine ⟨h.apart.congr (fun q _ => by rw [hentry]) fun q _ => location_deallocated hseg, ?_,
    fun q hq => by rw [hentry, hentry']; exact h.count q hq, fun q i hq hi hx ho => ?_,
    fun q o hm => ?_, h.links.congr fun q o hm => ?_⟩
  · have hfirst := h.touched.setWord_both (s := (u.entry v).segment) (w := u.location v + 0)
      (c := u.space v) (by omega)
    have hsecond := hfirst.setWord_both (s := (u.entry v).segment) (w := u.location v + 1)
      (c := u.chunkHead (u.entry v).segment (min (u.space v) bigSize)) (by omega)
    have hthird := hsecond.setWord_both (s := (u.entry v).segment)
      (w := firstFreeChunkList + min (u.space v) bigSize) (c := v) (by omega)
    have hs15 : (u.entry v).segment ≠ 15 := by omega
    simp only [ObjectMemory.deallocated, setChunkHead, setChunkWord, entry_setWord hs15,
      location_setWord hs15, hspacet, hentryt, hhead,
      hloc]
    exact hthird
  · rw [hword q i hq hi, hword' q i hq hi]
    split
    · rfl
    · split
      · rfl
      · exact h.word q i hq hi (fun hx' => hx (by rwa [Extra, hentry])) ho
  · have hq := hs.sound q o hm
    have hne := hother q o hm
    have hsaved := h.saved q o hm
    rw [hlast q o hm, hentry']
    by_cases hl : u.last q < 256
    · rw [if_pos hl] at hsaved ⊢
      exact hsaved
    · rw [if_neg hl] at hsaved ⊢
      rw [hword q _ hq.mem (by have := (hq.huge (by omega)).1; omega),
        if_neg fun hall => hne hall.1, if_neg fun hall => hne hall.1]
      exact hsaved
  · have hq := hs.sound q o hm
    have hne := hother q o hm
    have hlt := hstack.lt_last hm
    have hext := hq.last_le_extent
    rw [hword q o hq.mem (by omega), if_neg fun hall => hne hall.1, if_neg fun hall => hne hall.1]

theorem Reversed.registers {a b : Int} (h : Reversed extent A base loose frames u t) :
    Reversed extent A base loose frames { u with freeWords := a, freeOops := b }
      { t with freeWords := a, freeOops := b } :=
  ⟨⟨h.apart.isOop, h.apart.segment_lt, h.apart.two_le, h.apart.inside, h.apart.apart⟩,
    ⟨h.touched.outside, h.touched.entryWord, h.touched.currentSegment, rfl, rfl⟩, h.count, h.word,
    h.saved, h.links.congr fun _ _ _ => rfl⟩

/-! ## What is freed -/

/-- What `countDown` relies on: the counts are right, where `regs` tells the
references from registers, and pointers refer to allocated objects. -/
structure Counted (m : ObjectMemory) (L : Layout) (regs : Nat → Nat) : Prop where
  heap : Heap m L
  last_le : ∀ p, Allocated m L p → m.last p ≤ m.chunkWord p 0
  pointer : ∀ p i, Allocated m L p → IsPointer m p i → Allocated m L (m.chunkWord p i)
  count : ∀ p, Allocated m L p → (m.entry p).count < 128 →
    (m.entry p).count = m.references (fun x => Allocated m L x.1) p + regs p

/-- `S` contains each object that has references, unsaturated, all from `S` but
for the register reference to `r` that is dropped. -/
def Cascades (m : ObjectMemory) (L : Layout) (regs : Nat → Nat) (r : Nat) (S : Nat → Prop) : Prop :=
  ∀ q, Allocated m L q → (m.entry q).count < 128 → (m.entry q).count ≠ 0 →
    (regs q = if q = r then 1 else 0) →
    (∀ v i, Allocated m L v → IsPointer m v i → m.chunkWord v i = q → S v) → S q

/-- The least such set. -/
def Freed (m : ObjectMemory) (L : Layout) (regs : Nat → Nat) (r p : Nat) : Prop :=
  ∀ S, Cascades m L regs r S → S p

theorem freed_cascades (m : ObjectMemory) (L : Layout) (regs : Nat → Nat) (r : Nat) :
    Cascades m L regs r (Freed m L regs r) :=
  fun q hq hlt hne hregs hall S hS =>
    hS q hq hlt hne hregs fun v i hv hi hvq => hall v i hv hi hvq S hS

/-- The pointers that the dead objects have given up: all, but those that the
traversal has not come to. -/
def Released (dead : Nat → Prop) (frames : List (Nat × Nat)) (x : Nat × Nat) : Prop :=
  dead x.1 ∧ ∀ o, (x.1, o) ∈ frames → o ≤ x.2

/-- How many references to `p` have been taken away. -/
noncomputable def released (m : ObjectMemory) (r : Nat) (dead : Nat → Prop)
    (frames : List (Nat × Nat)) (p : Nat) : Nat :=
  m.references (Released dead frames) p + if p = r then 1 else 0

/-- The state of the traversal: the `dead` objects have lost their last
reference; those of `frames` are still to be put on a list. The word at `hole`, of
an object that is not freed, is not read and may differ. -/
structure Freeing (m : ObjectMemory) (L : Layout) (regs : Nat → Nat) (r : Nat)
    (hole : Nat × Nat) (dead : Nat → Prop) (L' : Layout) (frames : List (Nat × Nat))
    (u : ObjectMemory) : Prop where
  stack : Stack L.extent (InUse m) u frames
  heap : Heap u L'
  extent : L'.extent = L.extent
  entry : ∀ p, u.entry p = { m.entry p with count := (u.entry p).count }
  location : ∀ p, p % 2 = 0 → u.location p = m.location p
  lost : ∀ p, dead p → Allocated m L p ∧ (m.entry p).count < 128 ∧ (u.entry p).count = 0 ∧
    Freed m L regs r p
  onStack : ∀ p, p ∈ frames.map Prod.fst → dead p
  listed : ∀ p, (∃ s k, p ∈ L'.chunks s k) ↔
    (∃ s k, p ∈ L.chunks s k) ∨ dead p ∧ p ∉ frames.map Prod.fst
  word : ∀ p i, Allocated m L p → (dead p → p ∈ frames.map Prod.fst) → i < L.extent p →
    ¬Extra m L.extent p i → (p, i) ≠ hole → u.chunkWord p i = m.chunkWord p i
  kept : ¬Freed m L regs r hole.1
  count : ∀ p, Allocated m L p → (m.entry p).count < 128 →
    (u.entry p).count + released m r dead frames p = (m.entry p).count
  saturated : ∀ p, Allocated m L p → 128 ≤ (m.entry p).count →
    (u.entry p).count = (m.entry p).count
  alive : ∀ p, Allocated m L p → ¬dead p → (m.entry p).count ≠ 0 → (u.entry p).count ≠ 0

variable {L L' : Layout} {regs : Nat → Nat} {dead dead' : Nat → Prop} {hole : Nat × Nat}
  {frames' : List (Nat × Nat)}

theorem Allocated.lt (hp : Allocated m L p) : p < 65536 := hp.inUse.isEntry.2

theorem Counted.closed (h : Counted m L regs) :
    Closed m L.extent (InUse m) (Allocated m L) :=
  ⟨h.heap.tiled.toApart, fun p hp => ⟨hp.inUse, hp.inUse.1, h.heap.tiled.two_le p hp.inUse,
    h.heap.extent_allocated p hp, h.last_le p hp⟩, h.pointer⟩

/-- An object all of whose references are from freed objects, but for that from the
register. -/
theorem Counted.lastReference {D : Nat × Nat → Prop} (h : Counted m L regs) (hregs : 1 ≤ regs r)
    (hq : Allocated m L q) (hlt : (m.entry q).count < 128) (hne : (m.entry q).count ≠ 0)
    (hD : ∀ x, D x → Allocated m L x.1 ∧ Freed m L regs r x.1)
    (hall : (m.entry q).count ≤ m.references D q + if q = r then 1 else 0) :
    Freed m L regs r q := by
  have hfin : ∀ x : Nat × Nat, Allocated m L x.1 → x.1 < 65536 := fun x hx => hx.lt
  have hle := references_mono (m := m) hfin (fun x hx => (hD x hx).1) q
  have hcount := h.count q hq hlt
  have hreg : (if q = r then 1 else 0) ≤ regs q := by
    split
    · next hqr => rwa [hqr]
    · exact Nat.zero_le _
  refine freed_cascades m L regs r q hq hlt hne (by omega) fun v i hv hi hvq => ?_
  by_contra hnot
  have hless := references_lt (m := m) hfin (fun x hx => (hD x hx).1) hi
    (fun hx => hnot (hD _ hx).2) hv
  rw [hvq] at hless
  omega

/-! ## The pointers that are given up -/

/-- The traversal passes a pointer of the first object of the stack. -/
theorem released_next (hv : dead v) (hnodup : v ∉ frames.map Prod.fst) (x : Nat × Nat) :
    Released dead ((v, o) :: frames) x ↔ Released dead ((v, o + 1) :: frames) x ∨ x = (v, o) := by
  have hnot : ∀ o', (v, o') ∉ frames := fun o' hm => hnodup (List.mem_map.mpr ⟨_, hm, rfl⟩)
  obtain ⟨p, i⟩ := x
  simp only [Released, List.mem_cons, Prod.mk.injEq]
  constructor
  · rintro ⟨hp, hall⟩
    by_cases hpv : p = v ∧ i = o
    · exact .inr hpv
    · refine .inl ⟨hp, fun o' ho' => ?_⟩
      rcases ho' with ⟨rfl, rfl⟩ | ho'
      · have hle := hall o (.inl ⟨rfl, rfl⟩)
        have hne : i ≠ o := fun hio => hpv ⟨rfl, hio⟩
        omega
      · exact hall o' (.inr ho')
  · rintro (⟨hp, hall⟩ | ⟨rfl, rfl⟩)
    · refine ⟨hp, fun o' ho' => ?_⟩
      rcases ho' with ⟨rfl, rfl⟩ | ho'
      · have hle := hall (o' + 1) (.inl ⟨rfl, rfl⟩)
        omega
      · exact hall o' (.inr ho')
    · refine ⟨hv, fun o' ho' => ?_⟩
      rcases ho' with ⟨-, rfl⟩ | ho'
      · exact le_rfl
      · exact absurd ho' (hnot o')

/-- An object that has just lost its last reference has its pointers still. -/
theorem released_push (hq : ¬dead q) (x : Nat × Nat) (hx : IsPointer m x.1 x.2) :
    Released (fun p => dead p ∨ p = q) ((q, m.last q) :: frames) x ↔ Released dead frames x := by
  obtain ⟨p, i⟩ := x
  simp only [Released, List.mem_cons, Prod.mk.injEq]
  constructor
  · rintro ⟨hp, hall⟩
    refine ⟨hp.resolve_right ?_, fun o ho => hall o (.inr ho)⟩
    rintro rfl
    have hle := hall _ (.inl ⟨rfl, rfl⟩)
    have hlt := hx.2.1
    dsimp only at hlt
    omega
  · rintro ⟨hp, hall⟩
    refine ⟨.inl hp, fun o ho => ?_⟩
    rcases ho with ⟨rfl, -⟩ | ho
    · exact absurd hp hq
    · exact hall o ho

/-- An object whose pointers have all been passed leaves the stack. -/
theorem released_leave (x : Nat × Nat) (hx : IsPointer m x.1 x.2) :
    Released dead frames x ↔ Released dead ((v, 1) :: frames) x := by
  obtain ⟨p, i⟩ := x
  have h1 := hx.1
  simp only [Released, List.mem_cons, Prod.mk.injEq]
  refine and_congr_right fun _ => ⟨fun hall o ho => ?_, fun hall o ho => hall o (.inr ho)⟩
  rcases ho with ⟨-, rfl⟩ | ho
  · exact h1
  · exact hall o ho

/-! ## The measure -/

/-- The entries with a reference. -/
def referenced (u : ObjectMemory) : Finset Nat :=
  (Finset.range 65536).filter fun p => (u.entry p).count ≠ 0

/-- Every round frees an object or passes a pointer. -/
def freeingMeasure (frames : List (Nat × Nat)) (u : ObjectMemory) : Nat :=
  u.referenced.card * 65536 + (frames.map Prod.snd).sum

theorem referenced_setCount {c : Nat} (hc : c < 256) (hp : p < 65536)
    (hne : (u.entry p).count ≠ 0) : (u.setCount p c).referenced.card ≤ u.referenced.card ∧
      (c = 0 → (u.setCount p c).referenced.card < u.referenced.card) := by
  have hsub : (u.setCount p c).referenced ⊆ u.referenced := fun q hq => by
    rw [referenced, Finset.mem_filter, entry_setCount hc] at hq
    rw [referenced, Finset.mem_filter]
    refine ⟨hq.1, ?_⟩
    by_cases hqp : q = p
    · rw [hqp]
      exact hne
    · rw [if_neg hqp] at hq
      exact hq.2
  refine ⟨Finset.card_le_card hsub, fun h0 => Finset.card_lt_card
    ((Finset.ssubset_iff_of_subset hsub).mpr ⟨p, ?_, ?_⟩)⟩
  · rw [referenced, Finset.mem_filter, Finset.mem_range]
    exact ⟨hp, hne⟩
  · rw [referenced, Finset.mem_filter, entry_setCount hc, if_pos rfl]
    exact fun hall => hall.2 h0

/-! ## The rounds of the traversal -/

namespace Freeing

variable (hm : Counted m L regs)

include hm

omit hm in
theorem ne_of_fst (hne : p ≠ hole.1) : (p, i) ≠ hole := fun he => hne (he ▸ rfl)

omit hm in
theorem ne_hole (h : Freeing m L regs r hole dead L' frames u) (hd : dead p) : p ≠ hole.1 :=
  fun he => h.kept (he ▸ (h.lost p hd).2.2.2)

theorem last_eq (h : Freeing m L regs r hole dead L' frames u) (hp : Allocated m L p)
    (hf : dead p → p ∈ frames.map Prod.fst) (hne : p ≠ hole.1) : u.last p = m.last p := by
  have hs := hm.closed.sound p hp
  have hext := hs.last_le_extent
  have htwo := hs.two_le
  have hword : ∀ i < 3, i < L.extent p → u.chunkWord p i = m.chunkWord p i := fun i h3 hi =>
    h.word p i hp hf hi (not_extra_header h3) (ne_of_fst hne)
  exact last_congr (by rw [h.entry p]) (hword 0 (by omega) (by omega))
    (hword 1 (by omega) (by omega)) fun h3 => hword 2 (by omega) (by omega)

theorem sound (h : Freeing m L regs r hole dead L' frames u) (hp : Allocated m L p)
    (hf : dead p → p ∈ frames.map Prod.fst) (hne : p ≠ hole.1) :
    Sound u L.extent (InUse m) p := by
  have hs := hm.closed.sound p hp
  have htwo := hs.two_le
  have hsize := h.word p 0 hp hf (by omega) (not_extra_header (by omega)) (ne_of_fst hne)
  refine ⟨hs.mem, hs.isOop, hs.two_le, ?_, ?_⟩
  · rw [hs.extent_eq, space_congr (by rw [h.entry p]) hsize]
  · rw [h.last_eq hm hp hf hne, hsize]
    exact hs.last_le

omit hm in
/-- A dead object is not on the lists before the traversal leaves it. -/
theorem allocated (h : Freeing m L regs r hole dead L' frames u) (hp : Allocated m L p)
    (hf : dead p → p ∈ frames.map Prod.fst) : Allocated u L' p := by
  refine ⟨⟨hp.inUse.1, by rw [h.entry p]; exact hp.inUse.2⟩, fun s k hmem => ?_⟩
  rcases (h.listed p).mp ⟨s, k, hmem⟩ with ⟨s', k', hmem'⟩ | ⟨hd, hout⟩
  · exact hp.2 s' k' hmem'
  · exact hout (hf hd)

/-- The pointer that the traversal comes to next. -/
theorem pointer (h : Freeing m L regs r hole dead L' ((v, o + 1) :: frames) u) :
    u.chunkWord v o = m.chunkWord v o ∧ o < m.last v := by
  have hdv := h.onStack v (by simp)
  have hv := (h.lost v hdv).1
  have hoff := (h.stack.offset v _ List.mem_cons_self).2
  rw [h.last_eq hm hv (fun _ => by simp) (h.ne_hole hdv)] at hoff
  have hs := hm.closed.sound v hv
  have hext := hs.last_le_extent
  exact ⟨h.word v o hv (fun _ => by simp) (by omega) (hs.not_extra (by omega))
    (ne_of_fst (h.ne_hole hdv)), by omega⟩

omit hm in
theorem references_next (h : Freeing m L regs r hole dead L' ((v, o + 1) :: frames) u) (p : Nat) :
    m.references (Released dead ((v, o) :: frames)) p =
      m.references (Released dead ((v, o + 1) :: frames)) p +
        if IsPointer m v o ∧ m.chunkWord v o = p then 1 else 0 := by
  have hnodup := (List.nodup_cons.mp h.stack.nodup).1
  refine references_insert (fun x hx => (h.lost x.1 hx.1).1.lt)
    (released_next (h.onStack v (by simp)) hnodup) fun hx => ?_
  have hle := hx.2 (o + 1) List.mem_cons_self
  dsimp only at hle
  omega

omit hm in
/-- What changes when only counts do. -/
theorem recounted (h : Freeing m L regs r hole dead L' frames u)
    (hs : Same L.extent (InUse m) u u') (hheap : Heap u' L')
    (hstack : Stack L.extent (InUse m) u' frames')
    (hlost : ∀ p, dead' p → Allocated m L p ∧ (m.entry p).count < 128 ∧ (u'.entry p).count = 0 ∧
      Freed m L regs r p)
    (honStack : ∀ p, p ∈ frames'.map Prod.fst → dead' p)
    (hlisted : ∀ p, dead' p ∧ p ∉ frames'.map Prod.fst ↔ dead p ∧ p ∉ frames.map Prod.fst)
    (hcount : ∀ p, Allocated m L p → (m.entry p).count < 128 →
      (u'.entry p).count + released m r dead' frames' p = (m.entry p).count)
    (hsaturated : ∀ p, Allocated m L p → 128 ≤ (m.entry p).count →
      (u'.entry p).count = (u.entry p).count)
    (halive : ∀ p, Allocated m L p → ¬dead' p → (m.entry p).count ≠ 0 → (u'.entry p).count ≠ 0) :
    Freeing m L regs r hole dead' L' frames' u' := by
  refine ⟨hstack, hheap, h.extent, fun p => ?_, fun p hp => (hs.location hp).trans (h.location p hp),
    hlost, honStack, fun p => ?_, fun p i hp hf hi hx hh => ?_, h.kept, hcount,
    fun p hp h128 => ?_, halive⟩
  · rw [hs.entry p, h.entry p]
  · rw [h.listed p, hlisted p]
  · rw [hs.word p i hp.inUse hi fun hx' => hx ?_]
    · refine h.word p i hp (fun hd => ?_) hi hx hh
      by_contra hout
      obtain ⟨hd', hout'⟩ := (hlisted p).mpr ⟨hd, hout⟩
      exact hout' (hf hd')
    · rwa [Extra, h.entry p] at hx'
  · rw [hsaturated p hp h128, h.saturated p hp h128]

omit hm in
/-- The traversal passes a pointer. -/
theorem passed (h : Freeing m L regs r hole dead L' ((v, o + 1) :: frames) u) (ho : 1 ≤ o)
    (hs : Same L.extent (InUse m) u u') (hheap : Heap u' L')
    (hcount : ∀ p, Allocated m L p → (m.entry p).count < 128 →
      (u'.entry p).count + (if IsPointer m v o ∧ m.chunkWord v o = p then 1 else 0) =
        (u.entry p).count)
    (hsaturated : ∀ p, Allocated m L p → 128 ≤ (m.entry p).count →
      (u'.entry p).count = (u.entry p).count)
    (halive : ∀ p, Allocated m L p → ¬dead p → (u.entry p).count ≠ 0 → (u'.entry p).count ≠ 0) :
    Freeing m L regs r hole dead L' ((v, o) :: frames) u' := by
  refine h.recounted hs hheap ((h.stack.next ho).same hs) (fun p hp => ?_) h.onStack
    (fun _ => Iff.rfl) (fun p hp hlt => ?_) hsaturated fun p hp hd hne =>
      halive p hp hd (h.alive p hp hd hne)
  · obtain ⟨h1, h2, h3, h4⟩ := h.lost p hp
    have hsum := hcount p h1 h2
    exact ⟨h1, h2, by omega, h4⟩
  · rw [released, h.references_next]
    have hsum := hcount p hp hlt
    have hbefore := h.count p hp hlt
    rw [released] at hbefore
    omega

/-- The object that the next pointer refers to has a reference left. -/
theorem referred (hregs : 1 ≤ regs r) (h : Freeing m L regs r hole dead L' ((v, o + 1) :: frames) u)
    (hi : IsPointer m v o) (hlt : (m.entry (m.chunkWord v o)).count < 128) :
    1 ≤ (u.entry (m.chunkWord v o)).count ∧ ((u.entry (m.chunkWord v o)).count = 1 →
      Freed m L regs r (m.chunkWord v o)) := by
  have hv := (h.lost v (h.onStack v (by simp))).1
  have hq := hm.pointer v o hv hi
  have hcount := hm.count _ hq hlt
  have hbefore := h.count _ hq hlt
  have hnext := h.references_next (m.chunkWord v o)
  rw [if_pos ⟨hi, rfl⟩] at hnext
  have hle : m.references (Released dead ((v, o) :: frames)) (m.chunkWord v o) ≤
      m.references (fun x => Allocated m L x.1) (m.chunkWord v o) :=
    references_mono (fun x hx => hx.lt) (fun x hx => (h.lost x.1 hx.1).1) _
  have hreg : (if m.chunkWord v o = r then 1 else 0) ≤ regs (m.chunkWord v o) := by
    split
    · next hqr => rwa [hqr]
    · exact Nat.zero_le _
  rw [released] at hbefore
  refine ⟨by omega, fun h1 => ?_⟩
  exact hm.lastReference hregs hq hlt (by omega)
    (fun x (hx : Released dead ((v, o) :: frames) x) =>
      ⟨(h.lost x.1 hx.1).1, (h.lost x.1 hx.1).2.2.2⟩) (by omega)

/-- The object that the next pointer refers to loses its last reference. -/
theorem enter (h : Freeing m L regs r hole dead L' ((v, o + 1) :: frames) u) (ho : 1 ≤ o)
    (hi : IsPointer m v o) (hq : m.chunkWord v o = q) (hlt : (m.entry q).count < 128)
    (h1 : (u.entry q).count = 1) (hfreed : Freed m L regs r q) :
    Freeing m L regs r hole (fun p => dead p ∨ p = q) L' ((q, m.last q) :: (v, o) :: frames)
      (u.setCount q 0) := by
  have hv := (h.lost v (h.onStack v (by simp))).1
  have hqa : Allocated m L q := hq ▸ hm.pointer v o hv hi
  have hnot : ¬dead q := fun hd => by
    have h0 := (h.lost q hd).2.2.1
    omega
  have hout : q ∉ ((v, o) :: frames).map Prod.fst := fun hmem => hnot (h.onStack q hmem)
  have hsame := same_setCount (c := 0) h.stack.apart hqa.inUse (by omega)
  have hqhole : q ≠ hole.1 := fun he => h.kept (he ▸ hfreed)
  have hqu := h.sound hm hqa (fun hd => absurd hd hnot) hqhole
  obtain ⟨hword, hlast⟩ := h.pointer hm
  have hsv := h.stack.sound v _ List.mem_cons_self
  have hov : o < u.last v := by
    rwa [h.last_eq hm hv (fun _ => by simp) (h.ne_hole (h.onStack v (by simp)))]
  have hcount : ∀ p, ((u.setCount q 0).entry p).count = if p = q then 0 else (u.entry p).count :=
    fun p => by
      rw [entry_setCount (by omega)]
      split <;> rfl
  refine h.recounted hsame (h.heap.setCount hqa.inUse.even hqa.inUse.le (by omega) fun _ _ _ => rfl)
    ?_ (fun p hp => ?_) (fun p hp => ?_) (fun p => ?_) (fun p hp hltp => ?_) (fun p hp h128 => ?_)
    fun p hp hd hne => ?_
  · have hpush := ((h.stack.next ho).same hsame).push
    rw [hsame.last_eq hsv, hsame.chunkWord_eq hsv hov, hword, hq, hsame.last_eq hqu,
      h.last_eq hm hqa (fun hd => absurd hd hnot) hqhole] at hpush
    exact hpush hov (hsame.sound hqu) hout
  · rcases hp with hp | rfl
    · obtain ⟨h1', h2, h3, h4⟩ := h.lost p hp
      refine ⟨h1', h2, ?_, h4⟩
      rw [hcount]
      split
      · rfl
      · exact h3
    · exact ⟨hqa, hlt, by rw [hcount, if_pos rfl], hfreed⟩
  · rcases List.mem_cons.mp hp with rfl | hp
    · exact .inr rfl
    · exact .inl (h.onStack p hp)
  · simp only [List.map_cons, List.mem_cons]
    constructor
    · rintro ⟨hd | rfl, hout'⟩
      · exact ⟨hd, fun hall => hout' (.inr hall)⟩
      · exact absurd (.inl rfl) hout'
    · rintro ⟨hd, hout'⟩
      refine ⟨.inl hd, ?_⟩
      rintro (rfl | hall)
      · exact hnot hd
      · exact hout' hall
  · have hbefore := h.count p hp hltp
    rw [released] at hbefore ⊢
    rw [references_congr (released_push hnot), h.references_next, hcount, hq]
    by_cases hpq : p = q
    · subst hpq
      rw [if_pos rfl, if_pos ⟨hi, rfl⟩]
      omega
    · rw [if_neg hpq, if_neg fun hall => hpq hall.2.symm]
      omega
  · rw [hcount, if_neg]
    rintro rfl
    omega
  · rw [hcount, if_neg fun hpq => hd (.inr hpq)]
    exact h.alive p hp (fun hd' => hd (.inl hd')) hne

end Freeing

/-! ## The predicate and the action -/

theorem wp_countDownPredicate {Q : Bool → ObjectMemory → Prop} (hq : IsEntry q)
    (h1 : 1 ≤ (m.entry q).count) : Wp (countDownPredicate q) Q m ↔
      Q (decide ((m.entry q).count = 1))
        (if (m.entry q).count < 128 then m.setCount q ((m.entry q).count - 1) else m) := by
  have hc : (m.entry q).count < 256 := count_lt m q
  rw [countDownPredicate, wp_bind, wp_countBitsOf, and_iff_right hq, wp_bind, wp_check,
    and_iff_right (by omega)]
  have hdecide : decide (((m.entry q).count : Int) - 1 = 0) = decide ((m.entry q).count = 1) :=
    decide_eq_decide.mpr (by omega)
  by_cases hlt : (m.entry q).count < 128
  · rw [if_pos (by omega), if_pos hlt, wp_bind, wp_countBitsOfPut, wp_pure, hdecide,
      show (((m.entry q).count : Int) - 1).toNat = (m.entry q).count - 1 by omega]
    exact and_iff_right ⟨hq, by omega⟩
  · rw [if_neg (by omega), if_neg hlt, wp_pure, hdecide]

theorem wp_countDownAction {R : Unit → ObjectMemory → Prop} (hv : IsEntry v)
    (hseg : (m.entry v).segment < 15) (hloc : m.location v + 2 ≤ 65515) (htwo : 2 ≤ m.space v)
    (hspace : m.space v < 65536) : Wp (countDownAction v) R m ↔
      R () ({ m.setCount v 0 with freeWords := m.freeWords + m.space v,
                                  freeOops := m.freeOops + 1 }.deallocated v) := by
  have h0 : 0 < 256 := by decide
  have hs : (m.entry v).segment ≠ 15 := by omega
  have heven := hv.1
  have hentry : ((m.setCount v 0).entry v).segment = (m.entry v).segment ∧
      ((m.setCount v 0).entry v).pointer = (m.entry v).pointer := by
    rw [entry_setCount h0, if_pos rfl]
    exact ⟨rfl, rfl⟩
  have hlocation : (m.setCount v 0).location v = m.location v := location_setField (by omega)
  have hsp : (m.setCount v 0).space v = m.space v :=
    space_congr hentry.2 (chunkWord_setCount h0 (by omega) hs)
  rw [countDownAction, wp_bind, wp_countBitsOfPut, and_iff_right ⟨hv, h0⟩, wp_bind,
    wp_spaceOccupiedBy hv (by omega), hsp, wp_bind, wp_modify]
  refine wp_deallocate ?_ hv ?_ ?_ ?_
  · exact hentry.1 ▸ hseg
  · exact hlocation ▸ hloc
  · exact hsp ▸ hspace
  · exact hsp ▸ htwo

namespace Freeing

variable (hm : Counted m L regs)

include hm

omit hm in
/-- An object without pointers left is put on the list for its size. -/
theorem leave {a b : Int} (h : Freeing m L regs r hole dead L' ((v, 1) :: frames) u) :
    Freeing m L regs r hole dead (L'.push (u.entry v).segment (min (u.space v) bigSize) v) frames
      ({ u with freeWords := a, freeOops := b }.deallocated v) ∧
    ({ u with freeWords := a, freeOops := b }.deallocated v).referenced = u.referenced ∧
    ∀ p o, (p, o) ∈ frames → ({ u with freeWords := a, freeOops := b }.deallocated v).last p =
      u.last p ∧ ∀ i < L.extent p,
        ({ u with freeWords := a, freeOops := b }.deallocated v).chunkWord p i = u.chunkWord p i := by
  have hdv := h.onStack v (by simp)
  obtain ⟨hv, -, hzero, -⟩ := h.lost v hdv
  have hva := h.allocated hv fun _ => by simp
  have hnodup := (List.nodup_cons.mp h.stack.nodup).1
  have hheap := h.heap.registers (a := a) (b := b)
  generalize hu₁ : ({ u with freeWords := a, freeOops := b } : ObjectMemory) = u₁ at hheap ⊢
  have hentry₁ : ∀ p, u₁.entry p = u.entry p := fun p => by rw [← hu₁]; rfl
  have hlocation₁ : ∀ p, u₁.location p = u.location p := fun p => by rw [← hu₁]; rfl
  have hword₁ : ∀ p i, u₁.chunkWord p i = u.chunkWord p i := fun p i => by rw [← hu₁]; rfl
  have hva₁ : Allocated u₁ L' v := ⟨⟨hva.1.1, by rw [hentry₁]; exact hva.1.2⟩, hva.2⟩
  have hspace₁ : u₁.space v = u.space v := space_congr (by rw [hentry₁]) (hword₁ v 0)
  have hentry : ∀ p, (u₁.deallocated v).entry p = u.entry p := fun p => by
    rw [hheap.entry_deallocated hva₁, hentry₁]
  have hlocation : ∀ p, (u₁.deallocated v).location p = u.location p := fun p => by
    rw [hheap.location_deallocated hva₁, hlocation₁]
  have hword : ∀ p i, InUse m p → p ≠ v → i < L.extent p →
      (u₁.deallocated v).chunkWord p i = u.chunkWord p i := fun p i hp hne hi => by
    have hpu : InUse u₁ p := ⟨hp.1, by rw [hentry₁, h.entry p]; exact hp.2⟩
    rw [hheap.chunkWord_deallocated hva₁ hpu (by rwa [h.extent]), if_neg fun hall => hne hall.1,
      if_neg fun hall => hne hall.1, hword₁]
  have hframes : ∀ p o i, (p, o) ∈ frames → i < L.extent p →
      (u₁.deallocated v).chunkWord p i = u.chunkWord p i := fun p o i hp hi =>
    hword p i (h.stack.tail.sound p o hp).mem
      (fun hpv => hnodup (hpv ▸ List.mem_map.mpr ⟨_, hp, rfl⟩)) hi
  have hapart : Apart (u₁.deallocated v) L.extent (InUse m) :=
    h.stack.apart.congr (fun p _ => by rw [hentry]) fun p _ => hlocation p
  obtain ⟨hstack, hlast⟩ := h.stack.tail.congr hapart (fun p o _ => by rw [hentry])
    fun p o i hp hi _ => hframes p o i hp hi
  refine ⟨⟨hstack, ?_, h.extent, fun p => ?_, fun p hp => ?_, fun p hp => ?_,
    fun p hp => h.onStack p (List.mem_cons_of_mem _ hp), fun p => ?_,
    fun p i hp hf hi hx hh => ?_, h.kept, fun p hp hlt => ?_, fun p hp h128 => ?_, fun p hp hd hne => ?_⟩,
    by simp only [referenced, hentry],
    fun p o hp => ⟨hlast p o hp, fun i hi => hframes p o i hp hi⟩⟩
  · have hpushed := hheap.deallocated hva₁ (by rw [hentry₁]; exact hzero)
    rwa [hentry₁, hspace₁] at hpushed
  · rw [hentry]
    exact h.entry p
  · rw [hlocation]
    exact h.location p hp
  · rw [hentry]
    exact h.lost p hp
  · simp only [Layout.mem_push]
    constructor
    · rintro ⟨s, k, ⟨rfl, -, -⟩ | hmem⟩
      · exact .inr ⟨hdv, hnodup⟩
      · exact ((h.listed p).mp ⟨s, k, hmem⟩).imp_right fun hd =>
          ⟨hd.1, fun hall => hd.2 (List.mem_cons_of_mem _ hall)⟩
    · intro hcase
      by_cases hpv : p = v
      · exact ⟨_, _, .inl ⟨hpv, rfl, rfl⟩⟩
      · obtain ⟨s, k, hmem⟩ := (h.listed p).mpr (hcase.imp_right fun hd =>
          ⟨hd.1, fun hall => (List.mem_cons.mp hall).elim hpv hd.2⟩)
        exact ⟨s, k, .inr hmem⟩
  · have hpv : p ≠ v := fun hpv => hnodup (hpv ▸ hf (hpv ▸ hdv))
    rw [hword p i hp.inUse hpv hi]
    exact h.word p i hp (fun hd => List.mem_cons_of_mem _ (hf hd)) hi hx hh
  · rw [hentry, released, references_congr released_leave]
    exact h.count p hp hlt
  · rw [hentry]
    exact h.saturated p hp h128
  · rw [hentry]
    exact h.alive p hp hd hne

omit hm in
/-- The action, in the memory with reversed pointers. -/
theorem wp_action (h : Freeing m L regs r hole dead L' ((v, 1) :: frames) u)
    (hr : Reversed L.extent (InUse m) base (v :: frames.map Prod.fst) frames u t) :
    Wp (countDownAction v) (fun _ t' => ∃ L'' u', Freeing m L regs r hole dead L'' frames u' ∧
      Reversed L.extent (InUse m) base (frames.map Prod.fst) frames u' t' ∧
      u'.referenced = u.referenced ∧
      ∀ p o, (p, o) ∈ frames → u'.last p = u.last p ∧
        ∀ i < L.extent p, u'.chunkWord p i = u.chunkWord p i) t := by
  have hdv := h.onStack v (by simp)
  obtain ⟨hv, -, hzero, -⟩ := h.lost v hdv
  have hva := h.allocated hv fun _ => by simp
  have hnodup := (List.nodup_cons.mp h.stack.nodup).1
  have hsv := h.stack.sound v 1 List.mem_cons_self
  have hself : u.setCount v 0 = u := setCount_self hzero
  have hr₁ := hr.setCount (l := frames.map Prod.fst) h.stack.tail hsv.mem (show 0 < 256 by omega)
    hnodup fun p hp hne => (List.mem_cons.mp hp).resolve_left hne
  rw [hself] at hr₁
  have hat := hr.apart_reversed
  have hsize : t.chunkWord v 0 = u.chunkWord v 0 :=
    hr.word v 0 hsv.mem (by have := hsv.two_le; omega) (not_extra_header (by omega)) fun o ho =>
      absurd (List.mem_map.mpr ⟨_, ho, rfl⟩) hnodup
  have hspace : t.space v = u.space v := space_congr (by rw [hr.entry v]) hsize
  have htwo := h.heap.two_le_space hva
  have hlt := h.heap.space_lt hva
  have hin := hat.inside v hsv.mem
  have htwo' := hsv.two_le
  rw [wp_countDownAction hsv.isOop.isEntry (hat.segment_lt v hsv.mem) (by omega) (by omega)
    (by omega)]
  obtain ⟨hfreeing, href, hsame⟩ := h.leave (a := t.freeWords + t.space v) (b := t.freeOops + 1)
  have hr₂ := hr₁.registers (a := t.freeWords + t.space v) (b := t.freeOops + 1)
  refine ⟨_, _, hfreeing, hr₂.deallocated (i := 1) ?_ ?_ hlt, href, hsame⟩
  · exact (h.stack.congr hr₂.apart (fun _ _ _ => rfl) fun _ _ _ _ _ _ => rfl).1
  · exact (chunkWord_setCount (by omega) (by have := hsv.isOop.1; omega)
      (hat.onHeap hsv.mem)).trans hsize

/-- The traversal with the predicate and the action of `countDown`. -/
theorem visitor (hregs : 1 ≤ regs r) :
    Visitor L.extent (InUse m) countDownPredicate countDownAction
      (fun frames u => ∃ dead L', Freeing m L regs r hole dead L' frames u) freeingMeasure := by
  have hless : ∀ {v o : Nat} {frames : List (Nat × Nat)} {u u' : ObjectMemory},
      u'.referenced.card ≤ u.referenced.card →
        freeingMeasure ((v, o) :: frames) u' < freeingMeasure ((v, o + 1) :: frames) u := by
    intro v o frames u u' hcard
    simp only [freeingMeasure, List.map_cons, List.sum_cons]
    omega
  refine ⟨fun frames u ⟨_, _, h⟩ => h.stack, ?_, ?_, ?_⟩
  · rintro v o frames u ⟨dead, L', h⟩ ho hodd
    have hword := (h.pointer hm).1
    have hnot : ∀ p, ¬(IsPointer m v o ∧ m.chunkWord v o = p) := fun p hall => by
      have heven := hall.1.2.2
      omega
    exact ⟨⟨dead, L', h.passed ho (.refl h.stack.apart) h.heap
      (fun p _ _ => by rw [if_neg (hnot p), Nat.add_zero]) (fun _ _ _ => rfl)
      fun _ _ _ hne => hne⟩, hless le_rfl⟩
  · rintro v o frames u t base ⟨dead, L', h⟩ ho heven hr
    obtain ⟨hword, hlt⟩ := h.pointer hm
    rw [hword] at heven ⊢
    have hi : IsPointer m v o := ⟨ho, hlt, heven⟩
    have hv := (h.lost v (h.onStack v (by simp))).1
    have hq := hm.pointer v o hv hi
    have hreferred := h.referred hm hregs hi
    generalize hqdef : m.chunkWord v o = q at *
    have hsat := h.saturated q hq
    have hpos : 1 ≤ (u.entry q).count := by
      by_cases hc : (m.entry q).count < 128
      · exact (hreferred hc).1
      · have := hsat (by omega)
        omega
    have hnot : ¬dead q := fun hd => by
      have h0 := (h.lost q hd).2.2.1
      omega
    have hout : q ∉ v :: frames.map Prod.fst := fun hmem => hnot (h.onStack q hmem)
    have hcount : (t.entry q).count = (u.entry q).count := hr.count_eq hq.inUse.even hout
    rw [wp_countDownPredicate hq.inUse.isEntry (by omega), hcount]
    by_cases hc : (m.entry q).count < 128
    · have hbefore := h.count q hq hc
      have hless128 : (u.entry q).count < 128 := by omega
      have h256 : (u.entry q).count - 1 < 256 := by omega
      have hsame := same_setCount h.stack.apart hq.inUse h256
      have hr' := hr.setCount (l := v :: frames.map Prod.fst) h.stack.tail hq.inUse h256
        (fun hmem => hout (List.mem_cons_of_mem _ hmem)) fun p hp _ => hp
      have hlast := hsame.last_eq (h.stack.sound v _ List.mem_cons_self)
      obtain ⟨hcard, hcard'⟩ := referenced_setCount (u := u) h256 hq.lt (by omega)
      rw [if_pos hless128]
      refine ⟨u.setCount q ((u.entry q).count - 1), hr', hlast, fun htrue => ?_, fun hfalse => ?_⟩
      · have h1 : (u.entry q).count = 1 := of_decide_eq_true htrue
        have henter := h.enter hm ho hi hqdef hc h1 ((hreferred hc).2 h1)
        have hlastq : (u.setCount q 0).last q = m.last q :=
          henter.last_eq hm hq (fun _ => by simp) (henter.ne_hole (.inr rfl))
        rw [h1] at hcard' ⊢
        rw [Nat.sub_self, hlastq]
        refine ⟨⟨_, _, henter⟩, ?_⟩
        have hfewer := hcard' rfl
        have hsmall : m.last q < 65536 := last_lt
        rw [Nat.sub_self] at hfewer
        simp only [freeingMeasure, List.map_cons, List.sum_cons]
        omega
      · have hne : (u.entry q).count ≠ 1 := of_decide_eq_false hfalse
        have hentry : ∀ p, ((u.setCount q ((u.entry q).count - 1)).entry p).count =
            if p = q then (u.entry q).count - 1 else (u.entry p).count := fun p => by
          rw [entry_setCount h256]
          split <;> rfl
        have hheap := h.heap.setCount hq.inUse.even hq.inUse.le h256 fun s k hmem =>
          absurd hmem ((h.allocated hq fun hd => absurd hd hnot).2 s k)
        refine ⟨⟨dead, L', h.passed ho hsame hheap (fun p hp hltp => ?_) (fun p hp h128 => ?_)
          fun p hp hd hnz => ?_⟩, hless hcard⟩
        · rw [hentry, hqdef]
          by_cases hpq : p = q
          · rw [if_pos hpq, if_pos ⟨hi, hpq.symm⟩, hpq]
            omega
          · rw [if_neg hpq, if_neg fun hall => hpq hall.2.symm, Nat.add_zero]
        · rw [hentry, if_neg]
          rintro rfl
          omega
        · rw [hentry]
          split
          · omega
          · exact hnz
    · have h128 := hsat (by omega)
      rw [if_neg (by omega), decide_eq_false (by omega)]
      refine ⟨u, hr, rfl, (fun hf => by cases hf), fun _ => ⟨⟨dead, L', h.passed ho
        (.refl h.stack.apart) h.heap (fun p _ hltp => ?_) (fun _ _ _ => rfl)
        fun _ _ _ hne => hne⟩, hless le_rfl⟩⟩
      rw [if_neg, Nat.add_zero]
      rintro ⟨-, hqp⟩
      rw [← hqp, hqdef] at hltp
      omega
  · rintro v w o frames u t base ⟨dead, L', h⟩ hr
    refine (h.wp_action hr).mono fun _ t' ⟨L'', u', h', hr', href, hkept⟩ => ?_
    obtain ⟨hlast, hwords⟩ := hkept w o List.mem_cons_self
    have hentered := (List.isChain_cons_cons.mp h.stack.entered).1
    have hsw := h.stack.sound w o (by simp)
    have hext := hsw.last_le_extent
    refine ⟨u', hr', ⟨dead, L'', h'⟩, by rw [hlast]; exact hentered.1, ?_, ?_⟩
    · have hlt := hentered.1
      rw [hwords o (by dsimp only at hlt; omega)]
      exact hentered.2
    · simp only [freeingMeasure, href, List.map_cons, List.sum_cons]
      omega

omit hm in
/-- Before anything is freed. -/
theorem nothing (hkept : ¬Freed m L regs r hole.1) (hu : Same L.extent (InUse m) m u)
    (hheap : Heap u L)
    (hcount : ∀ p, Allocated m L p → (m.entry p).count < 128 →
      (u.entry p).count + (if p = r then 1 else 0) = (m.entry p).count)
    (hsaturated : ∀ p, Allocated m L p → 128 ≤ (m.entry p).count →
      (u.entry p).count = (m.entry p).count)
    (halive : ∀ p, Allocated m L p → (m.entry p).count ≠ 0 → (u.entry p).count ≠ 0) :
    Freeing m L regs r hole (fun _ => False) L [] u := by
  refine ⟨⟨hu.apart_same, by simp, by simp, by simp, .nil⟩, hheap, rfl, hu.entry,
    fun p hp => hu.location hp, fun p hp => hp.elim, by simp, by simp,
    fun p i hp _ hi hx _ => hu.word p i hp.inUse hi hx, hkept, fun p hp hlt => ?_, hsaturated,
    fun p hp _ hne => halive p hp hne⟩
  rw [released, references_none fun x _ hx => hx.1, Nat.zero_add]
  exact hcount p hp hlt

/-- `r` has lost its last reference. -/
theorem start (hkept : ¬Freed m L regs r hole.1) (hregs : 1 ≤ regs r) (hr : Allocated m L r)
    (h1 : (m.entry r).count = 1) :
    Freeing m L regs r hole (· = r) L [(r, m.last r)] (m.setCount r 0) := by
  have hsr := hm.closed.sound r hr
  have htwo := hsr.two_le_last
  have hsame := same_setCount (c := 0) hm.closed.apart hr.inUse (by omega)
  have hcount : ∀ p, ((m.setCount r 0).entry p).count = if p = r then 0 else (m.entry p).count :=
    fun p => by
      rw [entry_setCount (by omega)]
      split <;> rfl
  have hfreed : Freed m L regs r r := hm.lastReference (D := fun _ => False) hregs hr (by omega)
    (by omega) (fun _ hx => hx.elim) (by rw [if_pos rfl]; omega)
  have hstack : Stack L.extent (InUse m) m [(r, m.last r)] := by
    refine ⟨hm.closed.apart, by simp, fun p o hp => ?_, fun p o hp => ?_,
      List.IsChain.singleton _⟩ <;>
      obtain ⟨rfl, rfl⟩ := Prod.mk.inj (List.mem_singleton.mp hp)
    · exact hsr
    · exact ⟨by omega, le_rfl⟩
  refine ⟨hstack.same hsame, hm.heap.setCount hr.inUse.even hr.inUse.le (by omega) fun _ _ _ => rfl,
    rfl, hsame.entry, fun p hp => hsame.location hp, fun p hp => ?_, fun p hp => by simpa using hp,
    fun p => ?_, fun p i hp _ hi hx _ => hsame.word p i hp.inUse hi hx, hkept, fun p hp hlt => ?_,
    fun p hp h128 => ?_, fun p hp hpr hne => ?_⟩
  · subst hp
    exact ⟨hr, by omega, by rw [hcount, if_pos rfl], hfreed⟩
  · simp
  · rw [released, references_none fun x hx hrel => ?_, hcount, Nat.zero_add]
    · split
      · next hpr => rw [hpr, h1]
      · rfl
    · obtain ⟨rfl, hall⟩ := hrel
      have hle := hall _ List.mem_cons_self
      have hlt' := hx.2.1
      omega
  · rw [hcount, if_neg]
    rintro rfl
    omega
  · rw [hcount, if_neg hpr]
    exact hne

/-- At the end the dead objects are those that had to be freed. -/
theorem dead_iff (h : Freeing m L regs r hole dead L' [] u) : dead p ↔ Freed m L regs r p := by
  refine ⟨fun hd => (h.lost p hd).2.2.2, fun hp => hp dead fun q hq hlt hne hregs hall => ?_⟩
  by_contra hnot
  have halive := h.alive q hq hnot hne
  have hbefore := h.count q hq hlt
  have hcount := hm.count q hq hlt
  have hle : m.references (fun x => Allocated m L x.1) q ≤ m.references (Released dead []) q :=
    references_le (fun x hx => (h.lost x.1 hx.1).1.lt) fun x hx hi hxq =>
      ⟨hall x.1 x.2 hx hi hxq, by simp⟩
  rw [released] at hbefore
  omega

end Freeing

/-- What `countDown r` leaves of the memory `m`: the objects that had to be freed
are each on one list, once, and the others have kept all but their counts. -/
structure CountedDown (m : ObjectMemory) (L : Layout) (regs : Nat → Nat) (r : Nat) (L' : Layout)
    (u : ObjectMemory) : Prop where
  heap : Heap u L'
  listed : ∀ p, (∃ s k, p ∈ L'.chunks s k) ↔ (∃ s k, p ∈ L.chunks s k) ∨ Freed m L regs r p
  once : ∀ p, Freed m L regs r p → ∃ s k, (L'.chunks s k).count p = 1 ∧
    ∀ s' k', p ∈ L'.chunks s' k' → s' = s ∧ k' = k
  surviving : ∀ p, Allocated m L p → ¬Freed m L regs r p → Allocated u L' p ∧
    u.entry p = { m.entry p with count := (u.entry p).count } ∧ u.location p = m.location p ∧
    ∀ i < m.chunkWord p 0, u.chunkWord p i = m.chunkWord p i
  count : ∀ p, Allocated m L p → ¬Freed m L regs r p → (m.entry p).count < 128 →
    (u.entry p).count + m.references (fun x => Freed m L regs r x.1) p +
      (if p = r then 1 else 0) = (m.entry p).count
  saturated : ∀ p, Allocated m L p → 128 ≤ (m.entry p).count →
    (u.entry p).count = (m.entry p).count

theorem Sound.not_extra_size {A : Nat → Prop} (hs : Sound m extent A p)
    (hi : i < m.chunkWord p 0) : ¬Extra m extent p i := fun ⟨hpointer, hext, hlast⟩ => by
  have hspace := hs.extent_eq
  unfold space at hspace
  split at hspace
  · next hcase =>
      rcases hcase with hcase | hcase
      · simp only [hugeSize] at hcase
        omega
      · exact hpointer hcase
  · omega

theorem Allocated.ne_zero (hp : Allocated m L p) : p ≠ 0 := by
  have hoop := hp.inUse.1.2.1
  omega

theorem Freed.allocated (hp : Freed m L regs r p) : Allocated m L p :=
  hp (Allocated m L) fun _ hq _ _ _ _ => hq

theorem Freeing.countedDown (hm : Counted m L regs)
    (h : Freeing m L regs r (0, 0) dead L' [] u) : CountedDown m L regs r L' u := by
  have hdead : ∀ p, dead p ↔ Freed m L regs r p := fun p => h.dead_iff hm
  have hlisted : ∀ p, (∃ s k, p ∈ L'.chunks s k) ↔
      (∃ s k, p ∈ L.chunks s k) ∨ Freed m L regs r p := fun p => by
    rw [h.listed p, hdead p]
    simp
  refine ⟨h.heap, hlisted, fun p hp => ?_, fun p hp hf => ?_, fun p hp hf hlt => ?_, h.saturated⟩
  · obtain ⟨s, k, hmem⟩ := (hlisted p).mpr (.inr hp)
    exact ⟨s, k, h.heap.listed_once hmem⟩
  · have hnot : dead p → p ∈ ([] : List (Nat × Nat)).map Prod.fst := fun hd =>
      absurd ((hdead p).mp hd) hf
    refine ⟨h.allocated hp hnot, h.entry p, h.location p hp.inUse.even, fun i hi => ?_⟩
    have hs := hm.closed.sound p hp
    have hspace := hs.extent_eq
    have hle := size_le_space (m := m) (p := p)
    exact h.word p i hp hnot (by omega) (hs.not_extra_size hi) (ne_of_fst hp.ne_zero)
  · have hcount := h.count p hp hlt
    rw [released, references_congr (D := fun x => Freed m L regs r x.1) fun x _ =>
      ⟨fun hx => (hdead _).mp hx.1, fun hx => ⟨(hdead _).mpr hx, by simp⟩⟩] at hcount
    omega

/-- The memory without reversed pointers, of which only counts have been borrowed. -/
theorem Freeing.unreversed (h : Freeing m L regs r hole dead L' [] u)
    (hr : Reversed L.extent (InUse m) base [] [] u t) : Freeing m L regs r hole dead L' [] t := by
  have hs := hr.same
  have hcount : ∀ p, p % 2 = 0 → (t.entry p).count = (u.entry p).count := fun p hp =>
    hr.count_eq hp (by simp)
  have huse : ∀ p, InUse u p → InUse m p := fun p hp => ⟨hp.1, by rw [← hp.2, h.entry p]⟩
  have hword : ∀ p i, InUse u p → i < 2 → t.chunkWord p i = u.chunkWord p i := fun p i hp hi => by
    have htwo := h.stack.apart.two_le p (huse p hp)
    exact hs.word p i (huse p hp) (by omega) (not_extra_header (by omega))
  have hheap : Heap t L' := by
    refine h.heap.congr (fun p _ => by rw [hs.entry p]) (fun p _ => by rw [hs.entry p])
      (fun p _ => by rw [hs.entry p]) (fun p hp => hs.location hp.1)
      (hs.touched.freeHead h.stack.apart) (fun s k hs' => hs.chunkHead hs')
      (fun p hp => hword p 0 hp (by omega)) (fun s k p hp => ?_) fun s k p hp => ?_
    · exact hword p 1 (h.heap.chunk_inUse hp) (by omega)
    · rw [hcount p (h.heap.chunk_inUse hp).even]
      exact (h.heap.lists.freeChunk s k p hp).count
  refine h.recounted hs hheap ⟨hs.apart_same, by simp, by simp, by simp, .nil⟩ (fun p hp => ?_)
    (by simp) (fun _ => Iff.rfl) (fun p hp hlt => ?_) (fun p hp _ => hcount p hp.inUse.even)
    fun p hp hd hne => ?_
  · obtain ⟨h1, h2, h3, h4⟩ := h.lost p hp
    exact ⟨h1, h2, (hcount p h1.inUse.even).trans h3, h4⟩
  · rw [hcount p hp.inUse.even]
    exact h.count p hp hlt
  · rw [hcount p hp.inUse.even]
    exact h.alive p hp hd hne

/-! ## Beside the traversal -/

theorem ext_words (hword : ∀ s w, u.word s w = m.word s w)
    (hcurrent : u.currentSegment = m.currentSegment) (hwords : u.freeWords = m.freeWords)
    (hoops : u.freeOops = m.freeOops) : u = m := by
  have hmemory : u.wordMemory = m.wordMemory := RealWordMemory.ext hword
  cases u
  cases m
  simp_all

/-- What is done to a memory beside the traversal: nothing, or a store into the hole. -/
inductive Aside (m : ObjectMemory) (L : Layout) (hole : Nat × Nat) :
    (ObjectMemory → ObjectMemory) → Prop
  | nothing : Aside m L hole id
  | store {x : Nat} (hc : Allocated m L hole.1) (h1 : 1 ≤ hole.2) (hi : hole.2 < L.extent hole.1)
      (hx : x < 65536) : Aside m L hole fun u => u.setChunkWord hole.1 hole.2 x

variable {f : ObjectMemory → ObjectMemory}

theorem Freeing.hole_allocated (h : Freeing m L regs r hole dead L' frames u)
    (hc : Allocated m L hole.1) : Allocated u L' hole.1 :=
  h.allocated hc fun hd => absurd rfl (h.ne_hole hd)

theorem Freeing.chunkWord_aside {x j : Nat} (h : Freeing m L regs r hole dead L' frames u)
    (hc : Allocated m L hole.1) (hi : hole.2 < L.extent hole.1) (hx : x < 65536)
    (hp : InUse m p) (hj : j < L.extent p) :
    (u.setChunkWord hole.1 hole.2 x).chunkWord p j =
      if (p, j) = hole then x else u.chunkWord p j := by
  have hpu : InUse u p := ⟨hp.1, by rw [h.entry p]; exact hp.2⟩
  rw [h.heap.tiled.chunkWord_setChunkWord (h.hole_allocated hc).inUse hpu (h.extent ▸ hi)
    (h.extent ▸ hj) hx]
  exact if_congr ⟨fun ⟨h1, h2⟩ => Prod.ext h1 h2, fun he => he ▸ ⟨rfl, rfl⟩⟩ rfl rfl

theorem Freeing.aside (h : Freeing m L regs r hole dead L' frames u) (hf : Aside m L hole f) :
    Freeing m L regs r hole dead L' frames (f u) := by
  cases hf with
  | nothing => exact h
  | @store x hc h1 hi hx =>
      have hcu := h.hole_allocated hc
      have hs : (u.entry hole.1).segment ≠ 15 := h.heap.onHeap hcu.inUse
      have hword := fun p j => h.chunkWord_aside (p := p) (j := j) hc hi hx
      have hout : ∀ p o, (p, o) ∈ frames → p ≠ hole.1 := fun p o hp =>
        h.ne_hole (h.onStack p (List.mem_map.mpr ⟨_, hp, rfl⟩))
      have hentry : ∀ p, (u.setChunkWord hole.1 hole.2 x).entry p = u.entry p := fun p =>
        entry_setChunkWord hs
      have hlocation : ∀ p, (u.setChunkWord hole.1 hole.2 x).location p = u.location p := fun p =>
        location_setChunkWord hs
      refine ⟨(h.stack.congr (h.stack.apart.congr (fun p _ => by rw [hentry])
          fun p _ => hlocation p) (fun p o _ => by rw [hentry]) fun p o i hp hi' _ => ?_).1,
        h.heap.setChunkWord hcu (by omega) (h.extent ▸ hi) hx, h.extent, fun p => ?_,
        fun p hp => ?_, fun p hp => ?_, h.onStack, h.listed, fun p i hp hd hi' hextra hne => ?_,
        h.kept, fun p hp hlt => ?_, fun p hp h128 => ?_, fun p hp hd hne => ?_⟩
      · rw [hword p i (h.stack.sound p o hp).mem hi', if_neg (ne_of_fst (hout p o hp))]
      · rw [hentry]
        exact h.entry p
      · rw [hlocation]
        exact h.location p hp
      · rw [hentry]
        exact h.lost p hp
      · rw [hword p i hp.inUse hi', if_neg hne]
        exact h.word p i hp hd hi' hextra hne
      · rw [hentry]
        exact h.count p hp hlt
      · rw [hentry]
        exact h.saturated p hp h128
      · rw [hentry]
        exact h.alive p hp hd hne

/-- The hole has been filled. -/
theorem Freeing.filled (h : Freeing m L regs r hole dead L' frames u)
    (hword : u.chunkWord hole.1 hole.2 = m.chunkWord hole.1 hole.2) :
    Freeing m L regs r (0, 0) dead L' frames u := by
  refine ⟨h.stack, h.heap, h.extent, h.entry, h.location, h.lost, h.onStack, h.listed,
    fun p i hp hd hi hx _ => ?_, fun h0 => h0.allocated.ne_zero rfl, h.count, h.saturated, h.alive⟩
  by_cases hne : (p, i) = hole
  · rw [← hne] at hword
    exact hword
  · exact h.word p i hp hd hi hx hne

theorem Aside.entry (hm : Heap m L) (hf : Aside m L hole f) : (f m).entry p = m.entry p := by
  cases hf with
  | nothing => rfl
  | store hc h1 hi hx => exact entry_setChunkWord (hm.onHeap hc.inUse)

theorem Aside.setCount {c : Nat} (hm : Heap m L) (hc : c < 256) (hr : r % 2 = 0)
    (hf : Aside m L hole f) : (f m).setCount r c = f (m.setCount r c) := by
  cases hf with
  | nothing => rfl
  | @store x hh h1 hi hx =>
      have hs : (m.entry hole.1).segment ≠ 15 := hm.onHeap hh.inUse
      have hheven := hh.inUse.even
      have hentry : ((m.setCount r c).entry hole.1).segment = (m.entry hole.1).segment := by
        rw [entry_setCount hc]
        split
        · next hpr => rw [hpr]
        · rfl
      have hlocation : (m.setCount r c).location hole.1 = m.location hole.1 :=
        location_setField (by omega)
      refine ext_words (fun s w => ?_) rfl rfl rfl
      show ((m.setChunkWord hole.1 hole.2 x).setCount r c).word s w =
        ((m.setCount r c).setChunkWord hole.1 hole.2 x).word s w
      rw [setChunkWord, setChunkWord, hentry, hlocation]
      simp only [ObjectMemory.setCount, setField, word_setWord]
      by_cases hsw : s = objectTableSegment ∧ w = r
      · have hne : ¬(s = (m.entry hole.1).segment ∧ w = m.location hole.1 + hole.2) := fun hall =>
          hs (hall.1.symm.trans hsw.1)
        have hne' : ¬(objectTableSegment = (m.entry hole.1).segment ∧
            r = m.location hole.1 + hole.2) := fun hall => hs hall.1.symm
        rw [if_pos hsw, if_neg hne, if_pos hsw, if_neg hne']
      · rw [if_neg hsw, if_neg hsw]

/-- The run of `countDown`, also where the hole holds something else. -/
theorem wp_countDown_aside (hm : Counted m L regs) (hr : Allocated m L r) (hregs : 1 ≤ regs r)
    (hkept : ¬Freed m L regs r hole.1) (hf : Aside m L hole f) :
    Wp (countDown r) (fun _ u => ∃ dead L', Freeing m L regs r hole dead L' [] u) (f m) := by
  have hentry := hr.inUse.isEntry
  have heven := hr.inUse.even
  have hpos : 1 ≤ (m.entry r).count := by
    by_cases hlt : (m.entry r).count < 128
    · have hcount := hm.count r hr hlt
      omega
    · omega
  have hc : (m.entry r).count < 256 := count_lt m r
  have hint : ¬isIntegerObject r := by
    simp only [isIntegerObject]
    omega
  have hfentry : (f m).entry r = m.entry r := hf.entry hm.heap
  rw [countDown, if_neg hint, wp_bind, wp_countBitsOf, and_iff_right hentry, wp_bind, wp_check,
    hfentry, and_iff_right (show (m.entry r).count > 0 from hpos), forAllObjectsAccessibleFrom,
    wp_bind, wp_countDownPredicate hentry (hfentry ▸ hpos), hfentry]
  have hnone : ∀ {c}, c < 256 → c ≠ 0 → (m.entry r).count < 128 → c + 1 = (m.entry r).count →
      Freeing m L regs r hole (fun _ => False) L [] (m.setCount r c) := by
    intro c h256 hne hlt hsucc
    have hcount : ∀ p, ((m.setCount r c).entry p).count = if p = r then c else (m.entry p).count :=
      fun p => by
        rw [entry_setCount h256]
        split <;> rfl
    refine Freeing.nothing hkept (same_setCount hm.closed.apart hr.inUse h256)
      (hm.heap.setCount heven hr.inUse.le h256 fun s k hmem => absurd hmem (hr.2 s k))
      (fun p hp hltp => ?_) (fun p hp h128 => ?_) fun p hp hnz => ?_
    · rw [hcount]
      split
      · next hpr => rw [hpr, hsucc]
      · rfl
    · rw [hcount, if_neg]
      rintro rfl
      omega
    · rw [hcount]
      split
      · exact hne
      · exact hnz
  by_cases hlt : (m.entry r).count < 128
  · rw [if_pos hlt]
    by_cases h1 : (m.entry r).count = 1
    · have hstart := (Freeing.start hm hkept hregs hr h1).aside hf
      have hlast : (f (m.setCount r 0)).last r = m.last r :=
        hstart.last_eq hm hr (fun _ => by simp) (hstart.ne_hole rfl)
      have happ := hstart.stack.apart
      rw [decide_eq_true h1, if_pos rfl, h1, Nat.sub_self, forAllOtherObjectsAccessibleFrom, wp_bind,
        hf.setCount hm.heap (by omega) heven,
        wp_lastPointerOf hentry (happ.location_lt hr.inUse), hlast]
      refine (Freeing.visitor hm hregs).wp_traverse (by decide) ?_ ⟨_, _, hstart⟩ (.refl happ _ _)
        ⟨by rw [hlast], fun _ => hlast.symm⟩
      -- the traversal is back at the root
      rintro v size u t ⟨dead, L', h⟩ hrev
      refine wp_iterate_of_round ?_
      rw [followPointer]
      dsimp only
      rw [if_neg (by omega), wp_bind]
      refine (h.wp_action hrev).mono ?_
      rintro _ t' ⟨L'', u', h', hr', -⟩
      rw [if_pos rfl, wp_pure, loopPost_inr]
      exact ⟨dead, L'', h'.unreversed hr'⟩
    · rw [decide_eq_false h1, if_neg (by simp), wp_pure, hf.setCount hm.heap (by omega) heven]
      exact ⟨_, L, (hnone (by omega) (by omega) hlt (by omega)).aside hf⟩
  · rw [if_neg hlt, decide_eq_false (by omega), if_neg (by simp), wp_pure]
    refine ⟨_, L, (Freeing.nothing hkept (.refl hm.closed.apart) hm.heap (fun p hp hltp => ?_)
      (fun _ _ _ => rfl) fun _ _ hne => hne).aside hf⟩
    rw [if_neg, Nat.add_zero]
    rintro rfl
    exact hlt hltp

/-- `countDown` ends, never finds a count below zero, and frees what had to be
freed. -/
theorem wp_countDown (hm : Counted m L regs) (hr : Allocated m L r) (hregs : 1 ≤ regs r) :
    Wp (countDown r) (fun _ u => ∃ L', CountedDown m L regs r L' u) m := by
  have haside : Aside m L (0, 0) id := .nothing
  refine (wp_countDown_aside hm hr hregs ?_ haside).mono fun _ _ ⟨_, L', h⟩ =>
    ⟨L', h.countedDown hm⟩
  exact fun h0 => h0.allocated.ne_zero rfl

/-- Cascaded freeing, for the whole run: the counting down of a reference that a register held
ends, and frees exactly the objects that only this reference kept, each once. -/
theorem countDown_frees (hm : Counted m L regs) (hr : Allocated m L r) (hregs : 1 ≤ regs r) :
    ∃ x u L', countDown r m = some (x, u) ∧ CountedDown m L regs r L' u := by
  obtain ⟨x, u, hrun, L', h⟩ := wp_countDown hm hr hregs
  exact ⟨x, u, L', hrun, h⟩

/-! ## Two objects -/

/-- Object 2, with the class word `w`, and object 6, with the count `c`, in segment 0. -/
def couple (w c : Nat) : ObjectMemory :=
  (((sparse 2).setChunkHead 0 20 nonPointer).setChunkWord 2 1 w).setCount 6 c

def coupleLayout : Layout :=
  { sparseLayout 2 with
    chunks := fun s k => if s = 0 ∧ k = 20 then [] else (sparseLayout 2).chunks s k }

section Couple

variable {c : Nat} (hwc : w = 1 ∧ c = 0 ∨ w = 6 ∧ c = 1)

include hwc

omit hwc in
theorem heap_couple (hw : w < 65536) (hc : c < 256) : Heap (couple w c) coupleLayout := by
  have ho : (2 : Nat) = 2 ∨ (2 : Nat) = 4 := .inl rfl
  have hunlisted : Heap ((sparse 2).setChunkHead 0 20 nonPointer) coupleLayout :=
    (heap_sparse ho).unlisted (s := 0) (k := 20) (p := 6) (l := []) (by decide) ⟨by decide, le_rfl⟩
      rfl (by decide)
  have hallocated : ∀ p, p = 2 ∨ p = 6 →
      Allocated ((sparse 2).setChunkHead 0 20 nonPointer) coupleLayout p := fun p hp => by
    have huse : InUse (sparse 2) p := inUse_sparse.mpr (by
      rcases hp with rfl | rfl
      · exact ⟨⟨rfl, le_rfl, by decide⟩, .inl rfl⟩
      · exact ⟨⟨rfl, by decide, by decide⟩, .inr ⟨le_rfl, by decide⟩⟩)
    refine ⟨⟨huse.1, by rw [entry_setChunkHead (by decide)]; exact huse.2⟩, fun s k hmem => ?_⟩
    change p ∈ (if s = 0 ∧ k = 20 then [] else (sparseLayout 2).chunks s k) at hmem
    split at hmem
    · simp at hmem
    · next hsk =>
        obtain ⟨hs, hk, hps⟩ := mem_chunks_sparse hmem
        omega
  have hset := hunlisted.setChunkWord (hallocated 2 (.inl rfl)) (i := 1) (by decide) (by decide) hw
  refine hset.setCount rfl (by decide) hc fun s k hmem => ?_
  exact absurd hmem ((hallocated 6 (.inr rfl)).2 s k)

omit hwc in
theorem allocated_couple (hc : c < 256) :
    Allocated (couple w c) coupleLayout p ↔ p = 2 ∨ p = 6 := by
  have hentry : ∀ q, ((couple w c).entry q).free = ((sparse 2).entry q).free := fun q => by
    rw [couple, entry_setCount hc]
    split
    · next hq =>
        subst hq
        dsimp only
        rw [entry_setChunkWord (by decide), entry_setChunkHead (by decide)]
    · rw [entry_setChunkWord (by decide), entry_setChunkHead (by decide)]
  have huse : InUse (couple w c) p ↔ InUse (sparse 2) p := by rw [InUse, InUse, hentry]
  constructor
  · rintro ⟨hin, hout⟩
    obtain ⟨hoop, hcase⟩ := inUse_sparse.mp (huse.mp hin)
    have heven := hoop.1
    by_contra hne
    refine hout (p / 2 - 3) 20 ?_
    show p ∈ if p / 2 - 3 = 0 ∧ 20 = 20 then [] else (sparseLayout 2).chunks (p / 2 - 3) 20
    rw [if_neg (by omega)]
    show p ∈ if p / 2 - 3 < 15 ∧ 20 = 20 then [6 + 2 * (p / 2 - 3)] else []
    rw [if_pos (by omega), List.mem_singleton]
    omega
  · intro hp
    refine ⟨huse.mpr (inUse_sparse.mpr ?_), fun s k hmem => ?_⟩
    · rcases hp with rfl | rfl
      · exact ⟨⟨rfl, le_rfl, by decide⟩, .inl rfl⟩
      · exact ⟨⟨rfl, by decide, by decide⟩, .inr ⟨le_rfl, by decide⟩⟩
    · change p ∈ (if s = 0 ∧ k = 20 then [] else (sparseLayout 2).chunks s k) at hmem
      split at hmem
      · simp at hmem
      · next hsk =>
          obtain ⟨hs, hk, hps⟩ := mem_chunks_sparse hmem
          omega

/-- The only word that can be a pointer is the class word of object 2. -/
theorem isPointer_couple (hp : p = 2 ∨ p = 6) :
    IsPointer (couple w c) p i ↔ w = 6 ∧ p = 2 ∧ i = 1 := by
  have hlast : (couple w c).last p = 2 := by
    rcases hwc with ⟨rfl, rfl⟩ | ⟨rfl, rfl⟩ <;> rcases hp with rfl | rfl <;> decide
  have hword : (couple w c).chunkWord p 1 % 2 = if w = 6 ∧ p = 2 then 0 else 1 := by
    rcases hwc with ⟨rfl, rfl⟩ | ⟨rfl, rfl⟩ <;> rcases hp with rfl | rfl <;> decide
  unfold IsPointer
  rw [hlast]
  constructor
  · rintro ⟨h1, hlt, heven⟩
    obtain rfl : i = 1 := by omega
    rw [hword] at heven
    split at heven
    · next hall => exact ⟨hall.1, hall.2, rfl⟩
    · omega
  · rintro ⟨hw, hp, rfl⟩
    rw [hword, if_pos ⟨hw, hp⟩]
    exact ⟨le_rfl, by omega, rfl⟩

/-- A register has object 2. -/
def coupleRegister (p : Nat) : Nat := if p = 2 then 1 else 0

theorem counted_couple : Counted (couple w c) coupleLayout coupleRegister := by
  have hw : w < 65536 := by omega
  have hc : c < 256 := by omega
  have hword : w = 6 → (couple w c).chunkWord 2 1 = 6 := by
    rcases hwc with ⟨rfl, rfl⟩ | ⟨rfl, rfl⟩ <;> decide
  refine ⟨heap_couple hw hc, fun p hp => ?_, fun p i hp hi => ?_, fun p hp hlt => ?_⟩
  · rw [allocated_couple hc] at hp
    rcases hwc with ⟨rfl, rfl⟩ | ⟨rfl, rfl⟩ <;> rcases hp with rfl | rfl <;> decide
  · rw [allocated_couple hc] at hp ⊢
    obtain ⟨hw', rfl, rfl⟩ := (isPointer_couple hwc hp).mp hi
    exact .inr (hword hw')
  · rw [allocated_couple hc] at hp
    have honly : ∀ x : Nat × Nat, IsPointer (couple w c) x.1 x.2 →
        ¬(Allocated (couple w c) coupleLayout x.1 ∧ x ≠ (2, 1)) := fun x hx hall => by
      obtain ⟨-, h1, h2⟩ := (isPointer_couple hwc ((allocated_couple hc).mp hall.1)).mp hx
      exact hall.2 (Prod.ext h1 h2)
    have hreferences : (couple w c).references (fun x => Allocated (couple w c) coupleLayout x.1) p =
        (couple w c).references
          (fun x => Allocated (couple w c) coupleLayout x.1 ∧ x ≠ (2, 1)) p +
          if IsPointer (couple w c) 2 1 ∧ (couple w c).chunkWord 2 1 = p then 1 else 0 := by
      refine references_insert (fun x hx => hx.1.lt) (fun x => ?_) fun hx => hx.2 rfl
      constructor
      · intro hx
        by_cases h21 : x = (2, 1)
        · exact .inr h21
        · exact .inl ⟨hx, h21⟩
      · rintro (hx | rfl)
        · exact hx.1
        · exact (allocated_couple hc).mpr (.inl rfl)
    rw [hreferences, references_none honly, Nat.zero_add]
    rcases hwc with ⟨rfl, rfl⟩ | ⟨rfl, rfl⟩ <;> rcases hp with rfl | rfl <;> decide

end Couple

/-- Object 6 is freed with object 2, that refers to it. -/
theorem countDown_frees_couple : ∃ x u L', countDown 2 (couple 6 1) = some (x, u) ∧
    CountedDown (couple 6 1) coupleLayout coupleRegister 2 L' u :=
  countDown_frees (counted_couple (.inr ⟨rfl, rfl⟩))
    ((allocated_couple (by decide)).mpr (.inl rfl)) le_rfl

/-- As `Cascades`, but for objects without any reference too. -/
def CascadesFrom (m : ObjectMemory) (L : Layout) (regs : Nat → Nat) (r : Nat) (S : Nat → Prop) :
    Prop :=
  ∀ q, Allocated m L q → (m.entry q).count < 128 → (regs q = if q = r then 1 else 0) →
    (∀ v i, Allocated m L v → IsPointer m v i → m.chunkWord v i = q → S v) → S q

/-- An object without references has lost none, and is not freed. -/
theorem unreferenced_not_freed : ∃ (m : ObjectMemory) (L : Layout) (regs : Nat → Nat) (r p : Nat),
    Counted m L regs ∧ Allocated m L r ∧ 1 ≤ regs r ∧ Allocated m L p ∧
    (∀ S, CascadesFrom m L regs r S → S p) ∧
    Wp (countDown r) (fun _ u => ∃ L', Heap u L' ∧ ∀ s k, p ∉ L'.chunks s k) m := by
  have hwc : (1 : Nat) = 1 ∧ (0 : Nat) = 0 ∨ (1 : Nat) = 6 ∧ (0 : Nat) = 1 := .inl ⟨rfl, rfl⟩
  have hcounted := counted_couple hwc
  have hallocated : ∀ p, Allocated (couple 1 0) coupleLayout p ↔ p = 2 ∨ p = 6 := fun p =>
    allocated_couple (by decide)
  have h2 := (hallocated 2).mpr (.inl rfl)
  have h6 := (hallocated 6).mpr (.inr rfl)
  have hnone : ∀ v i, Allocated (couple 1 0) coupleLayout v → ¬IsPointer (couple 1 0) v i :=
    fun v i hv hi => by
      have := ((isPointer_couple hwc ((hallocated v).mp hv)).mp hi).1
      omega
  refine ⟨couple 1 0, coupleLayout, coupleRegister, 2, 6, hcounted, h2, le_rfl, h6, fun S hS => ?_,
    (wp_countDown hcounted h2 le_rfl).mono fun _ u ⟨L', h⟩ => ⟨L', h.heap, fun s k hmem => ?_⟩⟩
  · exact hS 6 h6 (by decide) (by decide) fun v i hv hi _ => absurd hi (hnone v i hv)
  · rcases (h.listed 6).mp ⟨s, k, hmem⟩ with ⟨s', k', hmem'⟩ | hfreed
    · exact h6.2 s' k' hmem'
    · -- the count of object 6 is 0 already
      exact hfreed (fun q => q ≠ 6) (fun q _ _ hne _ _ hq6 => hne (by rw [hq6]; decide)) rfl

end ObjectMemory

end Crosstalk
