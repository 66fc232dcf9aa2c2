import Crosstalk.ObjectMemory.Heap
import Mathlib.Data.List.Chain

/-!
# The traversal by pointer reversal

`forAllOtherObjectsAccessibleFrom` follows the pointers of an object and of the
objects it finds without a stack: the way back is kept in the pointers that it
is following, each reversed, and in the count (or the extra word) of their
objects. `Reversed` relates the memory during the traversal to the memory `u`
without the reversed pointers; `wp_traverse` reduces the loop to a depth first
search on `u`.
-/

namespace Crosstalk

/-- The variables of the traversal loop. -/
structure Cursor where
  prior : Nat
  current : Nat
  offset : Nat
  size : Nat

/-- Reverse the pointer chain and save the offset, either in the count field or
in the extra word; go on with `next`. -/
def descend (c : Cursor) (offset next : Nat) : OM Cursor := do
  heapChunkOfWordPut c.current offset c.prior
  if c.size < hugeSize then
    countBitsOfPut c.current offset
  else
    heapChunkOfWordPut c.current c.size offset
  let size ← lastPointerOf next
  return ⟨c.current, next, size, size⟩

/-- Restore the offset either from the count field or from the extra word. -/
def restoreOffset (current size : Nat) : OM Nat :=
  if size < hugeSize then countBitsOf current else heapChunkOfWord current size

/-- Restore the offset and the pointer chain to resume processing `prior`. -/
def ascend (c : Cursor) : OM Cursor := do
  let next := c.current
  let current := c.prior
  let size ← lastPointerOf current
  let offset ← restoreOffset current size
  let prior ← heapChunkOfWord current offset
  heapChunkOfWordPut current offset next
  return ⟨prior, current, offset, size⟩

/-- One round of the loop: a pointer of the current object, or its end. -/
def followPointer (predicate : Nat → OM Bool) (action : Nat → OM Unit) (objectPointer : Nat)
    (c : Cursor) : OM (Cursor ⊕ Nat) := do
  let offset := c.offset - 1
  if 0 < offset then
    let next ← heapChunkOfWord c.current offset
    if ← (if isIntegerObject next then pure false else predicate next) then
      return .inl (← descend c offset next)
    else
      return .inl { c with offset }
  else
    action c.current
    if c.prior = nonPointer then
      return .inr objectPointer
    else
      return .inl (← ascend c)

def forAllOtherObjectsAccessibleFrom (objectPointer : Nat) (predicate : Nat → OM Bool)
    (action : Nat → OM Unit) : OM Nat := do
  let size ← lastPointerOf objectPointer
  iterate (followPointer predicate action objectPointer) ⟨nonPointer, objectPointer, size, size⟩

def forAllObjectsAccessibleFrom (objectPointer : Nat) (predicate : Nat → OM Bool)
    (action : Nat → OM Unit) : OM Nat := do
  if ← predicate objectPointer then
    forAllOtherObjectsAccessibleFrom objectPointer predicate action
  else
    return nilPointer

namespace ObjectMemory

/-! ## The stack of the traversal -/

/-- The word that a huge pointer object has for the traversal. -/
def Extra (u : ObjectMemory) (extent : Nat → Nat) (p i : Nat) : Prop :=
  (u.entry p).pointer ≠ 0 ∧ 257 ≤ extent p ∧ i + 1 = extent p

/-- `p` is one of the entries `A`, and its pointers lie in its chunk. -/
structure Sound (u : ObjectMemory) (extent : Nat → Nat) (A : Nat → Prop) (p : Nat) : Prop where
  mem : A p
  isOop : IsOop p
  two_le : 2 ≤ extent p
  extent_eq : extent p = u.space p
  last_le : u.last p ≤ u.chunkWord p 0

/-- The objects that the traversal has entered and not left, the current one
first, each with the offset it has come to. -/
structure Stack (extent : Nat → Nat) (A : Nat → Prop) (u : ObjectMemory)
    (frames : List (Nat × Nat)) : Prop where
  apart : Apart u extent A
  nodup : (frames.map Prod.fst).Nodup
  sound : ∀ p o, (p, o) ∈ frames → Sound u extent A p
  offset : ∀ p o, (p, o) ∈ frames → 1 ≤ o ∧ o ≤ u.last p
  /-- Each has been entered from the pointer where the one below it stands. -/
  entered : frames.IsChain fun a b => b.2 < u.last b.1 ∧ u.chunkWord b.1 b.2 = a.1

/-- Where the way back leads from the first of `frames`. -/
def priorOf (base : Nat) : List (Nat × Nat) → Nat
  | [] => base
  | (p, _) :: _ => p

/-- The pointers of `frames` lead back. -/
def Links (base : Nat) (m : ObjectMemory) : List (Nat × Nat) → Prop
  | [] => True
  | (p, o) :: frames => m.chunkWord p o = priorOf base frames ∧ Links base m frames

/-- `m` is `u` but for the counts of the entries `A` and the words of their chunks. -/
structure Touched (extent : Nat → Nat) (A : Nat → Prop) (u m : ObjectMemory) : Prop where
  outside : ∀ s w, ¬(s = 15 ∧ A w) → (∀ p i, A p → i < extent p →
    ¬(s = (u.entry p).segment ∧ w = u.location p + i)) → m.word s w = u.word s w
  entryWord : ∀ p, A p → putField (m.word 15 p) 8 8 0 = putField (u.word 15 p) 8 8 0
  currentSegment : m.currentSegment = u.currentSegment
  freeWords : m.freeWords = u.freeWords
  freeOops : m.freeOops = u.freeOops

/-- `m` is the memory `u` during a traversal: the pointers of `frames` are
reversed, and the offsets saved. The counts of `loose` objects may be anything
but 0. -/
structure Reversed (extent : Nat → Nat) (A : Nat → Prop) (base : Nat) (loose : List Nat)
    (frames : List (Nat × Nat)) (u m : ObjectMemory) : Prop where
  apart : Apart u extent A
  touched : Touched extent A u m
  count : ∀ p, p % 2 = 0 → (m.entry p).count = (u.entry p).count ∨
    p ∈ loose ∧ 0 < (m.entry p).count
  word : ∀ p i, A p → i < extent p → ¬Extra u extent p i →
    (∀ o, (p, o) ∈ frames → i ≠ o) → m.chunkWord p i = u.chunkWord p i
  saved : ∀ p o, (p, o) ∈ frames →
    if u.last p < 256 then (m.entry p).count = o else m.chunkWord p (u.last p) = o
  links : Links base m frames

variable {extent : Nat → Nat} {A : Nat → Prop} {base : Nat} {loose loose' : List Nat}
  {frames : List (Nat × Nat)} {u u' m m' : ObjectMemory} {p q v o i size : Nat}

namespace Sound

variable (h : Sound u extent A p)

include h

theorem last_le_extent : u.last p ≤ extent p := by
  rw [h.extent_eq]
  exact h.last_le.trans size_le_space

theorem huge (hl : 256 ≤ u.last p) : extent p = u.last p + 1 ∧ (u.entry p).pointer ≠ 0 := by
  obtain ⟨h1, h2⟩ := last_huge hl
  refine ⟨by rw [h.extent_eq, h2, h1], fun hp => ?_⟩
  rw [space, if_pos (.inr hp)] at h2
  omega

/-- A pointer is not the extra word. -/
theorem not_extra (hi : i < u.last p) : ¬Extra u extent p i := by
  rintro ⟨hp, hext, hi'⟩
  have hlast : u.last p = u.chunkWord p 0 := if_neg hp
  rw [h.extent_eq] at hext hi'
  unfold space at hext hi'
  split at hi' <;> rename_i hs
  · rw [if_pos hs] at hext
    rcases hs with hs | hs
    · simp only [hugeSize] at hs
      omega
    · exact hp hs
  · omega

end Sound

/-- Neither is a word of the header. -/
theorem not_extra_header (hi : i < 3) : ¬Extra u extent p i := by
  rintro ⟨-, hext, hi'⟩
  omega

theorem Links.congr (h : Links base m frames)
    (hw : ∀ p o, (p, o) ∈ frames → m'.chunkWord p o = m.chunkWord p o) :
    Links base m' frames := by
  induction frames with
  | nil => trivial
  | cons f frames ih =>
      obtain ⟨p, o⟩ := f
      refine ⟨?_, ih h.2 fun p o hp => hw p o (List.mem_cons_of_mem _ hp)⟩
      rw [hw p o List.mem_cons_self]
      exact h.1

/-- All but the current object stand at a pointer. -/
theorem Stack.lt_last (h : Stack extent A u ((v, i) :: frames)) (hm : (p, o) ∈ frames) :
    o < u.last p := by
  have hchain := h.entered
  clear h
  induction frames generalizing v i with
  | nil => simp at hm
  | cons f frames ih =>
      rw [List.isChain_cons_cons] at hchain
      rcases List.mem_cons.mp hm with heq | hm
      · rw [← heq] at hchain
        exact hchain.1.1
      · exact ih hm hchain.2

theorem priorOf_lt (hb : base < 65536) (hs : Stack extent A u ((v, o) :: frames)) :
    priorOf base frames < 65536 := by
  cases frames with
  | nil => exact hb
  | cons f frames =>
      have := (hs.sound f.1 f.2 (by simp)).isOop.2.2
      change f.1 < 65536
      omega

/-! ## What the traversal may touch -/

namespace Touched

theorem refl (extent : Nat → Nat) (A : Nat → Prop) (m : ObjectMemory) : Touched extent A m m :=
  ⟨fun _ _ _ _ => rfl, fun _ _ => rfl, rfl, rfl, rfl⟩

section

variable (ha : Apart u extent A) (h : Touched extent A u m)

include ha h

theorem entry (p : Nat) : m.entry p = { u.entry p with count := (m.entry p).count } := by
  by_cases hA : A p
  · have hzero := congrArg decodeEntry (h.entryWord p hA)
    rw [decodeEntry_putCount (by decide), decodeEntry_putCount (by decide)] at hzero
    simp only [Entry.mk.injEq, true_and] at hzero
    obtain ⟨h1, h2, h3, h4⟩ := hzero
    calc m.entry p = ⟨(m.entry p).count, (m.entry p).odd, (m.entry p).pointer, (m.entry p).free,
          (m.entry p).segment⟩ := rfl
      _ = { u.entry p with count := (m.entry p).count } := by
          rw [show (m.entry p).odd = (u.entry p).odd from h1,
            show (m.entry p).pointer = (u.entry p).pointer from h2,
            show (m.entry p).free = (u.entry p).free from h3,
            show (m.entry p).segment = (u.entry p).segment from h4]
  · have hword : m.word 15 p = u.word 15 p := by
      refine h.outside 15 p (fun hall => hA hall.2) fun q i hq _ hall => ?_
      exact ha.onHeap hq hall.1.symm
    rw [ObjectMemory.entry, ObjectMemory.entry, show objectTableSegment = 15 from rfl, hword]

theorem location (hp : p % 2 = 0) : m.location p = u.location p := by
  refine h.outside 15 (p + 1) (fun hall => ?_) fun q i hq _ hall => ha.onHeap hq hall.1.symm
  have := (ha.isOop _ hall.2).1
  omega

theorem freeHead : m.freeHead = u.freeHead := by
  refine h.outside 15 65534 (fun hall => ?_) fun q i hq _ hall => ha.onHeap hq hall.1.symm
  have := (ha.isOop _ hall.2).2.2
  omega

theorem chunkHead (hs : s < 15) : m.chunkHead s k = u.chunkHead s k := by
  refine h.outside s (65515 + k) (fun hall => ?_) fun q i hq hi hall => ?_
  · omega
  · have := ha.word_lt hq hi
    omega

theorem apart : Apart m extent A :=
  ha.congr (fun p hp => by rw [h.entry ha])
    fun p hp => h.location ha (ha.isOop p hp).1

theorem trans (h' : Touched extent A m m') : Touched extent A u m' := by
  refine ⟨fun s w hA hw => ?_, fun p hp => (h'.entryWord p hp).trans (h.entryWord p hp),
    h'.currentSegment.trans h.currentSegment, h'.freeWords.trans h.freeWords,
    h'.freeOops.trans h.freeOops⟩
  refine (h'.outside s w hA fun p i hp hi hall => hw p i hp hi ?_).trans (h.outside s w hA hw)
  have heven := (ha.isOop p hp).1
  rwa [h.entry ha, h.location ha heven] at hall

omit ha in
theorem setCount (hp : A p) (hc : v < 256) : Touched extent A u (m.setCount p v) := by
  refine ⟨fun s w hA hw => ?_, fun q hq => ?_, h.currentSegment, h.freeWords, h.freeOops⟩
  · rw [ObjectMemory.setCount, word_setField_of_ne, h.outside s w hA hw]
    rintro ⟨rfl, rfl⟩
    exact hA ⟨rfl, hp⟩
  · rw [← h.entryWord q hq, ObjectMemory.setCount, setField, word_setWord]
    split
    · next hqp =>
        rw [hqp.2, Nat.mod_eq_of_lt (putField_lt (m.word_lt _ _) (show v < 2 ^ 8 from hc) (by omega)),
          putField_putField (show v < 2 ^ 8 from hc) (by omega)]
        rfl
    · rfl

theorem setChunkWord (hp : A p) (hi : i < extent p) :
    Touched extent A u (m.setChunkWord p i v) := by
  have heven := (ha.isOop p hp).1
  have hs := ha.onHeap hp
  have hseg : (m.entry p).segment = (u.entry p).segment := by rw [h.entry ha]
  have hloc := h.location ha heven
  refine ⟨fun s w hA hw => ?_, fun q hq => ?_, h.currentSegment, h.freeWords, h.freeOops⟩
  · rw [ObjectMemory.setChunkWord, hseg, hloc, word_setWord, if_neg (hw p i hp hi),
      h.outside s w hA hw]
  · rw [ObjectMemory.setChunkWord, hseg, word_setWord, if_neg fun hall => hs hall.1.symm,
      h.entryWord q hq]

end

end Touched

namespace Reversed

variable (h : Reversed extent A base loose frames u m)

include h

theorem mono (hl : ∀ p ∈ loose, p ∈ loose') : Reversed extent A base loose' frames u m :=
  ⟨h.apart, h.touched, fun p hp => (h.count p hp).imp_right fun ⟨h1, h2⟩ => ⟨hl p h1, h2⟩, h.word,
    h.saved, h.links⟩

theorem entry (p : Nat) : m.entry p = { u.entry p with count := (m.entry p).count } :=
  h.touched.entry h.apart p

theorem location (hp : p % 2 = 0) : m.location p = u.location p := h.touched.location h.apart hp

theorem apart_reversed : Apart m extent A := h.touched.apart h.apart

/-- The pointers of an object that is not being traversed are in place. -/
theorem last_eq (hp : Sound u extent A p) (hf : ∀ o, (p, o) ∉ frames) :
    m.last p = u.last p := by
  have hext := hp.last_le_extent
  have htwo := hp.two_le
  have hword : ∀ i < 3, i < extent p → m.chunkWord p i = u.chunkWord p i := fun i h3 hi =>
    h.word p i hp.mem hi (not_extra_header h3) fun o ho => absurd ho (hf o)
  exact last_congr (by rw [h.entry p]) (hword 0 (by omega) (by omega))
    (hword 1 (by omega) (by omega)) fun h3 => hword 2 (by omega) (by omega)

/-- An object under traversal is huge if it was, and then its size is in place:
only there does its last pointer matter. -/
theorem last_frame (hp : Sound u extent A p)
    (hf : ∀ o, (p, o) ∈ frames → 1 ≤ o) :
    (m.last p < 256 ↔ u.last p < 256) ∧ (256 ≤ u.last p → m.last p = u.last p) := by
  have htwo := hp.two_le
  have hsize : m.chunkWord p 0 = u.chunkWord p 0 :=
    h.word p 0 hp.mem (by omega) (not_extra_header (by omega)) fun o ho => by
      have := hf o ho
      omega
  by_cases hpointer : (u.entry p).pointer = 0
  · have hm : m.last p < 256 := by
      by_contra hlt
      have := (last_huge (m := m) (p := p) (by omega)).1
      have hmp : (m.entry p).pointer = 0 := by
        rw [h.entry p]
        exact hpointer
      have hspace := (last_huge (m := m) (p := p) (by omega)).2
      rw [space, if_pos (.inr hmp)] at hspace
      omega
    have hu : u.last p < 256 := by
      by_contra hlt
      exact (hp.huge (by omega)).2 hpointer
    exact ⟨⟨fun _ => hu, fun _ => hm⟩, fun h256 => absurd hu (by omega)⟩
  · have heq : m.last p = u.last p := by
      rw [last, if_neg (by rwa [h.entry p]), last, if_neg hpointer, hsize]
    rw [heq]
    exact ⟨Iff.rfl, fun _ => rfl⟩

end Reversed

/-! ## The moves of the traversal -/

/-- What the loop knows of the size of its current object. -/
def SizeOf (u : ObjectMemory) (p size : Nat) : Prop :=
  (size < 256 ↔ u.last p < 256) ∧ (256 ≤ u.last p → size = u.last p)

/-- The memory with pointer `o` of `v` reversed and the offset saved. -/
def reverseAt (u m : ObjectMemory) (v o prior : Nat) : ObjectMemory :=
  if u.last v < 256 then (m.setChunkWord v o prior).setCount v o
  else (m.setChunkWord v o prior).setChunkWord v (u.last v) o

section ReverseAt

variable {prior : Nat} (ht : Apart m extent A) (hv : A v) (hext : u.last v ≤ extent v)
  (hhuge : 256 ≤ u.last v → u.last v < extent v) (ho : o < u.last v) (hp : prior < 65536)

include ht hv hext

omit hext in
theorem entry_reverseAt (ho : o < u.last v) : (reverseAt u m v o prior).entry p =
    if u.last v < 256 ∧ p = v then { m.entry v with count := o } else m.entry p := by
  have hs := ht.onHeap hv
  unfold reverseAt
  split
  · next hlast =>
      rw [entry_setCount (by omega), entry_setChunkWord hs, entry_setChunkWord hs]
      simp [hlast]
  · next hlast =>
      rw [entry_setChunkWord, entry_setChunkWord hs, if_neg fun h => hlast h.1]
      rwa [entry_setChunkWord hs]

include hhuge ho hp

theorem chunkWord_reverseAt {r : Nat} (hr : A r) (hi : i < extent r) :
    (reverseAt u m v o prior).chunkWord r i =
      if r = v ∧ i = o then prior
      else if 256 ≤ u.last v ∧ r = v ∧ i = u.last v then o else m.chunkWord r i := by
  have hs := ht.onHeap hv
  have ht' : Apart (m.setChunkWord v o prior) extent A := ht.setChunkWord hv
  have hfirst := ht.chunkWord_setChunkWord hv hr (i := o) (by omega) hi hp
  unfold reverseAt
  split
  · next hlast =>
      have hne : ¬(256 ≤ u.last v ∧ r = v ∧ i = u.last v) := by omega
      rw [chunkWord_setCount (by omega)
          (by have := (ht.isOop v hv).1; have := (ht.isOop r hr).1; omega)
        (by rw [entry_setChunkWord hs]; exact ht.onHeap hr), hfirst, if_neg hne]
  · next hlast =>
      have hh : 256 ≤ u.last v := by omega
      have := ht.inside v hv
      have := hhuge hh
      rw [ht'.chunkWord_setChunkWord hv hr (hhuge hh) hi
        (by omega), hfirst]
      by_cases hro : r = v ∧ i = o
      · rw [if_pos hro, if_pos hro, if_neg]
        omega
      · rw [if_neg hro, if_neg hro]
        exact if_congr (and_iff_right hh).symm rfl rfl

end ReverseAt

theorem touched_reverseAt {prior : Nat} (ha : Apart u extent A) (h : Touched extent A u m)
    (hv : A v) (ho' : o < extent v) (hhuge : 256 ≤ u.last v → u.last v < extent v)
    (ho : o < u.last v) : Touched extent A u (reverseAt u m v o prior) := by
  have hfirst := h.setChunkWord ha (v := prior) hv ho'
  unfold reverseAt
  split
  · exact hfirst.setCount hv (by omega)
  · next hlast => exact hfirst.setChunkWord ha hv (hhuge (by omega))

section Moves

variable (hs : Stack extent A u ((v, o) :: frames)) (ho : o < u.last v)

include hs ho

/-- Reversing a pointer of the current object makes it a part of the way back. -/
theorem Reversed.descended (h : Reversed extent A base (v :: frames.map Prod.fst) frames u m)
    (hb : base < 65536) :
    Reversed extent A base (v :: frames.map Prod.fst) ((v, o) :: frames) u
      (reverseAt u m v o (priorOf base frames)) := by
  have hsound := hs.sound v o (by simp)
  have hoff := hs.offset v o (by simp)
  have ht := h.apart_reversed
  have hv := hsound.mem
  have hext := hsound.last_le_extent
  have hhuge : 256 ≤ u.last v → u.last v < extent v := fun hl => by
    have := (hsound.huge hl).1
    omega
  have hprior := priorOf_lt hb hs
  have hnodup : ∀ o', (v, o') ∉ frames := fun o' hm => by
    have := hs.nodup
    rw [List.map_cons, List.nodup_cons] at this
    exact this.1 (List.mem_map.mpr ⟨_, hm, rfl⟩)
  have hother : ∀ q o', (q, o') ∈ frames → q ≠ v := fun q o' hm hqv => hnodup o' (hqv ▸ hm)
  have hentry : ∀ q, (reverseAt u m v o (priorOf base frames)).entry q = _ :=
    fun q => entry_reverseAt ht hv ho
  have hword : ∀ q i, A q → i < extent q →
      (reverseAt u m v o (priorOf base frames)).chunkWord q i = _ := fun q i hq hi =>
    chunkWord_reverseAt ht hv hext hhuge ho hprior hq hi
  refine ⟨h.apart, touched_reverseAt h.apart h.touched hv (by omega) hhuge ho, fun p hp => ?_,
    fun p i hp hi hx hf => ?_, fun p o' hm => ?_, ?_⟩
  · rw [hentry]
    split
    · next hc => exact .inr ⟨by simp [hc.2], hoff.1⟩
    · exact h.count p hp
  · rw [hword p i hp hi, if_neg, if_neg]
    · exact h.word p i hp hi hx fun o' hm => hf o' (List.mem_cons_of_mem _ hm)
    · rintro ⟨hl, rfl, rfl⟩
      have hh := hsound.huge hl
      exact hx ⟨hh.2, by omega, hh.1.symm⟩
    · rintro ⟨rfl, rfl⟩
      exact hf i List.mem_cons_self rfl
  · rcases List.mem_cons.mp hm with heq | hm
    · obtain ⟨rfl, rfl⟩ := Prod.mk.inj heq
      by_cases hl : u.last p < 256
      · rw [if_pos hl, hentry, if_pos ⟨hl, rfl⟩]
      · rw [if_neg hl, hword p _ hsound.mem (hhuge (by omega)), if_neg (by omega),
          if_pos ⟨by omega, rfl, rfl⟩]
    · have hne := hother p o' hm
      have hsp := hs.sound p o' (List.mem_cons_of_mem _ hm)
      have hsaved := h.saved p o' hm
      by_cases hl : u.last p < 256
      · rw [if_pos hl] at hsaved ⊢
        rw [hentry, if_neg (by simp [hne])]
        exact hsaved
      · rw [if_neg hl] at hsaved ⊢
        rw [hword p _ hsp.mem (by have := (hsp.huge (by omega)).1; omega),
          if_neg (by simp [hne]), if_neg (by simp [hne])]
        exact hsaved
  · refine ⟨?_, h.links.congr fun q o' hm => ?_⟩
    · rw [hword v o hsound.mem (by omega), if_pos ⟨rfl, rfl⟩]
    · have hne := hother q o' hm
      have hsq := hs.sound q o' (List.mem_cons_of_mem _ hm)
      have hoq := hs.offset q o' (List.mem_cons_of_mem _ hm)
      have := hsq.last_le_extent
      have := hs.lt_last hm
      rw [hword q o' hsq.mem (by omega), if_neg (by simp [hne]), if_neg (by simp [hne])]

theorem Reversed.wp_descend (h : Reversed extent A base (v :: frames.map Prod.fst) frames u m)
    (hb : base < 65536) (hsize : SizeOf u v size) (hq : Sound u extent A q)
    (hfresh : q ∉ v :: frames.map Prod.fst) {offset : Nat} {Q : Cursor → ObjectMemory → Prop} :
    Wp (descend ⟨priorOf base frames, v, offset, size⟩ o q) Q m ↔
      Q ⟨v, q, u.last q, u.last q⟩ (reverseAt u m v o (priorOf base frames)) := by
  have hsound := hs.sound v o (by simp)
  have ht := h.apart_reversed
  have hv := hsound.mem
  have hentry := hsound.isOop.isEntry
  have hext := hsound.last_le_extent
  have hprior := priorOf_lt hb hs
  have hword := ht.inside v hv
  have hs15 := ht.onHeap hv
  have hd := h.descended hs ho hb
  have hlast : (reverseAt u m v o (priorOf base frames)).last q = u.last q := by
    refine hd.last_eq hq fun o' hm => hfresh ?_
    rcases List.mem_cons.mp hm with heq | hm
    · rw [(Prod.mk.inj heq).1]
      exact List.mem_cons_self
    · exact List.mem_cons_of_mem _ (List.mem_map.mpr ⟨_, hm, rfl⟩)
  have hlastq := fun Q' => wp_lastPointerOf (m := reverseAt u m v o (priorOf base frames))
    (Q := Q') hq.isOop.isEntry (hd.apart_reversed.location_lt hq.mem)
  have h1 : m.location v + o < 65536 := by omega
  rw [descend, wp_bind, wp_heapChunkOfWordPut, and_iff_right ⟨hentry, h1, hprior⟩]
  dsimp only
  by_cases hl : u.last v < 256
  · have hsz : size < hugeSize := hsize.1.mpr hl
    rw [reverseAt, if_pos hl] at hlastq hlast ⊢
    rw [if_pos hsz, wp_bind, wp_countBitsOfPut, and_iff_right ⟨hentry, by omega⟩, wp_bind,
      hlastq, wp_pure, hlast]
  · have hsz : ¬size < hugeSize := fun hlt => hl (hsize.1.mp hlt)
    have hh := hsound.huge (by omega)
    rw [reverseAt, if_neg hl] at hlastq hlast ⊢
    rw [if_neg hsz, hsize.2 (by omega), wp_bind, wp_heapChunkOfWordPut,
      location_setChunkWord hs15, and_iff_right ⟨hentry, by omega, by omega⟩, wp_bind,
      hlastq, wp_pure, hlast]

/-- Restoring the pointer takes its object off the way back. -/
theorem Reversed.ascended
    (h : Reversed extent A base (v :: frames.map Prod.fst) ((v, o) :: frames) u m) :
    Reversed extent A base (v :: frames.map Prod.fst) frames u
      (m.setChunkWord v o (u.chunkWord v o)) := by
  have hsound := hs.sound v o (by simp)
  have ht := h.apart_reversed
  have hv := hsound.mem
  have hext := hsound.last_le_extent
  have hs15 := ht.onHeap hv
  have hlt := u.chunkWord_lt v o
  have hother : ∀ q o', (q, o') ∈ frames → q ≠ v := fun q o' hm hqv => by
    have := hs.nodup
    rw [List.map_cons, List.nodup_cons] at this
    exact this.1 (List.mem_map.mpr ⟨_, hm, hqv⟩)
  have hword : ∀ q i, A q → i < extent q →
      (m.setChunkWord v o (u.chunkWord v o)).chunkWord q i = _ := fun q i hq hi =>
    ht.chunkWord_setChunkWord hv hq (i := o) (by omega) hi hlt
  refine ⟨h.apart, h.touched.setChunkWord h.apart hv (by omega), fun p hp => ?_,
    fun p i hp hi hx hf => ?_, fun p o' hm => ?_, ?_⟩
  · rw [entry_setChunkWord hs15]
    exact h.count p hp
  · rw [hword p i hp hi]
    split
    · next hpi => rw [hpi.1, hpi.2]
    · next hpi =>
        refine h.word p i hp hi hx fun o' hm => ?_
        rcases List.mem_cons.mp hm with heq | hm
        · obtain ⟨rfl, rfl⟩ := Prod.mk.inj heq
          exact fun hio => hpi ⟨rfl, hio⟩
        · exact hf o' hm
  · have hne := hother p o' hm
    have hsp := hs.sound p o' (List.mem_cons_of_mem _ hm)
    have hsaved := h.saved p o' (List.mem_cons_of_mem _ hm)
    by_cases hl : u.last p < 256
    · rw [if_pos hl] at hsaved ⊢
      rw [entry_setChunkWord hs15]
      exact hsaved
    · rw [if_neg hl] at hsaved ⊢
      rw [hword p _ hsp.mem (by have := (hsp.huge (by omega)).1; omega), if_neg (by simp [hne])]
      exact hsaved
  · refine h.links.2.congr fun q o' hm => ?_
    have hne := hother q o' hm
    have hsq := hs.sound q o' (List.mem_cons_of_mem _ hm)
    have := hsq.last_le_extent
    have := hs.lt_last hm
    rw [hword q o' hsq.mem (by omega), if_neg (by simp [hne])]

theorem Reversed.wp_ascend
    (h : Reversed extent A base (v :: frames.map Prod.fst) ((v, o) :: frames) u m)
    {offset : Nat} {Q : Cursor → ObjectMemory → Prop}
    (hQ : ∀ size', SizeOf u v size' → Q ⟨priorOf base frames, v, o, size'⟩
      (m.setChunkWord v o (u.chunkWord v o))) :
    Wp (ascend ⟨v, u.chunkWord v o, offset, size⟩) Q m := by
  have hsound := hs.sound v o (by simp)
  have ht := h.apart_reversed
  have hv := hsound.mem
  have hentry := hsound.isOop.isEntry
  have hext := hsound.last_le_extent
  have hword := ht.inside v hv
  have hsize : SizeOf u v (m.last v) := h.last_frame hsound fun o' hm => (hs.offset v o' hm).1
  have hsaved := h.saved v o List.mem_cons_self
  have hoffset : ∀ Q' : Nat → ObjectMemory → Prop,
      Wp (restoreOffset v (m.last v)) Q' m ↔ Q' o m := by
    intro Q'
    rw [restoreOffset]
    by_cases hl : u.last v < 256
    · rw [if_pos hl] at hsaved
      rw [if_pos (show m.last v < hugeSize from hsize.1.mpr hl), wp_countBitsOf, hsaved]
      exact and_iff_right hentry
    · rw [if_neg hl] at hsaved
      have := (hsound.huge (by omega)).1
      rw [if_neg (show ¬m.last v < hugeSize from fun hlt => hl (hsize.1.mp hlt)),
        wp_heapChunkOfWord, hsize.2 (by omega), hsaved]
      exact and_iff_right ⟨hentry, by omega⟩
  rw [ascend, wp_bind]
  dsimp only
  rw [wp_lastPointerOf hentry (ht.location_lt hv), wp_bind, hoffset, wp_bind,
    wp_heapChunkOfWord, and_iff_right ⟨hentry, by omega⟩, h.links.1, wp_bind,
    wp_heapChunkOfWordPut, and_iff_right ⟨hentry, by omega, u.chunkWord_lt v o⟩, wp_pure]
  exact hQ _ hsize

end Moves

/-! ## The loop -/

theorem Stack.tail {f : Nat × Nat} (h : Stack extent A u (f :: frames)) :
    Stack extent A u frames :=
  ⟨h.apart, (List.nodup_cons.mp h.nodup).2, fun p o hm => h.sound p o (List.mem_cons_of_mem _ hm),
    fun p o hm => h.offset p o (List.mem_cons_of_mem _ hm), h.entered.tail⟩

/-- What the predicate and the action do to the memory `u` without the reversed
pointers, where `Inv` holds of the stack and of `u`: it makes the stack one of a
depth first search, every round keeps it and lowers `μ`. -/
structure Visitor (extent : Nat → Nat) (A : Nat → Prop) (predicate : Nat → OM Bool)
    (action : Nat → OM Unit) (Inv : List (Nat × Nat) → ObjectMemory → Prop)
    (μ : List (Nat × Nat) → ObjectMemory → Nat) : Prop where
  stack : ∀ frames u, Inv frames u → Stack extent A u frames
  integer : ∀ v o frames u, Inv ((v, o + 1) :: frames) u → 1 ≤ o → u.chunkWord v o % 2 = 1 →
    Inv ((v, o) :: frames) u ∧ μ ((v, o) :: frames) u < μ ((v, o + 1) :: frames) u
  predicate : ∀ v o frames u m base, Inv ((v, o + 1) :: frames) u → 1 ≤ o →
    u.chunkWord v o % 2 = 0 → Reversed extent A base (v :: frames.map Prod.fst) frames u m →
    Wp (predicate (u.chunkWord v o)) (fun r m' => ∃ u',
      Reversed extent A base (v :: frames.map Prod.fst) frames u' m' ∧ u'.last v = u.last v ∧
      (r = true → Inv ((u.chunkWord v o, u'.last (u.chunkWord v o)) :: (v, o) :: frames) u' ∧
        μ ((u.chunkWord v o, u'.last (u.chunkWord v o)) :: (v, o) :: frames) u' <
          μ ((v, o + 1) :: frames) u) ∧
      (r = false → Inv ((v, o) :: frames) u' ∧
        μ ((v, o) :: frames) u' < μ ((v, o + 1) :: frames) u)) m
  action : ∀ v w o frames u m base, Inv ((v, 1) :: (w, o) :: frames) u →
    Reversed extent A base (v :: w :: frames.map Prod.fst) ((w, o) :: frames) u m →
    Wp (action v) (fun _ m' => ∃ u',
      Reversed extent A base (w :: frames.map Prod.fst) ((w, o) :: frames) u' m' ∧
      Inv ((w, o) :: frames) u' ∧ o < u'.last w ∧ u'.chunkWord w o = v ∧
      μ ((w, o) :: frames) u' < μ ((v, 1) :: (w, o) :: frames) u) m

/-- The loop is a depth first search on the memory without reversed pointers, as
far as the end of its first object. -/
theorem Visitor.wp_traverse {predicate : Nat → OM Bool} {action : Nat → OM Unit}
    {Inv : List (Nat × Nat) → ObjectMemory → Prop} {μ : List (Nat × Nat) → ObjectMemory → Nat}
    (V : Visitor extent A predicate action Inv μ) {root : Nat} (hb : base < 65536)
    {Q : Nat → ObjectMemory → Prop}
    (hdone : ∀ v size u m, Inv [(v, 1)] u → Reversed extent A base [v] [] u m →
      Wp (iterate (followPointer predicate action root) ⟨base, v, 1, size⟩) Q m)
    (hInv : Inv [(v, o)] u) (h : Reversed extent A base [v] [] u m) (hsize : SizeOf u v size) :
    Wp (iterate (followPointer predicate action root) ⟨base, v, o, size⟩) Q m := by
  refine wp_iterate_ghost (γ := List (Nat × Nat) × ObjectMemory)
    (fun g c m => ∃ v o frames size, g.1 = (v, o) :: frames ∧
      c = ⟨priorOf base frames, v, o, size⟩ ∧ SizeOf g.2 v size ∧ Inv g.1 g.2 ∧
      Reversed extent A base (v :: frames.map Prod.fst) frames g.2 m)
    (fun g => μ g.1 g.2) ?_ (g := ([(v, o)], u)) ⟨v, o, [], size, rfl, rfl, hsize, hInv, h⟩
  rintro ⟨_, u⟩ _ m ⟨v, o, frames, size, rfl, rfl, hsize, hInv, h⟩
  dsimp only at hsize hInv h ⊢
  have hs := V.stack _ _ hInv
  have hv := hs.sound v o (by simp)
  have hoff := hs.offset v o (by simp)
  by_cases ho : 2 ≤ o
  · -- another pointer of the current object
    right
    obtain ⟨o, rfl⟩ : ∃ o', o = o' + 1 := ⟨o - 1, by omega⟩
    have ht := h.apart_reversed
    have hword := ht.inside v hv.mem
    have hext := hv.last_le_extent
    have hnext : m.chunkWord v o = u.chunkWord v o := by
      refine h.word v o hv.mem (by omega) (hv.not_extra (by omega)) fun o' hm => ?_
      have := (List.nodup_cons.mp hs.nodup).1
      exact absurd (List.mem_map.mpr ⟨_, hm, rfl⟩) this
    have hgo : ∀ u' m', Reversed extent A base (v :: frames.map Prod.fst) frames u' m' →
        u'.last v = u.last v → Inv ((v, o) :: frames) u' →
        μ ((v, o) :: frames) u' < μ ((v, o + 1) :: frames) u →
        ∃ g' : List (Nat × Nat) × ObjectMemory, (∃ v' o' frames' size', g'.1 = (v', o') :: frames' ∧
          (⟨priorOf base frames, v, o, size⟩ : Cursor) = ⟨priorOf base frames', v', o', size'⟩ ∧
          SizeOf g'.2 v' size' ∧ Inv g'.1 g'.2 ∧
          Reversed extent A base (v' :: frames'.map Prod.fst) frames' g'.2 m') ∧
          μ g'.1 g'.2 < μ ((v, o + 1) :: frames) u := by
      intro u' m' h' hlast hInv' hμ
      refine ⟨((v, o) :: frames, u'), ⟨v, o, frames, size, rfl, rfl, ?_, hInv', h'⟩, hμ⟩
      unfold SizeOf at hsize ⊢
      rwa [hlast]
    rw [followPointer]
    dsimp only
    rw [if_pos (show 0 < o + 1 - 1 by omega), Nat.add_sub_cancel, wp_bind, wp_heapChunkOfWord,
      and_iff_right ⟨hv.isOop.isEntry, by omega⟩, hnext, wp_bind]
    by_cases hint : u.chunkWord v o % 2 = 1
    · rw [if_pos hint, wp_pure]
      obtain ⟨hInv', hμ⟩ := V.integer v o frames u hInv (by omega) hint
      simp only [Bool.false_eq_true, if_false, wp_pure, loopPost_inl]
      exact hgo u m h rfl hInv' hμ
    · rw [if_neg hint]
      refine (V.predicate v o frames u m base hInv (by omega) (by omega) h).mono ?_
      rintro r m' ⟨u', h', hlast, htrue, hfalse⟩
      cases r with
      | false =>
          obtain ⟨hInv', hμ⟩ := hfalse rfl
          simp only [Bool.false_eq_true, if_false, wp_pure, loopPost_inl]
          exact hgo u' m' h' hlast hInv' hμ
      | true =>
          obtain ⟨hInv', hμ⟩ := htrue rfl
          have hs' := V.stack _ _ hInv'
          have hsize' : SizeOf u' v size := by
            unfold SizeOf at hsize ⊢
            rwa [hlast]
          have hfresh : u.chunkWord v o ∉ v :: frames.map Prod.fst :=
            (List.nodup_cons.mp hs'.nodup).1
          simp only [if_true, wp_bind]
          rw [h'.wp_descend hs'.tail (hs'.lt_last List.mem_cons_self) hb hsize'
            (hs'.sound _ _ List.mem_cons_self) hfresh, wp_pure, loopPost_inl]
          refine ⟨((u.chunkWord v o, u'.last (u.chunkWord v o)) :: (v, o) :: frames, u'),
            ⟨_, _, (v, o) :: frames, _, rfl, rfl, ⟨Iff.rfl, fun _ => rfl⟩, hInv', ?_⟩, hμ⟩
          exact (h'.descended hs'.tail (hs'.lt_last List.mem_cons_self) hb).mono
            fun p hp => List.mem_cons_of_mem _ hp
  · -- all pointers have been followed
    obtain rfl : o = 1 := by omega
    cases frames with
    | nil => exact .inl (hdone v size u m hInv h)
    | cons f frames =>
        right
        obtain ⟨w, o⟩ := f
        have hw := (hs.sound w o (by simp)).isOop.2.2
        rw [followPointer]
        dsimp only
        rw [if_neg (by omega), wp_bind]
        refine (V.action v w o frames u m base hInv h).mono ?_
        rintro _ m' ⟨u', h', hInv', ho', hchild, hμ⟩
        rw [if_neg (show priorOf base ((w, o) :: frames) ≠ nonPointer by
          simp only [priorOf, nonPointer]; omega), wp_bind]
        have hs' := V.stack _ _ hInv'
        subst hchild
        refine h'.wp_ascend hs' ho' fun size' hsize' => ?_
        rw [wp_pure, loopPost_inl]
        exact ⟨((w, o) :: frames, u'), ⟨w, o, frames, size', rfl, rfl, hsize', hInv',
          h'.ascended hs' ho'⟩, hμ⟩

end ObjectMemory

end Crosstalk
