import Crosstalk.ObjectMemory.Traversal
import Mathlib.Data.Finset.Card
import Mathlib.Logic.Relation

/-!
# The graph of the objects

The pointers of an object are its words from the class up to `last`. This module
has what both uses of the traversal need: the relation `PointsTo`, memories that
agree but for counts, and what the stores of the traversal do to `Reversed`.
-/

namespace Crosstalk

namespace ObjectMemory

/-- Pointer `i` of `p`, counted from the class. -/
def IsPointer (m : ObjectMemory) (p i : Nat) : Prop :=
  1 ≤ i ∧ i < m.last p ∧ m.chunkWord p i % 2 = 0

def PointsTo (m : ObjectMemory) (p q : Nat) : Prop := ∃ i, IsPointer m p i ∧ m.chunkWord p i = q

def Reaches (m : ObjectMemory) : Nat → Nat → Prop := Relation.ReflTransGen (PointsTo m)

/-- A set of objects whose chunks hold their pointers, and whose pointers stay in
the set. -/
structure Closed (m : ObjectMemory) (extent : Nat → Nat) (A V : Nat → Prop) : Prop where
  apart : Apart m extent A
  sound : ∀ p, V p → Sound m extent A p
  pointer : ∀ p i, V p → IsPointer m p i → V (m.chunkWord p i)

/-- `u` has the entries of `m` but for counts, and the words of the chunks of `A`
but for extra words. -/
structure Alike (extent : Nat → Nat) (A : Nat → Prop) (m u : ObjectMemory) : Prop where
  apart : Apart m extent A
  entry : ∀ p, p % 2 = 0 → u.entry p = { m.entry p with count := (u.entry p).count }
  location : ∀ p, p % 2 = 0 → u.location p = m.location p
  word : ∀ p i, A p → i < extent p → ¬Extra m extent p i → u.chunkWord p i = m.chunkWord p i

/-- `u` is `m` but for counts and extra words of the entries `A`. -/
structure Same (extent : Nat → Nat) (A : Nat → Prop) (m u : ObjectMemory) : Prop where
  apart : Apart m extent A
  touched : Touched extent A m u
  word : ∀ p i, A p → i < extent p → ¬Extra m extent p i → u.chunkWord p i = m.chunkWord p i

variable {extent : Nat → Nat} {A V : Nat → Prop} {L : Layout} {base : Nat}
  {loose l : List Nat} {frames : List (Nat × Nat)} {m m' u u' : ObjectMemory}
  {p q v i o c : Nat}

namespace Alike

theorem refl (ha : Apart m extent A) : Alike extent A m m :=
  ⟨ha, fun _ _ => rfl, fun _ _ => rfl, fun _ _ _ _ _ => rfl⟩

section

variable (h : Alike extent A m u)

include h

theorem even (hp : A p) : p % 2 = 0 := (h.apart.isOop p hp).1

theorem apart_alike : Apart u extent A :=
  h.apart.congr (fun p hp => by rw [h.entry p (h.even hp)]) fun p hp => h.location p (h.even hp)

theorem extra_iff (hp : A p) : Extra u extent p i ↔ Extra m extent p i := by
  unfold Extra
  rw [h.entry p (h.even hp)]

theorem trans (h' : Alike extent A u m') : Alike extent A m m' := by
  refine ⟨h.apart, fun p hp => ?_, fun p hp => (h'.location p hp).trans (h.location p hp),
    fun p i hp hi hx => ?_⟩
  · rw [h'.entry p hp, h.entry p hp]
  · rw [h'.word p i hp hi fun hx' => hx ((h.extra_iff hp).mp hx'), h.word p i hp hi hx]

theorem last_eq (hp : Sound m extent A p) : u.last p = m.last p := by
  have hext := hp.last_le_extent
  have htwo := hp.two_le
  have hword : ∀ i < 3, i < extent p → u.chunkWord p i = m.chunkWord p i := fun i h3 hi =>
    h.word p i hp.mem hi (not_extra_header h3)
  exact last_congr (by rw [h.entry p hp.isOop.1]) (hword 0 (by omega) (by omega))
    (hword 1 (by omega) (by omega)) fun h3 => hword 2 (by omega) (by omega)

theorem chunkWord_eq (hp : Sound m extent A p) (hi : i < m.last p) :
    u.chunkWord p i = m.chunkWord p i := by
  have hext := hp.last_le_extent
  exact h.word p i hp.mem (by omega) (hp.not_extra hi)

theorem size_eq (hp : A p) : u.chunkWord p 0 = m.chunkWord p 0 := by
  have htwo := h.apart.two_le p hp
  exact h.word p 0 hp (by omega) (not_extra_header (by omega))

theorem isPointer_iff (hp : Sound m extent A p) : IsPointer u p i ↔ IsPointer m p i := by
  unfold IsPointer
  rw [h.last_eq hp]
  exact and_congr_right fun _ => and_congr_right fun hi => by rw [h.chunkWord_eq hp hi]

theorem sound (hp : Sound m extent A p) : Sound u extent A p := by
  have hsize := h.size_eq hp.mem
  refine ⟨hp.mem, hp.isOop, hp.two_le, ?_, ?_⟩
  · rw [hp.extent_eq, space_congr (by rw [h.entry p hp.isOop.1]) hsize]
  · rw [h.last_eq hp, hsize]
    exact hp.last_le

theorem closed (hV : Closed m extent A V) : Closed u extent A V := by
  refine ⟨h.apart_alike, fun p hp => h.sound (hV.sound p hp), fun p i hp hi => ?_⟩
  have hi' := (h.isPointer_iff (hV.sound p hp)).mp hi
  rw [h.chunkWord_eq (hV.sound p hp) hi'.2.1]
  exact hV.pointer p i hp hi'

/-- Memories that are alike reach the same. -/
theorem reaches (hV : Closed m extent A V) (hp : V p) (hr : Reaches u p q) :
    Reaches m p q ∧ V q := by
  induction hr with
  | refl => exact ⟨.refl, hp⟩
  | tail _ hpt ih =>
      obtain ⟨i, hi, rfl⟩ := hpt
      obtain ⟨hreach, hVq⟩ := ih
      have hi' := (h.isPointer_iff (hV.sound _ hVq)).mp hi
      rw [h.chunkWord_eq (hV.sound _ hVq) hi'.2.1]
      exact ⟨hreach.tail ⟨i, hi', rfl⟩, hV.pointer _ i hVq hi'⟩

end

end Alike

namespace Same

theorem refl (ha : Apart m extent A) : Same extent A m m :=
  ⟨ha, .refl _ _ _, fun _ _ _ _ _ => rfl⟩

section

variable (h : Same extent A m u)

include h

theorem entry (p : Nat) : u.entry p = { m.entry p with count := (u.entry p).count } :=
  h.touched.entry h.apart p

theorem location (hp : p % 2 = 0) : u.location p = m.location p := h.touched.location h.apart hp

theorem alike : Alike extent A m u :=
  ⟨h.apart, fun p _ => h.entry p, fun _ hp => h.location hp, h.word⟩

theorem chunkHead {s k : Nat} (hs : s < 15) : u.chunkHead s k = m.chunkHead s k :=
  h.touched.chunkHead h.apart hs

theorem apart_same : Apart u extent A := h.touched.apart h.apart

theorem extra_iff : Extra u extent p i ↔ Extra m extent p i := by
  unfold Extra
  rw [h.entry p]

theorem trans (h' : Same extent A u m') : Same extent A m m' := by
  refine ⟨h.apart, h.touched.trans h.apart h'.touched, fun p i hp hi hx => ?_⟩
  rw [h'.word p i hp hi fun hx' => hx (h.extra_iff.mp hx'), h.word p i hp hi hx]

theorem last_eq (hp : Sound m extent A p) : u.last p = m.last p := h.alike.last_eq hp

theorem chunkWord_eq (hp : Sound m extent A p) (hi : i < m.last p) :
    u.chunkWord p i = m.chunkWord p i := h.alike.chunkWord_eq hp hi

theorem sound (hp : Sound m extent A p) : Sound u extent A p := h.alike.sound hp

end

end Same

/-- A memory without reversed pointers. -/
theorem Reversed.same (h : Reversed extent A base loose [] u m) : Same extent A u m :=
  ⟨h.apart, h.touched, fun p i hp hi hx => h.word p i hp hi hx fun _ ho => by simp at ho⟩

theorem Reversed.refl (ha : Apart m extent A) (base : Nat) (loose : List Nat) :
    Reversed extent A base loose [] m m :=
  ⟨ha, .refl _ _ _, fun _ _ => .inl rfl, fun _ _ _ _ _ _ => rfl, fun _ _ ho => by simp at ho,
    trivial⟩

/-! ## Storing a count -/

theorem setCount_self (h : (m.entry p).count = c) : m.setCount p c = m := by
  rw [setCount, setField, ← h, entry, decodeEntry, putField_field (m.word_lt _ _)]
  exact setWord_word m _ _

theorem same_setCount (ha : Apart m extent A) (hp : A p) (hc : c < 256) :
    Same extent A m (m.setCount p c) := by
  have heven := (ha.isOop p hp).1
  exact ⟨ha, (Touched.refl _ _ _).setCount hp hc, fun q i hq hi _ =>
    chunkWord_setCount hc (by have := (ha.isOop q hq).1; omega) (ha.onHeap hq)⟩

/-- Storing the same count in both memories. -/
theorem Touched.setCount_both (h : Touched extent A u m) (hp : A p) (hc : c < 256)
    (ha : Apart u extent A) : Touched extent A (u.setCount p c) (m.setCount p c) := by
  have hm := h.setCount (v := c) hp hc
  have hu := same_setCount ha hp hc
  refine ⟨fun s w hA hw => ?_, fun q hq => ?_, h.currentSegment, h.freeWords, h.freeOops⟩
  · have hw' : ∀ q i, A q → i < extent q →
        ¬(s = (u.entry q).segment ∧ w = u.location q + i) := fun q i hq hi hall => by
      refine hw q i hq hi ?_
      rwa [hu.entry q, hu.location (ha.isOop q hq).1]
    rw [hm.outside s w hA hw', hu.touched.outside s w hA hw']
  · rw [hm.entryWord q hq, hu.touched.entryWord q hq]

/-- Storing the count of an object that is not on the way back. -/
theorem Reversed.setCount (h : Reversed extent A base loose frames u m)
    (hs : Stack extent A u frames) (hp : A p) (hc : c < 256)
    (hf : p ∉ frames.map Prod.fst) (hl : ∀ q ∈ loose, q ≠ p → q ∈ l) :
    Reversed extent A base l frames (u.setCount p c) (m.setCount p c) := by
  have ham := h.apart_reversed
  have hu := same_setCount h.apart hp hc
  have heven := (h.apart.isOop p hp).1
  refine ⟨hu.apart_same, h.touched.setCount_both hp hc h.apart, fun q hq => ?_,
    fun q i hq hi hx ho => ?_, fun q o hqo => ?_, ?_⟩
  · rw [entry_setCount hc, entry_setCount hc]
    split
    · exact .inl rfl
    · next hne => exact (h.count q hq).imp_right fun ⟨h1, h2⟩ => ⟨hl q h1 hne, h2⟩
  · have hne : q + 1 ≠ p := by have := (h.apart.isOop q hq).1; omega
    rw [chunkWord_setCount hc hne (ham.onHeap hq), chunkWord_setCount hc hne (h.apart.onHeap hq)]
    exact h.word q i hq hi (fun hx' => hx (hu.extra_iff.mpr hx')) ho
  · have hq := hs.sound q o hqo
    have hne : q ≠ p := fun hqp => hf (hqp ▸ List.mem_map.mpr ⟨_, hqo, rfl⟩)
    have hsaved := h.saved q o hqo
    rw [hu.last_eq hq, entry_setCount hc, if_neg hne,
      chunkWord_setCount hc (by have := hq.isOop.1; omega) (ham.onHeap hq.mem)]
    exact hsaved
  · refine h.links.congr fun q o hqo => ?_
    have hq := hs.sound q o hqo
    exact chunkWord_setCount hc (by have := hq.isOop.1; omega) (ham.onHeap hq.mem)

/-- The count of an object outside the stack is its own. -/
theorem Reversed.count_eq (h : Reversed extent A base loose frames u m) (hp : p % 2 = 0)
    (hl : p ∉ loose) : (m.entry p).count = (u.entry p).count :=
  (h.count p hp).resolve_right fun h' => hl h'.1

/-- The stack depends on the pointer bits and the words of its objects. -/
theorem Stack.congr (hs : Stack extent A u frames) (ha : Apart u' extent A)
    (hpointer : ∀ p o, (p, o) ∈ frames → (u'.entry p).pointer = (u.entry p).pointer)
    (hword : ∀ p o i, (p, o) ∈ frames → i < extent p → ¬Extra u extent p i →
      u'.chunkWord p i = u.chunkWord p i) :
    Stack extent A u' frames ∧ ∀ p o, (p, o) ∈ frames → u'.last p = u.last p := by
  have hsize : ∀ p o, (p, o) ∈ frames → u'.chunkWord p 0 = u.chunkWord p 0 := fun p o hp =>
    hword p o 0 hp (by have := (hs.sound p o hp).two_le; omega) (not_extra_header (by omega))
  have hlast : ∀ p o, (p, o) ∈ frames → u'.last p = u.last p := fun p o hp => by
    have hext := (hs.sound p o hp).last_le_extent
    have htwo := (hs.sound p o hp).two_le
    exact last_congr (hpointer p o hp) (hsize p o hp)
      (hword p o 1 hp (by omega) (not_extra_header (by omega)))
      fun h3 => hword p o 2 hp (by omega) (not_extra_header (by omega))
  refine ⟨⟨ha, hs.nodup, fun p o hp => ?_, fun p o hp => ?_, ?_⟩, hlast⟩
  · have hsound := hs.sound p o hp
    refine ⟨hsound.mem, hsound.isOop, hsound.two_le, ?_, ?_⟩
    · rw [hsound.extent_eq, space_congr (hpointer p o hp) (hsize p o hp)]
    · rw [hlast p o hp, hsize p o hp]
      exact hsound.last_le
  · rw [hlast p o hp]
    exact hs.offset p o hp
  · have hsound := hs.sound
    have hentered := hs.entered
    clear hs hpointer hsize
    induction frames with
    | nil => exact List.IsChain.nil
    | cons f frames ih =>
        cases frames with
        | nil => exact List.IsChain.singleton _
        | cons f' frames =>
            rw [List.isChain_cons_cons] at hentered ⊢
            have hf' := hsound f'.1 f'.2 (by simp)
            have hext := hf'.last_le_extent
            refine ⟨?_, ih (fun p o i hp => hword p o i (List.mem_cons_of_mem _ hp))
              (fun p o hp => hlast p o (List.mem_cons_of_mem _ hp))
              (fun p o hp => hsound p o (List.mem_cons_of_mem _ hp)) hentered.2⟩
            rw [hlast f'.1 f'.2 (by simp), hword f'.1 f'.2 f'.2 (by simp) (by omega)
              (hf'.not_extra hentered.1.1)]
            exact hentered.1

/-- The stack does not depend on counts. -/
theorem Stack.same (hs : Stack extent A u frames) (h : Same extent A u u') :
    Stack extent A u' frames :=
  (hs.congr h.apart_same (fun p _ _ => by rw [h.entry p])
    fun p o i hp hi hx => h.word p i (hs.sound p o hp).mem hi hx).1

end ObjectMemory

end Crosstalk
