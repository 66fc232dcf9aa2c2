import Crosstalk.ObjectMemory.StorePointer

/-!
# Several stores

A run of stores into a memory, with what is left of its objects described by one
function for all their words. Each store may free objects; those that a held
object refers to are left.
-/

namespace Crosstalk

namespace ObjectMemory

variable {m u : ObjectMemory} {L L' : Layout} {regs : Nat → Nat} {g : Nat → Nat → Nat}
  {a c i k p r v : Nat}

/-- The words `g` with `v` in the field `i` of `c`. -/
def put (g : Nat → Nat → Nat) (c i v p j : Nat) : Nat := if p = c ∧ j = i then v else g p j

/-- What stores have made of the memory `m`: what is left of its objects has the words `g`. -/
structure Written (m : ObjectMemory) (L : Layout) (regs : Nat → Nat) (g : Nat → Nat → Nat)
    (L' : Layout) (u : ObjectMemory) : Prop where
  counted : Counted u L' regs
  allocated : ∀ p, Allocated u L' p → Allocated m L p
  pointer : ∀ p, Allocated u L' p → (u.entry p).pointer = (m.entry p).pointer
  size : ∀ p, g p 0 = m.chunkWord p 0
  word : ∀ p j, Allocated u L' p → j < m.chunkWord p 0 → u.chunkWord p j = g p j
  root : ∀ p, Allocated m L p → 1 ≤ regs p → Allocated u L' p

theorem Written.refl (hm : Counted m L regs) : Written m L regs m.chunkWord L m :=
  ⟨hm, fun _ hp => hp, fun _ _ => rfl, fun _ => rfl, fun _ _ _ _ => rfl, fun _ hp _ => hp⟩

theorem PointerField.below (h : PointerField m L c i) (h2 : 2 ≤ k) (hk : k ≤ i) :
    PointerField m L c k :=
  ⟨h.allocated, h.pointer, h2, hk.trans_lt h.lt_size⟩

/-- The object `c` is `a` or in the field `k` of `a`. -/
def Anchored (g : Nat → Nat → Nat) (a k c : Nat) : Prop := c = a ∨ g a k = c

theorem Anchored.put (h : Anchored g a k r) (hne : r = a ∨ ¬(a = c ∧ k = i)) :
    Anchored (put g c i v) a k r := by
  rcases h with h | h
  · exact .inl h
  · rcases hne with hr | hne
    · exact .inl hr
    · exact .inr (by rw [ObjectMemory.put, if_neg hne, h])

section Rules

variable (h : Written m L regs g L' u)

include h

theorem Written.pointerField (hp : Allocated u L' p) (hj : PointerField m L p i) :
    PointerField u L' p i := by
  have hlt := hj.lt_size
  refine ⟨hp, ?_, hj.two_le, ?_⟩
  · rw [h.pointer p hp]
    exact hj.pointer
  · rw [h.word p 0 hp (by omega), h.size]
    exact hlt

/-- A pointer in a field of an object that is left. -/
theorem Written.value (hp : Allocated u L' p) (hj : PointerField m L p i) (heven : g p i % 2 = 0) :
    Allocated u L' (g p i) := by
  have hword := h.word p i hp hj.lt_size
  have hvalue := (h.pointerField hp hj).value h.counted (hword ▸ heven)
  rwa [hword] at hvalue

theorem Written.anchored (ha : PointerField m L a k) (hroot : 1 ≤ regs a) (hc : c % 2 = 0)
    (hanchor : Anchored g a k c) : Allocated u L' c := by
  have hau := h.root a ha.allocated hroot
  rcases hanchor with rfl | rfl
  · exact hau
  · exact h.value hau ha hc

theorem Written.holds (ha : PointerField m L a k) (hroot : 1 ≤ regs a)
    (hanchor : Anchored g a k c) (i : Nat) : Held u L' regs c i := by
  have hau := h.root a ha.allocated hroot
  by_cases hca : c = a
  · exact .inl (hca ▸ hroot)
  · refine .inr ⟨a, k, hroot, h.pointerField hau ha, fun hall => hca hall.1.symm, ?_⟩
    rw [h.word a k hau ha.lt_size]
    exact hanchor.resolve_left hca

theorem Written.hasField {f : Int} (hp : Allocated u L' p)
    (hj : PointerField m L p (headerSize + f.toNat)) (h0 : 0 ≤ f) : HasField u p f :=
  (h.pointerField hp hj).hasField h.counted.heap h0

theorem Written.wp_fetch {f : Int} {Q : Nat → ObjectMemory → Prop} (hp : Allocated u L' p)
    (hj : PointerField m L p (headerSize + f.toNat)) (h0 : 0 ≤ f) :
    Wp (fetchPointerOfObject f p) Q u ↔ Q (g p (headerSize + f.toNat)) u := by
  rw [fetchPointerOfObject_eq, wp_fetchWordOfObject, and_iff_right (h.hasField hp hj h0),
    h.word p _ hp hj.lt_size]

theorem Written.stored {L'' : Layout} {t : ObjectMemory} (hc : PointerField m L c i)
    (ht : Stored u L' regs c i v L'' t) : Written m L regs (put g c i v) L'' t := by
  have h2 := hc.two_le
  refine ⟨ht.counted, fun p hp => h.allocated p (ht.allocated p hp), fun p hp => ?_, fun p => ?_,
    fun p j hp hj => ?_, fun p hp hroot => ht.root p (h.root p hp hroot) hroot⟩
  · rw [(ht.entry p hp).1]
    exact h.pointer p (ht.allocated p hp)
  · rw [put, if_neg (by omega), h.size]
  · have hp' := ht.allocated p hp
    have hsize : u.chunkWord p 0 = m.chunkWord p 0 := by
      rw [h.word p 0 hp' (by omega), h.size]
    rw [ht.word p j hp (by omega), put, h.word p j hp' hj]

/-- The rule of a store. -/
theorem Written.wp_store {f : Int} (ha : PointerField m L a k) (hroot : 1 ≤ regs a)
    (hanchor : Anchored g a k c) (hc : PointerField m L c (headerSize + f.toNat)) (h0 : 0 ≤ f)
    (hv : v < 65536) (hpos : 0 < v) (hva : v % 2 = 0 → Allocated u L' v) :
    Wp (storePointerOfObjectWithValue f c v)
      (fun _ t => ∃ L'', Written m L regs (put g c (headerSize + f.toNat) v) L'' t) u := by
  have hcu := h.anchored ha hroot hc.allocated.inUse.even hanchor
  exact (wp_storePointer h.counted (h.pointerField hcu hc) hv rfl h0 (h.holds ha hroot hanchor _)
    hpos hva).mono fun _ _ ⟨L'', ht⟩ => ⟨L'', h.stored hc ht⟩

/-- A register is given up: nothing is freed where a reference is left. -/
theorem Written.wp_countDown (hr : Allocated u L' r) (hregs : 1 ≤ regs r)
    (h1 : (u.entry r).count ≠ 1) :
    Wp (countDown r) (fun _ t => ∃ L'', Written m L (dropped regs r) g L'' t ∧
      ∀ p, Allocated u L' p → Allocated t L'' p) u := by
  have haside : Aside u L' (0, 0) id := .nothing
  refine (wp_countDown_aside h.counted hr hregs ?_ haside).mono fun _ t ⟨dead, L'', ht⟩ => ?_
  · exact fun h0 => h0.allocated.ne_zero rfl
  · have hiff : ∀ p, Allocated t L'' p ↔ Allocated u L' p := fun p =>
      (ht.allocated_iff h.counted).trans (and_iff_left (h.counted.not_freed h1))
    refine ⟨L'', ⟨ht.counted h.counted hregs, fun p hp => h.allocated p ((hiff p).mp hp),
      fun p hp => ?_, h.size, fun p j hp hj => ?_, fun p hp hroot =>
      (hiff p).mpr (h.root p hp ?_)⟩, fun p => (hiff p).mpr⟩
    · rw [ht.entry p]
      exact h.pointer p ((hiff p).mp hp)
    · have hpu := (hiff p).mp hp
      have hsize : u.chunkWord p 0 = m.chunkWord p 0 := by
        rw [h.word p 0 hpu (by omega), h.size]
      rw [ht.chunkWord_eq h.counted hp (by omega), h.word p j hpu hj]
    · rw [dropped] at hroot
      split at hroot <;> omega

/-- A register takes a reference. -/
theorem Written.countedUp (hr : Allocated u L' r) :
    Written m L (held regs r) g L' (u.countedUp r) := by
  refine ⟨h.counted.countedUp fun _ => hr, fun p hp => h.allocated p (allocated_countedUp.mp hp),
    fun p hp => ?_, h.size, fun p j hp hj => ?_, fun p hp hroot => allocated_countedUp.mpr ?_⟩
  · rw [entry_countedUp]
    exact h.pointer p (allocated_countedUp.mp hp)
  · have hpu := allocated_countedUp.mp hp
    rw [chunkWord_countedUp hpu.inUse.even (h.counted.heap.onHeap hpu.inUse), h.word p j hpu hj]
  · rw [held] at hroot
    by_cases hpr : p = r
    · rwa [hpr]
    · rw [if_neg hpr] at hroot
      exact h.root p hp hroot

/-- A register and a field refer to the object. -/
theorem Written.count_ne_one (hp : Allocated u L' p) (hj : PointerField m L p i)
    (hvalue : g p i = r) (hr : Allocated u L' r) (hregs : 1 ≤ regs r) :
    (u.entry r).count ≠ 1 := fun h1 => by
  have hcount := h.counted.count r hr (by omega)
  have hword := h.word p i hp hj.lt_size
  rw [hvalue] at hword
  rw [(h.pointerField hp hj).references_eq, if_pos ⟨by rw [hword]; exact hr.inUse.even, hword⟩]
    at hcount
  omega

end Rules

end ObjectMemory

end Crosstalk
