import Crosstalk.Interpreter.Registers
import Crosstalk.ObjectMemory.Roots

/-!
# Garbage collection

`reclaimInaccessibleObjects` with the roots of the interpreter: its registers are saved in
the active context before the marking, and fetched again after the sweep.
-/

namespace Crosstalk

open ObjectMemory

variable {m n u : ObjectMemory} {extent : Nat → Nat} {V R : Nat → Prop} {p q r i v : Nat}

/-! ## The registers that a collection saves -/

namespace ObjectMemory

/-- `n` is `m` but for the SmallIntegers in the words 3 and 4 of `p`, the saved instruction
pointer and stack pointer of a context. -/
structure Saved (extent : Nat → Nat) (V : Nat → Prop) (m : ObjectMemory) (p : Nat)
    (n : ObjectMemory) : Prop where
  closed : Closed n extent (InUse m) V
  entry : ∀ q, n.entry q = m.entry q
  location : ∀ q, n.location q = m.location q
  word : ∀ q i, InUse m q → i < extent q → (q = p → i ≠ 3 ∧ i ≠ 4) →
    n.chunkWord q i = m.chunkWord q i
  instructionPointer : n.chunkWord p 3 % 2 = 1
  stackPointer : n.chunkWord p 4 % 2 = 1
  reaches : ∀ q r, V q → (Reaches n q r ↔ Reaches m q r)
  references : ∀ q, n.references (fun x => V x.1) q = m.references (fun x => V x.1) q

theorem Saved.refl (hV : Closed m extent (InUse m) V) (h3 : m.chunkWord p 3 % 2 = 1)
    (h4 : m.chunkWord p 4 % 2 = 1) : Saved extent V m p m :=
  ⟨hV, fun _ => rfl, fun _ => rfl, fun _ _ _ _ _ => rfl, h3, h4, fun _ _ _ => Iff.rfl,
    fun _ => rfl⟩

section Store

variable {A : Nat → Prop} (h : Cut extent A V m p i v) (hold : m.chunkWord p i % 2 = 1)

include h hold

theorem Cut.references_store :
    (m.setChunkWord p i v).references (fun x => V x.1) q = m.references (fun x => V x.1) q := by
  rw [ObjectMemory.references, ObjectMemory.references]
  congr 1
  ext ⟨x, j⟩
  refine and_congr_right fun hx => ?_
  have hs := h.closed.sound x hx
  have hiff := h.isPointer_store hold (j := j) hs
  constructor
  · rintro ⟨hj, hword⟩
    exact ⟨hiff.mp hj, (h.chunkWord_pointer hs hj).symm.trans hword⟩
  · rintro ⟨hj, hword⟩
    exact ⟨hiff.mpr hj, (h.chunkWord_pointer hs (hiff.mpr hj)).trans hword⟩

end Store

section Saved

variable (h : Saved extent V m p n)

include h

theorem Saved.cut (hp : InUse m p) (hext : 8 ≤ extent p) (hi : i = 3 ∨ i = 4)
    (hodd : v % 2 = 1) (hv : v < 65536) : Cut extent (InUse m) V n p i v := by
  have hlt : i < extent p := by omega
  have hword : ∀ j < extent p, (n.setChunkWord p i v).chunkWord p j =
      if j = i then v else n.chunkWord p j := fun j hj => by
    rw [h.closed.apart.chunkWord_setChunkWord hp hp hlt hj hv]
    exact if_congr (and_iff_right rfl) rfl rfl
  refine ⟨h.closed, hp, by omega, hlt, hodd, hv, ?_⟩
  refine last_congr (by rw [entry_setChunkWord (h.closed.apart.onHeap hp)]) ?_ ?_ fun _ => ?_
  · rw [hword 0 (by omega), if_neg (by omega)]
  · rw [hword 1 (by omega), if_neg (by omega)]
  · rw [hword 2 (by omega), if_neg (by omega)]

theorem Saved.store (hp : InUse m p) (hext : 8 ≤ extent p) (hi : i = 3 ∨ i = 4)
    (hodd : v % 2 = 1) (hv : v < 65536) : Saved extent V m p (n.setChunkWord p i v) := by
  have hcut := h.cut hp hext hi hodd hv
  have hold : n.chunkWord p i % 2 = 1 := by
    rcases hi with rfl | rfl
    · exact h.instructionPointer
    · exact h.stackPointer
  have hother : ∀ j, j < extent p → (n.setChunkWord p i v).chunkWord p j =
      if j = i then v else n.chunkWord p j := fun j hj => by
    rw [hcut.chunkWord hp hj]
    exact if_congr (and_iff_right rfl) rfl rfl
  refine ⟨hcut.closed_cut, fun q => hcut.entry.trans (h.entry q),
    fun q => (location_setChunkWord hcut.onHeap).trans (h.location q),
    fun q j hq hj hne => ?_, ?_, ?_, fun q r hq => ?_, fun q => ?_⟩
  · rw [hcut.chunkWord hq hj, if_neg, h.word q j hq hj hne]
    rintro ⟨rfl, rfl⟩
    have := hne rfl
    omega
  · rw [hother 3 (by omega)]
    split
    · exact hodd
    · exact h.instructionPointer
  · rw [hother 4 (by omega)]
    split
    · exact hodd
    · exact h.stackPointer
  · exact (hcut.reaches_store hold hq).trans (h.reaches q r hq)
  · exact (hcut.references_store hold).trans (h.references q)

theorem Saved.inUse_eq : InUse n = InUse m := by
  funext q
  rw [InUse, InUse, h.entry]

theorem Saved.sweepable (hm : Sweepable extent V m) : Sweepable extent V n := by
  have hsize : ∀ q, InUse m q → n.chunkWord q 0 = m.chunkWord q 0 := fun q hq =>
    h.word q 0 hq (by have := hm.tiled.two_le q hq; omega) fun _ => ⟨by omega, by omega⟩
  refine ⟨hm.tiled.congr (fun q _ => by rw [h.entry]) (fun q _ => by rw [h.entry])
    fun q _ => h.location q, h.inUse_eq ▸ h.closed, fun q hq => ?_, fun q hq => ?_, ?_⟩
  · rw [h.inUse_eq] at hq
    rw [hsize q hq]
    exact hm.two_le q hq
  · rw [h.inUse_eq] at hq
    rw [hsize q hq]
    exact hm.size_le q hq
  · rw [h.entry]
    exact hm.reserved

end Saved

/-- A store of a SmallInteger over a SmallInteger counts nothing. -/
theorem wp_storePointer_integer {f : Int} {R : Unit → ObjectMemory → Prop}
    (hf : HasField m p f) (hold : m.chunkWord p (headerSize + f.toNat) % 2 = 1)
    (hodd : v % 2 = 1) (hv : v < 65536) (hR : R () (m.setChunkWord p (headerSize + f.toNat) v)) :
    Wp (storePointerOfObjectWithValue f p v) R m := by
  have hup : m.countedUp v = m := by rw [countedUp, if_neg (by omega)]
  rw [wp_storePointer_fresh hf (by rwa [hup]) (by omega) hv, hup]
  exact hR

end ObjectMemory

/-! ## The roots -/

def Interpreter.withMemory (s : Interpreter) (m : ObjectMemory) : Interpreter :=
  { s with host := { s.host with memory := m } }

theorem wp_inMemory {α : Type} {x : OM α} {Q : α → Interpreter → Prop} {s : Interpreter} :
    Wp (inMemory x) Q s ↔ Wp x (fun a m => Q a (s.withMemory m)) s.memory := by
  constructor
  · rintro ⟨a, t, hx, hQ⟩
    rw [inMemory, onHost, onMemory] at hx
    cases hxm : x s.host.memory with
    | none =>
        rw [hxm] at hx
        cases hx
    | some r =>
        rw [hxm] at hx
        cases hx
        exact ⟨r.1, r.2, hxm, hQ⟩
  · rintro ⟨a, m, hx, hQ⟩
    refine ⟨a, _, ?_, hQ⟩
    have hx : x s.host.memory = some (a, m) := hx
    rw [inMemory, onHost, onMemory, hx]
    rfl

/-- The objects that a collection starts from. -/
def Root (s : Interpreter) (r : Nat) : Prop :=
  SpecialOop r ∨ r = smalltalkPointer ∨ r = s.activeContext ∨
    s.newProcess ≠ nilPointer ∧ r = s.newProcess

def Reachable (s : Interpreter) (p : Nat) : Prop := ∃ r, Root s r ∧ Reaches s.memory r p

/-- A state in which a collection can start. What the roots reach are objects with their
pointers inside their chunks, oop 0 shows the place of nil, and the active context is a
context: its registers are SmallIntegers, and where it is a block's it has a home. -/
structure Collectable (s : Interpreter) (L : Layout) : Prop where
  heap : Heap s.memory L
  reserved : (s.memory.entry 0).free ≠ 0
  zero : Alias s.memory
  allocated : ∀ p, Reachable s p → Allocated s.memory L p
  inside : ∀ p, Reachable s p → s.memory.last p ≤ s.memory.chunkWord p 0
  context : 8 ≤ s.memory.last s.activeContext
  instructionPointer :
    s.memory.chunkWord s.activeContext (headerSize + instructionPointerIndex) % 2 = 1
  stackPointer : s.memory.chunkWord s.activeContext (headerSize + stackPointerIndex) % 2 = 1
  home : s.memory.chunkWord s.activeContext (headerSize + methodIndex) % 2 = 1 →
    s.memory.chunkWord s.activeContext (headerSize + homeIndex) % 2 = 0 ∧
    8 ≤ s.memory.chunkWord (s.memory.chunkWord s.activeContext (headerSize + homeIndex)) 0

theorem Root.reachable {s : Interpreter} (hr : Root s r) : Reachable s r := ⟨r, hr, .refl⟩

namespace Collectable

variable {s : Interpreter} {L : Layout} (h : Collectable s L)

include h

theorem sound (hp : Reachable s p) : Sound s.memory L.extent (InUse s.memory) p := by
  have ha := h.allocated p hp
  exact ⟨ha.inUse, ha.inUse.1, h.heap.tiled.two_le p ha.inUse, h.heap.extent_allocated p ha,
    h.inside p hp⟩

theorem closed : Closed s.memory L.extent (InUse s.memory) (Reachable s) :=
  ⟨h.heap.tiled.toApart, fun _ hp => h.sound hp, fun _ i ⟨r, hr, hrp⟩ hi =>
    ⟨r, hr, hrp.tail ⟨i, hi, rfl⟩⟩⟩

theorem sweepable : Sweepable L.extent (Reachable s) s.memory := by
  refine ⟨h.heap.tiled, h.closed, fun p hp => ?_, fun p hp => h.heap.size_le_extent hp, h.reserved⟩
  rcases allocated_or_chunk L hp with ha | ⟨s', k, hk⟩
  · have htwo := h.heap.two_le_space ha
    unfold space at htwo
    split at htwo
    · exact htwo
    · next hs =>
        simp only [hugeSize] at hs
        omega
  · have htwo := h.heap.tiled.two_le p hp
    rw [h.heap.extent_chunk s' k p hk] at htwo
    exact htwo

theorem active : InUse s.memory s.activeContext ∧ 8 ≤ s.memory.chunkWord s.activeContext 0 ∧
    8 ≤ L.extent s.activeContext := by
  have hr : Reachable s s.activeContext := Root.reachable (.inr (.inr (.inl rfl)))
  have hin := h.inside _ hr
  have hle := (h.sound hr).last_le_extent
  have hcontext := h.context
  exact ⟨(h.allocated _ hr).inUse, by omega, by omega⟩

end Collectable

/-! ## Preparing -/

/-- The roots `R` have been marked, from `s` with its registers saved. -/
structure Preparing (s : Interpreter) (L : Layout) (R : Nat → Prop) (t : Interpreter) : Prop where
  marked : ∃ n, Saved L.extent (Reachable s) s.memory s.activeContext n ∧
    MarkedFrom L.extent (InUse s.memory) (Reachable s) n R t.memory
  activeContext : t.activeContext = s.activeContext
  newProcess : t.newProcess = s.newProcess
  newProcessWaiting : t.newProcessWaiting = s.newProcessWaiting

theorem integerObjectOf_odd (value : Int) : integerObjectOf value % 2 = 1 := by
  rw [integerObjectOf]
  omega

theorem integerObjectOf_lt (value : Int) : integerObjectOf value < 65536 := by
  rw [integerObjectOf]
  omega

section Preparing

variable {s t : Interpreter} {L : Layout} (h : Collectable s L) (ht : Preparing s L R t)

include ht

theorem Preparing.congr {R' : Nat → Prop} (hR : ∀ r, R r ↔ R' r) : Preparing s L R' t := by
  have heq : R = R' := funext fun r => propext (hR r)
  rwa [← heq]

theorem Preparing.wp_addRoot (hr : Reachable s r) :
    Wp (inMemory (addRoot r)) (fun _ => Preparing s L (fun q => R q ∨ q = r)) t := by
  obtain ⟨n, hn, hm⟩ := ht.marked
  rw [wp_inMemory]
  refine (hm.wp_addRoot hn.closed hr).mono fun _ u hu => ?_
  exact ⟨⟨n, hn, hu⟩, ht.activeContext, ht.newProcess, ht.newProcessWaiting⟩

variable (hR : ∀ r, R r → Reachable s r)

include h hR

/-- A register is saved over the one saved before. -/
theorem Preparing.wp_storeInteger {f : Nat} (hf : f = 1 ∨ f = 2) (value : Int) :
    Wp (storeIntegerOfObjectWithValue f s.activeContext value)
      (fun _ => Preparing s L R) t := by
  have hheader : headerSize = 2 := rfl
  obtain ⟨n, hn, hm⟩ := ht.marked
  obtain ⟨huse, hsize, hext⟩ := h.active
  rw [storeIntegerOfObjectWithValue, wp_ite]
  refine ⟨fun _ => ?_, fun _ => ?_⟩
  · have hi : headerSize + (f : Int).toNat = 3 ∨ headerSize + (f : Int).toNat = 4 := by
      rw [Int.toNat_natCast]
      omega
    have hcut := hn.cut huse hext hi (integerObjectOf_odd value) (integerObjectOf_lt value)
    have hold : n.chunkWord s.activeContext (headerSize + (f : Int).toNat) % 2 = 1 := by
      rcases hi with hi | hi <;> rw [hi]
      · exact hn.instructionPointer
      · exact hn.stackPointer
    have hzero : n.chunkWord s.activeContext 0 = s.memory.chunkWord s.activeContext 0 :=
      hn.word _ 0 huse (by omega) fun _ => ⟨by omega, by omega⟩
    have hloc := hcut.closed.apart.inside _ huse
    rw [wp_inMemory]
    refine wp_storePointer_integer ⟨huse.isEntry, by omega, ?_, ?_⟩ ?_
      (integerObjectOf_odd value) (integerObjectOf_lt value) ?_
    · rw [hm.alike.size_eq huse, hzero]
      omega
    · rw [hm.alike.location _ huse.even]
      omega
    · rw [hm.alike.word _ _ huse (by omega) fun hx => by
        have h1 := hx.2.1
        have h2 := hx.2.2
        omega]
      exact hold
    · exact ⟨⟨_, hn.store huse hext hi (integerObjectOf_odd value) (integerObjectOf_lt value),
        hm.store hcut hold hR⟩, ht.activeContext, ht.newProcess, ht.newProcessWaiting⟩
  · rw [wp_bind, primitiveFail, wp_bind, wp_modify, wp_pure, wp_pure]
    exact ⟨ht.marked, ht.activeContext, ht.newProcess, ht.newProcessWaiting⟩

theorem Preparing.wp_storeContextRegisters :
    Wp storeContextRegisters (fun _ => Preparing s L R) t := by
  rw [storeContextRegisters, wp_bind, wp_get, wp_bind, ht.activeContext]
  refine (ht.wp_storeInteger h hR (.inl rfl) _).mono fun _ t₁ ht₁ => ?_
  exact ht₁.wp_storeInteger h hR (.inr rfl) _

end Preparing

theorem wp_prepareForCollection {s t : Interpreter} {L : Layout} (h : Collectable s L)
    (ht : Preparing s L SpecialOop t) :
    Wp prepareForCollection (fun _ => Preparing s L (Root s)) t := by
  have hspecial : ∀ r, SpecialOop r → Reachable s r := fun r hr => Root.reachable (.inl hr)
  rw [prepareForCollection, wp_bind]
  refine (ht.wp_storeContextRegisters h hspecial).mono fun _ t₁ ht₁ => ?_
  rw [wp_bind]
  refine (ht₁.wp_addRoot (Root.reachable (.inr (.inl rfl)))).mono fun _ t₂ ht₂ => ?_
  rw [wp_bind, wp_get, wp_bind, ht₂.activeContext, ht₂.newProcess]
  refine (ht₂.wp_addRoot (Root.reachable (.inr (.inr (.inl rfl))))).mono fun _ t₃ ht₃ => ?_
  rw [wp_ite]
  refine ⟨fun hp => ?_, fun hp => ?_⟩
  · refine (ht₃.wp_addRoot (Root.reachable (.inr (.inr (.inr ⟨hp, rfl⟩))))).mono
      fun _ t₄ ht₄ => ht₄.congr fun r => ?_
    simp only [Root, hp, ne_eq, not_false_eq_true, true_and, or_assoc]
  · rw [wp_pure]
    refine ht₃.congr fun r => ?_
    simp only [Root, hp, false_and, or_false, or_assoc]

/-- The special oops have been marked. -/
theorem Collectable.wp_markSpecialOops {s t : Interpreter} {L : Layout} (h : Collectable s L)
    (ht : t = s.withMemory t.memory) (ha : Alike L.extent (InUse s.memory) s.memory t.memory)
    (hcount : ∀ p, p % 2 = 0 → p ≤ 65532 → (t.memory.entry p).count = 0) :
    Wp (inMemory markSpecialOops) (fun _ => Preparing s L SpecialOop) t := by
  have hspecial : ∀ r, SpecialOop r → Reachable s r := fun r hr => Root.reachable (.inl hr)
  have hnil := (h.allocated _ (hspecial nilPointer ⟨rfl, le_rfl, by decide⟩)).inUse
  rw [wp_inMemory]
  refine (ObjectMemory.wp_markSpecialOops (ha.closed h.closed) (h.zero.alike ha hnil) hspecial
    hcount).mono fun _ u hu => ?_
  refine ⟨⟨s.memory, .refl h.closed h.instructionPointer h.stackPointer,
    hu.of_alike ha h.closed hspecial⟩, ?_, ?_, ?_⟩ <;> rw [ht] <;> rfl

/-! ## Completing -/

/-- The sweep is over, and the counts of the objects `E` may have been raised. -/
structure Completing (s : Interpreter) (L : Layout) (E : Nat → Prop) (t : Interpreter) : Prop where
  collected : ∃ n, Saved L.extent (Reachable s) s.memory s.activeContext n ∧
    Collected L.extent (Reachable s) E n t.memory
  activeContext : t.activeContext = s.activeContext
  newProcess : t.newProcess = s.newProcess
  newProcessWaiting : t.newProcessWaiting = s.newProcessWaiting

section Completing

variable {s t : Interpreter} {L : Layout} {E : Nat → Prop} (h : Collectable s L)

include h

theorem Preparing.wp_sweep (ht : Preparing s L (Root s) t) :
    Wp (inMemory rectifyCountsAndDeallocateGarbage) (fun _ => Completing s L fun _ => False) t := by
  obtain ⟨n, hn, hm⟩ := ht.marked
  rw [← hn.inUse_eq] at hm
  rw [wp_inMemory]
  refine (hm.wp_sweep (hn.sweepable h.sweepable) (fun p => ?_)
    (Root.reachable (.inl ⟨rfl, le_rfl, by decide⟩))).mono fun _ u hu => ?_
  · exact exists_congr fun r => and_congr_right fun hr =>
      (hn.reaches r p (Root.reachable hr)).symm
  · exact ⟨⟨n, hn, .of_swept hu⟩, ht.activeContext, ht.newProcess, ht.newProcessWaiting⟩

variable (ht : Completing s L E t)

include ht

theorem Completing.chunkWord_eq (hp : Reachable s p) (hi : i < s.memory.last p)
    (hne : p = s.activeContext → i ≠ 3 ∧ i ≠ 4) :
    t.memory.chunkWord p i = s.memory.chunkWord p i := by
  obtain ⟨n, hn, hm⟩ := ht.collected
  have hs := h.sound hp
  have hle := hs.last_le_extent
  have hx : ¬Extra n L.extent p i := by
    have hx := hs.not_extra hi
    rwa [Extra, hn.entry]
  rw [hm.kept p i hp (by omega) hx, hn.word p i hs.mem (by omega) hne]

theorem Completing.hasField (hp : Reachable s p) (hsize : 8 ≤ s.memory.chunkWord p 0) {k : Nat}
    (hk : k ≤ 5) : HasField t.memory p k := by
  have hheader : headerSize = 2 := rfl
  have hs := h.sound hp
  have htwo := hs.two_le_last
  have hle := h.heap.size_le_extent hs.mem
  have hin := h.heap.tiled.inside p hs.mem
  obtain ⟨n, hn, hm⟩ := ht.collected
  refine ⟨hs.isOop.isEntry, by omega, ?_, ?_⟩
  · rw [ht.chunkWord_eq h hp (by omega) fun _ => ⟨by omega, by omega⟩]
    omega
  · rw [hm.location p hs.isOop.1 hs.isOop.2.2, hn.location]
    omega

theorem Completing.wp_fetch (hp : Reachable s p) (hsize : 8 ≤ s.memory.chunkWord p 0) {k : Nat}
    (hk : k ≤ 5) {Q : Nat → Interpreter → Prop} (hQ : Q (t.memory.chunkWord p (headerSize + k)) t) :
    Wp (inMemory (fetchPointerOfObject k p)) Q t := by
  rw [wp_inMemory, fetchPointerOfObject_eq, wp_fetchWordOfObject]
  exact ⟨ht.hasField h hp hsize hk, hQ⟩

theorem Completing.wp_fetchField (hp : Reachable s p) (hsize : 8 ≤ s.memory.chunkWord p 0)
    {k : Nat} (hk : k ≤ 5) :
    Wp (inMemory (fetchPointerOfObject k p)) (fun _ => Completing s L E) t :=
  ht.wp_fetch h hp hsize hk ht

theorem Completing.wp_increase (hp : Reachable s p) :
    Wp (inMemory (increaseReferencesTo p)) (fun _ => Completing s L fun q => E q ∨ q = p) t := by
  obtain ⟨n, hn, hm⟩ := ht.collected
  have hs := h.sound hp
  rw [wp_inMemory, increaseReferencesTo, wp_countUp]
  refine ⟨fun _ => hs.isOop.isEntry.2, ⟨n, hn, ?_⟩, ht.activeContext, ht.newProcess,
    ht.newProcessWaiting⟩
  exact hm.countedUp (hn.inUse_eq ▸ hn.closed) hp

/-- The home context is the active one, or the one of its block. -/
theorem Completing.wp_fetchHomeContext : Wp fetchHomeContext (fun home t' => t' = t ∧
    Reachable s home ∧ 8 ≤ s.memory.chunkWord home 0) t := by
  have hheader : headerSize = 2 := rfl
  have hmethodIndex : methodIndex = 3 := rfl
  have hhomeIndex : homeIndex = 5 := rfl
  have hactive : Reachable s s.activeContext := Root.reachable (.inr (.inr (.inl rfl)))
  have hsize := h.active.2.1
  have hlast := h.context
  rw [fetchHomeContext, wp_bind, wp_get, wp_bind, isBlockContext, wp_bind, ht.activeContext]
  refine ht.wp_fetch h hactive hsize (by decide) ?_
  rw [wp_pure, wp_ite, ht.chunkWord_eq h hactive (by omega) fun _ => ⟨by omega, by omega⟩]
  refine ⟨fun hblock => ?_, fun _ => ?_⟩
  · obtain ⟨heven, hhome⟩ := h.home (of_decide_eq_true hblock)
    refine ht.wp_fetch h hactive hsize (by decide) ?_
    rw [ht.chunkWord_eq h hactive (by omega) fun _ => ⟨by omega, by omega⟩]
    exact ⟨rfl, h.closed.pointer _ _ hactive ⟨by omega, by omega, heven⟩, hhome⟩
  · rw [wp_pure]
    exact ⟨rfl, hactive, hsize⟩

/-- A register that is no SmallInteger makes the primitive fail. -/
theorem Completing.wp_fetchInteger (hp : Reachable s p) (hsize : 8 ≤ s.memory.chunkWord p 0)
    {k : Nat} (hk : k ≤ 5) :
    Wp (fetchIntegerOfObject k p) (fun _ => Completing s L E) t := by
  rw [fetchIntegerOfObject, wp_bind]
  refine ht.wp_fetch h hp hsize hk ?_
  rw [wp_ite]
  refine ⟨fun _ => ?_, fun _ => ?_⟩
  · rw [wp_pure]
    exact ht
  · rw [primitiveFail, wp_bind, wp_modify, wp_pure]
    exact ⟨ht.collected, ht.activeContext, ht.newProcess, ht.newProcessWaiting⟩

omit h in
/-- The other registers do not matter. -/
theorem Completing.modified (t' : Interpreter) (hhost : t'.host = t.host)
    (hactive : t'.activeContext = t.activeContext) (hprocess : t'.newProcess = t.newProcess)
    (hwaiting : t'.newProcessWaiting = t.newProcessWaiting) : Completing s L E t' := by
  refine ⟨?_, hactive.trans ht.activeContext, hprocess.trans ht.newProcess,
    hwaiting.trans ht.newProcessWaiting⟩
  have hmemory : t'.memory = t.memory := congrArg Host.memory hhost
  rw [hmemory]
  exact ht.collected

theorem Completing.wp_fetchContextRegisters :
    Wp fetchContextRegisters (fun _ => Completing s L E) t := by
  have hactive : Reachable s s.activeContext := Root.reachable (.inr (.inr (.inl rfl)))
  have hsize := h.active.2.1
  rw [fetchContextRegisters, wp_bind]
  refine (ht.wp_fetchHomeContext h).mono fun home t' ⟨ht', hhome, hhomeSize⟩ => ?_
  rw [wp_bind, wp_modify, wp_bind, ht']
  refine ((ht.modified { t with homeContext := home } rfl rfl rfl rfl).wp_fetchField h hhome
    hhomeSize (show receiverIndex ≤ 5 by decide)).mono fun receiver t₁ ht₁ => ?_
  rw [wp_bind, wp_modify, wp_bind]
  refine ((ht₁.modified { t₁ with receiver } rfl rfl rfl rfl).wp_fetchField h hhome hhomeSize
    (show methodIndex ≤ 5 by decide)).mono fun method t₂ ht₂ => ?_
  rw [wp_bind, wp_modify, wp_bind, wp_get]
  dsimp only
  rw [ht₂.activeContext, wp_bind]
  refine ((ht₂.modified { t₂ with method, activeContext := s.activeContext } rfl
    ht₂.activeContext.symm rfl rfl).wp_fetchInteger h hactive hsize
    (show instructionPointerIndex ≤ 5 by decide)).mono fun ip t₃ ht₃ => ?_
  rw [wp_bind, wp_modify, wp_bind]
  refine ((ht₃.modified { t₃ with instructionPointer := ip - 1 } rfl rfl rfl rfl).wp_fetchInteger
    h hactive hsize (show stackPointerIndex ≤ 5 by decide)).mono fun sp t₄ ht₄ => ?_
  rw [wp_modify]
  exact ht₄.modified { t₄ with stackPointer := sp + tempFrameStart - 1 } rfl rfl rfl rfl

theorem Completing.wp_collectionCompleted (hE : ∀ p, ¬E p) :
    Wp collectionCompleted (fun _ => Completing s L fun q => q = s.activeContext ∨
      q = s.newProcess) t := by
  have hprocess : Reachable s s.newProcess := by
    by_cases hnil : s.newProcess = nilPointer
    · rw [hnil]
      exact Root.reachable (.inl ⟨rfl, le_rfl, by decide⟩)
    · exact Root.reachable (.inr (.inr (.inr ⟨hnil, rfl⟩)))
  rw [collectionCompleted, wp_bind, wp_get, wp_bind, ht.activeContext]
  refine (ht.wp_increase h (Root.reachable (.inr (.inr (.inl rfl))))).mono fun _ t₁ ht₁ => ?_
  rw [wp_bind]
  refine (ht₁.wp_fetchContextRegisters h).mono fun _ t₂ ht₂ => ?_
  have hmono : ∀ {E' : Nat → Prop} {t' : Interpreter}, Completing s L E' t' →
      (∀ q, E' q → q = s.activeContext ∨ q = s.newProcess) →
      Completing s L (fun q => q = s.activeContext ∨ q = s.newProcess) t' := fun ht' hE' => by
    obtain ⟨n, hn, hm⟩ := ht'.collected
    exact ⟨⟨n, hn, hm.mono hE'⟩, ht'.activeContext, ht'.newProcess, ht'.newProcessWaiting⟩
  rw [wp_bind, wp_get, wp_ite, ht₂.newProcess]
  refine ⟨fun _ => ?_, fun _ => ?_⟩
  · refine (ht₂.wp_increase h hprocess).mono fun _ t₃ ht₃ => hmono ht₃ fun q hq => ?_
    rcases hq with (hq | hq) | hq
    · exact absurd hq (hE q)
    · exact .inl hq
    · exact .inr hq
  · rw [wp_pure]
    exact hmono ht₂ fun q hq => .inl (hq.resolve_left (hE q))

end Completing

/-! ## The collection -/

/-- What a collection leaves: the objects that the roots do not reach, and no others, are on
the free chunk lists; the others keep their entries, sizes, classes and fields, apart from
the registers that the active context saves; and their counts tell of the references from
objects that stay. -/
structure Reclaimed (s : Interpreter) (L : Layout) (t : Interpreter) : Prop where
  freed : ∀ p, Allocated s.memory L p → (OnFreeChunkList t.memory p ↔ ¬Reachable s p)
  entry : ∀ p, Reachable s p →
    t.memory.entry p = { s.memory.entry p with count := (t.memory.entry p).count }
  kept : ∀ p i, Reachable s p → i < s.memory.chunkWord p 0 →
    (p = s.activeContext → i ≠ headerSize + instructionPointerIndex ∧
      i ≠ headerSize + stackPointerIndex) →
    t.memory.chunkWord p i = s.memory.chunkWord p i
  count : ∀ p, Reachable s p → p ≠ nilPointer → p ≠ s.activeContext → p ≠ s.newProcess →
    Tells (t.memory.entry p).count (s.memory.references (fun x => Reachable s x.1) p)

theorem Completing.reclaimed {s t : Interpreter} {L : Layout} (h : Collectable s L)
    (ht : Completing s L (fun q => q = s.activeContext ∨ q = s.newProcess) t) :
    Reclaimed s L t := by
  obtain ⟨n, hn, hm⟩ := ht.collected
  refine ⟨fun p hp => ?_, fun p hp => ?_, fun p i hp hi hne => ?_, fun p hp hnil hactive hnew => ?_⟩
  · refine hm.listed p ?_
    rw [hn.inUse_eq]
    exact hp.inUse
  · rw [hm.entry p (h.sound hp).isOop.1, hn.entry]
  · have hs := h.sound hp
    have hsize := h.heap.size_le_extent hs.mem
    have hx : ¬Extra n L.extent p i := fun hx => by
      -- the extra word comes after the last field
      have hspace := hs.extent_eq
      rw [Extra, hn.entry] at hx
      unfold space at hspace
      split at hspace
      · next hcase =>
          simp only [hugeSize] at hcase
          omega
      · omega
    rw [hm.kept p i hp (by omega) hx]
    exact hn.word p i hs.mem (by omega) hne
  · rw [← hn.references]
    exact hm.count p hp hnil fun hE => hE.elim hactive hnew

/-- A collection ends, and reclaims exactly the objects that its roots do not reach. -/
theorem reclaimInaccessibleObjects_reclaimed {s : Interpreter} {L : Layout}
    (h : Collectable s L) :
    ∃ t, reclaimInaccessibleObjects s = some ((), t) ∧ Reclaimed s L t := by
  suffices hwp : Wp reclaimInaccessibleObjects (fun _ => Reclaimed s L) s by
    obtain ⟨⟨⟩, t, hrun, ht⟩ := hwp
    exact ⟨t, hrun, ht⟩
  rw [reclaimInaccessibleObjects, wp_bind, wp_inMemory]
  refine (wp_zeroReferenceCounts h.heap.tiled.toApart).mono fun _ u ⟨hu, hcount⟩ => ?_
  rw [wp_bind, markAccessibleObjects, wp_bind]
  refine (h.wp_markSpecialOops (t := s.withMemory u) rfl hu hcount).mono fun _ t₁ ht₁ => ?_
  refine (wp_prepareForCollection h ht₁).mono fun _ t₂ ht₂ => ?_
  rw [wp_bind]
  refine (ht₂.wp_sweep h).mono fun _ t₃ ht₃ => ?_
  exact (ht₃.wp_collectionCompleted h fun _ hE => hE).mono fun _ t₄ ht₄ => ht₄.reclaimed h

/-! ## A memory with the guaranteed objects -/

/-- Every oop from 2 to 52 and the system dictionary have an object of two words; oop 54 is a
context; oops 86 and 88 are each the class of the other, and nothing else refers to them; every
heap segment ends with a free chunk, with oop 56 to 84. -/
def crowdWord (s w : Nat) : Nat :=
  if s = 15 then
    if w = 65534 then 90
    else if w % 2 = 0 then
      if w = 54 then 320
      else if 2 ≤ w ∧ w < 54 ∨ w = 25286 ∨ w = 86 ∨ w = 88 then 256
      else if 56 ≤ w ∧ w ≤ 84 then w / 2 - 28
      else 32
    else if w < 56 then w - 3
    else if w = 57 then 66
    else if w < 86 then 0
    else if w < 90 then w - 25
    else if w = 25287 then 60
    else if w = 25285 then 25288
    else if w < 65533 then w + 1
    else 65535
  else if w = 65535 then (56 + 2 * s) % 65536
  else if 65515 ≤ w then 65535
  else if s = 0 then
    if w = 66 then 65449
    else if w = 67 then 65535
    else if 67 < w then 0
    else if w = 63 then 88
    else if w = 65 then 86
    else if w = 52 then 8
    else if w = 53 then 22
    else if 53 < w ∧ w < 60 then if w = 55 ∨ w = 56 then 3 else 2
    else if w % 2 = 0 then 2
    else 12
  else if w = 0 then 65515
  else if w = 1 then 65535
  else 0

theorem ite_lt_of {c : Prop} [Decidable c] {a b n : Nat} (ha : c → a < n) (hb : ¬c → b < n) :
    (if c then a else b) < n := by
  split
  · next h => exact ha h
  · next h => exact hb h

theorem crowdWord_lt (s w : Nat) : crowdWord s w < 65536 := by
  have hlow : (56 + 2 * s) % 65536 < 65536 := Nat.mod_lt _ (by decide)
  unfold crowdWord
  repeat' refine ite_lt_of (fun _ => ?_) fun _ => ?_
  all_goals omega

def crowd : ObjectMemory := ⟨⟨crowdWord, crowdWord_lt⟩, 0, 0, 32721⟩

def crowdExtent (p : Nat) : Nat :=
  if p = 54 then 8 else if p = 56 then 65449 else if 56 ≤ p ∧ p ≤ 84 then 65515 else 2

def crowdLayout : Layout :=
  .big (List.range' 90 12597 2 ++ 25284 :: (List.range' 25288 20122 2 ++ [65532]))
    (fun u => 56 + 2 * u) crowdExtent

theorem entry_crowd (hp : IsOop p) : crowd.entry p =
    if p = 54 then ⟨1, 0, 1, 0, 0⟩
    else if p < 54 ∨ p = 25286 ∨ p = 86 ∨ p = 88 then ⟨1, 0, 0, 0, 0⟩
    else if 56 ≤ p ∧ p ≤ 84 then ⟨0, 0, 0, 0, p / 2 - 28⟩ else ⟨0, 0, 0, 1, 0⟩ := by
  obtain ⟨heven, htwo, hle⟩ := hp
  show decodeEntry (crowdWord 15 p) = _
  rw [crowdWord, if_pos rfl, if_neg (by omega), if_pos heven]
  by_cases h54 : p = 54
  · rw [if_pos h54, if_pos h54]
    rfl
  · rw [if_neg h54, if_neg h54]
    by_cases hobject : p < 54 ∨ p = 25286 ∨ p = 86 ∨ p = 88
    · rw [if_pos hobject, if_pos (by omega)]
      rfl
    · rw [if_neg hobject, if_neg (by omega)]
      by_cases hchunk : 56 ≤ p ∧ p ≤ 84
      · rw [if_pos hchunk, if_pos hchunk, decodeEntry_segment _ (by omega)]
      · rw [if_neg hchunk, if_neg hchunk]
        rfl

theorem location_crowd (hp : IsOop p) : crowd.location p =
    if p ≤ 54 then p - 2 else if p = 56 then 66 else if p ≤ 84 then 0
    else if p ≤ 88 then p - 24 else if p = 25286 then 60 else if p = 25284 then 25288
    else if p < 65532 then p + 2 else 65535 := by
  obtain ⟨heven, htwo, hle⟩ := hp
  show crowdWord 15 (p + 1) = _
  rw [crowdWord, if_pos rfl, if_neg (by omega), if_neg (by omega)]
  exact if_congr (by omega) (by omega) (if_congr (by omega) rfl (if_congr (by omega) rfl
    (if_congr (by omega) (by omega) (if_congr (by omega) rfl (if_congr (by omega) rfl
    (if_congr (by omega) rfl rfl))))))

theorem inUse_crowd : InUse crowd p ↔ IsOop p ∧ (p ≤ 88 ∨ p = 25286) := by
  refine and_congr_right fun hp => ?_
  have heven := hp.1
  rw [entry_crowd hp]
  by_cases h54 : p = 54
  · rw [if_pos h54]
    exact iff_of_true rfl (.inl (by omega))
  · rw [if_neg h54]
    by_cases hobject : p < 54 ∨ p = 25286 ∨ p = 86 ∨ p = 88
    · rw [if_pos hobject]
      exact iff_of_true rfl (by omega)
    · rw [if_neg hobject]
      by_cases hchunk : 56 ≤ p ∧ p ≤ 84
      · rw [if_pos hchunk]
        exact iff_of_true rfl (by omega)
      · rw [if_neg hchunk]
        exact iff_of_false (by decide) (by omega)

/-- The places of the chunks. -/
theorem span_crowd (hp : InUse crowd p) :
    (p < 54 ∧ (crowd.entry p).segment = 0 ∧ crowd.location p = p - 2 ∧ crowdExtent p = 2) ∨
    (p = 54 ∧ (crowd.entry p).segment = 0 ∧ crowd.location p = 52 ∧ crowdExtent p = 8) ∨
    (p = 25286 ∧ (crowd.entry p).segment = 0 ∧ crowd.location p = 60 ∧ crowdExtent p = 2) ∨
    (p = 56 ∧ (crowd.entry p).segment = 0 ∧ crowd.location p = 66 ∧ crowdExtent p = 65449) ∨
    (86 ≤ p ∧ p ≤ 88 ∧ (crowd.entry p).segment = 0 ∧ crowd.location p = p - 24 ∧
      crowdExtent p = 2) ∨
    (58 ≤ p ∧ p ≤ 84 ∧ (crowd.entry p).segment = p / 2 - 28 ∧ crowd.location p = 0 ∧
      crowdExtent p = 65515) := by
  obtain ⟨hoop, hcase⟩ := inUse_crowd.mp hp
  have heven := hoop.1
  rw [entry_crowd hoop, location_crowd hoop, crowdExtent]
  by_cases h54 : p = 54
  · subst h54
    exact .inr (.inl ⟨rfl, rfl, rfl, rfl⟩)
  by_cases hsystem : p = 25286
  · subst hsystem
    exact .inr (.inr (.inl ⟨rfl, rfl, rfl, rfl⟩))
  by_cases hlow : p < 54
  · rw [if_neg h54, if_pos (by omega), if_pos (by omega), if_neg h54, if_neg (by omega),
      if_neg (by omega)]
    exact .inl ⟨hlow, rfl, rfl, rfl⟩
  by_cases h56 : p = 56
  · subst h56
    exact .inr (.inr (.inr (.inl ⟨rfl, rfl, rfl, rfl⟩)))
  by_cases hcycle : p = 86 ∨ p = 88
  · refine .inr (.inr (.inr (.inr (.inl ?_))))
    rcases hcycle with rfl | rfl <;> exact ⟨by decide, by decide, rfl, rfl, rfl⟩
  · rw [if_neg h54, if_neg (by omega), if_pos (by omega), if_neg (by omega), if_neg h56,
      if_pos (show p ≤ 84 by omega), if_neg h54, if_neg h56, if_pos (by omega)]
    exact .inr (.inr (.inr (.inr (.inr ⟨by omega, by omega, rfl, rfl, rfl⟩))))

theorem tiled_crowd : Tiled crowd crowdExtent := by
  refine ⟨fun p hp => ?_, fun p hp => ?_, fun p hp => ?_, fun p q hp hq hne hseg => ?_,
    fun u w hu hw => ?_⟩
  · have := span_crowd hp
    omega
  · have := span_crowd hp
    omega
  · have := span_crowd hp
    omega
  · have hpe := hp.1.1
    have hqe := hq.1.1
    have h2 := hp.1.2.1
    have h2' := hq.1.2.1
    rcases span_crowd hp with h | h | h | h | h | h <;>
      rcases span_crowd hq with h' | h' | h' | h' | h' | h' <;> omega
  · obtain ⟨p, hp⟩ : ∃ p, InUse crowd p ∧ (p = 2 * (w / 2) + 2 ∧ u = 0 ∧ w < 52 ∨
        p = 54 ∧ u = 0 ∧ 52 ≤ w ∧ w < 60 ∨ p = 25286 ∧ u = 0 ∧ 60 ≤ w ∧ w < 62 ∨
        p = 2 * (w / 2) + 24 ∧ u = 0 ∧ 62 ≤ w ∧ w < 66 ∨
        p = 56 + 2 * u ∧ (u = 0 → 66 ≤ w)) := by
      by_cases h52 : u = 0 ∧ w < 52
      · exact ⟨2 * (w / 2) + 2, inUse_crowd.mpr ⟨⟨by omega, by omega, by omega⟩, by omega⟩,
          .inl ⟨rfl, h52⟩⟩
      by_cases h60 : u = 0 ∧ w < 60
      · exact ⟨54, inUse_crowd.mpr ⟨⟨rfl, by decide, by decide⟩, by omega⟩, by omega⟩
      by_cases h62 : u = 0 ∧ w < 62
      · exact ⟨25286, inUse_crowd.mpr ⟨⟨rfl, by decide, by decide⟩, by omega⟩, by omega⟩
      by_cases h66 : u = 0 ∧ w < 66
      · exact ⟨2 * (w / 2) + 24, inUse_crowd.mpr ⟨⟨by omega, by omega, by omega⟩, by omega⟩,
          by omega⟩
      · exact ⟨56 + 2 * u, inUse_crowd.mpr ⟨⟨by omega, by omega, by omega⟩, by omega⟩, by omega⟩
    have hp' := span_crowd hp.1
    exact ⟨p, hp.1, by omega, by omega, by omega⟩

theorem linked_crowd :
    Linked crowd.location nonPointer crowd.freeHead crowdLayout.freePointers := by
  have hstop : nonPointer = 65535 := rfl
  have hstep : ∀ p, IsOop p → 90 ≤ p → p ≠ 25286 → p ≠ 25284 → p < 65532 →
      crowd.location p = p + 2 := fun p hp h90 h1 h2 h3 => by
    rw [location_crowd hp, if_neg (by omega), if_neg (by omega), if_neg (by omega),
      if_neg (by omega), if_neg h1, if_neg h2, if_pos h3]
  have hlast : crowd.location 65532 = nonPointer := by
    rw [location_crowd ⟨rfl, by decide, by decide⟩]
    rfl
  have hsystem : crowd.location 25284 = 25288 := by
    rw [location_crowd ⟨rfl, by decide, by decide⟩]
    rfl
  refine Linked.run (p := 90) (n := 12597) (fun i hi => ⟨?_, by omega⟩)
    ⟨by omega, by decide, ?_⟩
  · rw [hstep _ ⟨by omega, by omega, by omega⟩ (by omega) (by omega) (by omega) (by omega)]
    omega
  · rw [hsystem]
    refine Linked.run (fun i hi => ⟨?_, by omega⟩) ⟨by omega, by decide, hlast⟩
    rw [hstep _ ⟨by omega, by omega, by omega⟩ (by omega) (by omega) (by omega) (by omega)]
    omega

theorem size_crowd (hp : InUse crowd p) : crowd.chunkWord p 0 = crowdExtent p := by
  have hspan := span_crowd hp
  have heven := hp.1.1
  rw [chunkWord]
  show crowdWord (crowd.entry p).segment (crowd.location p + 0) = _
  rcases hspan with ⟨hlt, hs, hl, he⟩ | ⟨-, hs, hl, he⟩ | ⟨-, hs, hl, he⟩ | ⟨-, hs, hl, he⟩ |
    ⟨h86, h88, hs, hl, he⟩ | ⟨h58, h84, hs, hl, he⟩ <;> rw [hs, hl, he]
  · have htwo := hp.1.2.1
    rw [crowdWord, if_neg (by omega), if_neg (by omega), if_neg (by omega), if_pos rfl,
      if_neg (by omega), if_neg (by omega), if_neg (by omega), if_neg (by omega),
      if_neg (by omega), if_neg (by omega), if_neg (by omega), if_neg (by omega),
      if_pos (by omega)]
  · rfl
  · rfl
  · rfl
  · have hcycle : p = 86 ∨ p = 88 := by omega
    rcases hcycle with rfl | rfl <;> rfl
  · rw [crowdWord, if_neg (by omega), if_neg (by omega), if_neg (by omega), if_neg (by omega),
      if_pos rfl]

theorem mem_freePointers_crowd :
    p ∈ crowdLayout.freePointers ↔ p % 2 = 0 ∧ 90 ≤ p ∧ p ≤ 65532 ∧ p ≠ 25286 := by
  show p ∈ List.range' 90 12597 2 ++ 25284 :: (List.range' 25288 20122 2 ++ [65532]) ↔ _
  rw [List.mem_append, List.mem_cons, List.mem_append, List.mem_range', List.mem_range',
    List.mem_singleton]
  constructor
  · rintro (⟨i, hi, rfl⟩ | rfl | ⟨i, hi, rfl⟩ | rfl) <;> omega
  · rintro ⟨heven, h90, hle, hne⟩
    by_cases hlow : p < 25284
    · exact .inl ⟨(p - 90) / 2, by omega, by omega⟩
    by_cases heq : p = 25284
    · exact .inr (.inl heq)
    by_cases htop : p = 65532
    · exact .inr (.inr (.inr htop))
    · exact .inr (.inr (.inl ⟨(p - 25288) / 2, by omega, by omega⟩))

theorem link_crowd {u : Nat} (hu : u < 15) : crowd.chunkWord (56 + 2 * u) 1 = nonPointer := by
  have hin : InUse crowd (56 + 2 * u) :=
    inUse_crowd.mpr ⟨⟨by omega, by omega, by omega⟩, by omega⟩
  rw [chunkWord]
  show crowdWord (crowd.entry (56 + 2 * u)).segment (crowd.location (56 + 2 * u) + 1) = _
  by_cases h0 : u = 0
  · subst h0
    have h := span_crowd hin
    rw [show (crowd.entry (56 + 2 * 0)).segment = 0 by omega,
      show crowd.location (56 + 2 * 0) = 66 by omega]
    rfl
  · have h := span_crowd hin
    have hs : (crowd.entry (56 + 2 * u)).segment = u := by omega
    have hl : crowd.location (56 + 2 * u) = 0 := by omega
    rw [hs, hl, crowdWord, if_neg (by omega), if_neg (by omega), if_neg (by omega), if_neg h0,
      if_neg (by omega), if_pos rfl]

theorem allocated_crowd : Allocated crowd crowdLayout p ↔
    IsOop p ∧ (p ≤ 54 ∨ p = 25286 ∨ p = 86 ∨ p = 88) := by
  rw [Allocated, inUse_crowd]
  constructor
  · rintro ⟨⟨hoop, hcase⟩, hout⟩
    refine ⟨hoop, ?_⟩
    by_contra hno
    have heven := hoop.1
    exact hout (p / 2 - 28) 20 (Layout.mem_big.mpr ⟨⟨by omega, rfl⟩, by omega⟩)
  · rintro ⟨hoop, hcase⟩
    refine ⟨⟨hoop, by omega⟩, fun u k hmem => ?_⟩
    obtain ⟨⟨hu, -⟩, hpu⟩ := Layout.mem_big.mp hmem
    omega

theorem heap_crowd : Heap crowd crowdLayout := by
  have hfirst : firstFreeChunkList = 65515 := rfl
  have hchunk : ∀ u < 15, InUse crowd (56 + 2 * u) := fun u hu =>
    inUse_crowd.mpr ⟨⟨by omega, by omega, by omega⟩, by omega⟩
  refine .of_big tiled_crowd linked_crowd (fun p => ?_) (fun u k hu h2 h20 => ?_) (fun u hu => ?_)
    fun p hp hout => ?_
  · refine mem_freePointers_crowd.trans ⟨?_, ?_⟩
    · rintro ⟨heven, h90, hle, hne⟩
      have hoop : IsOop p := ⟨heven, by omega, hle⟩
      rw [entry_crowd hoop, if_neg (by omega), if_neg (by omega), if_neg (by omega)]
      exact ⟨hoop, rfl⟩
    · rintro ⟨hoop, hfree⟩
      have hnot : ¬(p ≤ 88 ∨ p = 25286) := fun hcase => by
        have h0 := (inUse_crowd.mpr ⟨hoop, hcase⟩).2
        omega
      have heven := hoop.1
      have hle := hoop.2.2
      omega
  · show crowdWord u (firstFreeChunkList + k) = _
    rw [crowdWord, if_neg (by omega)]
    by_cases hk : k = 20
    · rw [if_pos hk, if_pos (by omega)]
      omega
    · rw [if_neg hk, if_neg (by omega), if_pos (by omega)]
  · have hin := hchunk u hu
    have hspan := span_crowd hin
    have hentry := entry_crowd hin.1
    rw [if_neg (by omega), if_neg (by omega), if_pos (by omega)] at hentry
    exact ⟨hin, by omega, by rw [hentry], link_crowd hu, (size_crowd hin).symm⟩
  · have hsize := size_crowd hp
    have hspan := span_crowd hp
    have hcase := (inUse_crowd.mp hp).2
    have heven := hp.1.1
    have hsmall : crowd.chunkWord p 0 < hugeSize := by
      have hne := hout (p / 2 - 28)
      simp only [hugeSize]
      omega
    rw [space, if_pos (.inl hsmall), hsize]

/-- The objects that are not the cycle. -/
def Guaranteed (p : Nat) : Prop := IsOop p ∧ (p ≤ 54 ∨ p = 25286)

theorem Guaranteed.allocated (hp : Guaranteed p) : Allocated crowd crowdLayout p :=
  allocated_crowd.mpr ⟨hp.1, by have := hp.2; omega⟩

theorem class_crowd (hp : Guaranteed p) (h54 : p ≠ 54) :
    crowd.chunkWord p 1 = classSmallInteger := by
  have hspan := span_crowd hp.allocated.inUse
  obtain ⟨⟨heven, htwo, -⟩, hcase⟩ := hp
  have hs : (crowd.entry p).segment = 0 := by omega
  have hl : crowd.location p < 52 ∧ crowd.location p % 2 = 0 ∨ crowd.location p = 60 := by omega
  rw [chunkWord, hs]
  show crowdWord 0 (crowd.location p + 1) = 12
  rw [crowdWord, if_neg (by omega), if_neg (by omega), if_neg (by omega), if_pos rfl,
    if_neg (by omega), if_neg (by omega), if_neg (by omega), if_neg (by omega), if_neg (by omega),
    if_neg (by omega), if_neg (by omega), if_neg (by omega), if_neg (by omega)]

theorem context_crowd : ∀ i < 8, 1 ≤ i → crowd.chunkWord 54 i % 2 = 0 →
    crowd.chunkWord 54 i = 22 ∨ crowd.chunkWord 54 i = 2 := by
  decide

theorem last_crowd (hp : Guaranteed p) : crowd.last p = if p = 54 then 8 else 2 := by
  have hcase := hp.2
  by_cases h54 : p = 54
  · subst h54
    rfl
  · have hentry : crowd.entry p = ⟨1, 0, 0, 0, 0⟩ := by
      rw [entry_crowd hp.1, if_neg h54, if_pos (by omega)]
    rw [last, hentry, if_pos rfl, class_crowd hp h54, if_neg h54]
    rfl

/-- The classes and fields of these objects are such objects again. -/
theorem pointsTo_crowd (hp : Guaranteed p) (h : PointsTo crowd p q) : Guaranteed q := by
  obtain ⟨i, ⟨h1, hlt, heven⟩, rfl⟩ := h
  rw [last_crowd hp] at hlt
  by_cases h54 : p = 54
  · subst h54
    rw [if_pos rfl] at hlt
    rcases context_crowd i hlt h1 heven with hword | hword <;> rw [hword] <;>
      exact ⟨⟨rfl, by decide, by decide⟩, by decide⟩
  · rw [if_neg h54] at hlt
    obtain rfl : i = 1 := by omega
    rw [class_crowd hp h54]
    exact ⟨⟨rfl, by decide, by decide⟩, by decide⟩

def crowdState : Interpreter where
  host := ⟨crowd, ⟨[], 0, fun _ => none, 0⟩, fun _ => 0, 0, 0⟩
  activeContext := 54
  homeContext := 54
  method := nilPointer
  receiver := nilPointer
  instructionPointer := 1
  stackPointer := 5
  messageSelector := nilPointer
  argumentCount := 0
  newMethod := nilPointer
  primitiveIndex := 0
  successFlag := true
  newProcessWaiting := false
  newProcess := nilPointer
  methodCache _ := nilPointer

theorem reachable_crowd (hp : Reachable crowdState p) : Guaranteed p := by
  obtain ⟨r, hr, hrp⟩ := hp
  induction hrp with
  | refl =>
      rcases hr with ⟨heven, htwo, hle⟩ | rfl | rfl | ⟨hne, -⟩
      · have hle : r ≤ 52 := hle
        exact ⟨⟨heven, htwo, by omega⟩, by omega⟩
      · exact ⟨⟨rfl, by decide, by decide⟩, by decide⟩
      · exact ⟨⟨rfl, by decide, by decide⟩, by decide⟩
      · exact absurd rfl hne
  | tail _ hpt ih => exact pointsTo_crowd ih hpt

theorem collectable_crowd : Collectable crowdState crowdLayout := by
  refine ⟨heap_crowd, by decide, ⟨by decide, by decide, by decide, by decide⟩,
    fun p hp => (reachable_crowd hp).allocated, fun p hp => ?_, ?_, by decide, by decide, ?_⟩
  · have hg := reachable_crowd hp
    have hsize := size_crowd hg.allocated.inUse
    have hspan := span_crowd hg.allocated.inUse
    have hcase := hg.2
    show crowd.last p ≤ crowd.chunkWord p 0
    rw [last_crowd hg, hsize]
    split <;> omega
  · show 8 ≤ crowd.last 54
    rw [last_crowd ⟨⟨rfl, by decide, by decide⟩, by decide⟩]
    decide
  · intro hodd
    exact absurd hodd (by decide)

/-- The cycle is reclaimed. -/
theorem reclaimInaccessibleObjects_crowd : ∃ t,
    reclaimInaccessibleObjects crowdState = some ((), t) ∧ Reclaimed crowdState crowdLayout t ∧
      PointsTo crowd 86 88 ∧ PointsTo crowd 88 86 ∧
      OnFreeChunkList t.memory 86 ∧ OnFreeChunkList t.memory 88 := by
  obtain ⟨t, hrun, ht⟩ := reclaimInaccessibleObjects_reclaimed collectable_crowd
  have hreclaimed (p : Nat) (hp : p = 86 ∨ p = 88) : OnFreeChunkList t.memory p := by
    refine (ht.freed p ?_).mpr fun hreach => ?_
    · exact allocated_crowd.mpr ⟨⟨by omega, by omega, by omega⟩, by omega⟩
    · have := (reachable_crowd hreach).2
      omega
  exact ⟨t, hrun, ht, ⟨1, by decide, by decide⟩, ⟨1, by decide, by decide⟩,
    hreclaimed 86 (.inl rfl), hreclaimed 88 (.inr rfl)⟩

end Crosstalk
