import Crosstalk.ObjectMemory.CountDown

/-!
# Storing a pointer

`storePointer` counts the new pointer up and the old one down before it stores.
The old pointer is still in its field while it is counted down: the object with
the field must not be freed for this.
-/

namespace Crosstalk

namespace ObjectMemory

variable {m u : ObjectMemory} {L L' : Layout} {regs : Nat → Nat} {dead : Nat → Prop}
  {c i j p q r v k : Nat}

/-! ## After counting down -/

/-- The registers after the reference to `r` has been dropped. -/
def dropped (regs : Nat → Nat) (r p : Nat) : Nat := if p = r then regs p - 1 else regs p

/-- The registers with one more reference to `r`. -/
def held (regs : Nat → Nat) (r p : Nat) : Nat := regs p + if p = r then 1 else 0

theorem dropped_held (regs : Nat → Nat) (r : Nat) : dropped (held regs r) r = regs := by
  funext p
  simp only [dropped, held]
  split <;> omega

theorem Freed.regs_eq (h : Freed m L regs r q) : regs q = if q = r then 1 else 0 :=
  (h (fun q => Freed m L regs r q ∧ regs q = if q = r then 1 else 0) fun q hq hlt hne hregs hall =>
    ⟨freed_cascades m L regs r q hq hlt hne hregs fun v i hv hi hvq => (hall v i hv hi hvq).1,
      hregs⟩).2

theorem Freed.referrers (h : Freed m L regs r q) (hv : Allocated m L v) (hi : IsPointer m v i)
    (hvq : m.chunkWord v i = q) : Freed m L regs r v :=
  (h (fun q => Freed m L regs r q ∧ ∀ v i, Allocated m L v → IsPointer m v i →
      m.chunkWord v i = q → Freed m L regs r v) fun q hq hlt hne hregs hall =>
    ⟨freed_cascades m L regs r q hq hlt hne hregs fun v i hv hi hvq => (hall v i hv hi hvq).1,
      fun v i hv hi hvq => (hall v i hv hi hvq).1⟩).2 v i hv hi hvq

theorem references_empty {D : Nat × Nat → Prop}
    (h : ∀ v i, D (v, i) → IsPointer m v i → m.chunkWord v i ≠ q) : m.references D q = 0 := by
  have hempty : {x : Nat × Nat | D x ∧ IsPointer m x.1 x.2 ∧ m.chunkWord x.1 x.2 = q} = ∅ :=
    Set.eq_empty_of_forall_notMem fun x ⟨hx, hi, hq⟩ => h x.1 x.2 hx hi hq
  rw [references, hempty, Set.ncard_empty]

/-- Nothing is freed where a reference is left. -/
theorem Counted.not_freed (hm : Counted m L regs) (h1 : (m.entry r).count ≠ 1) :
    ¬Freed m L regs r p := fun h =>
  h (fun _ => False) fun q hq hlt hne hregs hall => by
    have hcount := hm.count q hq hlt
    rw [references_empty fun v i hv hi hvq => hall v i hv hi hvq] at hcount
    by_cases hqr : q = r
    · subst hqr
      rw [if_pos rfl] at hregs
      omega
    · rw [if_neg hqr] at hregs
      omega

/-- The last reference has been dropped. -/
theorem Counted.freed (hm : Counted m L regs) (hregs : 1 ≤ regs r) (hr : Allocated m L r)
    (h1 : (m.entry r).count = 1) : Freed m L regs r r :=
  hm.lastReference (D := fun _ => False) hregs hr (by omega) (by omega) (fun _ hx => hx.elim)
    (by rw [if_pos rfl]; omega)

section CountedDown

variable (hm : Counted m L regs) (h : Freeing m L regs r (0, 0) dead L' [] u)

include hm h

theorem Freeing.allocated_iff :
    Allocated u L' p ↔ Allocated m L p ∧ ¬Freed m L regs r p := by
  constructor
  · intro hp
    have huse : InUse m p := ⟨hp.inUse.1, by rw [← hp.inUse.2, h.entry p]⟩
    have hout : ∀ s k, p ∉ L.chunks s k := fun s k hmem => by
      obtain ⟨s', k', hmem'⟩ := (h.listed p).mpr (.inl ⟨s, k, hmem⟩)
      exact hp.2 s' k' hmem'
    refine ⟨⟨huse, hout⟩, fun hf => ?_⟩
    obtain ⟨s', k', hmem'⟩ := (h.listed p).mpr (.inr ⟨(h.dead_iff hm).mpr hf, by simp⟩)
    exact hp.2 s' k' hmem'
  · rintro ⟨hp, hf⟩
    exact h.allocated hp fun hd => absurd ((h.dead_iff hm).mp hd) hf

theorem Freeing.chunkWord_eq (hp : Allocated u L' p) (hi : i < m.chunkWord p 0) :
    u.chunkWord p i = m.chunkWord p i :=
  (((h.countedDown hm).surviving p ((h.allocated_iff hm).mp hp).1
    ((h.allocated_iff hm).mp hp).2).2.2.2) i hi

theorem Freeing.last_survivor (hp : Allocated u L' p) : u.last p = m.last p :=
  h.last_eq hm ((h.allocated_iff hm).mp hp).1
    (fun hd => absurd ((h.dead_iff hm).mp hd) ((h.allocated_iff hm).mp hp).2) hp.ne_zero

theorem Freeing.isPointer_iff (hp : Allocated u L' p) : IsPointer u p i ↔ IsPointer m p i := by
  have hle := hm.last_le p ((h.allocated_iff hm).mp hp).1
  rw [IsPointer, IsPointer, h.last_survivor hm hp]
  refine and_congr_right fun _ => and_congr_right fun hi => ?_
  rw [h.chunkWord_eq hm hp (by omega)]

/-- The counts are right again. -/
theorem Freeing.counted (hregs : 1 ≤ regs r) : Counted u L' (dropped regs r) := by
  have hiff : ∀ p, Allocated u L' p ↔ Allocated m L p ∧ ¬Freed m L regs r p := fun p =>
    h.allocated_iff hm
  refine ⟨h.heap, fun p hp => ?_, fun p i hp hi => ?_, fun p hp hlt => ?_⟩
  · have hp' := ((hiff p).mp hp).1
    have htwo := (hm.closed.sound p hp').two_le_last
    have hle := hm.last_le p hp'
    rw [h.last_survivor hm hp, h.chunkWord_eq hm hp (by omega)]
    exact hle
  · have hi' := (h.isPointer_iff hm hp).mp hi
    obtain ⟨hp', hf⟩ := (hiff p).mp hp
    have hle := hm.last_le p hp'
    have hlt := hi'.2.1
    rw [h.chunkWord_eq hm hp (by omega), hiff]
    exact ⟨hm.pointer p i hp' hi', fun hq => hf (hq.referrers hp' hi' rfl)⟩
  · obtain ⟨hp', hf⟩ := (hiff p).mp hp
    have hlt' : (m.entry p).count < 128 := by
      by_contra hge
      have hsat := h.saturated p hp' (by omega)
      omega
    have hcount := hm.count p hp' hlt'
    have hleft := (h.countedDown hm).count p hp' hf hlt'
    have hsplit : m.references (fun x => Allocated m L x.1) p =
        u.references (fun x => Allocated u L' x.1) p +
          m.references (fun x => Freed m L regs r x.1) p := by
      have hu : u.references (fun x => Allocated u L' x.1) p =
          m.references (fun x => Allocated m L x.1 ∧ ¬Freed m L regs r x.1) p := by
        rw [references, references]
        congr 1
        ext x
        constructor
        · rintro ⟨hx, hi, hxp⟩
          have hi' := (h.isPointer_iff hm hx).mp hi
          have hle := hm.last_le x.1 ((hiff x.1).mp hx).1
          have hlt := hi'.2.1
          exact ⟨(hiff x.1).mp hx, hi', by rwa [← h.chunkWord_eq hm hx (by omega)]⟩
        · rintro ⟨hx, hi, hxp⟩
          have hx' := (hiff x.1).mpr hx
          have hle := hm.last_le x.1 hx.1
          have hlt := hi.2.1
          exact ⟨hx', (h.isPointer_iff hm hx').mpr hi, by rwa [h.chunkWord_eq hm hx' (by omega)]⟩
      rw [hu, references, references, references, ← Set.ncard_union_eq ?_
        (finite_references (fun x hx => hx.1.lt) p)
        (finite_references (fun x hx => hx.allocated.lt) p)]
      · congr 1
        ext x
        constructor
        · rintro ⟨hx, hi, hxp⟩
          by_cases hxf : Freed m L regs r x.1
          · exact .inr ⟨hxf, hi, hxp⟩
          · exact .inl ⟨⟨hx, hxf⟩, hi, hxp⟩
        · rintro (⟨hx, hi, hxp⟩ | ⟨hx, hi, hxp⟩)
          · exact ⟨hx.1, hi, hxp⟩
          · exact ⟨hx.allocated, hi, hxp⟩
      · refine Set.disjoint_left.mpr ?_
        rintro x ⟨hx, -⟩ ⟨hx', -⟩
        exact hx.2 hx'
    simp only [dropped]
    by_cases hpr : p = r
    · subst hpr
      rw [if_pos rfl] at hleft ⊢
      omega
    · rw [if_neg hpr] at hleft ⊢
      omega

end CountedDown

/-! ## Counting up and exchanging pointers -/

theorem allocated_countedUp : Allocated (m.countedUp v) L p ↔ Allocated m L p := by
  rw [Allocated, Allocated, InUse, InUse, entry_countedUp]

theorem Tiled.countedUp {extent : Nat → Nat} (h : Tiled m extent) : Tiled (m.countedUp v) extent :=
  h.congr (fun p _ => by rw [entry_countedUp]) (fun p _ => by rw [entry_countedUp])
    fun p hp => location_countedUp hp.1

theorem inUse_countedUp : InUse (m.countedUp v) p ↔ InUse m p := by
  rw [InUse, InUse, entry_countedUp]

theorem Counted.congr_regs {regs' : Nat → Nat} (hm : Counted m L regs)
    (h : ∀ p, Allocated m L p → regs p = regs' p) : Counted m L regs' :=
  ⟨hm.heap, hm.last_le, hm.pointer, fun p hp hlt => h p hp ▸ hm.count p hp hlt⟩

/-- The new reference is a register before it is stored. -/
theorem Counted.countedUp (hm : Counted m L regs) (hv : v % 2 = 0 → Allocated m L v) :
    Counted (m.countedUp v) L (held regs v) := by
  have hword : ∀ p i, Allocated m L p → (m.countedUp v).chunkWord p i = m.chunkWord p i :=
    fun p i hp => chunkWord_countedUp hp.inUse.even (hm.heap.onHeap hp.inUse)
  have hlast : ∀ p, Allocated m L p → (m.countedUp v).last p = m.last p := fun p hp =>
    last_congr (by rw [entry_countedUp]) (hword p 0 hp) (hword p 1 hp) fun _ => hword p 2 hp
  have hpointer : ∀ p i, Allocated m L p → (IsPointer (m.countedUp v) p i ↔ IsPointer m p i) :=
    fun p i hp => by rw [IsPointer, IsPointer, hlast p hp, hword p i hp]
  refine ⟨?_, fun p hp => ?_, fun p i hp hi => ?_, fun p hp hlt => ?_⟩
  · rw [ObjectMemory.countedUp]
    split
    · next heven =>
        have hva := hv heven.1
        exact hm.heap.setCount heven.1 hva.inUse.le (by omega) fun s k hmem =>
          absurd hmem (hva.2 s k)
    · exact hm.heap
  · rw [allocated_countedUp] at hp
    rw [hlast p hp, hword p 0 hp]
    exact hm.last_le p hp
  · rw [allocated_countedUp] at hp
    rw [hword p i hp, allocated_countedUp]
    exact hm.pointer p i hp ((hpointer p i hp).mp hi)
  · have hp' := allocated_countedUp.mp hp
    have hreferences : (m.countedUp v).references (fun x => Allocated (m.countedUp v) L x.1) p =
        m.references (fun x => Allocated m L x.1) p := by
      rw [references, references]
      congr 1
      ext x
      simp only [Set.mem_ofPred_eq, allocated_countedUp]
      exact and_congr_right fun hx => by rw [hpointer x.1 x.2 hx, hword x.1 x.2 hx]
    rw [count_countedUp hp'.inUse.even] at hlt ⊢
    rw [hreferences, held]
    by_cases hpv : p = v
    · by_cases h128 : (m.entry p).count < 128
      · rw [if_pos ⟨hpv, h128⟩] at hlt ⊢
        have hcount := hm.count p hp' h128
        rw [if_pos hpv]
        omega
      · rw [if_neg fun hall => h128 hall.2] at hlt
        omega
    · rw [if_neg fun hall => hpv hall.1] at hlt ⊢
      have hcount := hm.count p hp' hlt
      rw [if_neg hpv]
      omega

/-- A field that holds a pointer in the object `c`. -/
structure PointerField (m : ObjectMemory) (L : Layout) (c i : Nat) : Prop where
  allocated : Allocated m L c
  pointer : (m.entry c).pointer ≠ 0
  two_le : 2 ≤ i
  lt_size : i < m.chunkWord c 0

theorem PointerField.last_eq (h : PointerField m L c i) : m.last c = m.chunkWord c 0 := by
  rw [last, if_neg h.pointer]

theorem PointerField.isPointer_iff (h : PointerField m L c i) :
    IsPointer m c i ↔ m.chunkWord c i % 2 = 0 := by
  have htwo := h.two_le
  have hlt := h.lt_size
  rw [IsPointer, h.last_eq]
  exact ⟨fun hi => hi.2.2, fun hi => ⟨by omega, hlt, hi⟩⟩

theorem PointerField.value (h : PointerField m L c i) (hm : Counted m L regs)
    (heven : m.chunkWord c i % 2 = 0) : Allocated m L (m.chunkWord c i) :=
  hm.pointer c i h.allocated (h.isPointer_iff.mpr heven)

theorem PointerField.lt_extent (h : PointerField m L c i) (hm : Heap m L) : i < L.extent c :=
  h.lt_size.trans_le (hm.size_le_extent h.allocated.inUse)

/-- The references, with the field apart. -/
theorem PointerField.references_eq (hc : PointerField m L c i) (q : Nat) :
    m.references (fun x => Allocated m L x.1) q =
      m.references (fun x => Allocated m L x.1 ∧ x ≠ (c, i)) q +
        if m.chunkWord c i % 2 = 0 ∧ m.chunkWord c i = q then 1 else 0 := by
  rw [references_insert (D := fun x => Allocated m L x.1 ∧ x ≠ (c, i)) (p := c) (i := i)
    (fun x hx => hx.1.lt) (fun x => ?_) fun hx => hx.2 rfl]
  · exact congrArg _ (if_congr (and_congr_left' hc.isPointer_iff) rfl rfl)
  · by_cases hx : x = (c, i)
    · subst hx
      exact ⟨fun _ => .inr rfl, fun _ => hc.allocated⟩
    · exact ⟨fun h => .inl ⟨h, hx⟩, fun h => (h.resolve_right hx).1⟩

section Exchange

variable (hm : Counted m L regs) (hc : PointerField m L c i)

include hm hc

theorem entry_stored : (m.setChunkWord c i v).entry p = m.entry p :=
  entry_setChunkWord (hm.heap.onHeap hc.allocated.inUse)

theorem allocated_stored : Allocated (m.setChunkWord c i v) L p ↔ Allocated m L p := by
  rw [Allocated, Allocated, InUse, InUse, entry_stored hm hc]

theorem chunkWord_stored (hv : v < 65536) (hp : Allocated m L p) (hj : j < L.extent p) :
    (m.setChunkWord c i v).chunkWord p j = if p = c ∧ j = i then v else m.chunkWord p j :=
  hm.heap.tiled.chunkWord_setChunkWord hc.allocated.inUse hp.inUse (hc.lt_extent hm.heap) hj hv

theorem last_stored (hv : v < 65536) (hp : Allocated m L p) :
    (m.setChunkWord c i v).last p = m.last p := by
  have htwo := hm.heap.tiled.two_le p hp.inUse
  have hext := (hm.closed.sound p hp).last_le_extent
  have h2 := hc.two_le
  have hheader : ∀ j < 2, (m.setChunkWord c i v).chunkWord p j = m.chunkWord p j := fun j hj => by
    rw [chunkWord_stored hm hc hv hp (by omega), if_neg (by omega)]
  by_cases hpc : p = c
  · subst hpc
    rw [hc.last_eq, last, entry_stored hm hc, if_neg hc.pointer, hheader 0 (by omega)]
  · refine last_congr (by rw [entry_stored hm hc]) (hheader 0 (by omega)) (hheader 1 (by omega))
      fun h3 => ?_
    rw [chunkWord_stored hm hc hv hp (by omega), if_neg fun hall => hpc hall.1]

theorem isPointer_stored (hv : v < 65536) (hp : Allocated m L p) :
    IsPointer (m.setChunkWord c i v) p j ↔
      IsPointer m p j ∧ ¬(p = c ∧ j = i) ∨ (p = c ∧ j = i) ∧ v % 2 = 0 := by
  have hext := (hm.closed.sound p hp).last_le_extent
  have htwo := hc.two_le
  rw [IsPointer, IsPointer, last_stored hm hc hv hp]
  by_cases hj : j < m.last p
  · rw [chunkWord_stored hm hc hv hp (by omega)]
    by_cases hpc : p = c ∧ j = i
    · rw [if_pos hpc]
      have := hpc.2
      exact ⟨fun hall => .inr ⟨hpc, hall.2.2⟩, fun hall => hall.elim (fun hn => absurd hpc hn.2)
        fun hn => ⟨by omega, hj, hn.2⟩⟩
    · rw [if_neg hpc]
      exact ⟨fun hall => .inl ⟨hall, hpc⟩, fun hall => hall.elim (fun hn => hn.1)
        fun hn => absurd hn.1 hpc⟩
  · refine ⟨fun hall => absurd hall.2.1 hj, fun hall => hall.elim (fun hn => absurd hn.1.2.1 hj) ?_⟩
    rintro ⟨⟨rfl, rfl⟩, -⟩
    exact absurd (hc.last_eq ▸ hc.lt_size) hj

theorem pointerField_stored (hv : v < 65536) : PointerField (m.setChunkWord c i v) L c i := by
  have htwo := hm.heap.tiled.two_le c hc.allocated.inUse
  have h2 := hc.two_le
  refine ⟨(allocated_stored hm hc).mpr hc.allocated, ?_, h2, ?_⟩
  · rw [entry_stored hm hc]
    exact hc.pointer
  · rw [chunkWord_stored hm hc hv hc.allocated (by omega), if_neg (by omega)]
    exact hc.lt_size

theorem references_others (hv : v < 65536) (q : Nat) : (m.setChunkWord c i v).references
    (fun x => Allocated (m.setChunkWord c i v) L x.1 ∧ x ≠ (c, i)) q =
      m.references (fun x => Allocated m L x.1 ∧ x ≠ (c, i)) q := by
  rw [references, references]
  congr 1
  ext x
  simp only [Set.mem_ofPred_eq, allocated_stored hm hc]
  refine and_congr_right ?_
  rintro ⟨hx, hne⟩
  have hne' : ¬(x.1 = c ∧ x.2 = i) := fun hall => hne (Prod.ext hall.1 hall.2)
  have hiff : IsPointer (m.setChunkWord c i v) x.1 x.2 ↔ IsPointer m x.1 x.2 := by
    rw [isPointer_stored hm hc hv hx]
    simp [hne']
  rw [hiff]
  refine and_congr_right fun hi => ?_
  have hext := (hm.closed.sound x.1 hx).last_le_extent
  have hlt := hi.2.1
  rw [chunkWord_stored hm hc hv hx (by omega), if_neg hne']

end Exchange

/-- A register gives its reference to a field, and holds the one that was there. -/
theorem Counted.exchange (hm : Counted m L (held regs v)) (hc : PointerField m L c i)
    (hv : v < 65536) (hva : v % 2 = 0 → Allocated m L v) :
    Counted (m.setChunkWord c i v) L (held regs (m.chunkWord c i)) := by
  have hext := hc.lt_extent hm.heap
  have h2 := hc.two_le
  have hc' := pointerField_stored hm hc hv
  have hheap : Heap (m.setChunkWord c i v) L := hm.heap.setChunkWord hc.allocated (by omega) hext hv
  refine ⟨hheap, fun p hp => ?_, fun p j hp hj => ?_, fun p hp hlt => ?_⟩
  · rw [allocated_stored hm hc] at hp
    have htwo := hm.heap.tiled.two_le p hp.inUse
    rw [last_stored hm hc hv hp, chunkWord_stored hm hc hv hp (by omega), if_neg (by omega)]
    exact hm.last_le p hp
  · rw [allocated_stored hm hc] at hp ⊢
    have hlast := (hm.closed.sound p hp).last_le_extent
    rcases (isPointer_stored hm hc hv hp).mp hj with ⟨hj', hne⟩ | ⟨⟨rfl, rfl⟩, heven⟩
    · have hlt := hj'.2.1
      rw [chunkWord_stored hm hc hv hp (by omega), if_neg hne]
      exact hm.pointer p j hp hj'
    · rw [chunkWord_stored hm hc hv hp hext, if_pos ⟨rfl, rfl⟩]
      exact hva heven
  · rw [entry_stored hm hc] at hlt ⊢
    have hp' := (allocated_stored hm hc).mp hp
    have heven := hp'.inUse.even
    have hcount := hm.count p hp' hlt
    have hword : (m.setChunkWord c i v).chunkWord c i = v := by
      rw [chunkWord_stored hm hc hv hc.allocated hext, if_pos ⟨rfl, rfl⟩]
    have hnew := hc'.references_eq p
    rw [references_others hm hc hv, hword] at hnew
    rw [hc.references_eq] at hcount
    rw [hnew]
    simp only [held] at hcount ⊢
    have hself : ∀ w, w % 2 = 0 ∧ w = p ↔ p = w := fun w =>
      ⟨fun h => h.2.symm, fun h => ⟨h ▸ heven, h.symm⟩⟩
    rw [if_congr (hself v) rfl rfl]
    rw [if_congr (hself (m.chunkWord c i)) rfl rfl] at hcount
    omega

/-! ## The store -/

/-- The interpreter holds `c`, or an object that has a reference to it in another place than
the field `i` of `c`. -/
def Held (m : ObjectMemory) (L : Layout) (regs : Nat → Nat) (c i : Nat) : Prop :=
  1 ≤ regs c ∨ ∃ a k, 1 ≤ regs a ∧ PointerField m L a k ∧ ¬(a = c ∧ k = i) ∧ m.chunkWord a k = c

/-- What a store of `v` into the field `i` of `c` leaves of the memory `m`. The old
pointer is freed when the field had its only reference, unless it is stored again. -/
structure Stored (m : ObjectMemory) (L : Layout) (regs : Nat → Nat) (c i v : Nat) (L' : Layout)
    (u : ObjectMemory) : Prop where
  counted : Counted u L' regs
  allocated : ∀ p, Allocated u L' p → Allocated m L p
  entry : ∀ p, Allocated u L' p →
    u.entry p = { m.entry p with count := (u.entry p).count } ∧ u.location p = m.location p
  word : ∀ p j, Allocated u L' p → j < m.chunkWord p 0 →
    u.chunkWord p j = if p = c ∧ j = i then v else m.chunkWord p j
  root : ∀ p, Allocated m L p → 1 ≤ regs p → Allocated u L' p
  spared : (m.entry (m.chunkWord c i)).count ≠ 1 ∨ m.chunkWord c i % 2 = 1 ∨
    m.chunkWord c i = v → ∀ p, Allocated m L p → Allocated u L' p
  freed : (m.entry (m.chunkWord c i)).count = 1 → m.chunkWord c i % 2 = 0 →
    m.chunkWord c i ≠ v → ¬Allocated u L' (m.chunkWord c i)

theorem setChunkWord_back (hs : (m.entry c).segment ≠ objectTableSegment) :
    (m.setChunkWord c i v).setChunkWord c i (m.chunkWord c i) = m := by
  have hword : m.chunkWord c i < 65536 := m.word_lt _ _
  refine ext_words (fun s w => ?_) rfl rfl rfl
  rw [setChunkWord, entry_setChunkWord hs, location_setChunkWord hs, setChunkWord, word_setWord,
    word_setWord]
  by_cases hsw : s = (m.entry c).segment ∧ w = m.location c + i
  · rw [if_pos hsw, Nat.mod_eq_of_lt hword, hsw.1, hsw.2, chunkWord]
  · rw [if_neg hsw, if_neg hsw]

theorem PointerField.hasField {f : Int} (hc : PointerField m L c (headerSize + f.toNat))
    (hm : Heap m L) (h0 : 0 ≤ f) : HasField m c f := by
  have hin := hm.tiled.word_lt hc.allocated.inUse (hc.lt_extent hm)
  have hlt := hc.lt_size
  exact ⟨hc.allocated.inUse.isEntry, h0, by omega, by omega⟩

theorem PointerField.countedUp (hc : PointerField m L c i) (hm : Heap m L) :
    PointerField (m.countedUp v) L c i := by
  have hs := hm.onHeap hc.allocated.inUse
  refine ⟨allocated_countedUp.mpr hc.allocated, ?_, hc.two_le, ?_⟩
  · rw [entry_countedUp]
    exact hc.pointer
  · rw [chunkWord_countedUp hc.allocated.inUse.even hs]
    exact hc.lt_size

section Store

variable (hm : Counted m L regs) (hc : PointerField m L c i) (hv : v < 65536)

include hm hc hv

/-- Counted up, with the new pointer in the field. -/
theorem counted_stored (hva : v % 2 = 0 → Allocated m L v) :
    Counted ((m.countedUp v).setChunkWord c i v) L (held regs (m.chunkWord c i)) := by
  have hs := hm.heap.onHeap hc.allocated.inUse
  have hexchanged := (hm.countedUp hva).exchange (hc.countedUp hm.heap) hv fun h =>
    allocated_countedUp.mpr (hva h)
  rwa [chunkWord_countedUp hc.allocated.inUse.even hs] at hexchanged

omit hv in
theorem entry_countedUp_stored (p : Nat) : ((m.countedUp v).setChunkWord c i v).entry p =
    { m.entry p with count := ((m.countedUp v).entry p).count } := by
  have hs := hm.heap.onHeap hc.allocated.inUse
  rw [entry_setChunkWord (by rw [entry_countedUp]; exact hs), entry_countedUp]

omit hv in
theorem allocated_countedUp_stored :
    Allocated ((m.countedUp v).setChunkWord c i v) L p ↔ Allocated m L p := by
  rw [Allocated, Allocated, InUse, InUse, entry_countedUp_stored hm hc]

omit hv in
theorem location_countedUp_stored (hp : p % 2 = 0) :
    ((m.countedUp v).setChunkWord c i v).location p = m.location p := by
  have hs := hm.heap.onHeap hc.allocated.inUse
  rw [location_setChunkWord (by rw [entry_countedUp]; exact hs), location_countedUp hp]

theorem chunkWord_countedUp_stored (hva : v % 2 = 0 → Allocated m L v) (hp : Allocated m L p)
    (hj : j < L.extent p) : ((m.countedUp v).setChunkWord c i v).chunkWord p j =
      if p = c ∧ j = i then v else m.chunkWord p j := by
  have hs := hm.heap.onHeap hp.inUse
  rw [chunkWord_stored (hm.countedUp hva) (hc.countedUp hm.heap) hv (allocated_countedUp.mpr hp) hj,
    chunkWord_countedUp hp.inUse.even hs]

/-- The field held a SmallInteger. -/
theorem stored_integer (hva : v % 2 = 0 → Allocated m L v) (hodd : m.chunkWord c i % 2 = 1) :
    Stored m L regs c i v L ((m.countedUp v).setChunkWord c i v) := by
  have hiff := fun p => allocated_countedUp_stored (p := p) (v := v) hm hc
  refine ⟨(counted_stored hm hc hv hva).congr_regs fun p hp => ?_, fun p hp => (hiff p).mp hp,
    fun p hp => ⟨?_, location_countedUp_stored hm hc hp.inUse.even⟩, fun p j hp hj => ?_,
    fun p hp _ => (hiff p).mpr hp, fun _ p hp => (hiff p).mpr hp, fun _ heven => by omega⟩
  · have heven := hp.inUse.even
    rw [held, if_neg (by omega), Nat.add_zero]
  · rw [entry_countedUp_stored hm hc]
  · have hp' := (hiff p).mp hp
    exact chunkWord_countedUp_stored hm hc hv hva hp'
      (hj.trans_le (hm.heap.size_le_extent hp'.inUse))

/-- The field held a pointer, which has been counted down. -/
theorem stored_pointer (hva : v % 2 = 0 → Allocated m L v) (heven : m.chunkWord c i % 2 = 0)
    (h : Freeing ((m.countedUp v).setChunkWord c i v) L (held regs (m.chunkWord c i))
      (m.chunkWord c i) (0, 0) dead L' [] u) : Stored m L regs c i v L' u := by
  have hm₁ := counted_stored hm hc hv hva
  have hiff := fun p => allocated_countedUp_stored (p := p) (v := v) hm hc
  have hold : Allocated m L (m.chunkWord c i) :=
    hm.pointer c i hc.allocated (hc.isPointer_iff.mpr heven)
  have hregs : 1 ≤ held regs (m.chunkWord c i) (m.chunkWord c i) := by
    rw [held, if_pos rfl]
    omega
  have hword := fun p j => chunkWord_countedUp_stored (p := p) (j := j) hm hc hv hva
  have hsize : ∀ p, Allocated m L p →
      ((m.countedUp v).setChunkWord c i v).chunkWord p 0 = m.chunkWord p 0 := fun p hp => by
    have htwo := hm.heap.tiled.two_le p hp.inUse
    have h2 := hc.two_le
    rw [hword p 0 hp (by omega), if_neg (by omega)]
  have hcount : (((m.countedUp v).setChunkWord c i v).entry (m.chunkWord c i)).count =
      if m.chunkWord c i = v ∧ (m.entry (m.chunkWord c i)).count < 128 then
        (m.entry (m.chunkWord c i)).count + 1 else (m.entry (m.chunkWord c i)).count := by
    rw [entry_countedUp_stored hm hc]
    exact count_countedUp heven
  have hpos : 1 ≤ (m.entry (m.chunkWord c i)).count := by
    by_contra hzero
    have hcounted := hm.count _ hold (by omega)
    rw [hc.references_eq, if_pos ⟨heven, rfl⟩] at hcounted
    omega
  refine ⟨?_, fun p hp => (hiff p).mp ((h.allocated_iff hm₁).mp hp).1, fun p hp => ⟨?_, ?_⟩,
    fun p j hp hj => ?_, fun p hp hroot => ?_, fun hspared p hp => ?_, fun h1 _ hne hp => ?_⟩
  · have hcounted := h.counted hm₁ hregs
    rwa [dropped_held] at hcounted
  · rw [h.entry p, entry_countedUp_stored hm hc]
  · rw [h.location p hp.inUse.even, location_countedUp_stored hm hc hp.inUse.even]
  · have hp' := (hiff p).mp ((h.allocated_iff hm₁).mp hp).1
    rw [h.chunkWord_eq hm₁ hp (by rwa [hsize p hp'])]
    exact hword p j hp' (hj.trans_le (hm.heap.size_le_extent hp'.inUse))
  · refine (h.allocated_iff hm₁).mpr ⟨(hiff p).mpr hp, fun hf => ?_⟩
    have heq := hf.regs_eq
    rw [held] at heq
    omega
  · refine (h.allocated_iff hm₁).mpr ⟨(hiff p).mpr hp, hm₁.not_freed ?_⟩
    rw [hcount]
    split
    · omega
    · next hnot =>
        rcases hspared with h1 | hodd | hsame
        · exact h1
        · omega
        · exact fun h1 => hnot ⟨hsame, by omega⟩
  · refine ((h.allocated_iff hm₁).mp hp).2 (hm₁.freed hregs ((hiff _).mpr hold) ?_)
    rw [hcount, if_neg fun hall => hne hall.1, h1]

/-- Where an object is held, the store into one of its fields does not free it. -/
theorem Held.not_freed (hheld : Held m L regs c i) (hva : v % 2 = 0 → Allocated m L v) :
    ¬Freed ((m.countedUp v).setChunkWord c i v) L (held regs (m.chunkWord c i))
      (m.chunkWord c i) c := fun hfreed => by
  have hroot : ∀ a, 1 ≤ regs a → ¬Freed ((m.countedUp v).setChunkWord c i v) L
      (held regs (m.chunkWord c i)) (m.chunkWord c i) a := fun a ha hfreed => by
    have heq := hfreed.regs_eq
    rw [held] at heq
    omega
  rcases hheld with hc1 | ⟨a, k, ha, hfield, hne, hvalue⟩
  · exact hroot c hc1 hfreed
  · have hlt := hfield.lt_size
    have htwo := hfield.two_le
    have h2 := hc.two_le
    have heven := hc.allocated.inUse.even
    have hword := fun j => chunkWord_countedUp_stored (j := j) hm hc hv hva hfield.allocated
    have hext := hfield.lt_extent hm.heap
    have hfield₁ : PointerField ((m.countedUp v).setChunkWord c i v) L a k := by
      refine ⟨(allocated_countedUp_stored hm hc).mpr hfield.allocated, ?_, htwo, ?_⟩
      · rw [entry_countedUp_stored hm hc]
        exact hfield.pointer
      · rwa [hword 0 (by omega), if_neg (by omega)]
    have hvalue₁ : ((m.countedUp v).setChunkWord c i v).chunkWord a k = c := by
      rw [hword k hext, if_neg hne, hvalue]
    exact hroot a ha (hfreed.referrers hfield₁.allocated
      (hfield₁.isPointer_iff.mpr (by rw [hvalue₁, heven])) hvalue₁)

/-- `storePointer` into an object that the store does not free. -/
theorem wp_storePointer_kept {f : Int} (hi : i = headerSize + f.toNat) (h0 : 0 ≤ f)
    (hkept : ¬Freed ((m.countedUp v).setChunkWord c i v) L (held regs (m.chunkWord c i))
      (m.chunkWord c i) c) (hpos : 0 < v) (hva : v % 2 = 0 → Allocated m L v) :
    Wp (storePointerOfObjectWithValue f c v) (fun _ u => ∃ L', Stored m L regs c i v L' u) m := by
  subst hi
  have hf := hc.hasField hm.heap h0
  have hlt := hf.lt_size
  have hin := hf.inside
  have hs := hm.heap.onHeap hc.allocated.inUse
  have heven := hc.allocated.inUse.even
  have hone : 1 ≤ headerSize + f.toNat := by
    have := hc.two_le
    omega
  have hword : (m.countedUp v).chunkWord c (headerSize + f.toNat) =
      m.chunkWord c (headerSize + f.toNat) := chunkWord_countedUp heven hs
  rw [storePointerOfObjectWithValue, wp_bind, wp_fetchWordLengthOf,
    and_iff_right ⟨hf.isEntry, by omega⟩, wp_bind, wp_check,
    and_iff_right ⟨hf.nonneg, by omega⟩, wp_bind, wp_check, and_iff_right hpos]
  dsimp only
  rw [wp_bind, wp_countUp, and_iff_right fun _ => hv, wp_bind, wp_heapChunkOfWord, hword,
    location_countedUp heven, and_iff_right ⟨hf.isEntry, hin⟩, wp_bind]
  rcases Nat.mod_two_eq_zero_or_one (m.chunkWord c (headerSize + f.toNat)) with hold | hold
  · have hm₁ := counted_stored hm hc hv hva
    have haside : Aside ((m.countedUp v).setChunkWord c (headerSize + f.toNat) v) L
        (c, headerSize + f.toNat) fun u => u.setChunkWord c (headerSize + f.toNat)
          (m.chunkWord c (headerSize + f.toNat)) :=
      .store ((allocated_countedUp_stored hm hc).mpr hc.allocated) hone
        (hc.lt_extent hm.heap) (m.word_lt _ _)
    have hrun := wp_countDown_aside hm₁ ((allocated_countedUp_stored hm hc).mpr
      (hm.pointer c _ hc.allocated (hc.isPointer_iff.mpr hold))) (by rw [held, if_pos rfl]; omega)
      hkept haside
    rw [← hword, setChunkWord_back (by rw [entry_countedUp]; exact hs), hword] at hrun
    refine hrun.mono ?_
    rintro _ u ⟨dead, L', h⟩
    have hput := h.aside (.store (x := v) ((allocated_countedUp_stored hm hc).mpr hc.allocated)
      hone (hc.lt_extent hm.heap) hv)
    have hcu := h.hole_allocated ((allocated_countedUp_stored hm hc).mpr hc.allocated)
    have hlocation := h.location c heven
    rw [location_countedUp_stored hm hc heven] at hlocation
    rw [wp_heapChunkOfWordPut, hlocation, and_iff_right ⟨hf.isEntry, hin, hv⟩]
    refine ⟨L', stored_pointer hm hc hv hva hold (hput.filled ?_)⟩
    rw [chunkWord_setChunkWord (h.heap.onHeap hcu.inUse) hv, if_pos ⟨rfl, rfl⟩,
      chunkWord_countedUp_stored hm hc hv hva hc.allocated (hc.lt_extent hm.heap), if_pos ⟨rfl, rfl⟩]
  · rw [countDown, if_pos hold, wp_pure, wp_heapChunkOfWordPut, location_countedUp heven,
      and_iff_right ⟨hf.isEntry, hin, hv⟩]
    exact ⟨L, stored_integer hm hc hv hva hold⟩

/-- `storePointer` into an object that is held. -/
theorem wp_storePointer {f : Int} (hi : i = headerSize + f.toNat) (h0 : 0 ≤ f)
    (hheld : Held m L regs c i) (hpos : 0 < v) (hva : v % 2 = 0 → Allocated m L v) :
    Wp (storePointerOfObjectWithValue f c v) (fun _ u => ∃ L', Stored m L regs c i v L' u) m :=
  wp_storePointer_kept hm hc hv hi h0 (hheld.not_freed hm hc hv hva) hpos hva

end Store

/-- A store that ends has found its field. -/
theorem hasField_of_store {f : Int} {Q : Unit → ObjectMemory → Prop}
    (h : Wp (storePointerOfObjectWithValue f c v) Q m) : HasField m c f := by
  rw [storePointerOfObjectWithValue, wp_bind, wp_fetchWordLengthOf] at h
  obtain ⟨⟨hentry, -⟩, h⟩ := h
  rw [wp_bind, wp_check] at h
  obtain ⟨⟨h0, hlt⟩, h⟩ := h
  rw [wp_bind, wp_check] at h
  obtain ⟨-, h⟩ := h
  dsimp only at h
  rw [wp_bind, wp_countUp] at h
  obtain ⟨-, h⟩ := h
  rw [wp_bind, wp_heapChunkOfWord, location_countedUp hentry.1] at h
  exact ⟨hentry, h0, by omega, h.1.2⟩

/-- The pointers of an object that is left are pointers of it still. -/
theorem Stored.pointerField (h : Stored m L regs c i v L' u) (h2 : 2 ≤ i) (hp : Allocated u L' p)
    (hj : PointerField m L p j) : PointerField u L' p j := by
  have hj2 := hj.two_le
  have hlt := hj.lt_size
  refine ⟨hp, ?_, hj2, ?_⟩
  · rw [(h.entry p hp).1]
    exact hj.pointer
  · rw [h.word p 0 hp (by omega), if_neg (by omega)]
    exact hlt

theorem Stored.value (h : Stored m L regs c i v L' u) (hc : PointerField m L c i)
    (hroot : 1 ≤ regs c) : u.chunkWord c i = v ∧ (v % 2 = 0 → Allocated u L' v) := by
  have hcu := h.root c hc.allocated hroot
  have hword : u.chunkWord c i = v := by rw [h.word c i hcu hc.lt_size, if_pos ⟨rfl, rfl⟩]
  refine ⟨hword, fun heven => ?_⟩
  have hallocated := (h.pointerField hc.two_le hcu hc).value h.counted (hword ▸ heven)
  rwa [hword] at hallocated

/-! ## Layouts -/

/-- What is on a list is not allocated as long as the list is there. -/
theorem Heap.not_allocated (h : Heap m L) (hp : ¬Allocated m L p) (huse : InUse u p → InUse m p)
    (hhead : ∀ s k, s < 15 → u.chunkHead s k = m.chunkHead s k)
    (hlink : ∀ s k q, q ∈ L.chunks s k → u.chunkWord q 1 = m.chunkWord q 1) (hu : Heap u L') :
    ¬Allocated u L' p := fun hpu => by
  refine hp ⟨huse hpu.inUse, fun s k hmem => ?_⟩
  have hfree := h.lists.freeChunk s k p hmem
  have hlinked := h.lists.chunks s k hfree.segment_lt hfree.two_le hfree.le_bigSize
  have hlinked' := hlinked.congr fun q hq => hlink s k q hq
  rw [← hhead s k hfree.segment_lt] at hlinked'
  have heq := hlinked'.unique
    (hu.lists.chunks s k hfree.segment_lt hfree.two_le hfree.le_bigSize)
  exact hpu.2 s k (heq ▸ hmem)

/-- The memory tells what is allocated. -/
theorem Heap.allocated_unique (h : Heap m L) (h' : Heap m L') :
    Allocated m L p ↔ Allocated m L' p :=
  ⟨fun hp => by_contra fun hn =>
      h'.not_allocated hn (fun hu => hu) (fun _ _ _ => rfl) (fun _ _ _ _ => rfl) h hp,
    fun hp => by_contra fun hn =>
      h.not_allocated hn (fun hu => hu) (fun _ _ _ => rfl) (fun _ _ _ _ => rfl) h' hp⟩

end ObjectMemory

end Crosstalk
