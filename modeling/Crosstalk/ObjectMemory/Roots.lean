import Crosstalk.ObjectMemory.Rectify

/-!
# Marking from the roots

The counts are set to zero, and what the roots reach is marked, one root after
the other. The first of them is oop 0, which no object has: its entry is free
and shows the place of nil.
-/

namespace Crosstalk

namespace ObjectMemory

variable {extent : Nat → Nat} {A V R R' : Nat → Prop} {m m' n u : ObjectMemory}
  {p q r s w i j k c v base root : Nat} {frames : List (Nat × Nat)}

/-! ## Setting the counts to zero -/

theorem Alike.setCount (h : Alike extent A m u) (hp : p % 2 = 0) (hc : c < 256) :
    Alike extent A m (u.setCount p c) := by
  refine ⟨h.apart, fun q hq => ?_, fun q hq => ?_, fun q i hq hi hx => ?_⟩
  · rw [entry_setCount hc]
    split
    · next hqp => rw [hqp, h.entry p hp]
    · exact h.entry q hq
  · rw [ObjectMemory.setCount, location_setField (by omega), h.location q hq]
  · have heven := h.even hq
    rw [chunkWord_setCount hc (by omega) (h.apart_alike.onHeap hq), h.word q i hq hi hx]

theorem wp_zeroReferenceCounts (ha : Apart m extent A) : Wp zeroReferenceCounts (fun _ m' =>
    Alike extent A m m' ∧ ∀ p, p % 2 = 0 → p ≤ 65532 → (m'.entry p).count = 0) m := by
  have hcount : objectTableSize / 2 = 32767 := rfl
  have h0 : 0 < 256 := by decide
  rw [zeroReferenceCounts, hcount]
  refine (wp_forN (fun n u => Alike extent A m u ∧
    ∀ p, p % 2 = 0 → p < 2 * n → (u.entry p).count = 0) (fun n u hn h => ?_)
    ⟨.refl ha, fun p _ hlt => absurd hlt (by omega)⟩).mono fun _ u h =>
      ⟨h.1, fun p hp hle => h.2 p hp (by omega)⟩
  rw [wp_countBitsOfPut, and_iff_right ⟨⟨by omega, by omega⟩, h0⟩]
  refine ⟨h.1.setCount (by omega) h0, fun p hp hlt => ?_⟩
  rw [entry_setCount h0]
  split
  · rfl
  · exact h.2 p hp (by omega)

/-! ## One root after the other -/

/-- What has been marked from the roots `R`, from the memory `m` without marks. -/
structure MarkedFrom (extent : Nat → Nat) (A V : Nat → Prop) (m : ObjectMemory) (R : Nat → Prop)
    (m' : ObjectMemory) : Prop where
  alike : Alike extent A m m'
  count : ∀ p, IsOop p → (m'.entry p).count = 0 ∨
    (m'.entry p).count = 1 ∧ V p ∧ ∃ r, R r ∧ Reaches m r p
  pointer : ∀ p i, IsOop p → (m'.entry p).count ≠ 0 → IsPointer m p i →
    (m'.entry (m.chunkWord p i)).count ≠ 0
  root : ∀ r, R r → r % 2 = 0 ∧ (m'.entry r).count ≠ 0

namespace MarkedFrom

theorem none (ha : Apart m extent A) (hcount : ∀ p, IsOop p → (m.entry p).count = 0) :
    MarkedFrom extent A V m (fun _ => False) m :=
  ⟨.refl ha, fun p hp => .inl (hcount p hp), fun p _ hp hne => absurd (hcount p hp) hne,
    fun _ hr => hr.elim⟩

/-- Only what the roots reach counts. -/
theorem roots (h : MarkedFrom extent A V m R m') (hsub : ∀ r, R' r → R r)
    (hreach : ∀ r, R r → ∃ r', R' r' ∧ Reaches m r' r) : MarkedFrom extent A V m R' m' := by
  refine ⟨h.alike, fun p hp => (h.count p hp).imp_right fun ⟨hone, hV, r, hr, hrp⟩ => ?_, h.pointer,
    fun r hr => h.root r (hsub r hr)⟩
  obtain ⟨r', hr', hreach'⟩ := hreach r hr
  exact ⟨hone, hV, r', hr', hreach'.trans hrp⟩

/-- The memory without marks is one up to counts. -/
theorem of_alike {m₁ : ObjectMemory} (hs : Alike extent A m m₁) (hV : Closed m extent A V)
    (hR : ∀ r, R r → V r) (h : MarkedFrom extent A V m₁ R m') : MarkedFrom extent A V m R m' := by
  refine ⟨hs.trans h.alike, fun p hp => (h.count p hp).imp_right fun ⟨hone, hVp, r, hr, hrp⟩ =>
    ⟨hone, hVp, r, hr, (hs.reaches hV (hR r hr) hrp).1⟩, fun p i hp hne hpi => ?_, h.root⟩
  have hsound := hV.sound p ((h.count p hp).resolve_left hne).2.1
  rw [← hs.chunkWord_eq hsound hpi.2.1]
  exact h.pointer p i hp hne ((hs.isPointer_iff hsound).mpr hpi)

theorem of_reaches (h : MarkedFrom extent A V m R m') (hV : Closed m extent A V)
    (hR : ∀ r, R r → V r) (hr : R r) (hrp : Reaches m r p) : (m'.entry p).count ≠ 0 ∧ V p := by
  induction hrp with
  | refl => exact ⟨(h.root r hr).2, hR r hr⟩
  | tail _ hpt ih =>
      obtain ⟨i, hi, rfl⟩ := hpt
      obtain ⟨hne, hVq⟩ := ih
      exact ⟨h.pointer _ i (hV.sound _ hVq).isOop hne hi, hV.pointer _ i hVq hi⟩

/-- The marked objects are those that the roots reach. -/
theorem marked_iff (h : MarkedFrom extent A V m R m') (hV : Closed m extent A V)
    (hR : ∀ r, R r → V r) (hp : IsOop p) :
    (m'.entry p).count ≠ 0 ↔ ∃ r, R r ∧ Reaches m r p :=
  ⟨fun hne => ((h.count p hp).resolve_left hne).2.2,
    fun ⟨_, hr, hrp⟩ => (h.of_reaches hV hR hr hrp).1⟩

theorem wp_addRoot (h : MarkedFrom extent A V m R m') (hV : Closed m extent A V) (hr : V r) :
    Wp (addRoot r) (fun _ => MarkedFrom extent A V m (fun q => R q ∨ q = r)) m' := by
  rw [addRoot, wp_bind]
  refine (wp_markObjectsAccessibleFrom (h.alike.closed hV) hr).mono fun _ m'' hm => ?_
  rw [wp_pure]
  -- marks are not taken away
  have hkeep : ∀ p, p % 2 = 0 → (m'.entry p).count ≠ 0 → (m''.entry p).count ≠ 0 :=
    fun p hp hne => by
      rcases hm.count p hp with hsame | ⟨hfresh, -⟩
      · rwa [hsame]
      · exact absurd hfresh.before hne
  refine ⟨h.alike.trans hm.same.alike, fun p hp => ?_, fun p i hp hne hpi => ?_, fun q hq => ?_⟩
  · rcases hm.count p hp.1 with hsame | ⟨hfresh, hVp, hfinds⟩
    · rw [hsame]
      exact (h.count p hp).imp_right fun ⟨hone, hVp, q, hq, hqp⟩ =>
        ⟨hone, hVp, q, .inl hq, hqp⟩
    · exact .inr ⟨hfresh.after, hVp, r, .inr rfl, (h.alike.reaches hV hr hfinds.reaches).1⟩
  · by_cases hne' : (m'.entry p).count = 0
    · rcases hm.count p hp.1 with hsame | ⟨hfresh, hVp, -⟩
      · exact absurd (hsame.trans hne') hne
      · have hs := hV.sound p hVp
        rw [← h.alike.chunkWord_eq hs hpi.2.1]
        exact hm.pointer p i hfresh ((h.alike.isPointer_iff hs).mpr hpi)
    · exact hkeep _ hpi.2.2 (h.pointer p i hp hne' hpi)
  · rcases hq with hq | rfl
    · obtain ⟨heven, hne⟩ := h.root q hq
      exact ⟨heven, hkeep q heven hne⟩
    · exact ⟨(hV.sound q hr).isOop.1, hm.root⟩

end MarkedFrom

/-! ## A pointer overwritten -/

/-- `m` with the pointer `i` of `p` overwritten by a word that is no pointer. -/
structure Cut (extent : Nat → Nat) (A V : Nat → Prop) (m : ObjectMemory) (p i v : Nat) :
    Prop where
  closed : Closed m extent A V
  mem : A p
  one_le : 1 ≤ i
  lt_extent : i < extent p
  odd : v % 2 = 1
  lt : v < 65536
  last : (m.setChunkWord p i v).last p = m.last p

namespace Cut

variable (h : Cut extent A V m p i v)

include h

theorem onHeap : (m.entry p).segment ≠ 15 := h.closed.apart.onHeap h.mem

theorem entry : (m.setChunkWord p i v).entry q = m.entry q := entry_setChunkWord h.onHeap

theorem chunkWord (hq : A q) (hj : j < extent q) :
    (m.setChunkWord p i v).chunkWord q j = if q = p ∧ j = i then v else m.chunkWord q j :=
  h.closed.apart.chunkWord_setChunkWord h.mem hq h.lt_extent hj h.lt

theorem last_eq (hq : A q) (hle : m.last q ≤ extent q) :
    (m.setChunkWord p i v).last q = m.last q := by
  by_cases hqp : q = p
  · rw [hqp]
    exact h.last
  · have htwo := h.closed.apart.two_le q hq
    have hword : ∀ j, j < extent q → (m.setChunkWord p i v).chunkWord q j = m.chunkWord q j :=
      fun j hj => by rw [h.chunkWord hq hj, if_neg fun hall => hqp hall.1]
    exact last_congr (by rw [h.entry]) (hword 0 (by omega)) (hword 1 (by omega))
      fun h3 => hword 2 (by omega)

theorem isPointer_iff (hq : Sound m extent A q) :
    IsPointer (m.setChunkWord p i v) q j ↔ IsPointer m q j ∧ ¬(q = p ∧ j = i) := by
  have hle := hq.last_le_extent
  have hodd := h.odd
  unfold IsPointer
  rw [h.last_eq hq.mem hle]
  by_cases hj : j < m.last q
  · rw [h.chunkWord hq.mem (by omega)]
    by_cases hqj : q = p ∧ j = i
    · rw [if_pos hqj]
      constructor
      · omega
      · exact fun hall => absurd hqj hall.2
    · rw [if_neg hqj]
      exact ⟨fun hall => ⟨hall, hqj⟩, fun hall => hall.1⟩
  · constructor
    · exact fun hall => absurd hall.2.1 hj
    · exact fun hall => absurd hall.1.2.1 hj

theorem chunkWord_pointer (hq : Sound m extent A q)
    (hj : IsPointer (m.setChunkWord p i v) q j) :
    (m.setChunkWord p i v).chunkWord q j = m.chunkWord q j := by
  have hle := hq.last_le_extent
  obtain ⟨hold, hne⟩ := (h.isPointer_iff hq).mp hj
  have hlt := hold.2.1
  rw [h.chunkWord hq.mem (by omega), if_neg hne]

theorem sound (hq : Sound m extent A q) : Sound (m.setChunkWord p i v) extent A q := by
  have htwo := hq.two_le
  have hone := h.one_le
  have hsize : (m.setChunkWord p i v).chunkWord q 0 = m.chunkWord q 0 := by
    rw [h.chunkWord hq.mem (by omega), if_neg (by omega)]
  refine ⟨hq.mem, hq.isOop, htwo, ?_, ?_⟩
  · rw [hq.extent_eq, space_congr (by rw [h.entry]) hsize]
  · rw [h.last_eq hq.mem hq.last_le_extent, hsize]
    exact hq.last_le

theorem closed_cut : Closed (m.setChunkWord p i v) extent A V := by
  refine ⟨h.closed.apart.setChunkWord h.mem, fun q hq => h.sound (h.closed.sound q hq),
    fun q j hq hj => ?_⟩
  have hs := h.closed.sound q hq
  rw [h.chunkWord_pointer hs hj]
  exact h.closed.pointer q j hq ((h.isPointer_iff hs).mp hj).1

/-- Fewer pointers reach less. -/
theorem reaches (hq : V q) (hr : Reaches (m.setChunkWord p i v) q r) : Reaches m q r ∧ V r := by
  induction hr with
  | refl => exact ⟨.refl, hq⟩
  | tail _ hpt ih =>
      obtain ⟨j, hj, rfl⟩ := hpt
      obtain ⟨hreach, hVq⟩ := ih
      have hs := h.closed.sound _ hVq
      have hold := ((h.isPointer_iff hs).mp hj).1
      rw [h.chunkWord_pointer hs hj]
      exact ⟨hreach.tail ⟨j, hold, rfl⟩, h.closed.pointer _ j hVq hold⟩

/-- Marking without the pointer, and restoring it. -/
theorem restored (hm : Marked extent A V (m.setChunkWord p i v) r m')
    (hcount : ∀ q, IsOop q → (m.entry q).count = 0) (hr : V r)
    (hpointer : IsPointer m p i → m.chunkWord p i = r) :
    MarkedFrom extent A V m (fun q => q = r) (m'.setChunkWord p i (m.chunkWord p i)) := by
  have ha := hm.same.apart_same
  have hentry : ∀ q, (m'.setChunkWord p i (m.chunkWord p i)).entry q = m'.entry q := fun q =>
    entry_setChunkWord (ha.onHeap h.mem)
  have hmarked : ∀ q, IsOop q → (m'.entry q).count = 0 ∨
      Fresh (m.setChunkWord p i v) m' q ∧ V q ∧ Reaches (m.setChunkWord p i v) r q := by
    intro q hq
    rcases hm.count q hq.1 with hsame | ⟨hfresh, hVq, hfinds⟩
    · exact .inl (by rw [hsame, h.entry, hcount q hq])
    · exact .inr ⟨hfresh, hVq, hfinds.reaches⟩
  refine ⟨⟨h.closed.apart, fun q _ => ?_, fun q hq => ?_, fun q j hq hj hx => ?_⟩,
    fun q hq => ?_, fun q j hq hne hqj => ?_, fun q hq => ?_⟩
  · rw [hentry, hm.same.entry q, h.entry]
  · rw [location_setChunkWord (ha.onHeap h.mem), hm.same.location hq,
      location_setChunkWord h.onHeap]
  · rw [ha.chunkWord_setChunkWord h.mem hq h.lt_extent hj (chunkWord_lt m p i)]
    split
    · next hqj => rw [hqj.1, hqj.2]
    · next hqj =>
        rw [hm.same.word q j hq hj fun hx' => hx ?_, h.chunkWord hq hj, if_neg hqj]
        rw [Extra, h.entry] at hx'
        exact hx'
  · rw [hentry]
    refine (hmarked q hq).imp_right ?_
    rintro ⟨hfresh, hVq, hreach⟩
    exact ⟨hfresh.after, hVq, r, rfl, (h.reaches hr hreach).1⟩
  · rw [hentry] at hne ⊢
    obtain ⟨hfresh, hVq, -⟩ := (hmarked q hq).resolve_left hne
    have hs := h.closed.sound q hVq
    by_cases hcut : q = p ∧ j = i
    · obtain ⟨rfl, rfl⟩ := hcut
      rw [hpointer hqj]
      exact hm.root
    · have hnew := (h.isPointer_iff hs).mpr ⟨hqj, hcut⟩
      rw [← h.chunkWord_pointer hs hnew]
      exact hm.pointer q j hfresh hnew
  · rw [hentry, hq]
    exact ⟨(h.closed.sound r hr).isOop.1, hm.root⟩

end Cut

/-! ## Oop 0 -/

theorem setWord_comm (h : ¬(s = k ∧ w = j)) :
    (m.setWord s w v).setWord k j c = (m.setWord k j c).setWord s w v := by
  have hmemory : (m.wordMemory.put s w v).put k j c = (m.wordMemory.put k j c).put s w v := by
    refine RealWordMemory.ext fun s' w' => ?_
    simp only [RealWordMemory.memory_put]
    by_cases h1 : s' = s ∧ w' = w
    · obtain ⟨rfl, rfl⟩ := h1
      simp [h]
    · simp [h1]
  rw [setWord, setWord, setWord, setWord]
  simp only [hmemory]

theorem setCount_setWord_comm (hs : s ≠ 15) :
    (m.setWord s w v).setCount p c = (m.setCount p c).setWord s w v := by
  have hword : (m.setWord s w v).word objectTableSegment p = m.word objectTableSegment p := by
    rw [word_setWord, if_neg fun hall => hs hall.1.symm]
  rw [setCount, setField, hword]
  exact setWord_comm fun hall => hs hall.1

/-- The first object on the stack stays the first. -/
theorem Visitor.withFirst {predicate : Nat → OM Bool} {action : Nat → OM Unit}
    {Inv : List (Nat × Nat) → ObjectMemory → Prop} {μ : List (Nat × Nat) → ObjectMemory → Nat}
    (W : Visitor extent A predicate action Inv μ) (root : Nat) :
    Visitor extent A predicate action
      (fun frames u => Inv frames u ∧ (frames.map Prod.fst).getLast? = some root) μ where
  stack frames u h := W.stack frames u h.1
  integer v o frames u h ho hodd := by
    obtain ⟨hInv, hμ⟩ := W.integer v o frames u h.1 ho hodd
    exact ⟨⟨hInv, h.2⟩, hμ⟩
  predicate v o frames u m base h ho heven hr := by
    refine (W.predicate v o frames u m base h.1 ho heven hr).mono ?_
    rintro r m' ⟨u', hr', hlast, htrue, hfalse⟩
    refine ⟨u', hr', hlast, fun h' => ⟨⟨(htrue h').1, ?_⟩, (htrue h').2⟩,
      fun h' => ⟨⟨(hfalse h').1, h.2⟩, (hfalse h').2⟩⟩
    have hfirst := h.2
    rw [List.map_cons] at hfirst ⊢
    rwa [List.map_cons, List.getLast?_cons_cons]
  action v w o frames u m base h hr := by
    refine (W.action v w o frames u m base h.1 hr).mono ?_
    rintro _ m' ⟨u', hr', hInv, ho, hchild, hμ⟩
    refine ⟨u', hr', ⟨hInv, ?_⟩, ho, hchild, hμ⟩
    have hfirst := h.2
    rwa [List.map_cons, List.map_cons, List.getLast?_cons_cons, ← List.map_cons] at hfirst

/-- Oop 0 shows the place of nil. -/
structure Alias (m : ObjectMemory) : Prop where
  pointer : (m.entry 0).pointer = 0
  segment : (m.entry 0).segment = (m.entry nilPointer).segment
  location : m.location 0 = m.location nilPointer
  notMethod : m.chunkWord nilPointer 1 ≠ classCompiledMethod

namespace Alias

theorem chunkWord (h : Alias m) : m.chunkWord 0 i = m.chunkWord nilPointer i := by
  rw [ObjectMemory.chunkWord, h.segment, h.location, ObjectMemory.chunkWord]

theorem setChunkWord (h : Alias m) :
    m.setChunkWord 0 i v = m.setChunkWord nilPointer i v := by
  rw [ObjectMemory.setChunkWord, h.segment, h.location, ObjectMemory.setChunkWord]

/-- The class is the last pointer that is found through oop 0. -/
theorem last (h : Alias m) : m.last 0 = 2 := by
  rw [ObjectMemory.last, if_pos h.pointer, h.chunkWord, if_neg h.notMethod]

theorem alike (h : Alias m) (hs : Alike extent A m u) (hnil : A nilPointer) : Alias u := by
  have hzero := hs.entry 0 rfl
  have hnilEntry := hs.entry nilPointer rfl
  have htwo := hs.apart.two_le nilPointer hnil
  refine ⟨?_, ?_, ?_, ?_⟩
  · rw [hzero]
    exact h.pointer
  · rw [hzero, hnilEntry]
    exact h.segment
  · rw [hs.location 0 rfl, hs.location nilPointer rfl]
    exact h.location
  · rw [hs.word nilPointer 1 hnil (by omega) (not_extra_header (by omega))]
    exact h.notMethod

end Alias

theorem isEntry_zero : IsEntry 0 := ⟨rfl, by decide⟩

/-- The end of the traversal from oop 0. -/
theorem wp_leaveZero {Q : Nat → ObjectMemory → Prop} (hcount : (m.entry 0).count = 1)
    (hQ : Q 0 m) :
    Wp (iterate (followPointer markPredicate markAction 0) ⟨nonPointer, 0, 1, 2⟩) Q m := by
  refine wp_iterate_of_round ?_
  rw [followPointer]
  dsimp only
  rw [if_neg (by omega), wp_bind, markAction, wp_countBitsOfPut,
    and_iff_right ⟨isEntry_zero, by omega⟩, setCount_self hcount, if_pos rfl, wp_pure,
    loopPost_inr]
  exact hQ

/-- The way back from the class of nil to oop 0. -/
theorem wp_backToZero {Q : Nat → ObjectMemory → Prop} {size : Nat} (ha : Alias m)
    (hword : m.chunkWord nilPointer 1 = nonPointer) (hcount : (m.entry 0).count = 1)
    (hloc : m.location 0 + 2 < 65536) (hseg : (m.entry nilPointer).segment ≠ 15)
    (hc : c < 65536) (hQ : Q 0 (m.setChunkWord nilPointer 1 c)) :
    Wp (ascend ⟨0, c, 1, size⟩) (fun cursor m' =>
      Wp (iterate (followPointer markPredicate markAction 0) cursor) Q m') m := by
  rw [ascend, wp_bind]
  dsimp only
  rw [wp_lastPointerOf isEntry_zero hloc, ha.last, wp_bind, restoreOffset,
    if_pos (show 2 < hugeSize by decide), wp_countBitsOf, and_iff_right isEntry_zero, hcount,
    wp_bind, wp_heapChunkOfWord, and_iff_right ⟨isEntry_zero, by omega⟩, ha.chunkWord, hword,
    wp_bind, wp_heapChunkOfWordPut, and_iff_right ⟨isEntry_zero, by omega, hc⟩, wp_pure,
    ha.setChunkWord]
  exact wp_leaveZero (by rw [entry_setChunkWord hseg, hcount]) hQ

/-- The offset is saved elsewhere than the pointer is overwritten. -/
theorem Cut.setCount_comm (h : Cut extent A V m p i v) (hq : q % 2 = 0) :
    (m.setChunkWord p i v).setCount q 1 = (m.setCount q 1).setChunkWord p i v := by
  have heven := (h.closed.apart.isOop p h.mem).1
  have hseg : ((m.setCount q 1).entry p).segment = (m.entry p).segment := by
    rw [entry_setCount (by omega)]
    split
    · next hpq => rw [hpq]
    · rfl
  have hloc : (m.setCount q 1).location p = m.location p := location_setField (by omega)
  rw [ObjectMemory.setChunkWord, setCount_setWord_comm h.onHeap, ObjectMemory.setChunkWord, hseg,
    hloc]

theorem Cut.last_start (h : Cut extent A V m p i v) (hq : Sound m extent A q) :
    ((m.setCount q 1).setChunkWord p i v).last q = m.last q := by
  have hsame := same_setCount h.closed_cut.apart hq.mem (show 1 < 256 by omega)
  rw [← h.setCount_comm hq.isOop.1, hsame.last_eq (h.sound hq),
    h.last_eq hq.mem hq.last_le_extent]

/-- The traversal from the class `c` of nil, whose class is overwritten meanwhile. -/
theorem Cut.wp_traverse {Q : Nat → ObjectMemory → Prop}
    (h : Cut extent A V m nilPointer 1 nonPointer) (hz : Alias m)
    (hcount : ∀ q, IsOop q → (m.entry q).count = 0) (hone : (m.entry 0).count = 1)
    (hcV : V c) (hc : m.chunkWord nilPointer 1 = c)
    (hQ : ∀ u, MarkedFrom extent A V m (fun q => q = c) u → Q 0 u) :
    Wp (iterate (followPointer markPredicate markAction 0)
        ⟨0, c, m.last c, m.last c⟩) Q ((m.setCount c 1).setChunkWord nilPointer 1 nonPointer) := by
  have hV := h.closed_cut
  have hs := hV.sound c hcV
  have hs' := h.closed.sound c hcV
  have hseg := h.onHeap
  have htwo := h.closed.apart.two_le nilPointer h.mem
  have hin := h.closed.apart.inside nilPointer h.mem
  -- the memory in which the search starts
  have hstart := Searching.start hV hcV (by rw [h.entry]; exact hcount c hs.isOop)
  rw [h.setCount_comm hs.isOop.1, h.last_eq hs.mem hs'.last_le_extent] at hstart
  have hlast := h.last_start hs'
  refine ((Searching.visitor hV).withFirst c).wp_traverse (by decide) (fun v size u t h' hr => ?_)
    ⟨hstart, rfl⟩ (.refl hstart.same.apart_same _ _) ⟨by rw [hlast], fun _ => hlast.symm⟩
  -- the search is back at the class of nil
  obtain ⟨hsearch, hfirst⟩ := h'
  obtain rfl : v = c := by simpa using hfirst
  have hm := hsearch.ended hs.isOop.1 hr
  have hend := h.restored hm hcount hcV fun _ => hc
  rw [hc] at hend
  refine wp_iterate_of_round ?_
  rw [followPointer]
  dsimp only
  rw [if_neg (by omega), wp_bind, markAction, wp_countBitsOfPut,
    and_iff_right ⟨hs.isOop.isEntry, by omega⟩, if_neg (by decide), wp_bind]
  have hzcut : Alias (m.setChunkWord nilPointer 1 nonPointer) := by
    refine ⟨by rw [h.entry]; exact hz.pointer, by rw [h.entry, h.entry]; exact hz.segment, ?_, ?_⟩
    · rw [location_setChunkWord hseg, location_setChunkWord hseg]
      exact hz.location
    · rw [h.chunkWord h.mem (by omega), if_pos ⟨rfl, rfl⟩]
      decide
  have hz' := hzcut.alike hm.same.alike h.mem
  have hword : (t.setCount v 1).chunkWord nilPointer 1 = nonPointer := by
    rw [hm.same.word nilPointer 1 h.mem (by omega) (not_extra_header (by omega)),
      h.chunkWord h.mem (by omega), if_pos ⟨rfl, rfl⟩]
  have hzero : ((t.setCount v 1).entry 0).count = 1 := by
    rcases hm.count 0 rfl with hsame | ⟨hfresh, -⟩
    · rw [hsame, h.entry, hone]
    · have := hfresh.before
      rw [h.entry, hone] at this
      cases this
  have hloc : (t.setCount v 1).location 0 + 2 < 65536 := by
    rw [hz'.location, hm.same.location rfl, location_setChunkWord hseg]
    omega
  have hnilseg : ((t.setCount v 1).entry nilPointer).segment ≠ 15 := by
    rw [hm.same.entry, h.entry]
    exact hseg
  have hback : Wp (ascend ⟨0, v, 1, size⟩) (fun cursor m' =>
      Wp (iterate (followPointer markPredicate markAction 0) cursor) Q m') (t.setCount v 1) :=
    wp_backToZero hz' hword hzero hloc hnilseg (hc ▸ chunkWord_lt m nilPointer 1) (hQ _ hend)
  refine hback.mono fun cursor u hu => ?_
  rw [wp_pure, loopPost_inl]
  exact hu

/-- From oop 0, which has no object, nothing is marked that nil does not reach. -/
theorem wp_addRoot_zero (hV : Closed m extent A V) (hz : Alias m) (hnil : V nilPointer)
    (hcount : ∀ q, q % 2 = 0 → q ≤ 65532 → (m.entry q).count = 0) :
    Wp (addRoot 0) (fun _ u => ∃ R, (∀ r, R r → V r ∧ Reaches m nilPointer r) ∧
      MarkedFrom extent A V m R u) m := by
  have hs := hV.sound nilPointer hnil
  have htwo := hs.two_le
  have hin := hV.apart.inside nilPointer hs.mem
  have halike : Alike extent A m (m.setCount 0 1) := (Alike.refl hV.apart).setCount rfl (by omega)
  have hz₁ := hz.alike halike hs.mem
  have hcount₁ : ∀ q, IsOop q → ((m.setCount 0 1).entry q).count = 0 := fun q hq => by
    have h2 := hq.2.1
    rw [entry_setCount (by omega), if_neg (by omega)]
    exact hcount q hq.1 hq.2.2
  have hone : ((m.setCount 0 1).entry 0).count = 1 := by
    rw [entry_setCount (by omega), if_pos rfl]
  have hloc : (m.setCount 0 1).location 0 + 2 < 65536 := by
    rw [hz₁.location, halike.location nilPointer rfl]
    omega
  have hV₁ := halike.closed hV
  rw [addRoot, wp_bind, markObjectsAccessibleFrom, forAllObjectsAccessibleFrom, wp_bind,
    markPredicate, wp_bind, wp_countBitsOf, and_iff_right isEntry_zero,
    if_pos (hcount 0 rfl (by decide)), wp_bind, wp_countBitsOfPut,
    and_iff_right ⟨isEntry_zero, by omega⟩, wp_pure, if_pos rfl, forAllOtherObjectsAccessibleFrom,
    wp_bind, wp_lastPointerOf isEntry_zero hloc, hz₁.last]
  generalize hm₁ : m.setCount 0 1 = m₁ at halike hz₁ hcount₁ hone hloc hV₁ ⊢
  suffices hend : Wp (iterate (followPointer markPredicate markAction 0) ⟨nonPointer, 0, 2, 2⟩)
      (fun _ u => ∃ R, (∀ r, R r → V r ∧ Reaches m₁ nilPointer r) ∧
        MarkedFrom extent A V m₁ R u) m₁ by
    refine hend.mono ?_
    rintro _ u ⟨R, hR, hmarked⟩
    rw [wp_pure]
    exact ⟨R, fun r hr => ⟨(hR r hr).1, (halike.reaches hV hnil (hR r hr).2).1⟩,
      hmarked.of_alike halike hV fun r hr => (hR r hr).1⟩
  have hnone : ∃ R, (∀ r, R r → V r ∧ Reaches m₁ nilPointer r) ∧
      MarkedFrom extent A V m₁ R m₁ :=
    ⟨_, fun _ hr => hr.elim, .none hV₁.apart hcount₁⟩
  have hs₁ := hV₁.sound nilPointer hnil
  have halike₁ := Alike.refl hV₁.apart
  refine wp_iterate_of_round ?_
  rw [followPointer]
  dsimp only
  rw [if_pos (by decide), wp_bind, wp_heapChunkOfWord, and_iff_right ⟨isEntry_zero, by omega⟩,
    hz₁.chunkWord, wp_bind]
  by_cases hodd : m₁.chunkWord nilPointer 1 % 2 = 1
  · -- the class is no pointer
    rw [if_pos hodd, wp_pure, if_neg (by simp), wp_pure, loopPost_inl]
    exact wp_leaveZero hone hnone
  · have hpointer : IsPointer m₁ nilPointer 1 :=
      ⟨le_rfl, by have := hs₁.two_le_last; omega, by omega⟩
    have hcV := hV₁.pointer nilPointer 1 hnil hpointer
    have hsc := hV₁.sound _ hcV
    generalize hc : m₁.chunkWord nilPointer 1 = c at hodd hcV hsc ⊢
    rw [if_neg hodd, markPredicate, wp_bind, wp_countBitsOf, and_iff_right hsc.isOop.isEntry,
      if_pos (hcount₁ c hsc.isOop), wp_bind, wp_countBitsOfPut,
      and_iff_right ⟨hsc.isOop.isEntry, by omega⟩, wp_pure, if_pos rfl, wp_bind]
    have hcut : Cut extent A V m₁ nilPointer 1 nonPointer := by
      have hword : ∀ i < extent nilPointer, (m₁.setChunkWord nilPointer 1 nonPointer).chunkWord
          nilPointer i = if i = 1 then nonPointer else m₁.chunkWord nilPointer i := fun i hi => by
        have h1 : 1 < extent nilPointer := by omega
        rw [hV₁.apart.chunkWord_setChunkWord hs₁.mem hs₁.mem h1 hi (by decide)]
        exact if_congr (and_iff_right rfl) rfl rfl
      refine ⟨hV₁, hs₁.mem, le_rfl, by omega, by decide, by decide, ?_⟩
      rw [last, last, entry_setChunkWord (hV₁.apart.onHeap hs₁.mem), hword 0 (by omega),
        hword 1 (by omega), if_neg hz₁.notMethod]
      rfl
    have hseg := hcut.onHeap
    have hset : Alike extent A m₁ (m₁.setCount c 1) := halike₁.setCount hsc.isOop.1 (by omega)
    have hz₂ := hz₁.alike hset hs₁.mem
    have hloc₂ : (m₁.setCount c 1).location 0 = m₁.location 0 := hset.location 0 rfl
    have h2 := hsc.isOop.2.1
    have hseg₂ : ((m₁.setCount c 1).entry nilPointer).segment ≠ 15 := by
      rw [hset.entry nilPointer rfl]
      exact hseg
    have hone₂ : (((m₁.setCount c 1).setChunkWord nilPointer 1 nonPointer).entry 0).count = 1 := by
      rw [entry_setChunkWord hseg₂, entry_setCount (by omega), if_neg (by omega), hone]
    have hlocc : ((m₁.setCount c 1).setChunkWord nilPointer 1 nonPointer).location c + 2 <
        65536 := by
      rw [location_setChunkWord hseg₂, hset.location c hsc.isOop.1]
      exact hV₁.apart.location_lt hsc.mem
    rw [descend, wp_bind]
    dsimp only [Nat.reduceSub]
    rw [wp_heapChunkOfWordPut, and_iff_right ⟨isEntry_zero, by omega, by decide⟩,
      hz₂.setChunkWord, if_pos (by decide), wp_bind, wp_countBitsOfPut,
      and_iff_right ⟨isEntry_zero, by decide⟩, setCount_self hone₂, wp_bind,
      wp_lastPointerOf hsc.isOop.isEntry hlocc, hcut.last_start hsc, wp_pure, wp_pure, loopPost_inl]
    refine hcut.wp_traverse hz₁ hcount₁ hone hcV hc fun u hu => ⟨_, fun r hr => ?_, hu⟩
    rw [hr]
    exact ⟨hcV, .single ⟨1, hpointer, hc⟩⟩

/-! ## The roots of the object memory -/

/-- The guaranteed pointers from nil on. -/
def SpecialOop (r : Nat) : Prop := r % 2 = 0 ∧ 2 ≤ r ∧ r ≤ lastSpecialOop

theorem wp_markSpecialOops (hV : Closed m extent A V) (hz : Alias m)
    (hspecial : ∀ r, SpecialOop r → V r)
    (hcount : ∀ q, q % 2 = 0 → q ≤ 65532 → (m.entry q).count = 0) :
    Wp markSpecialOops (fun _ => MarkedFrom extent A V m SpecialOop) m := by
  have hlast : lastSpecialOop = 52 := rfl
  have hnil := hspecial nilPointer ⟨rfl, le_rfl, by decide⟩
  rw [markSpecialOops]
  refine (wp_forN (fun n u => n = 0 ∧ u = m ∨
    1 ≤ n ∧ ∃ R : Nat → Prop, (∀ r, R r → V r ∧ Reaches m nilPointer r) ∧
      MarkedFrom extent A V m (fun q => R q ∨ SpecialOop q ∧ q < 2 * n) u)
    (fun n u hn h => ?_) (.inl ⟨rfl, rfl⟩)).mono fun _ u h => ?_
  · rcases h with ⟨rfl, rfl⟩ | ⟨h1, R, hR, h⟩
    · refine (wp_addRoot_zero hV hz hnil hcount).mono fun _ u ⟨R, hR, h⟩ => ?_
      refine .inr ⟨le_rfl, R, hR, h.roots ?_ fun r hr => ⟨r, .inl hr, .refl⟩⟩
      rintro r (hr | ⟨⟨-, h2, -⟩, hlt⟩)
      · exact hr
      · omega
    · have hspec : SpecialOop (2 * n) := ⟨by omega, by omega, by omega⟩
      refine (h.wp_addRoot hV (hspecial _ hspec)).mono fun _ u h => ?_
      refine .inr ⟨by omega, R, hR, h.roots ?_ ?_⟩
      · rintro r (hr | ⟨hr, hlt⟩)
        · exact .inl (.inl hr)
        · have heven := hr.1
          by_cases hrn : r = 2 * n
          · exact .inr hrn
          · exact .inl (.inr ⟨hr, by omega⟩)
      · rintro r ((hr | ⟨hr, hlt⟩) | rfl)
        · exact ⟨r, .inl hr, .refl⟩
        · exact ⟨r, .inr ⟨hr, by omega⟩, .refl⟩
        · exact ⟨2 * n, .inr ⟨hspec, by omega⟩, .refl⟩
  · obtain ⟨hn, -⟩ | ⟨-, R, hR, h⟩ := h
    · cases hn
    · refine h.roots (fun r hr => .inr ⟨hr, ?_⟩) ?_
      · have h52 := hr.2.2
        omega
      · rintro r (hr | ⟨hr, -⟩)
        · exact ⟨nilPointer, ⟨rfl, le_rfl, by decide⟩, (hR r hr).2⟩
        · exact ⟨r, hr, .refl⟩

/-! ## Words that are no pointers -/

section Store

variable (h : Cut extent A V m p i v) (hold : m.chunkWord p i % 2 = 1)

include h hold

/-- The word that is overwritten was no pointer either. -/
theorem Cut.isPointer_store (hq : Sound m extent A q) :
    IsPointer (m.setChunkWord p i v) q j ↔ IsPointer m q j := by
  refine (h.isPointer_iff hq).trans (and_iff_left_of_imp ?_)
  rintro hj ⟨rfl, rfl⟩
  have heven := hj.2.2
  omega

theorem Cut.reaches_store (hq : V q) :
    Reaches (m.setChunkWord p i v) q r ↔ Reaches m q r := by
  refine ⟨fun hr => (h.reaches hq hr).1, fun hr => ?_⟩
  suffices Reaches (m.setChunkWord p i v) q r ∧ V r from this.1
  induction hr with
  | refl => exact ⟨.refl, hq⟩
  | tail _ hpt ih =>
      obtain ⟨j, hj, rfl⟩ := hpt
      obtain ⟨hreach, hVq⟩ := ih
      have hnew := (h.isPointer_store hold (h.closed.sound _ hVq)).mpr hj
      have hword := h.chunkWord_pointer (h.closed.sound _ hVq) hnew
      exact ⟨hreach.tail ⟨j, hnew, hword⟩, h.closed.pointer _ j hVq hj⟩

/-- The marks are those of the memory with the new word. -/
theorem MarkedFrom.store (hm : MarkedFrom extent A V m R u) (hR : ∀ r, R r → V r) :
    MarkedFrom extent A V (m.setChunkWord p i v) R (u.setChunkWord p i v) := by
  have ha := hm.alike.apart_alike
  have hentry : ∀ q, (u.setChunkWord p i v).entry q = u.entry q := fun q =>
    entry_setChunkWord (ha.onHeap h.mem)
  refine ⟨⟨h.closed_cut.apart, fun q hq => ?_, fun q hq => ?_, fun q j hq hj hx => ?_⟩,
    fun q hq => ?_, fun q j hq hne hj => ?_, fun q hq => ?_⟩
  · rw [hentry, h.entry, hm.alike.entry q hq]
  · rw [location_setChunkWord (ha.onHeap h.mem), location_setChunkWord h.onHeap,
      hm.alike.location q hq]
  · rw [Extra, h.entry] at hx
    rw [ha.chunkWord_setChunkWord h.mem hq h.lt_extent hj h.lt, h.chunkWord hq hj,
      hm.alike.word q j hq hj hx]
  · rw [hentry]
    refine (hm.count q hq).imp_right ?_
    rintro ⟨hone, hVq, r, hr, hrq⟩
    exact ⟨hone, hVq, r, hr, (h.reaches_store hold (hR r hr)).mpr hrq⟩
  · rw [hentry] at hne ⊢
    have hs := h.closed.sound q ((hm.count q hq).resolve_left hne).2.1
    rw [h.chunkWord_pointer hs hj]
    exact hm.pointer q j hq hne ((h.isPointer_store hold hs).mp hj)
  · rw [hentry]
    exact hm.root q hq

end Store

/-! ## The sweep after the marking -/

/-- Memories that are alike have the same references. -/
theorem Alike.references (h : Alike extent A m u) (hV : Closed m extent A V) :
    u.references (fun x => V x.1) q = m.references (fun x => V x.1) q := by
  rw [ObjectMemory.references, ObjectMemory.references]
  congr 1
  ext ⟨p, i⟩
  refine and_congr_right fun hp => ?_
  have hs := hV.sound p hp
  constructor
  · rintro ⟨hpi, hword⟩
    have hpi' := (h.isPointer_iff hs).mp hpi
    exact ⟨hpi', (h.chunkWord_eq hs hpi'.2.1).symm.trans hword⟩
  · rintro ⟨hpi, hword⟩
    exact ⟨(h.isPointer_iff hs).mpr hpi, (h.chunkWord_eq hs hpi.2.1).trans hword⟩

theorem Alike.inUse_iff (h : Alike extent A m u) (hp : p % 2 = 0) : InUse u p ↔ InUse m p := by
  rw [InUse, InUse, h.entry p hp]

theorem Alike.inUse_eq (h : Alike extent A m u) : InUse u = InUse m := by
  funext p
  by_cases hp : p % 2 = 0
  · exact propext (h.inUse_iff hp)
  · exact propext ⟨fun hu => absurd hu.even hp, fun hm => absurd hm.even hp⟩

theorem Alike.sweepable (h : Alike extent (InUse m) m u) (hm : Sweepable extent V m) :
    Sweepable extent V u := by
  have hentry := h.entry
  refine ⟨hm.tiled.congr (fun p hp => by rw [hentry p hp.1]) (fun p hp => by rw [hentry p hp.1])
    fun p hp => h.location p hp.1, ?_, fun p hp => ?_, fun p hp => ?_, ?_⟩
  · rw [h.inUse_eq]
    exact h.closed hm.closed
  · rw [h.inUse_eq] at hp
    rw [h.size_eq hp]
    exact hm.two_le p hp
  · rw [h.inUse_eq] at hp
    rw [h.size_eq hp]
    exact hm.size_le p hp
  · rw [hentry 0 rfl]
    exact hm.reserved

/-- What the sweep leaves, compared with the memory before the marking. -/
theorem Swept.of_alike (h : Swept extent V m' u) (ha : Alike extent (InUse m) m m')
    (hV : Closed m extent (InUse m) V) : Swept extent V m u := by
  refine ⟨fun p hp => ?_, fun p hp hle => (h.location p hp hle).trans (ha.location p hp),
    fun p i hp hi hx => ?_, fun p hp hne => ?_, h.nil, fun s k hs h2 h20 => ?_, fun p hp => ?_⟩
  · rw [h.entry p hp, ha.entry p hp]
  · have hin := (hV.sound p hp).mem
    rw [h.kept p i hp hi fun hx' => hx ((ha.extra_iff hin).mp hx'), ha.word p i hin hi hx]
  · rw [← ha.references hV]
    exact h.count p hp hne
  · rw [← ha.inUse_eq]
    exact h.lists s k hs h2 h20
  · rw [← ha.inUse_eq] at hp
    exact h.listed p hp

theorem MarkedFrom.wp_sweep (h : MarkedFrom extent (InUse m) V m R u) (hm : Sweepable extent V m)
    (hR : ∀ p, V p ↔ ∃ r, R r ∧ Reaches m r p) (hnil : V nilPointer) :
    Wp rectifyCountsAndDeallocateGarbage (fun _ => Swept extent V m) u := by
  have hRV : ∀ r, R r → V r := fun r hr => (hR r).mpr ⟨r, hr, .refl⟩
  refine (wp_rectifyCountsAndDeallocateGarbage (h.alike.sweepable hm) (fun p hp => ?_)
    (fun p hp hV => ?_) hnil).mono fun _ u' hu' => hu'.of_alike h.alike hm.closed
  · have hoop := (hm.closed.sound p hp).isOop
    have hne := (h.marked_iff hm.closed hRV hoop).mpr ((hR p).mp hp)
    exact ((h.count p hoop).resolve_left hne).1
  · by_contra hne
    exact hV ((hR p).mpr ((h.marked_iff hm.closed hRV hp).mp hne))

/-- What a collection leaves of `m`, of whose objects `V` stay. The counts of `E` also
tell of references from outside. -/
structure Collected (extent : Nat → Nat) (V E : Nat → Prop) (m u : ObjectMemory) : Prop where
  entry : ∀ p, p % 2 = 0 → u.entry p = { m.entry p with count := (u.entry p).count }
  location : ∀ p, p % 2 = 0 → p ≤ 65532 → u.location p = m.location p
  kept : ∀ p i, V p → i < extent p → ¬Extra m extent p i → u.chunkWord p i = m.chunkWord p i
  count : ∀ p, V p → p ≠ nilPointer → ¬E p →
    Tells (u.entry p).count (m.references (fun x => V x.1) p)
  lists : ∀ s k, s < 15 → 2 ≤ k → k ≤ 20 → ∃ l,
    Linked (u.chunkWord · 1) nonPointer (u.chunkHead s k) l ∧ ∀ p ∈ l, InUse m p
  listed : ∀ p, InUse m p → (OnFreeChunkList u p ↔ ¬V p)

namespace Collected

variable {E : Nat → Prop}

theorem of_swept (h : Swept extent V m u) : Collected extent V (fun _ => False) m u :=
  ⟨h.entry, h.location, h.kept, fun p hp hne _ => h.count p hp hne, h.lists, h.listed⟩

section Counted

variable (h : Collected extent V E m u) (hV : Closed m extent (InUse m) V)

include h hV

theorem setCount (hp : V p) (hc : c < 256) :
    Collected extent V (fun q => E q ∨ q = p) m (u.setCount p c) := by
  have hpin := (hV.sound p hp).mem
  have heven := hpin.even
  have hword : ∀ q i, InUse m q → (u.setCount p c).chunkWord q i = u.chunkWord q i :=
    fun q i hq => by
      have hqeven := hq.even
      refine chunkWord_setCount hc (by omega) ?_
      rw [h.entry q hqeven]
      exact hV.apart.onHeap hq
  have hhead : ∀ s k, s < 15 → (u.setCount p c).chunkHead s k = u.chunkHead s k := fun s k hs =>
    chunkHead_setField (by omega)
  have hlists : ∀ s k, s < 15 → 2 ≤ k → k ≤ 20 → ∃ l,
      Linked (u.chunkWord · 1) nonPointer (u.chunkHead s k) l ∧
      Linked ((u.setCount p c).chunkWord · 1) nonPointer ((u.setCount p c).chunkHead s k) l ∧
      ∀ q ∈ l, InUse m q := fun s k hs h2 h20 => by
    obtain ⟨l, hl, hin⟩ := h.lists s k hs h2 h20
    refine ⟨l, hl, ?_, hin⟩
    rw [hhead s k hs]
    exact hl.congr fun q hq => hword q 1 (hin q hq)
  refine ⟨fun q hq => ?_, fun q hq hle => ?_, fun q i hq hi hx => ?_, fun q hq hne hE => ?_,
    fun s k hs h2 h20 => ?_, fun q hq => ?_⟩
  · rw [entry_setCount hc]
    split
    · next hqp => rw [hqp, h.entry p heven]
    · exact h.entry q hq
  · exact (location_setField (by omega)).trans (h.location q hq hle)
  · rw [hword q i (hV.sound q hq).mem, h.kept q i hq hi hx]
  · obtain ⟨hE, hqp⟩ := not_or.mp hE
    rw [entry_setCount hc, if_neg hqp]
    exact h.count q hq hne hE
  · obtain ⟨l, -, hl, hin⟩ := hlists s k hs h2 h20
    exact ⟨l, hl, hin⟩
  · rw [← h.listed q hq]
    constructor
    · rintro ⟨s, k, l, hs, h2, h20, hl, hmem⟩
      obtain ⟨l', hl', hnew, -⟩ := hlists s k hs h2 h20
      exact ⟨s, k, l', hs, h2, h20, hl', hl.unique hnew ▸ hmem⟩
    · rintro ⟨s, k, l, hs, h2, h20, hl, hmem⟩
      obtain ⟨l', hl', hnew, -⟩ := hlists s k hs h2 h20
      exact ⟨s, k, l', hs, h2, h20, hnew, hl.unique hl' ▸ hmem⟩

omit hV in
theorem mono {E' : Nat → Prop} (hE : ∀ p, E p → E' p) : Collected extent V E' m u :=
  ⟨h.entry, h.location, h.kept, fun p hp hne hn => h.count p hp hne fun hEp => hn (hE p hEp),
    h.lists, h.listed⟩

theorem countedUp (hp : V p) : Collected extent V (fun q => E q ∨ q = p) m (u.countedUp p) := by
  unfold ObjectMemory.countedUp
  split
  · exact h.setCount hV hp (by omega)
  · exact h.mono fun _ => .inl

end Counted

end Collected

end ObjectMemory

end Crosstalk
