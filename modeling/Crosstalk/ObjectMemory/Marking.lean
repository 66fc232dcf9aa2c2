import Crosstalk.ObjectMemory.Graph

/-!
# Marking

`markObjectsAccessibleFrom` marks exactly the objects that can be reached from
its root through objects that were not marked (the section *MarkingGarbage* of
the source).
-/

namespace Crosstalk

/-- The predicate tests for an unmarked object and marks it. -/
def markPredicate (objectPointer : Nat) : OM Bool := do
  if (← countBitsOf objectPointer) = 0 then
    countBitsOfPut objectPointer 1
    return true
  else
    return false

/-- The action restores the mark to count 1. -/
def markAction (objectPointer : Nat) : OM Unit := countBitsOfPut objectPointer 1

def markObjectsAccessibleFrom (rootObjectPointer : Nat) : OM Nat :=
  forAllObjectsAccessibleFrom rootObjectPointer markPredicate markAction

def addRoot (rootObjectPointer : Nat) : OM Unit := do
  let _ ← markObjectsAccessibleFrom rootObjectPointer

namespace ObjectMemory

variable {extent : Nat → Nat} {A V : Nat → Prop} {base root : Nat}
  {frames : List (Nat × Nat)} {m m' u : ObjectMemory} {p q v i o : Nat}

/-- `p` has been marked on the way from `m` to `u`. -/
structure Fresh (m u : ObjectMemory) (p : Nat) : Prop where
  even : p % 2 = 0
  before : (m.entry p).count = 0
  after : (u.entry p).count = 1

/-- `root` finds `p`: the way there has unmarked objects only. -/
def Finds (m : ObjectMemory) (root p : Nat) : Prop := (m.entry root).count = 0 ∧
  Relation.ReflTransGen (fun p q => PointsTo m p q ∧ (m.entry q).count = 0) root p

theorem Finds.tail (h : Finds m root p) (hpq : PointsTo m p q) (hq : (m.entry q).count = 0) :
    Finds m root q := ⟨h.1, h.2.tail ⟨hpq, hq⟩⟩

theorem Finds.reaches (h : Finds m root p) : Reaches m root p :=
  h.2.lift id fun _ _ hpq => hpq.1

/-- The depth first search from `root` through the unmarked objects of `m`. -/
structure Searching (extent : Nat → Nat) (A V : Nat → Prop) (m : ObjectMemory) (root : Nat)
    (frames : List (Nat × Nat)) (u : ObjectMemory) : Prop where
  same : Same extent A m u
  stack : Stack extent A u frames
  count : ∀ p, p % 2 = 0 → (u.entry p).count = (m.entry p).count ∨
    Fresh m u p ∧ V p ∧ Finds m root p
  entered : ∀ p ∈ frames.map Prod.fst, Fresh m u p
  /-- The pointers that the objects on the stack have passed are marked. -/
  passed : ∀ p o, (p, o) ∈ frames → ∀ i, o ≤ i → IsPointer m p i →
    (u.entry (m.chunkWord p i)).count ≠ 0
  /-- And so are all pointers of the objects that the search has left. -/
  left : ∀ p, Fresh m u p → p ∉ frames.map Prod.fst → ∀ i, IsPointer m p i →
    (u.entry (m.chunkWord p i)).count ≠ 0
  root : (u.entry root).count ≠ 0

theorem Sound.two_le_last (h : Sound u extent A p) : 2 ≤ u.last p := by
  have htwo := h.two_le
  rw [h.extent_eq] at htwo
  refine ObjectMemory.two_le_last ?_
  unfold space at htwo
  split at htwo
  · exact htwo
  · next hs =>
      simp only [hugeSize] at hs
      omega

theorem Stack.next (h : Stack extent A u ((v, o + 1) :: frames)) (ho : 1 ≤ o) :
    Stack extent A u ((v, o) :: frames) := by
  have hv := h.sound v _ List.mem_cons_self
  have hoff := h.offset v _ List.mem_cons_self
  refine ⟨h.apart, h.nodup, fun p o' hp => ?_, fun p o' hp => ?_, ?_⟩
  · rcases List.mem_cons.mp hp with heq | hp
    · obtain ⟨rfl, rfl⟩ := Prod.mk.inj heq
      exact hv
    · exact h.sound p o' (List.mem_cons_of_mem _ hp)
  · rcases List.mem_cons.mp hp with heq | hp
    · obtain ⟨rfl, rfl⟩ := Prod.mk.inj heq
      exact ⟨ho, by omega⟩
    · exact h.offset p o' (List.mem_cons_of_mem _ hp)
  · have hentered := h.entered
    cases frames with
    | nil => exact List.IsChain.singleton _
    | cons f frames =>
        rw [List.isChain_cons_cons] at hentered ⊢
        exact hentered

/-- Entering the object that the current one points to. -/
theorem Stack.push (h : Stack extent A u ((v, o) :: frames)) (ho : o < u.last v)
    (hq : Sound u extent A (u.chunkWord v o))
    (hfresh : u.chunkWord v o ∉ ((v, o) :: frames).map Prod.fst) :
    Stack extent A u ((u.chunkWord v o, u.last (u.chunkWord v o)) :: (v, o) :: frames) := by
  have htwo := hq.two_le_last
  refine ⟨h.apart, List.nodup_cons.mpr ⟨hfresh, h.nodup⟩, fun p o' hp => ?_, fun p o' hp => ?_,
    List.isChain_cons_cons.mpr ⟨⟨ho, rfl⟩, h.entered⟩⟩
  · rcases List.mem_cons.mp hp with heq | hp
    · obtain ⟨rfl, rfl⟩ := Prod.mk.inj heq
      exact hq
    · exact h.sound p o' hp
  · rcases List.mem_cons.mp hp with heq | hp
    · obtain ⟨rfl, rfl⟩ := Prod.mk.inj heq
      exact ⟨by omega, le_rfl⟩
    · exact h.offset p o' hp

/-! ## The measure -/

def unmarked (u : ObjectMemory) : Finset Nat :=
  (Finset.range 65536).filter fun p => (u.entry p).count = 0

/-- Every round marks an object or passes a pointer. -/
def searchMeasure (frames : List (Nat × Nat)) (u : ObjectMemory) : Nat :=
  u.unmarked.card * 65536 + (frames.map Prod.snd).sum

theorem unmarked_setCount (hp : p < 65536) (hc : (u.entry p).count = 0) :
    (u.setCount p 1).unmarked.card < u.unmarked.card := by
  refine Finset.card_lt_card (Finset.ssubset_iff_of_subset (fun q hq => ?_) |>.mpr ⟨p, ?_, ?_⟩)
  · rw [unmarked, Finset.mem_filter, entry_setCount (by omega)] at hq
    rw [unmarked, Finset.mem_filter]
    refine ⟨hq.1, ?_⟩
    by_cases hqp : q = p
    · rw [hqp]
      exact hc
    · rw [if_neg hqp] at hq
      exact hq.2
  · rw [unmarked, Finset.mem_filter, Finset.mem_range]
    exact ⟨hp, hc⟩
  · rw [unmarked, Finset.mem_filter, entry_setCount (by omega), if_pos rfl]
    simp

/-! ## The rounds of the search -/

namespace Searching

variable (hV : Closed m extent A V) (h : Searching extent A V m root ((v, o) :: frames) u)

include h

theorem current : Fresh m u v := h.entered v (by simp)

theorem mem_V (hp : p ∈ ((v, o) :: frames).map Prod.fst) : V p ∧ Finds m root p := by
  have hf := h.entered p hp
  rcases h.count p hf.even with heq | ⟨-, hVp⟩
  · rw [hf.before, hf.after] at heq
    cases heq
  · exact hVp

include hV

theorem chunkWord_eq (hi : i < u.last v) : u.chunkWord v i = m.chunkWord v i := by
  have hv := hV.sound v (h.mem_V (by simp)).1
  rw [h.same.last_eq hv] at hi
  exact h.same.chunkWord_eq hv hi

omit h in
/-- Passing a pointer that is marked, or no object. -/
theorem next (h : Searching extent A V m root ((v, o + 1) :: frames) u) (ho : 1 ≤ o)
    (hmarked : u.chunkWord v o % 2 = 0 → (u.entry (u.chunkWord v o)).count ≠ 0) :
    Searching extent A V m root ((v, o) :: frames) u ∧
      searchMeasure ((v, o) :: frames) u < searchMeasure ((v, o + 1) :: frames) u := by
  have hoff := (h.stack.offset v _ List.mem_cons_self).2
  have hword := h.chunkWord_eq hV (i := o) (by omega)
  refine ⟨⟨h.same, h.stack.next ho, h.count, h.entered, fun p o' hp i hi hpi => ?_, h.left,
    h.root⟩, ?_⟩
  · rcases List.mem_cons.mp hp with heq | hp
    · obtain ⟨rfl, rfl⟩ := Prod.mk.inj heq
      rcases Nat.eq_or_lt_of_le hi with rfl | hi
      · rw [← hword]
        refine hmarked ?_
        rw [hword]
        exact hpi.2.2
      · exact h.passed p (o' + 1) List.mem_cons_self i (by omega) hpi
    · exact h.passed p o' (List.mem_cons_of_mem _ hp) i hi hpi
  · simp only [searchMeasure, List.map_cons, List.sum_cons]
    omega

omit h in
/-- Entering an unmarked object. -/
theorem enter (h : Searching extent A V m root ((v, o + 1) :: frames) u) (ho : 1 ≤ o)
    (heven : u.chunkWord v o % 2 = 0) (hc : (u.entry (u.chunkWord v o)).count = 0) :
    Searching extent A V m root
        ((u.chunkWord v o, (u.setCount (u.chunkWord v o) 1).last (u.chunkWord v o)) ::
          (v, o) :: frames) (u.setCount (u.chunkWord v o) 1) ∧
      searchMeasure ((u.chunkWord v o, (u.setCount (u.chunkWord v o) 1).last (u.chunkWord v o)) ::
        (v, o) :: frames) (u.setCount (u.chunkWord v o) 1) <
          searchMeasure ((v, o + 1) :: frames) u := by
  have hoff := (h.stack.offset v _ List.mem_cons_self).2
  have hword := h.chunkWord_eq hV (i := o) (by omega)
  obtain ⟨hVv, hreach⟩ := h.mem_V (p := v) (by simp)
  have hpi : IsPointer m v o := by
    refine ⟨ho, ?_, hword ▸ heven⟩
    rw [← h.same.last_eq (hV.sound v hVv)]
    omega
  have hVq : V (u.chunkWord v o) := by
    rw [hword]
    exact hV.pointer v o hVv hpi
  have hq := hV.sound _ hVq
  generalize hqdef : u.chunkWord v o = q at *
  have hqu := h.same.sound hq
  have hsame := same_setCount h.stack.apart hq.mem (show 1 < 256 by omega)
  have hentry : ∀ p, ((u.setCount q 1).entry p).count =
      if p = q then 1 else (u.entry p).count := by
    intro p
    rw [entry_setCount (by omega)]
    split <;> rfl
  have hmono : ∀ p, (u.entry p).count ≠ 0 → ((u.setCount q 1).entry p).count ≠ 0 := by
    intro p hp
    rw [hentry]
    split
    · omega
    · exact hp
  have hbefore : (m.entry q).count = 0 := by
    rcases h.count q heven with heq | ⟨hf, -⟩
    · rw [← heq, hc]
    · exact hf.before
  have hfresh : ∀ p, Fresh m u p → p ≠ q := by
    rintro p hp rfl
    rw [hp.after] at hc
    cases hc
  have hfresh' : ∀ p, p ≠ q → (Fresh m (u.setCount q 1) p ↔ Fresh m u p) := by
    intro p hne
    have hcount := hentry p
    rw [if_neg hne] at hcount
    exact ⟨fun hp => ⟨hp.even, hp.before, hcount ▸ hp.after⟩,
      fun hp => ⟨hp.even, hp.before, hcount.trans hp.after⟩⟩
  have hnew : Fresh m (u.setCount q 1) q := ⟨heven, hbefore, by rw [hentry, if_pos rfl]⟩
  have hnotin : q ∉ ((v, o) :: frames).map Prod.fst := fun hm => hfresh q (h.entered q hm) rfl
  have hstack := (h.stack.next ho).same hsame
  have hlastv : o < (u.setCount q 1).last v := by
    rw [hsame.last_eq (h.stack.sound v _ List.mem_cons_self)]
    omega
  have hwordv : (u.setCount q 1).chunkWord v o = q := by
    rw [hsame.chunkWord_eq (h.stack.sound v _ List.mem_cons_self) (by omega), hqdef]
  refine ⟨⟨h.same.trans hsame, ?_, fun p hp => ?_, fun p hp => ?_, fun p o' hp i hi hpi' => ?_,
    fun p hp hout i hpi' => ?_, hmono _ h.root⟩, ?_⟩
  · have := hstack.push hlastv (by rw [hwordv]; exact hsame.sound hqu) (by rwa [hwordv])
    rwa [hwordv] at this
  · by_cases hpq : p = q
    · subst hpq
      exact .inr ⟨hnew, hVq, hreach.tail ⟨o, hpi, hword.symm⟩ hbefore⟩
    · rw [hfresh' p hpq, hentry, if_neg hpq]
      exact h.count p hp
  · rcases List.mem_cons.mp hp with rfl | hp
    · exact hnew
    · have hp' := h.entered p hp
      exact (hfresh' p (hfresh p hp')).mpr hp'
  · rcases List.mem_cons.mp hp with heq | hp
    · obtain ⟨rfl, rfl⟩ := Prod.mk.inj heq
      have hlt := hpi'.2.1
      rw [hsame.last_eq hqu, h.same.last_eq hq] at hi
      omega
    · rcases List.mem_cons.mp hp with heq | hp
      · obtain ⟨rfl, rfl⟩ := Prod.mk.inj heq
        rcases Nat.eq_or_lt_of_le hi with rfl | hi
        · rw [← hword, hentry, if_pos rfl]
          omega
        · exact hmono _ (h.passed p (o' + 1) List.mem_cons_self i (by omega) hpi')
      · exact hmono _ (h.passed p o' (List.mem_cons_of_mem _ hp) i hi hpi')
  · have hpq : p ≠ q := fun hpq => hout (by simp [hpq])
    exact hmono _ (h.left p ((hfresh' p hpq).mp hp)
      (fun hm => hout (List.mem_cons_of_mem _ hm)) i hpi')
  · have hcard := unmarked_setCount hq.isOop.isEntry.2 hc
    have hlast : (u.setCount q 1).last q ≤ 65515 := by
      have := (hsame.sound hqu).last_le_extent
      have := h.stack.apart.inside q hqu.mem
      omega
    simp only [searchMeasure, List.map_cons, List.sum_cons]
    omega

omit h hV in
/-- Leaving an object all of whose pointers are marked. -/
theorem leave {w : Nat} (h : Searching extent A V m root ((v, 1) :: (w, o) :: frames) u) :
    Searching extent A V m root ((w, o) :: frames) u ∧
      searchMeasure ((w, o) :: frames) u < searchMeasure ((v, 1) :: (w, o) :: frames) u := by
  refine ⟨⟨h.same, h.stack.tail, h.count, fun p hp => h.entered p (List.mem_cons_of_mem _ hp),
    fun p o' hp => h.passed p o' (List.mem_cons_of_mem _ hp), fun p hp hout i hpi => ?_,
    h.root⟩, ?_⟩
  · by_cases hpv : p = v
    · subst hpv
      exact h.passed p 1 List.mem_cons_self i hpi.1 hpi
    · exact h.left p hp (fun hm => (List.mem_cons.mp hm).elim hpv hout) i hpi
  · simp only [searchMeasure, List.map_cons, List.sum_cons]
    omega

end Searching

/-- The traversal with the marking predicate and action is that search. -/
theorem Searching.visitor (hV : Closed m extent A V) :
    Visitor extent A markPredicate markAction (Searching extent A V m root) searchMeasure := by
  refine ⟨fun frames u h => h.stack, fun v o frames u h ho hodd => ?_,
    fun v o frames u t base h ho heven hr => ?_, fun v w o frames u t base h hr => ?_⟩
  · exact Searching.next hV h ho fun heven => by omega
  · have hoff := (h.stack.offset v _ List.mem_cons_self).2
    have hVq : V (u.chunkWord v o) := by
      have hVv := (h.mem_V (p := v) (by simp)).1
      have hword := h.chunkWord_eq hV (i := o) (by omega)
      rw [hword] at heven ⊢
      refine hV.pointer v o hVv ⟨ho, ?_, heven⟩
      rw [← h.same.last_eq (hV.sound v hVv)]
      omega
    have hq := hV.sound _ hVq
    rw [markPredicate, wp_bind, wp_countBitsOf, and_iff_right hq.isOop.isEntry]
    by_cases hc : (u.entry (u.chunkWord v o)).count = 0
    · -- an unmarked object is not on the stack
      have hout : u.chunkWord v o ∉ v :: frames.map Prod.fst := fun hm => by
        have := (h.entered _ hm).after
        omega
      rw [hr.count_eq heven hout, if_pos hc, wp_bind, wp_countBitsOfPut,
        and_iff_right ⟨hq.isOop.isEntry, by omega⟩, wp_pure]
      obtain ⟨hs, hμ⟩ := Searching.enter hV h ho heven hc
      refine ⟨u.setCount (u.chunkWord v o) 1, hr.setCount h.stack.tail hq.mem (by omega)
        (fun hm => hout (List.mem_cons_of_mem _ hm)) fun p hp _ => hp, ?_, fun _ => ⟨hs, hμ⟩,
        fun hf => by cases hf⟩
      exact (same_setCount h.stack.apart hq.mem (by omega)).last_eq
        (h.stack.sound v _ List.mem_cons_self)
    · have hc' : (t.entry (u.chunkWord v o)).count ≠ 0 := by
        rcases hr.count _ heven with heq | ⟨-, hpos⟩
        · rw [heq]
          exact hc
        · omega
      rw [if_neg hc', wp_pure]
      exact ⟨u, hr, rfl, (fun hf => by cases hf), fun _ => Searching.next hV h ho fun _ => hc⟩
  · have hv := h.current
    have hVv := (h.mem_V (p := v) (by simp)).1
    have hsv := hV.sound v hVv
    rw [markAction, wp_countBitsOfPut, and_iff_right ⟨hsv.isOop.isEntry, by omega⟩]
    have hnodup := (List.nodup_cons.mp h.stack.nodup).1
    have hself : u.setCount v 1 = u := setCount_self hv.after
    have hr' := hr.setCount (l := w :: frames.map Prod.fst) h.stack.tail hsv.mem
      (show 1 < 256 by omega) hnodup fun p hp hne => (List.mem_cons.mp hp).resolve_left hne
    rw [hself] at hr'
    have hentered := (List.isChain_cons_cons.mp h.stack.entered).1
    exact ⟨u, hr', h.leave.1, hentered.1, hentered.2, h.leave.2⟩

/-! ## Marking from one root -/

/-- What has been marked from `root`, between `m` and `m'`. -/
structure Marked (extent : Nat → Nat) (A V : Nat → Prop) (m : ObjectMemory) (root : Nat)
    (m' : ObjectMemory) : Prop where
  same : Same extent A m m'
  count : ∀ p, p % 2 = 0 → (m'.entry p).count = (m.entry p).count ∨
    Fresh m m' p ∧ V p ∧ Finds m root p
  pointer : ∀ p i, Fresh m m' p → IsPointer m p i → (m'.entry (m.chunkWord p i)).count ≠ 0
  root : (m'.entry root).count ≠ 0

/-- The search ends with the object that it started with. -/
theorem Searching.marked (h : Searching extent A V m root [(v, 1)] u) (heven : root % 2 = 0)
    (hm : Reversed extent A base [] [] u m') : Marked extent A V m root m' := by
  have hcount : ∀ p, p % 2 = 0 → (m'.entry p).count = (u.entry p).count := fun p hp =>
    hm.count_eq hp (by simp)
  have hfresh : ∀ p, Fresh m m' p ↔ Fresh m u p := fun p =>
    ⟨fun hp => ⟨hp.even, hp.before, hcount p hp.even ▸ hp.after⟩,
      fun hp => ⟨hp.even, hp.before, (hcount p hp.even).trans hp.after⟩⟩
  refine ⟨h.same.trans hm.same, fun p hp => ?_, fun p i hp hpi => ?_, ?_⟩
  · rw [hcount p hp, hfresh p]
    exact h.count p hp
  · rw [hcount _ hpi.2.2]
    have hp' := (hfresh p).mp hp
    by_cases hpv : p = v
    · subst hpv
      exact h.passed p 1 List.mem_cons_self i hpi.1 hpi
    · exact h.left p hp' (by simpa using hpv) i hpi
  · rw [hcount root heven]
    exact h.root

theorem Searching.start (hV : Closed m extent A V) (hroot : V root)
    (hc : (m.entry root).count = 0) :
    Searching extent A V m root [(root, m.last root)] (m.setCount root 1) := by
  have hs := hV.sound root hroot
  have heven := hs.isOop.1
  have hsame := same_setCount hV.apart hs.mem (show 1 < 256 by omega)
  have hcount : ∀ p, ((m.setCount root 1).entry p).count =
      if p = root then 1 else (m.entry p).count := by
    intro p
    rw [entry_setCount (by omega)]
    split <;> rfl
  have hfresh : Fresh m (m.setCount root 1) root := ⟨heven, hc, by rw [hcount, if_pos rfl]⟩
  have htwo := hs.two_le_last
  have honly : ∀ p, Fresh m (m.setCount root 1) p → p = root := fun p hp => by
    by_contra hne
    have := hp.after
    rw [hcount, if_neg hne, hp.before] at this
    cases this
  have hstack : Stack extent A m [(root, m.last root)] := by
    refine ⟨hV.apart, by simp, fun p o hp => ?_, fun p o hp => ?_, List.IsChain.singleton _⟩ <;>
      obtain ⟨rfl, rfl⟩ := Prod.mk.inj (List.mem_singleton.mp hp)
    · exact hs
    · exact ⟨by omega, le_rfl⟩
  refine ⟨hsame, hstack.same hsame, fun p hp => ?_, fun p hp => ?_, fun p o hp i hi hpi => ?_,
    fun p hp hout i hpi => ?_, ?_⟩
  · by_cases hpr : p = root
    · subst hpr
      exact .inr ⟨hfresh, hroot, hc, .refl⟩
    · exact .inl (by rw [hcount, if_neg hpr])
  · obtain rfl : p = root := by simpa using hp
    exact hfresh
  · obtain ⟨rfl, rfl⟩ := Prod.mk.inj (List.mem_singleton.mp hp)
    exact absurd hpi.2.1 (by omega)
  · exact absurd (honly p hp) (by simpa using hout)
  · rw [hcount, if_pos rfl]
    omega

/-- The search is back at its root, which gets its mark again. -/
theorem Searching.ended {t : ObjectMemory} (h : Searching extent A V m root [(v, 1)] u)
    (heven : root % 2 = 0) (hr : Reversed extent A base [v] [] u t) :
    Marked extent A V m root (t.setCount v 1) := by
  have hv := h.entered v (by simp)
  have hself : u.setCount v 1 = u := setCount_self hv.after
  have hr' := hr.setCount (l := []) ⟨h.stack.apart, by simp, by simp, by simp, .nil⟩
    (h.stack.sound v 1 (by simp)).mem (show 1 < 256 by omega) (by simp) (by simp)
  rw [hself] at hr'
  exact h.marked heven hr'

/-- `markObjectsAccessibleFrom` ends, and has marked what can be reached. -/
theorem wp_markObjectsAccessibleFrom (hV : Closed m extent A V) (hroot : V root) :
    Wp (markObjectsAccessibleFrom root) (fun _ m' => Marked extent A V m root m') m := by
  have hs := hV.sound root hroot
  have hentry := hs.isOop.isEntry
  rw [markObjectsAccessibleFrom, forAllObjectsAccessibleFrom, wp_bind, markPredicate, wp_bind,
    wp_countBitsOf, and_iff_right hentry]
  by_cases hc : (m.entry root).count = 0
  · rw [if_pos hc, wp_bind, wp_countBitsOfPut, and_iff_right ⟨hentry, by omega⟩, wp_pure,
      if_pos rfl, forAllOtherObjectsAccessibleFrom, wp_bind]
    have hstart := Searching.start hV hroot hc
    have hsame := hstart.same
    rw [wp_lastPointerOf hentry (hsame.apart_same.location_lt hs.mem), hsame.last_eq hs]
    refine (Searching.visitor hV).wp_traverse (by decide) (fun v size u t h hr => ?_) hstart
      (.refl hsame.apart_same _ _) ⟨by rw [hsame.last_eq hs], fun _ => (hsame.last_eq hs).symm⟩
    -- the search is back at the root
    have hv := (h.stack.sound v 1 (by simp)).isOop
    refine wp_iterate_of_round ?_
    rw [followPointer]
    dsimp only
    rw [if_neg (by omega), wp_bind, markAction, wp_countBitsOfPut,
      and_iff_right ⟨hv.isEntry, by omega⟩, if_pos rfl, wp_pure, loopPost_inr]
    exact h.ended hs.isOop.1 hr
  · rw [if_neg hc, wp_pure, if_neg (by simp), wp_pure]
    refine ⟨.refl hV.apart, fun p _ => .inl rfl, fun p i hp _ => ?_, hc⟩
    have := hp.before.symm.trans hp.after
    cases this

/-- The objects that have been marked are those that the root finds. -/
theorem Marked.fresh_iff (h : Marked extent A V m root m') (hroot : root % 2 = 0) :
    Fresh m m' p ↔ Finds m root p := by
  have hchanged : ∀ q, q % 2 = 0 → (m.entry q).count = 0 → (m'.entry q).count ≠ 0 → Fresh m m' q :=
    fun q hq h0 hne => ((h.count q hq).resolve_left fun hsame => hne (hsame.trans h0)).1
  constructor
  · intro hp
    refine ((h.count p hp.even).resolve_left fun hsame => ?_).2.2
    have := hp.before.symm.trans (hsame.symm.trans hp.after)
    cases this
  · rintro ⟨h0, hfinds⟩
    induction hfinds with
    | refl => exact hchanged root hroot h0 h.root
    | tail _ hpq ih =>
        obtain ⟨⟨i, hi, rfl⟩, hq⟩ := hpq
        exact hchanged _ hi.2.2 hq (h.pointer _ i ih hi)

end ObjectMemory

end Crosstalk
