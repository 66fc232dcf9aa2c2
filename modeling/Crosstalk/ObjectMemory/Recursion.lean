import Crosstalk.ObjectMemory.Interface
import Crosstalk.ObjectMemory.Marking

/-!
# Marking with and without a stack

The source has two versions of the traversal, one that reverses pointers and a
recursive one. Marking leaves the same memory in both, the extra words of huge
objects apart: the objects that the root finds have the count 1, and no other
word has changed.
-/

namespace Crosstalk

/-- The function objects that a traversal calls. -/
structure Visit where
  predicate : Nat → OM Bool
  action : Nat → OM Unit

/-- The pointers of an object from `offset` up to `limit`, each followed before
the next; after the last one the action. -/
def Visit.followFrom (visit : Visit) (objectPointer offset limit : Nat) : OM Unit := do
  if offset ≤ limit then
    let next ← heapChunkOfWord objectPointer offset
    if ← (if isIntegerObject next then pure false else visit.predicate next) then
      let size ← lastPointerOf next
      visit |>.followFrom next 1 (size - 1)
      visit |>.followFrom objectPointer (offset + 1) limit
    else
      visit |>.followFrom objectPointer (offset + 1) limit
  else
    visit.action objectPointer
partial_fixpoint

def followFrom (predicate : Nat → OM Bool) (action : Nat → OM Unit)
    (objectPointer offset limit : Nat) : OM Unit :=
  Visit.followFrom ⟨predicate, action⟩ objectPointer offset limit

/-- The version of `RECURSIVE_MARKING`. -/
def forAllOtherObjectsAccessibleFromRecursive (objectPointer : Nat) (predicate : Nat → OM Bool)
    (action : Nat → OM Unit) : OM Nat := do
  let size ← lastPointerOf objectPointer
  followFrom predicate action objectPointer 1 (size - 1)
  return objectPointer

def forAllObjectsAccessibleFromRecursive (objectPointer : Nat) (predicate : Nat → OM Bool)
    (action : Nat → OM Unit) : OM Nat := do
  if ← predicate objectPointer then
    forAllOtherObjectsAccessibleFromRecursive objectPointer predicate action
  else
    return nilPointer

def markObjectsAccessibleFromRecursive (rootObjectPointer : Nat) : OM Nat :=
  forAllObjectsAccessibleFromRecursive rootObjectPointer markPredicate markAction

namespace ObjectMemory

variable {extent : Nat → Nat} {A V : Nat → Prop} {root : Nat} {m m' u u' : ObjectMemory}
  {p q s w i o : Nat}

/-! ## The recursive version -/

/-- What the recursion has marked on the way from `m` to `u`. -/
structure Marking (extent : Nat → Nat) (A V : Nat → Prop) (m : ObjectMemory) (root : Nat)
    (u : ObjectMemory) : Prop where
  touched : Touched extent A m u
  heap : ∀ s w, s ≠ 15 → u.word s w = m.word s w
  count : ∀ p, p % 2 = 0 → (u.entry p).count = (m.entry p).count ∨
    Fresh m u p ∧ V p ∧ Finds m root p

/-- Marks are kept, and the pointers of what is new are marked. -/
structure Extends (m u u' : ObjectMemory) : Prop where
  keep : ∀ p, (u.entry p).count ≠ 0 → (u'.entry p).count = (u.entry p).count
  pointer : ∀ p i, (u.entry p).count = 0 → (u'.entry p).count ≠ 0 →
    IsPointer m p i → (u'.entry (m.chunkWord p i)).count ≠ 0

namespace Extends

theorem refl (m u : ObjectMemory) : Extends m u u :=
  ⟨fun _ _ => rfl, fun _ _ h0 hne => absurd h0 hne⟩

variable (h : Extends m u u')

include h

theorem marked (hp : (u.entry p).count ≠ 0) : (u'.entry p).count ≠ 0 := by
  rwa [h.keep p hp]

theorem trans {u'' : ObjectMemory} (h' : Extends m u' u'') : Extends m u u'' := by
  refine ⟨fun p hne => ?_, fun p i h0 hne hi => ?_⟩
  · rw [h'.keep p (h.marked hne), h.keep p hne]
  · by_cases h0' : (u'.entry p).count = 0
    · exact h'.pointer p i h0' hne hi
    · exact h'.marked (h.pointer p i h0 h0' hi)

theorem unmarked_le : u'.unmarked.card ≤ u.unmarked.card := by
  refine Finset.card_le_card fun p hp => ?_
  rw [unmarked, Finset.mem_filter] at hp ⊢
  refine ⟨hp.1, ?_⟩
  by_contra hne
  exact h.marked hne hp.2

end Extends

namespace Marking

variable (hV : Closed m extent A V) (h : Marking extent A V m root u)

include hV h

theorem chunkWord_eq (hp : V p) : u.chunkWord p i = m.chunkWord p i := by
  have hs := hV.sound p hp
  have hseg : (u.entry p).segment = (m.entry p).segment := by rw [h.touched.entry hV.apart p]
  exact chunkWord_congr hseg (h.touched.location hV.apart hs.isOop.1) fun w =>
    h.heap _ w (hV.apart.onHeap hs.mem)

theorem last_eq (hp : V p) : u.last p = m.last p :=
  last_congr (by rw [h.touched.entry hV.apart p]) (h.chunkWord_eq hV hp) (h.chunkWord_eq hV hp)
    fun _ => h.chunkWord_eq hV hp

theorem word_lt (hp : V p) (hi : i < m.last p) : u.location p + i < 65536 := by
  have hs := hV.sound p hp
  have hext := hs.last_le_extent
  have hin := hV.apart.inside p hs.mem
  rw [h.touched.location hV.apart hs.isOop.1]
  omega

/-- One more object is marked. -/
theorem mark (hq : V q) (hc : (u.entry q).count = 0) (hfinds : (m.entry q).count = 0 →
    Finds m root q) : Marking extent A V m root (u.setCount q 1) ∧ Fresh m (u.setCount q 1) q := by
  have hs := hV.sound q hq
  have hone : 1 < 256 := by omega
  have hbefore : (m.entry q).count = 0 := by
    rcases h.count q hs.isOop.1 with hsame | ⟨hfresh, -⟩
    · rw [← hsame, hc]
    · exact hfresh.before
  have hnew : Fresh m (u.setCount q 1) q :=
    ⟨hs.isOop.1, hbefore, by rw [entry_setCount hone, if_pos rfl]⟩
  refine ⟨⟨h.touched.setCount hs.mem hone, fun s w hs15 => ?_, fun p hp => ?_⟩, hnew⟩
  · rw [setCount, word_setField hs15, h.heap s w hs15]
  · by_cases hpq : p = q
    · subst hpq
      exact .inr ⟨hnew, hq, hfinds hbefore⟩
    · have hentry : (u.setCount q 1).entry p = u.entry p := by
        rw [entry_setCount hone, if_neg hpq]
      rw [hentry]
      refine (h.count p hp).imp_right ?_
      rintro ⟨hfresh, hrest⟩
      refine ⟨⟨hp, hfresh.before, ?_⟩, hrest⟩
      rw [hentry]
      exact hfresh.after

end Marking

/-- From `offset` on: all pointers are marked, and all that they find. -/
theorem wp_followFrom (hV : Closed m extent A V) (h : Marking extent A V m root u) (hp : V p)
    (hfresh : Fresh m u p) (hfinds : Finds m root p) (ho : 1 ≤ o) :
    Wp (followFrom markPredicate markAction p o (m.last p - 1)) (fun _ u' =>
      Marking extent A V m root u' ∧ Extends m u u' ∧
        ∀ i, o ≤ i → IsPointer m p i → (u'.entry (m.chunkWord p i)).count ≠ 0) u := by
  -- every call marks an object or passes a pointer
  induction hn : u.unmarked.card * 65536 + (m.last p - o) using Nat.strongRecOn
    generalizing u p o with
  | _ n ih =>
  have hs := hV.sound p hp
  have hlast : m.last p < 65536 := last_lt
  rw [followFrom, Visit.followFrom]
  dsimp only
  rw [wp_ite]
  refine ⟨fun hle => ?_, fun hgt => ?_⟩
  · have hlt : o < m.last p := by
      have htwo := hs.two_le_last
      omega
    rw [wp_bind, wp_heapChunkOfWord, and_iff_right ⟨hs.isOop.isEntry, h.word_lt hV hp hlt⟩,
      h.chunkWord_eq hV hp, wp_bind]
    -- the rest of the object, when this pointer is marked
    have hrest : ∀ u₁, Marking extent A V m root u₁ → Extends m u u₁ →
        (m.chunkWord p o % 2 = 0 → (u₁.entry (m.chunkWord p o)).count ≠ 0) →
        Wp (followFrom markPredicate markAction p (o + 1) (m.last p - 1)) (fun _ u' =>
          Marking extent A V m root u' ∧ Extends m u u' ∧
            ∀ i, o ≤ i → IsPointer m p i → (u'.entry (m.chunkWord p i)).count ≠ 0) u₁ := by
      intro u₁ h₁ hext hmarked
      have hfresh₁ : Fresh m u₁ p := ⟨hfresh.even, hfresh.before, by
        rw [hext.keep p (by rw [hfresh.after]; omega), hfresh.after]⟩
      have hcard := hext.unmarked_le
      refine (ih _ ?_ h₁ hp hfresh₁ hfinds (by omega) rfl).mono ?_
      · have hmul := Nat.mul_le_mul_right 65536 hcard
        omega
      · rintro _ u' ⟨h', hext', hpointers⟩
        refine ⟨h', hext.trans hext', fun i hi hpi => ?_⟩
        rcases Nat.eq_or_lt_of_le hi with rfl | hi
        · exact hext'.marked (hmarked hpi.2.2)
        · exact hpointers i hi hpi
    by_cases hodd : isIntegerObject (m.chunkWord p o)
    · rw [if_pos hodd, wp_pure]
      simp only [Bool.false_eq_true, if_false]
      exact hrest u h (.refl m u) fun heven => by
        rw [isIntegerObject] at hodd
        omega
    · have heven : m.chunkWord p o % 2 = 0 := by
        rw [isIntegerObject] at hodd
        omega
      have hpointer : IsPointer m p o := ⟨ho, hlt, heven⟩
      have hVq := hV.pointer p o hp hpointer
      have hsq := hV.sound _ hVq
      rw [if_neg hodd, markPredicate, wp_bind, wp_countBitsOf, and_iff_right hsq.isOop.isEntry]
      by_cases hc : (u.entry (m.chunkWord p o)).count = 0
      · rw [if_pos hc, wp_bind, wp_countBitsOfPut, and_iff_right ⟨hsq.isOop.isEntry, by omega⟩,
          wp_pure]
        simp only [if_true]
        obtain ⟨h₁, hfresh₁⟩ := h.mark hV hVq hc fun h0 =>
          hfinds.tail ⟨o, hpointer, rfl⟩ h0
        have hcard := unmarked_setCount hsq.isOop.isEntry.2 hc
        have hlastq := h₁.last_eq hV hVq
        have hloc := h₁.word_lt hV (i := 0) hVq (by have := hsq.two_le_last; omega)
        have happart := h₁.touched.apart hV.apart
        rw [wp_bind, wp_lastPointerOf hsq.isOop.isEntry (happart.location_lt hsq.mem), hlastq,
          wp_bind]
        have hlt' : m.last (m.chunkWord p o) < 65536 := last_lt
        refine (ih _ ?_ h₁ hVq hfresh₁ (hfinds.tail ⟨o, hpointer, rfl⟩ hfresh₁.before) le_rfl
          rfl).mono ?_
        · omega
        · rintro _ u₂ ⟨h₂, hext₂, hpointers⟩
          -- the object that has been entered is done
          have hentered : Extends m u u₂ := by
            refine ⟨fun q hq => ?_, fun q i h0 hne hi => ?_⟩
            · have hne : q ≠ m.chunkWord p o := fun hqp => hq (hqp ▸ hc)
              have hsame : (u.setCount (m.chunkWord p o) 1).entry q = u.entry q := by
                rw [entry_setCount (by omega), if_neg hne]
              rw [hext₂.keep q (by rwa [hsame]), hsame]
            · by_cases hqp : q = m.chunkWord p o
              · subst hqp
                exact hpointers i hi.1 hi
              · refine hext₂.pointer q i ?_ hne hi
                rw [entry_setCount (by omega), if_neg hqp, h0]
          refine hrest u₂ h₂ hentered fun _ => hext₂.marked ?_
          rw [hfresh₁.after]
          omega
      · rw [if_neg hc, wp_pure]
        simp only [Bool.false_eq_true, if_false]
        exact hrest u h (.refl m u) fun _ => hc
  · rw [markAction, wp_countBitsOfPut, and_iff_right ⟨hs.isOop.isEntry, by omega⟩,
      setCount_self hfresh.after]
    refine ⟨h, .refl m u, fun i hi hpi => ?_⟩
    have hlt := hpi.2.1
    omega

/-- Both versions mark the same objects. -/
theorem wp_markObjectsAccessibleFromRecursive (hV : Closed m extent A V) (hroot : V root) :
    Wp (markObjectsAccessibleFromRecursive root) (fun _ m' => Marking extent A V m root m' ∧
      Extends m m m' ∧ (m'.entry root).count ≠ 0) m := by
  have hs := hV.sound root hroot
  have hentry := hs.isOop.isEntry
  have hstart : Marking extent A V m root m := ⟨.refl _ _ _, fun _ _ _ => rfl, fun _ _ => .inl rfl⟩
  rw [markObjectsAccessibleFromRecursive, forAllObjectsAccessibleFromRecursive, wp_bind,
    markPredicate, wp_bind, wp_countBitsOf, and_iff_right hentry]
  by_cases hc : (m.entry root).count = 0
  · obtain ⟨h₁, hfresh⟩ := hstart.mark hV hroot hc fun h0 => ⟨h0, .refl⟩
    rw [if_pos hc, wp_bind, wp_countBitsOfPut, and_iff_right ⟨hentry, by omega⟩, wp_pure,
      if_pos rfl, forAllOtherObjectsAccessibleFromRecursive, wp_bind,
      wp_lastPointerOf hentry ((h₁.touched.apart hV.apart).location_lt hs.mem),
      h₁.last_eq hV hroot, wp_bind]
    refine (wp_followFrom hV h₁ hroot hfresh ⟨hc, .refl⟩ le_rfl).mono ?_
    rintro _ m' ⟨h', hext, hpointers⟩
    rw [wp_pure]
    have hmarked : ((m.setCount root 1).entry root).count ≠ 0 := by
      rw [hfresh.after]
      omega
    have hsame : ∀ p, p ≠ root → ((m.setCount root 1).entry p).count = (m.entry p).count :=
      fun p hp => by rw [entry_setCount (by omega), if_neg hp]
    refine ⟨h', ⟨fun p hp => ?_, fun p i h0 hne hi => ?_⟩, hext.marked hmarked⟩
    · have hne : p ≠ root := fun hpr => hp (hpr ▸ hc)
      rw [hext.keep p (by rwa [hsame p hne]), hsame p hne]
    · by_cases hpr : p = root
      · subst hpr
        exact hpointers i hi.1 hi
      · exact hext.pointer p i (by rw [hsame p hpr, h0]) hne hi
  · rw [if_neg hc, wp_pure, if_neg (by simp), wp_pure]
    exact ⟨hstart, .refl m m, hc⟩

theorem Marking.fresh_iff (h : Marking extent A V m root m') (hext : Extends m m m')
    (hmarked : (m'.entry root).count ≠ 0) (heven : root % 2 = 0) :
    Fresh m m' p ↔ Finds m root p := by
  have hchanged : ∀ q, q % 2 = 0 → (m.entry q).count = 0 → (m'.entry q).count ≠ 0 → Fresh m m' q :=
    fun q hq h0 hne => ((h.count q hq).resolve_left fun hsame => hne (hsame.trans h0)).1
  constructor
  · intro hp
    refine ((h.count p hp.even).resolve_left fun hsame => ?_).2.2
    have := hp.before.symm.trans (hsame.symm.trans hp.after)
    cases this
  · rintro ⟨h0, hfinds⟩
    induction hfinds with
    | refl => exact hchanged root heven h0 hmarked
    | tail _ hpq ih =>
        obtain ⟨⟨i, hi, rfl⟩, hq⟩ := hpq
        exact hchanged _ hi.2.2 hq
          (hext.pointer _ i ih.before (by rw [ih.after]; omega) hi)

/-! ## The memory that is left -/

/-- The objects that `root` reaches are allocated, in chunks that do not overlap
and hold their pointers. -/
structure Reachables (m : ObjectMemory) (root : Nat) : Prop where
  inUse : ∀ p, Reaches m root p → InUse m p
  segment_lt : ∀ p, Reaches m root p → (m.entry p).segment < 15
  two_le : ∀ p, Reaches m root p → 2 ≤ m.chunkWord p 0
  inside : ∀ p, Reaches m root p → m.location p + m.space p ≤ 65515
  apart : ∀ p q, Reaches m root p → Reaches m root q → p ≠ q →
    (m.entry p).segment = (m.entry q).segment →
      m.location p + m.space p ≤ m.location q ∨ m.location q + m.space q ≤ m.location p
  last_le : ∀ p, Reaches m root p → m.last p ≤ m.chunkWord p 0

/-- `m'` is `m` with the count 1 for what `root` finds; the words of `X` may be
anything. -/
structure MarkedOutside (X : Nat → Nat → Prop) (m : ObjectMemory) (root : Nat)
    (m' : ObjectMemory) : Prop where
  found : ∀ p, Finds m root p → m'.word 15 p = putField (m.word 15 p) 8 8 1
  other : ∀ s w, ¬X s w → ¬(s = 15 ∧ Finds m root w) → m'.word s w = m.word s w
  currentSegment : m'.currentSegment = m.currentSegment
  freeWords : m'.freeWords = m.freeWords
  freeOops : m'.freeOops = m.freeOops

/-- The extra word of a pointer object of 256 words or more. -/
def ExtraWord (m : ObjectMemory) (root s w : Nat) : Prop := ∃ p, Reaches m root p ∧
  (m.entry p).pointer ≠ 0 ∧ 256 ≤ m.chunkWord p 0 ∧ s = (m.entry p).segment ∧
    w = m.location p + m.chunkWord p 0

theorem Reachables.closed (h : Reachables m root) :
    Closed m m.space (Reaches m root) (Reaches m root) := by
  refine ⟨⟨fun p hp => (h.inUse p hp).1, h.segment_lt,
    fun p hp => (h.two_le p hp).trans size_le_space, h.inside, h.apart⟩,
    fun p hp => ⟨hp, (h.inUse p hp).1, (h.two_le p hp).trans size_le_space, rfl, h.last_le p hp⟩,
    fun p i hp hi => hp.tail ⟨i, hi, rfl⟩⟩

/-- The word of an entry, from its count and the rest. -/
theorem entryWord_eq {c : Nat} (hrest : putField (m'.word 15 p) 8 8 0 = putField (m.word 15 p) 8 8 0)
    (hcount : (m'.entry p).count = c) : m'.word 15 p = putField (m.word 15 p) 8 8 c := by
  have hc : field (m'.word 15 p) 8 8 = c := hcount
  calc m'.word 15 p = putField (m'.word 15 p) 8 8 c := by
        rw [← hc, putField_field (m'.word_lt 15 p)]
    _ = putField (putField (m'.word 15 p) 8 8 0) 8 8 c :=
        (putField_putField (by decide) (by omega)).symm
    _ = putField (m.word 15 p) 8 8 c := by
        rw [hrest, putField_putField (by decide) (by omega)]

/-- A memory that differs in the counts of the entries `A` and in the words `X`
of their chunks. -/
theorem Touched.markedOutside {X : Nat → Nat → Prop} (h : Touched extent A m m')
    (ha : Apart m extent A)
    (hfresh : ∀ p, Fresh m m' p ↔ Finds m root p)
    (hcount : ∀ p, p % 2 = 0 → (m'.entry p).count = (m.entry p).count ∨ Fresh m m' p)
    (hA : ∀ p, Finds m root p → A p)
    (hword : ∀ p i, A p → i < extent p → ¬X (m.entry p).segment (m.location p + i) →
      m'.chunkWord p i = m.chunkWord p i) : MarkedOutside X m root m' := by
  refine ⟨fun p hp => entryWord_eq (h.entryWord p (hA p hp)) ((hfresh p).mpr hp).after,
    fun s w hX hne => ?_, h.currentSegment, h.freeWords, h.freeOops⟩
  by_cases hentry : s = 15 ∧ A w
  · obtain ⟨rfl, hAw⟩ := hentry
    have hsame := (hcount w (ha.isOop w hAw).1).resolve_right fun hf =>
      hne ⟨rfl, (hfresh w).mp hf⟩
    rw [entryWord_eq (h.entryWord w hAw) hsame]
    exact putField_field (m.word_lt 15 w)
  · by_cases hchunk : ∃ p i, A p ∧ i < extent p ∧
        s = (m.entry p).segment ∧ w = m.location p + i
    · obtain ⟨p, i, hp, hi, rfl, rfl⟩ := hchunk
      have hsame := hword p i hp hi hX
      rwa [chunkWord, h.entry ha p, h.location ha (ha.isOop p hp).1] at hsame
    · exact h.outside s w hentry fun p i hp hi hall => hchunk ⟨p, i, hp, hi, hall⟩

/-- Marking from `root` ends, by pointer reversal and by recursion. It gives the count 1 to
exactly what it finds, and every other word is as it was, but for the extra word of an object
of 256 words or more that the reversal uses. -/
theorem markObjectsAccessibleFrom_exact (h : Reachables m root) : ∃ r r' m₁ m₂,
    markObjectsAccessibleFrom root m = some (r, m₁) ∧
    MarkedOutside (ExtraWord m root) m root m₁ ∧
    markObjectsAccessibleFromRecursive root m = some (r', m₂) ∧
    MarkedOutside (fun _ _ => False) m root m₂ ∧
    ∀ s w, ¬ExtraWord m root s w → m₁.word s w = m₂.word s w := by
  have hV := h.closed
  have hroot : Reaches m root root := .refl
  have heven := (h.inUse root hroot).even
  have hfinds : ∀ p, Finds m root p → Reaches m root p := fun p hp => hp.reaches
  obtain ⟨r, m₁, hrun, hmarked⟩ := wp_markObjectsAccessibleFrom hV hroot
  obtain ⟨r', m₂, hrun', hmarking, hext, hne⟩ := wp_markObjectsAccessibleFromRecursive hV hroot
  have h₁ : MarkedOutside (ExtraWord m root) m root m₁ := by
    refine hmarked.same.touched.markedOutside hV.apart (fun p => hmarked.fresh_iff heven)
      (fun p hp => (hmarked.count p hp).imp_right And.left) hfinds fun p i hp hi hX => ?_
    refine hmarked.same.word p i hp hi fun hextra => hX ?_
    obtain ⟨hpointer, hle, hlast⟩ := hextra
    have hsize : 256 ≤ m.chunkWord p 0 ∧ m.space p = m.chunkWord p 0 + 1 := by
      unfold space at hle ⊢
      split at hle
      · next hcase =>
          simp only [hugeSize] at hcase
          omega
      · next hcase =>
          simp only [hugeSize] at hcase
          rw [if_neg hcase]
          omega
    exact ⟨p, hp, hpointer, hsize.1, rfl, by omega⟩
  have h₂ : MarkedOutside (fun _ _ => False) m root m₂ :=
    hmarking.touched.markedOutside hV.apart (fun p => hmarking.fresh_iff hext hne heven)
      (fun p hp => (hmarking.count p hp).imp_right And.left) hfinds
      fun p i hp _ _ => hmarking.chunkWord_eq hV hp
  refine ⟨r, r', m₁, m₂, hrun, h₁, hrun', h₂, fun s w hX => ?_⟩
  by_cases hfound : s = 15 ∧ Finds m root w
  · rw [hfound.1, h₁.found w hfound.2, h₂.found w hfound.2]
  · rw [h₁.other s w hX hfound, h₂.other s w not_false hfound]

/-- Two objects that refer to each other. -/
def cyclic : ObjectMemory := (blank.place 2 64 0 [3, 2, 4]).place 4 64 3 [3, 2, 2]

theorem reaches_cyclic (h : Reaches cyclic 2 p) : p = 2 ∨ p = 4 := by
  induction h with
  | refl => exact .inl rfl
  | tail _ hpq ih =>
      obtain ⟨i, ⟨h1, hlt, -⟩, rfl⟩ := hpq
      rcases ih with rfl | rfl
      · have hlast : cyclic.last 2 = 3 := by decide
        obtain rfl | rfl : i = 1 ∨ i = 2 := by omega
        · exact .inl (by decide)
        · exact .inr (by decide)
      · have hlast : cyclic.last 4 = 3 := by decide
        obtain rfl | rfl : i = 1 ∨ i = 2 := by omega
        · exact .inl (by decide)
        · exact .inl (by decide)

theorem reachables_cyclic : Reachables cyclic 2 := by
  refine ⟨fun p hp => ?_, fun p hp => ?_, fun p hp => ?_, fun p hp => ?_,
    fun p q hp hq hne hs => ?_, fun p hp => ?_⟩
  · rcases reaches_cyclic hp with rfl | rfl <;> exact ⟨by decide, by decide⟩
  · rcases reaches_cyclic hp with rfl | rfl <;> decide
  · rcases reaches_cyclic hp with rfl | rfl <;> decide
  · rcases reaches_cyclic hp with rfl | rfl <;> decide
  · rcases reaches_cyclic hp with rfl | rfl <;> rcases reaches_cyclic hq with rfl | rfl
    · exact absurd rfl hne
    · exact .inl (by decide)
    · exact .inr (by decide)
    · exact absurd rfl hne
  · rcases reaches_cyclic hp with rfl | rfl <;> decide

theorem markObjectsAccessibleFrom_cyclic : ∃ r r' m₁ m₂,
    markObjectsAccessibleFrom 2 cyclic = some (r, m₁) ∧
    MarkedOutside (ExtraWord cyclic 2) cyclic 2 m₁ ∧
    markObjectsAccessibleFromRecursive 2 cyclic = some (r', m₂) ∧
    MarkedOutside (fun _ _ => False) cyclic 2 m₂ ∧
    ∀ s w, ¬ExtraWord cyclic 2 s w → m₁.word s w = m₂.word s w :=
  markObjectsAccessibleFrom_exact reachables_cyclic

end ObjectMemory

end Crosstalk
