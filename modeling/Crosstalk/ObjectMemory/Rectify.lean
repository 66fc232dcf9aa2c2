import Crosstalk.ObjectMemory.Allocation
import Crosstalk.ObjectMemory.References
import Crosstalk.Snapshot.Fidelity

/-!
# Rectifying the counts

After the marking, `rectifyCountsAndDeallocateGarbage` puts every chunk without
a mark on the list for its size, and gives every marked object the number of
pointers that refer to it for a count.
-/

namespace Crosstalk

namespace ObjectMemory

variable {extent : Nat → Nat} {V : Nat → Prop} {D D' : Nat × Nat → Prop}
  {chunks : Nat → Nat → List Nat} {m u : ObjectMemory} {p q r s k i j n c : Nat}

/-- The count `c` tells the number `n` of references, as far as a count can. -/
def Tells (c n : Nat) : Prop := (n < 127 → c = n) ∧ (127 ≤ n → 127 ≤ c ∧ c ≤ 128)

/-! ## The loop over the entries -/

/-- `m` is the memory after the marking, `V` its marked objects. The entries
below `r` have been visited, and the pointers of `D` counted. -/
structure Rectifying (extent : Nat → Nat) (V : Nat → Prop) (m : ObjectMemory)
    (D : Nat × Nat → Prop) (r : Nat) (chunks : Nat → Nat → List Nat) (u : ObjectMemory) :
    Prop where
  entry : ∀ p, p % 2 = 0 → u.entry p = { m.entry p with count := (u.entry p).count }
  location : ∀ p, p % 2 = 0 → p ≤ 65532 → u.location p = m.location p
  kept : ∀ p i, V p → i < extent p → ¬Extra m extent p i → u.chunkWord p i = m.chunkWord p i
  size : ∀ p, InUse m p → r ≤ p → u.chunkWord p 0 = m.chunkWord p 0
  done : ∀ p, V p → p < r → Tells (u.entry p).count (m.references D p)
  /-- The mark still counts. -/
  todo : ∀ p, V p → r ≤ p → (u.entry p).count = min (m.references D p + 1) 128
  garbage : ∀ p, IsOop p → ¬V p → (u.entry p).count = 0
  linked : ∀ s k, s < 15 → 2 ≤ k → k ≤ 20 →
    Linked (u.chunkWord · 1) nonPointer (u.chunkHead s k) (chunks s k)
  unmarked : ∀ s k p, p ∈ chunks s k → InUse m p ∧ ¬V p ∧ p < r
  listed : ∀ p, InUse m p → ¬V p → p < r → ∃ s k, s < 15 ∧ 2 ≤ k ∧ k ≤ 20 ∧ p ∈ chunks s k

/-- What the sweep needs of the marked memory: the space of each chunk, as its
header has it, is at least two words. -/
structure Sweepable (extent : Nat → Nat) (V : Nat → Prop) (m : ObjectMemory) : Prop where
  tiled : Tiled m extent
  closed : Closed m extent (InUse m) V
  two_le : ∀ p, InUse m p → 2 ≤ m.chunkWord p 0
  size_le : ∀ p, InUse m p → m.chunkWord p 0 ≤ extent p
  reserved : (m.entry 0).free ≠ 0

/-- The chunk of `p` at the head of the list for its space. -/
def pushed (m : ObjectMemory) (chunks : Nat → Nat → List Nat) (p : Nat) : Nat → Nat → List Nat :=
  fun s k => if s = (m.entry p).segment ∧ k = min (m.space p) bigSize then p :: chunks s k
    else chunks s k

/-- The first `j` pointers of `p` have been counted, and those of the objects
before it. -/
def Before (V : Nat → Prop) (p j : Nat) (x : Nat × Nat) : Prop :=
  V x.1 ∧ (x.1 < p ∨ x.1 = p ∧ x.2 ≤ j)

namespace Rectifying

section

variable (hm : Sweepable extent V m) (h : Rectifying extent V m D r chunks u)

include hm h

omit hm in
theorem inUse_iff : InUse u p ↔ InUse m p :=
  and_congr_right fun hp => by rw [h.entry p hp.1]

theorem tiled : Tiled u extent :=
  hm.tiled.congr (fun p hp => by rw [h.entry p hp.1]) (fun p hp => by rw [h.entry p hp.1])
    fun p hp => h.location p hp.1 hp.2.2

theorem apart : Apart u extent (InUse m) :=
  hm.tiled.toApart.congr (fun p hp => by rw [h.entry p hp.even])
    fun p hp => h.location p hp.even hp.le

omit hm in
theorem freeWords {w : Int} : Rectifying extent V m D r chunks { u with freeWords := w } :=
  ⟨h.entry, h.location, h.kept, h.size, h.done, h.todo, h.garbage, h.linked, h.unmarked, h.listed⟩

end

variable (hm : Sweepable extent V m)

include hm

/-- The chunk of an object that has not been visited has its size. -/
theorem space_bounds (h : Rectifying extent V m D r chunks u) (hp : InUse m p) (hr : r ≤ p) :
    2 ≤ u.space p ∧ u.space p < 65536 := by
  have htwo := hm.two_le p hp
  have hle := hm.size_le p hp
  have hin := hm.tiled.inside p hp
  rw [space, h.size p hp hr]
  split <;> omega

/-- A chunk without a mark goes to the list for its space. -/
theorem deallocated (h : Rectifying extent V m D p chunks u) (hp : InUse m p) (hV : ¬V p) :
    Rectifying extent V m D (p + 2) (pushed u chunks p) (u.deallocated p) := by
  have ht := h.tiled hm
  have hpu := h.inUse_iff.mpr hp
  have hseg := ht.segment_lt p hpu
  obtain ⟨htwo, hspace⟩ := h.space_bounds hm hp le_rfl
  have hextent := ht.two_le p hpu
  have hin := ht.inside p hpu
  have heven := hp.even
  have hentry : ∀ q, (u.deallocated p).entry q = u.entry q := fun q => entry_deallocated hseg
  have hword : ∀ q i, InUse m q → i < extent q → q ≠ p →
      (u.deallocated p).chunkWord q i = u.chunkWord q i := fun q i hq hi hne => by
    rw [ht.chunkWord_deallocated hpu hspace (h.inUse_iff.mpr hq) hi, if_neg fun hall => hne hall.1,
      if_neg fun hall => hne hall.1]
  have hnotMem : ∀ s k, p ∉ chunks s k := fun s k hmem => by
    have hlt := (h.unmarked s k p hmem).2.2
    omega
  refine ⟨fun q hq => ?_, fun q hq hle => ?_, fun q i hq hi hx => ?_, fun q hq hr => ?_,
    fun q hq hr => ?_, fun q hq hr => ?_, fun q hq hVq => ?_, fun s k hs h2 h20 => ?_,
    fun s k q hmem => ?_, fun q hq hVq hr => ?_⟩
  · rw [hentry]
    exact h.entry q hq
  · rw [location_deallocated hseg]
    exact h.location q hq hle
  · rw [hword q i (hm.closed.sound q hq).mem hi fun hqp => hV (hqp ▸ hq)]
    exact h.kept q i hq hi hx
  · have htwo' := ht.two_le q (h.inUse_iff.mpr hq)
    rw [hword q 0 hq (by omega) (by omega)]
    exact h.size q hq (by omega)
  · have heven' := (hm.closed.sound q hq).mem.even
    have hne : q ≠ p := fun hqp => hV (hqp ▸ hq)
    rw [hentry]
    exact h.done q hq (by omega)
  · rw [hentry]
    exact h.todo q hq (by omega)
  · rw [hentry]
    exact h.garbage q hq hVq
  · have hlinks : Linked ((u.deallocated p).chunkWord · 1) nonPointer (u.chunkHead s k)
        (chunks s k) := by
      refine (h.linked s k hs h2 h20).congr fun q hq => ?_
      have hq' := (h.unmarked s k q hq).1
      have htwo' := ht.two_le q (h.inUse_iff.mpr hq')
      exact hword q 1 hq' (by omega) fun hqp => hnotMem s k (hqp ▸ hq)
    rw [chunkHead_deallocated hseg hpu.isEntry (by omega) hspace, pushed]
    by_cases hsk : s = (u.entry p).segment ∧ k = min (u.space p) bigSize
    · rw [if_pos hsk, if_pos hsk]
      obtain ⟨rfl, rfl⟩ := hsk
      have hle := hp.le
      refine ⟨rfl, by simp only [nonPointer]; omega, ?_⟩
      dsimp only
      rw [ht.chunkWord_deallocated hpu hspace hpu (by omega), if_neg (by omega),
        if_pos ⟨rfl, rfl⟩]
      exact hlinks
    · rw [if_neg hsk, if_neg hsk]
      exact hlinks
  · rw [pushed] at hmem
    split at hmem
    · rcases List.mem_cons.mp hmem with rfl | hmem
      · exact ⟨hp, hV, by omega⟩
      · obtain ⟨h1, h2, h3⟩ := h.unmarked s k q hmem
        exact ⟨h1, h2, by omega⟩
    · obtain ⟨h1, h2, h3⟩ := h.unmarked s k q hmem
      exact ⟨h1, h2, by omega⟩
  · by_cases hqp : q = p
    · subst hqp
      refine ⟨(u.entry q).segment, min (u.space q) bigSize, hseg, ?_, ?_, ?_⟩
      · simp only [bigSize]
        omega
      · simp only [bigSize]
        omega
      · rw [pushed, if_pos ⟨rfl, rfl⟩]
        exact List.mem_cons_self
    · have heven' := hq.even
      obtain ⟨s, k, hs, h2, h20, hmem⟩ := h.listed q hq hVq (by omega)
      refine ⟨s, k, hs, h2, h20, ?_⟩
      rw [pushed]
      split
      · exact List.mem_cons_of_mem _ hmem
      · exact hmem

/-- Nothing is done for a free entry. -/
theorem skip (h : Rectifying extent V m D p chunks u) (hp : ¬InUse m p) (heven : p % 2 = 0) :
    Rectifying extent V m D (p + 2) chunks u := by
  refine ⟨h.entry, h.location, h.kept, fun q hq hr => h.size q hq (by omega), fun q hq hr => ?_,
    fun q hq hr => h.todo q hq (by omega), h.garbage, h.linked, fun s k q hmem => ?_,
    fun q hq hVq hr => ?_⟩
  · have hin := (hm.closed.sound q hq).mem
    have heven' := hin.even
    have hne : q ≠ p := fun hqp => hp (hqp ▸ hin)
    exact h.done q hq (by omega)
  · obtain ⟨h1, h2, h3⟩ := h.unmarked s k q hmem
    exact ⟨h1, h2, by omega⟩
  · have heven' := hq.even
    have hne : q ≠ p := fun hqp => hp (hqp ▸ hq)
    exact h.listed q hq hVq (by omega)

/-- What changes when the counts do. -/
theorem recounted {u' : ObjectMemory} (h : Rectifying extent V m D r chunks u)
    (hs : Same extent (InUse m) u u') (hr : r ≤ n)
    (hbetween : ∀ p, InUse m p → p < n → r ≤ p → V p)
    (hgarbage : ∀ p, IsOop p → ¬V p → (u'.entry p).count = 0)
    (hdone : ∀ p, V p → p < n → Tells (u'.entry p).count (m.references D' p))
    (htodo : ∀ p, V p → n ≤ p → (u'.entry p).count = min (m.references D' p + 1) 128) :
    Rectifying extent V m D' n chunks u' := by
  refine ⟨fun p hp => ?_, fun p hp hle => ?_, fun p i hp hi hx => ?_, fun p hp hr' => ?_,
    hdone, htodo, hgarbage, fun s k hs' h2 h20 => ?_, fun s k p hp => ?_, fun p hp hV hn => ?_⟩
  · rw [hs.entry p, h.entry p hp]
  · rw [hs.location hp, h.location p hp hle]
  · have hin := (hm.closed.sound p hp).mem
    rw [hs.word p i hin hi fun hx' => hx ?_, h.kept p i hp hi hx]
    rw [Extra, h.entry p hin.even] at hx'
    exact hx'
  · rw [hs.alike.size_eq hp, h.size p hp (by omega)]
  · rw [hs.chunkHead hs']
    refine (h.linked s k hs' h2 h20).congr fun p hp => ?_
    have hin := (h.unmarked s k p hp).1
    have htwo := hm.tiled.two_le p hin
    exact hs.word p 1 hin (by omega) (not_extra_header (by omega))
  · obtain ⟨h1, h2, h3⟩ := h.unmarked s k p hp
    exact ⟨h1, h2, by omega⟩
  · refine h.listed p hp hV ?_
    by_contra hlt
    exact hV (hbetween p hp hn (by omega))

/-- The mark is subtracted. -/
theorem unmark (h : Rectifying extent V m D p chunks u) (hp : V p) :
    Rectifying extent V m D (p + 2) chunks
      (if (u.entry p).count < 128 then u.setCount p ((u.entry p).count - 1) else u) := by
  have hin := (hm.closed.sound p hp).mem
  have heven := hin.even
  have hcount := h.todo p hp le_rfl
  have hbetween : ∀ q, InUse m q → q < p + 2 → p ≤ q → V q := fun q hq hlt hle => by
    have heven' := hq.even
    obtain rfl : q = p := by omega
    exact hp
  split
  · have hc : (u.entry p).count - 1 < 256 := by omega
    refine h.recounted hm (same_setCount (h.apart hm) hin hc) (by omega) hbetween
      (fun q hq hV => ?_) (fun q hq hlt' => ?_) fun q hq hle => ?_
    · rw [entry_setCount hc, if_neg fun hqp : q = p => hV (hqp ▸ hp)]
      exact h.garbage q hq hV
    · rw [entry_setCount hc]
      split
      · next hqp =>
          subst hqp
          constructor <;> dsimp only <;> omega
      · next hne =>
          have heven' := (hm.closed.sound q hq).mem.even
          exact h.done q hq (by omega)
    · rw [entry_setCount hc, if_neg (by omega)]
      exact h.todo q hq (by omega)
  · refine h.recounted hm (.refl (h.apart hm)) (by omega) hbetween h.garbage (fun q hq hlt' => ?_)
      fun q hq hle => h.todo q hq (by omega)
    by_cases hqp : q = p
    · subst hqp
      constructor <;> omega
    · have heven' := (hm.closed.sound q hq).mem.even
      exact h.done q hq (by omega)

/-- One more pointer of an object that has been visited. -/
theorem counted (h : Rectifying extent V m D r chunks u) (hp : V p)
    (hfin : ∀ x, D x → x.1 < 65536) (hD : ∀ x, D' x ↔ D x ∨ x = (p, i)) (hnew : ¬D (p, i))
    (h1 : 1 ≤ i) (hi : i < m.last p) :
    Rectifying extent V m D' r chunks (u.countedUp (m.chunkWord p i)) := by
  have hq : ∀ q, m.references D' q = m.references D q +
      if IsPointer m p i ∧ m.chunkWord p i = q then 1 else 0 := fun q =>
    references_insert hfin hD hnew
  have hbetween : ∀ q, InUse m q → q < r → r ≤ q → V q := fun q _ hlt hle => by omega
  by_cases heven : m.chunkWord p i % 2 = 0
  · -- the pointer counts for the object that it refers to
    have hpointer : IsPointer m p i := ⟨h1, hi, heven⟩
    have hVw := hm.closed.pointer p i hp hpointer
    have hin := (hm.closed.sound _ hVw).mem
    have hq' : ∀ q, m.references D' q = m.references D q +
        if m.chunkWord p i = q then 1 else 0 := fun q => by
      rw [hq]
      simp only [hpointer, true_and]
    have hsame : Same extent (InUse m) u (u.countedUp (m.chunkWord p i)) ∧
        ∀ q, ((u.countedUp (m.chunkWord p i)).entry q).count =
          if m.chunkWord p i = q then min ((u.entry q).count + 1) (max 128 (u.entry q).count)
          else (u.entry q).count := by
      rw [countedUp]
      by_cases hlt : (u.entry (m.chunkWord p i)).count < 128
      · have hc : (u.entry (m.chunkWord p i)).count + 1 < 256 := by omega
        rw [if_pos ⟨heven, hlt⟩]
        refine ⟨same_setCount (h.apart hm) hin hc, fun q => ?_⟩
        rw [entry_setCount hc]
        by_cases hqw : q = m.chunkWord p i
        · rw [if_pos hqw, if_pos hqw.symm, hqw]
          show (u.entry (m.chunkWord p i)).count + 1 = _
          omega
        · rw [if_neg hqw, if_neg fun hw => hqw hw.symm]
      · rw [if_neg fun hall => hlt hall.2]
        refine ⟨.refl (h.apart hm), fun q => ?_⟩
        split
        · next hqw =>
            subst hqw
            omega
        · rfl
    refine h.recounted hm hsame.1 le_rfl hbetween (fun q hq'' hV => ?_) (fun q hVq hlt => ?_)
      fun q hVq hle => ?_
    · rw [hsame.2, if_neg fun hw : m.chunkWord p i = q => hV (hw ▸ hVw)]
      exact h.garbage q hq'' hV
    · obtain ⟨hless, hmore⟩ := h.done q hVq hlt
      rw [hsame.2, hq']
      split
      · constructor <;> omega
      · exact ⟨hless, hmore⟩
    · have htodo := h.todo q hVq hle
      rw [hsame.2, hq']
      split <;> omega
  · have hsame : u.countedUp (m.chunkWord p i) = u := if_neg fun hall => heven hall.1
    have hq' : ∀ q, m.references D' q = m.references D q := fun q => by
      rw [hq, if_neg fun hall => heven hall.1.2.2, Nat.add_zero]
    rw [hsame]
    refine h.recounted hm (.refl (h.apart hm)) le_rfl hbetween h.garbage (fun q hVq hlt => ?_)
      fun q hVq hle => ?_
    · rw [hq']
      exact h.done q hVq hlt
    · rw [hq']
      exact h.todo q hVq hle

omit hm in
theorem congr_counts (hD : ∀ x, IsPointer m x.1 x.2 → (D' x ↔ D x))
    (h : Rectifying extent V m D r chunks u) : Rectifying extent V m D' r chunks u :=
  ⟨h.entry, h.location, h.kept, h.size,
    fun p hp hr => by rw [references_congr hD]; exact h.done p hp hr,
    fun p hp hr => by rw [references_congr hD]; exact h.todo p hp hr,
    h.garbage, h.linked, h.unmarked, h.listed⟩

/-- The pointers of a marked object. -/
theorem wp_countPointers (h₁ : Rectifying extent V m (Before V p 0) (p + 2) chunks u)
    (hp : V p) : Wp (do
      let limit := (← lastPointerOf p) - 1
      forN limit fun i => do countUp (← heapChunkOfWord p (i + 1)))
      (fun _ => Rectifying extent V m (Before V (p + 2) 0) (p + 2) chunks) u := by
  have hsound := hm.closed.sound p hp
  have hin := hsound.mem
  have hext := hsound.last_le_extent
  have hsmall : ∀ j x, Before V p j x → x.1 < 65536 := fun j x hx => by
    have := (hm.closed.sound x.1 hx.1).mem.le
    omega
  have hread : ∀ {u'} {D'} {r'}, Rectifying extent V m D' r' chunks u' →
      u'.location p + 2 < 65536 ∧ u'.last p = m.last p ∧
        ∀ i, i < m.last p → u'.location p + i < 65536 ∧ u'.chunkWord p i = m.chunkWord p i :=
    fun {u'} {_} {_} h' => by
      have ht := h'.tiled hm
      have hpu := h'.inUse_iff.mpr hin
      have hinside := ht.inside p hpu
      have hkept : ∀ i, i < 3 → i < extent p → u'.chunkWord p i = m.chunkWord p i :=
        fun i h3 hi => h'.kept p i hp hi (not_extra_header h3)
      have htwo := hsound.two_le
      refine ⟨ht.location_lt hpu, last_congr (by rw [h'.entry p hin.even])
        (hkept 0 (by omega) (by omega)) (hkept 1 (by omega) (by omega))
        fun h3 => hkept 2 (by omega) (by omega), fun i hi => ⟨by omega, ?_⟩⟩
      exact h'.kept p i hp (by omega) (hsound.not_extra hi)
  obtain ⟨hloc, hlast, -⟩ := hread h₁
  rw [wp_bind, wp_lastPointerOf hin.isEntry hloc, hlast]
  refine (wp_forN (fun j => Rectifying extent V m (Before V p j) (p + 2) chunks)
    (fun j u' hj h' => ?_) h₁).mono fun _ u' h' => ?_
  · obtain ⟨hword, hsame⟩ := (hread h').2.2 (j + 1) (by omega)
    rw [wp_bind, wp_heapChunkOfWord, and_iff_right ⟨hin.isEntry, hword⟩, hsame, wp_countUp]
    refine ⟨fun heven => ?_, ?_⟩
    · have hVw := hm.closed.pointer p (j + 1) hp ⟨by omega, by omega, heven⟩
      have := (hm.closed.sound _ hVw).mem.le
      omega
    · refine h'.counted hm hp (hsmall j) (fun x => ?_) (fun hx => ?_) (by omega) (by omega)
      · obtain ⟨q, i⟩ := x
        simp only [Before, Prod.mk.injEq]
        constructor
        · rintro ⟨hV, hcase⟩
          by_cases hq : q = p ∧ i = j + 1
          · exact .inr hq
          · exact .inl ⟨hV, by omega⟩
        · rintro (⟨hV, hcase⟩ | ⟨rfl, rfl⟩)
          · exact ⟨hV, by omega⟩
          · exact ⟨hp, .inr ⟨rfl, le_rfl⟩⟩
      · have := hx.2
        dsimp only at this
        omega
  · refine congr_counts (fun x hx => ?_) h'
    obtain ⟨h1, hlt, -⟩ := hx
    refine and_congr_right fun hV => ?_
    have heven := (hm.closed.sound x.1 hV).mem.even
    have heven' := hin.even
    constructor
    · rintro (hlt' | ⟨-, h0⟩)
      · by_cases hxp : x.1 = p
        · exact .inr ⟨hxp, by rw [hxp] at hlt; omega⟩
        · exact .inl (by omega)
      · omega
    · rintro (hlt' | ⟨hxp, -⟩)
      · exact .inl (by omega)
      · exact .inl (by omega)

/-- A marked object. -/
theorem wp_rectifyCount (h : Rectifying extent V m (Before V p 0) p chunks u) (hp : V p) :
    Wp (rectifyCount p (u.entry p).count)
      (fun _ => Rectifying extent V m (Before V (p + 2) 0) (p + 2) chunks) u := by
  have hentry := (hm.closed.sound p hp).mem.isEntry
  have hunmarked := h.unmark hm hp
  rw [rectifyCount, wp_ite]
  refine ⟨fun hlt => ?_, fun hge => ?_⟩
  · rw [wp_bind, wp_countBitsOfPut, and_iff_right ⟨hentry, by omega⟩]
    rw [if_pos hlt] at hunmarked
    exact hunmarked.wp_countPointers hm hp
  · rw [if_neg hge] at hunmarked
    exact hunmarked.wp_countPointers hm hp

theorem wp_rectifyEntry (h : Rectifying extent V m (Before V p 0) p chunks u) (heven : p % 2 = 0)
    (hle : p ≤ 65532) : Wp (rectifyEntry p) (fun _ u' => ∃ chunks',
      Rectifying extent V m (Before V (p + 2) 0) (p + 2) chunks' u') u := by
  have hfree : (u.entry p).free = (m.entry p).free := by rw [h.entry p heven]
  have hentry : IsEntry p := ⟨heven, by omega⟩
  have hnext : ∀ {r chunks u'}, ¬V p → Rectifying extent V m (Before V p 0) r chunks u' →
      Rectifying extent V m (Before V (p + 2) 0) r chunks u' := fun hV h' => by
    refine congr_counts (fun x hx => and_congr_right fun hVx => ?_) h'
    have heven' := (hm.closed.sound x.1 hVx).mem.even
    have hne : x.1 ≠ p := fun hxp => hV (hxp ▸ hVx)
    have h1 := hx.1
    omega
  rw [rectifyEntry, wp_bind, wp_freeBitOf, and_iff_right hentry, wp_ite, hfree]
  refine ⟨fun h0 => ?_, fun h0 => ?_⟩
  · have hin : InUse m p := by
      refine ⟨⟨heven, ?_, hle⟩, h0⟩
      by_contra hlt
      obtain rfl : p = 0 := by omega
      exact hm.reserved h0
    rw [wp_bind, wp_countBitsOf, and_iff_right hentry, wp_ite]
    refine ⟨fun hc => ?_, fun hc => ?_⟩
    · -- it is unmarked
      have hV : ¬V p := fun hV => by
        have := h.todo p hV le_rfl
        omega
      rw [wp_bind, wp_spaceOccupiedBy hentry
        ((h.tiled hm).location_lt (h.inUse_iff.mpr hin)), wp_bind, wp_modify]
      have h' := h.freeWords (w := u.freeWords + u.space p)
      have ht := h'.tiled hm
      have hpu := h'.inUse_iff.mpr hin
      have hinside := ht.inside p hpu
      have htwo := ht.two_le p hpu
      obtain ⟨h2, hlt⟩ := h'.space_bounds hm hin le_rfl
      rw [wp_deallocate (ht.segment_lt p hpu) hentry (by omega) hlt h2]
      exact ⟨_, hnext hV (h'.deallocated hm hin hV)⟩
    · have hV : V p := by
        by_contra hV
        exact hc (h.garbage p hin.1 hV)
      exact (h.wp_rectifyCount hm hV).mono fun _ u' h' => ⟨chunks, h'⟩
  · rw [wp_pure]
    have hin : ¬InUse m p := fun hin => h0 hin.2
    have hV : ¬V p := fun hV => hin (hm.closed.sound p hV).mem
    exact ⟨chunks, hnext hV (h.skip hm hin heven)⟩

end Rectifying

/-! ## The sweep -/

def OnFreeChunkList (m : ObjectMemory) (p : Nat) : Prop := ∃ s k l, s < 15 ∧ 2 ≤ k ∧ k ≤ 20 ∧
  Linked (m.chunkWord · 1) nonPointer (m.chunkHead s k) l ∧ p ∈ l

/-- What the sweep leaves of the marked memory `m`. -/
structure Swept (extent : Nat → Nat) (V : Nat → Prop) (m u : ObjectMemory) : Prop where
  entry : ∀ p, p % 2 = 0 → u.entry p = { m.entry p with count := (u.entry p).count }
  location : ∀ p, p % 2 = 0 → p ≤ 65532 → u.location p = m.location p
  kept : ∀ p i, V p → i < extent p → ¬Extra m extent p i → u.chunkWord p i = m.chunkWord p i
  count : ∀ p, V p → p ≠ nilPointer →
    Tells (u.entry p).count (m.references (fun x => V x.1) p)
  nil : (u.entry nilPointer).count = 128
  lists : ∀ s k, s < 15 → 2 ≤ k → k ≤ 20 → ∃ l,
    Linked (u.chunkWord · 1) nonPointer (u.chunkHead s k) l ∧ ∀ p ∈ l, InUse m p
  listed : ∀ p, InUse m p → (OnFreeChunkList u p ↔ ¬V p)

/-- After the reset all lists are empty, and no entry has been visited. -/
theorem Rectifying.start (hm : Sweepable extent V m) (hmarked : ∀ p, V p → (m.entry p).count = 1)
    (hunmarked : ∀ p, IsOop p → ¬V p → (m.entry p).count = 0) (hu : HeadsOnly m u)
    (hheads : ∀ s k, s < 15 → 2 ≤ k → k ≤ 20 → u.chunkHead s k = nonPointer) :
    Rectifying extent V m (Before V 0 0) 0 (fun _ _ => []) u := by
  have hword : ∀ p i, InUse m p → i < extent p → u.chunkWord p i = m.chunkWord p i :=
    fun p i hp hi => by
      have := hm.tiled.word_lt hp hi
      rw [chunkWord, hu.entry, hu.location, hu.words _ _ this, chunkWord]
  have htwo := hm.tiled.two_le
  refine ⟨fun p hp => by rw [hu.entry], fun p _ _ => hu.location p,
    fun p i hp hi _ => hword p i (hm.closed.sound p hp).mem hi,
    fun p hp _ => hword p 0 hp (by have := htwo p hp; omega), fun p _ hlt => absurd hlt (by omega),
    fun p hp _ => ?_, fun p hp hV => by rw [hu.entry]; exact hunmarked p hp hV,
    fun s k hs h2 h20 => hheads s k hs h2 h20, fun s k p hp => by simp at hp,
    fun p _ _ hlt => absurd hlt (by omega)⟩
  rw [hu.entry, hmarked p hp, references_none]
  · rfl
  · rintro x hx ⟨-, hcase⟩
    have h1 := hx.1
    omega

/-- When all entries have been visited. -/
theorem Rectifying.swept (hm : Sweepable extent V m)
    (h : Rectifying extent V m (Before V 65534 0) 65534 chunks u) (hnil : V nilPointer)
    {u' : ObjectMemory} (hu : u' = u.setCount nilPointer 128) : Swept extent V m u' := by
  have h128 : 128 < 256 := by decide
  have hnilIn := (hm.closed.sound _ hnil).mem
  have hsame : Same extent (InUse m) u u' := hu ▸ same_setCount (h.apart hm) hnilIn h128
  have hcount : ∀ p, p ≠ nilPointer → (u'.entry p).count = (u.entry p).count := fun p hp => by
    rw [hu, entry_setCount h128, if_neg hp]
  have hD : ∀ p, m.references (Before V 65534 0) p = m.references (fun x => V x.1) p := fun p =>
    references_congr fun x _ => and_iff_left_of_imp fun hV =>
      .inl (by have := (hm.closed.sound x.1 hV).mem.le; omega)
  have hlinked : ∀ s k, s < 15 → 2 ≤ k → k ≤ 20 →
      Linked (u'.chunkWord · 1) nonPointer (u'.chunkHead s k) (chunks s k) :=
    fun s k hs h2 h20 => by
      rw [hsame.chunkHead hs]
      refine (h.linked s k hs h2 h20).congr fun p hp => ?_
      have hin := (h.unmarked s k p hp).1
      have htwo := hm.tiled.two_le p hin
      exact hsame.word p 1 hin (by omega) (not_extra_header (by omega))
  refine ⟨fun p hp => by rw [hsame.entry p, h.entry p hp],
    fun p hp hle => (hsame.location hp).trans (h.location p hp hle), fun p i hp hi hx => ?_,
    fun p hp hne => ?_, by rw [hu, entry_setCount h128, if_pos rfl],
    fun s k hs h2 h20 => ⟨_, hlinked s k hs h2 h20, fun p hp => (h.unmarked s k p hp).1⟩,
    fun p hp => ⟨?_, fun hV => ?_⟩⟩
  · have hin := (hm.closed.sound p hp).mem
    rw [hsame.word p i hin hi fun hx' => hx ?_, h.kept p i hp hi hx]
    rw [Extra, h.entry p hin.even] at hx'
    exact hx'
  · have hle := (hm.closed.sound p hp).mem.le
    rw [hcount p hne, ← hD]
    exact h.done p hp (by omega)
  · rintro ⟨s, k, l, hs, h2, h20, hl, hmem⟩
    rw [hl.unique (hlinked s k hs h2 h20)] at hmem
    exact (h.unmarked s k p hmem).2.1
  · have hle := hp.le
    obtain ⟨s, k, hs, h2, h20, hmem⟩ := h.listed p hp hV (by omega)
    exact ⟨s, k, chunks s k, hs, h2, h20, hlinked s k hs h2 h20, hmem⟩

/-- The chunks of all unmarked objects are put on the lists of free chunks, and
the counts of the marked ones become the numbers of their references. -/
theorem wp_rectifyCountsAndDeallocateGarbage (hm : Sweepable extent V m)
    (hmarked : ∀ p, V p → (m.entry p).count = 1)
    (hunmarked : ∀ p, IsOop p → ¬V p → (m.entry p).count = 0) (hnil : V nilPointer) :
    Wp rectifyCountsAndDeallocateGarbage (fun _ => Swept extent V m) m := by
  have hcount : objectTableSize / 2 = 32767 := rfl
  rw [rectifyCountsAndDeallocateGarbage, wp_bind]
  refine wp_resetFreeChunkLists_heads.mono fun _ u₁ ⟨hu₁, hheads⟩ => ?_
  rw [wp_bind, hcount]
  refine (wp_forN (fun n u => ∃ chunks,
    Rectifying extent V m (Before V (2 * n) 0) (2 * n) chunks u) (fun n u hn h => ?_)
    ⟨_, Rectifying.start hm hmarked hunmarked hu₁ hheads⟩).mono fun _ u₂ h => ?_
  · obtain ⟨chunks, h⟩ := h
    exact h.wp_rectifyEntry hm (by omega) (by omega)
  · obtain ⟨chunks, h⟩ := h
    rw [wp_bind, wp_countBitsOfPut, and_iff_right ⟨⟨rfl, by decide⟩, by decide⟩, wp_bind]
    refine wp_auditFreeOops.mono fun count u₃ hu₃ => ?_
    rw [wp_modify]
    have hswept := h.swept hm hnil hu₃
    exact ⟨hswept.entry, hswept.location, hswept.kept, hswept.count, hswept.nil, hswept.lists,
      hswept.listed⟩

end ObjectMemory

end Crosstalk
