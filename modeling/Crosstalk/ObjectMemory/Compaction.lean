import Crosstalk.ObjectMemory.Allocation

/-!
# Compaction

`compactCurrentSegment` gives up all free chunks of a segment, moves its objects
down, one after the other, and makes one free chunk of what is left above them.
While the objects move, the size of each is in its object table entry, and its
oop is in the heap.
-/

namespace Crosstalk

namespace ObjectMemory

variable {m u : ObjectMemory} {L : Layout} {gone l : List Nat} {p q s k w i low : Nat}

/-! ## Giving up the free chunks -/

/-- The chunk of `p` is marked, and its entry free. -/
def abandoned (u : ObjectMemory) (p : Nat) : ObjectMemory :=
  (((u.setChunkWord p 1 nonPointer).setFree p 1).setLocation p u.freeHead).setFreeHead p

theorem word_abandoned {s' : Nat} (hp : IsOop p) (hs : (u.entry p).segment = s) (hs15 : s < 15) :
    (u.abandoned p).word s' w =
      if s' = 15 ∧ w = 65534 then p
      else if s' = 15 ∧ w = p + 1 then u.freeHead
      else if s' = 15 ∧ w = p then putField (u.word 15 p) 5 1 1
      else if s' = s ∧ w = u.location p + 1 then 65535
      else u.word s' w := by
  have hhead := u.freeHead_lt
  have hput : putField (u.word objectTableSegment p) 5 1 1 < 65536 :=
    putField_lt (u.word_lt _ _) (by omega) (by omega)
  have hp16 : p % 65536 = p := Nat.mod_eq_of_lt (by omega)
  have hne : ¬(objectTableSegment = s ∧ p = u.location p + 1) := fun hall => by
    have h15 : objectTableSegment = 15 := rfl
    omega
  simp only [abandoned, setFreeHead, setLocation, setFree, setField, setChunkWord, word_setWord,
    Nat.mod_eq_of_lt hhead, hp16, hs]
  rw [if_neg hne, Nat.mod_eq_of_lt hput]
  rfl

/-- The free chunks `gone` of segment `s` have been given up, the last one first;
none is below `low`, and the lists for sizes below `k` are empty. -/
structure Abandoned (m : ObjectMemory) (L : Layout) (s k : Nat) (gone : List Nat) (low : Nat)
    (u : ObjectMemory) : Prop where
  linked : Linked u.location nonPointer u.freeHead (gone ++ L.freePointers)
  chunk : ∀ p ∈ gone, ∃ k, p ∈ L.chunks s k
  all : ∀ k' < k, ∀ p ∈ L.chunks s k', p ∈ gone
  free : ∀ p ∈ gone, u.entry p = { m.entry p with free := 1 }
  table : ∀ w, w < 65534 → (∀ p ∈ gone, w ≠ p ∧ w ≠ p + 1) → u.word 15 w = m.word 15 w
  marked : ∀ p ∈ gone, u.word s (m.location p + 1) = nonPointer
  kept : ∀ s' w, s' < 15 → (s' = s → w < 65515 ∧ ∀ p ∈ gone, w ≠ m.location p + 1) →
    u.word s' w = m.word s' w
  emptied : ∀ k', 2 ≤ k' → k' < k → u.chunkHead s k' = nonPointer
  heads : ∀ k', k' < 2 ∨ k ≤ k' → u.chunkHead s k' = m.chunkHead s k'
  low_le : ∀ p ∈ gone, low ≤ m.location p
  low_eq : low = heapSpaceStop ∧ gone = [] ∨ ∃ p ∈ gone, m.location p = low
  currentSegment : u.currentSegment = m.currentSegment

theorem Heap.chunk_apart (h : Heap m L) (hp : p ∈ L.chunks s k) :
    IsOop p ∧ (m.entry p).segment = s ∧ s < 15 ∧ m.location p + 2 ≤ 65515 := by
  have hc := h.lists.freeChunk s k p hp
  have htwo := h.tiled.two_le p hc.inUse
  have hin := h.tiled.inside p hc.inUse
  exact ⟨hc.inUse.1, hc.segment, hc.segment_lt, by omega⟩

namespace Abandoned

variable (hm : Heap m L)

include hm

theorem entry_eq (h : Abandoned m L s k gone low u) (hp : IsOop p) (hout : p ∉ gone) :
    u.entry p = m.entry p ∧ u.location p = m.location p := by
  have hne : ∀ q ∈ gone, p ≠ q ∧ p ≠ q + 1 ∧ p + 1 ≠ q := fun q hq => by
    obtain ⟨k', hk⟩ := h.chunk q hq
    have heven := (hm.chunk_apart hk).1.1
    have hpq : p ≠ q := fun hpq => hout (hpq ▸ hq)
    omega
  refine ⟨?_, ?_⟩
  · exact congrArg decodeEntry (h.table p (by omega) fun q hq => ⟨(hne q hq).1, (hne q hq).2.1⟩)
  · refine h.table (p + 1) (by omega) fun q hq => ?_
    have := hne q hq
    omega

/-- One more free chunk of the list for `k`. -/
theorem round (h : Abandoned m L s k gone low u) (hp : p ∈ L.chunks s k) (hout : p ∉ gone) :
    Abandoned m L s k (p :: gone) (min low (m.location p)) (u.abandoned p) := by
  obtain ⟨hoop, hseg, hs15, hloc⟩ := hm.chunk_apart hp
  obtain ⟨hentry, hlocation⟩ := h.entry_eq hm hoop hout
  have hword : ∀ s' w, (u.abandoned p).word s' w = _ := fun s' w =>
    word_abandoned hoop (by rw [hentry]; exact hseg) hs15
  have hother : ∀ q ∈ gone, IsOop q ∧ q ≠ p := fun q hq => by
    obtain ⟨k', hk⟩ := h.chunk q hq
    exact ⟨(hm.chunk_apart hk).1, fun hqp => hout (hqp ▸ hq)⟩
  have hhead : (u.abandoned p).freeHead = p := by
    rw [freeHead, hword, if_pos ⟨rfl, rfl⟩]
  have hlow : ∀ q ∈ p :: gone, min low (m.location p) ≤ m.location q := fun q hq => by
    rcases List.mem_cons.mp hq with rfl | hq
    · exact Nat.min_le_right _ _
    · exact (Nat.min_le_left _ _).trans (h.low_le q hq)
  have hfree : ∀ q ∈ L.freePointers, IsOop q ∧ q ≠ p := fun q hq => by
    obtain ⟨hq', h1⟩ := (hm.lists.mem_pointers q).mp hq
    refine ⟨hq', fun hqp => ?_⟩
    have h0 := (hm.chunk_inUse hp).2
    rw [hqp] at h1
    omega
  have hplace : ∀ q, IsOop q → q ≠ p → (u.abandoned p).location q = u.location q :=
      fun q hq hne => by
    rw [location, hword, if_neg (by omega), if_neg (by omega), if_neg (by omega),
      if_neg (by have : objectTableSegment = 15 := rfl; omega), location]
  refine ⟨?_, fun q hq => ?_, fun k' hk' q hq => List.mem_cons_of_mem _ (h.all k' hk' q hq),
    fun q hq => ?_, fun w' hw' hne => ?_, fun q hq => ?_, fun s' w' hs' hne => ?_,
    fun k' h2 hk' => ?_,
    fun k' hk' => ?_, hlow, .inr ?_, h.currentSegment⟩
  · refine ⟨hhead, by simp only [nonPointer]; omega, ?_⟩
    have hnext : (u.abandoned p).location p = u.freeHead := by
      rw [location, hword, if_neg (by omega), if_pos ⟨rfl, rfl⟩]
    rw [hnext]
    refine h.linked.congr fun q hq => ?_
    rcases List.mem_append.mp hq with hq | hq
    · exact hplace q (hother q hq).1 (hother q hq).2
    · exact hplace q (hfree q hq).1 (hfree q hq).2
  · rcases List.mem_cons.mp hq with rfl | hq
    · exact ⟨k, hp⟩
    · exact h.chunk q hq
  · rcases List.mem_cons.mp hq with rfl | hq
    · rw [entry, hword, if_neg (by omega), if_neg (by omega), if_pos ⟨rfl, rfl⟩,
        decodeEntry_putFree (by omega), ← hentry]
      rfl
    · obtain ⟨hq', hne⟩ := hother q hq
      rw [entry, hword, if_neg (by omega), if_neg (by omega), if_neg fun hall => hne hall.2,
        if_neg (by have : objectTableSegment = 15 := rfl; omega)]
      exact h.free q hq
  · have hpw := hne p List.mem_cons_self
    rw [hword, if_neg (by omega), if_neg fun hall => hpw.2 hall.2, if_neg fun hall => hpw.1 hall.2,
      if_neg (by omega)]
    exact h.table w' hw' fun q hq => hne q (List.mem_cons_of_mem _ hq)
  · rw [hword, if_neg (by omega), if_neg (by omega), if_neg (by omega)]
    rcases List.mem_cons.mp hq with rfl | hq
    · rw [hlocation, if_pos ⟨rfl, rfl⟩]
    · split
      · rfl
      · exact h.marked q hq
  · rw [hword, if_neg (by omega), if_neg (by omega), if_neg (by omega), hlocation,
      if_neg fun hall => (hne hall.1).2 p List.mem_cons_self hall.2]
    exact h.kept s' w' hs' fun hss => ⟨(hne hss).1, fun q hq =>
      (hne hss).2 q (List.mem_cons_of_mem _ hq)⟩
  · rw [chunkHead, hword, if_neg (by omega), if_neg (by omega), if_neg (by omega), hlocation,
      if_neg (by have : firstFreeChunkList = 65515 := rfl; omega)]
    exact h.emptied k' h2 hk'
  · rw [chunkHead, hword, if_neg (by omega), if_neg (by omega), if_neg (by omega), hlocation,
      if_neg (by have : firstFreeChunkList = 65515 := rfl; omega)]
    exact h.heads k' hk'
  · rcases h.low_eq with ⟨hlow', -⟩ | ⟨q, hq, hql⟩
    · refine ⟨p, List.mem_cons_self, ?_⟩
      have : heapSpaceStop = 65514 := rfl
      omega
    · rcases Nat.le_total low (m.location p) with hle | hle
      · exact ⟨q, List.mem_cons_of_mem _ hq, by rw [hql, Nat.min_eq_left hle]⟩
      · exact ⟨p, List.mem_cons_self, (Nat.min_eq_right hle).symm⟩

theorem chunkWord_eq (h : Abandoned m L s k gone low u) (hp : InUse m p) (hout : p ∉ gone)
    (hi : i < L.extent p) : u.chunkWord p i = m.chunkWord p i := by
  obtain ⟨hentry, hlocation⟩ := h.entry_eq hm hp.1 hout
  have hin := hm.tiled.word_lt hp hi
  rw [chunkWord, hentry, hlocation]
  refine h.kept _ _ (hm.tiled.segment_lt p hp) fun hs => ⟨hin, fun q hq hw => ?_⟩
  obtain ⟨k', hk⟩ := h.chunk q hq
  have hq' := hm.lists.freeChunk s k' q hk
  have htwo := hm.tiled.two_le q hq'.inUse
  obtain ⟨rfl, -⟩ := hm.tiled.eq_of_word hp hq'.inUse hi (j := 1) (by omega)
    (hq'.segment.trans hs.symm) hw.symm
  exact hout hq

/-- The chunks of one list are given up in turn. -/
theorem wp_abandonRounds {a : Nat} (hlinked : Linked (m.chunkWord · 1) nonPointer a l)
    (hl : ∀ p ∈ l, p ∈ L.chunks s k) (hout : ∀ p ∈ l, p ∉ gone)
    (h : Abandoned m L s k gone low u) : Wp (iterate abandonRound (a, low)) (fun low' u' =>
      ∃ gone', Abandoned m L s k gone' low' u' ∧ ∀ p, p ∈ gone' ↔ p ∈ l ∨ p ∈ gone) u := by
  have hnodup := hlinked.nodup
  induction l generalizing a gone low u with
  | nil =>
      have ha : a = nonPointer := hlinked
      refine wp_iterate_of_round ?_
      rw [abandonRound, if_pos ha, wp_pure, loopPost_inr]
      exact ⟨gone, h, by simp⟩
  | cons p l ih =>
      obtain ⟨rfl, hne, hlinked⟩ := hlinked
      have hp := hl a List.mem_cons_self
      have hgone := hout a List.mem_cons_self
      obtain ⟨hoop, hseg, hs15, hloc⟩ := hm.chunk_apart hp
      obtain ⟨hentry, hlocation⟩ := h.entry_eq hm hoop hgone
      have hnext := h.chunkWord_eq hm (hm.chunk_inUse hp) hgone (i := 1)
        (by have := hm.tiled.two_le a (hm.chunk_inUse hp); omega)
      have hsegu : (u.entry a).segment ≠ 15 := by
        rw [hentry]
        omega
      have hin : u.location a + 1 < 65536 := by omega
      refine wp_iterate_of_round ?_
      rw [abandonRound, if_neg hne, wp_bind, wp_locationBitsOf, and_iff_right hoop.isEntry, wp_bind,
        wp_classBitsOf, and_iff_right ⟨hoop.isEntry, hin⟩, wp_bind, wp_classBitsOfPut,
        and_iff_right ⟨hoop.isEntry, hin, by simp only [nonPointer]; omega⟩, wp_bind,
        releasePointer, wp_bind,
        wp_freeBitOfPut, and_iff_right ⟨hoop.isEntry, by omega⟩, toFreePointerListAdd, wp_bind,
        wp_headOfFreePointerList, wp_bind, wp_locationBitsOfPut,
        and_iff_right ⟨hoop.isEntry, freeHead_lt _⟩, wp_headOfFreePointerListPut,
        and_iff_right hoop.isEntry.2, wp_pure, loopPost_inl, hlocation, hnext, setFree,
        freeHead_setField hoop.2.2, freeHead_setChunkWord hsegu]
      obtain ⟨hnot, hnodup⟩ := List.nodup_cons.mp hnodup
      refine (ih hlinked (fun q hq => hl q (List.mem_cons_of_mem _ hq)) (fun q hq hmem => ?_)
        (h.round hm hp hgone) hnodup).mono ?_
      · rcases List.mem_cons.mp hmem with rfl | hmem
        · exact hnot hq
        · exact hout q (List.mem_cons_of_mem _ hq) hmem
      · rintro low' u' ⟨gone', h', hmem⟩
        refine ⟨gone', h', fun q => (hmem q).trans ?_⟩
        simp only [List.mem_cons]
        tauto

/-- The list for `k` is empty. -/
theorem reset (h : Abandoned m L s k gone low u) (hs : s < 15) (h2k : 2 ≤ k)
    (hk : ∀ p ∈ L.chunks s k, p ∈ gone) :
    Abandoned m L s (k + 1) gone low (u.setChunkHead s k nonPointer) := by
  have hs15 : s ≠ 15 := by omega
  have hword : ∀ s' w, (s' = s → w < 65515) →
      (u.setChunkHead s k nonPointer).word s' w = u.word s' w := fun s' w hw => by
    rw [setChunkHead, word_setWord, if_neg]
    simp only [firstFreeChunkList, heapSpaceStop, firstFreeChunkListSize, bigSize, segmentSize]
    omega
  have hentry : ∀ q, (u.setChunkHead s k nonPointer).entry q = u.entry q := fun q =>
    entry_setChunkHead hs15
  have hhead : ∀ k', (u.setChunkHead s k nonPointer).chunkHead s k' =
      if k' = k then nonPointer else u.chunkHead s k' := fun k' => by
    rw [chunkHead_setChunkHead (by simp only [nonPointer]; omega)]
    simp only [true_and]
  refine ⟨?_, h.chunk, fun k' hk' p hp => ?_, fun p hp => ?_, fun w hw hne => ?_, fun p hp => ?_,
    fun s' w hs' hne => ?_, fun k' h2 hk' => ?_, fun k' hk' => ?_, h.low_le, h.low_eq,
    h.currentSegment⟩
  · rw [freeHead_setChunkHead hs15]
    exact h.linked.congr fun q _ => location_setChunkHead hs15
  · rcases Nat.lt_succ_iff_lt_or_eq.mp hk' with hk' | rfl
    · exact h.all k' hk' p hp
    · exact hk p hp
  · rw [hentry]
    exact h.free p hp
  · rw [hword 15 w (by omega)]
    exact h.table w hw hne
  · obtain ⟨k', hk'⟩ := h.chunk p hp
    obtain ⟨-, -, -, hloc⟩ := hm.chunk_apart hk'
    rw [hword s _ (by omega)]
    exact h.marked p hp
  · rw [hword s' w fun hss => (hne hss).1]
    exact h.kept s' w hs' hne
  · rw [hhead]
    split
    · rfl
    · exact h.emptied k' h2 (by omega)
  · rw [hhead, if_neg (by omega)]
    exact h.heads k' (by omega)

theorem wp_abandonFrom (hs : s < 15) {n : Nat} (hn : n ≤ 19) :
    Wp (abandonFrom s n heapSpaceStop) (fun low u =>
      ∃ gone, Abandoned m L s (n + 2) gone low u ∧
        ∀ p ∈ gone, ∃ k < n + 2, p ∈ L.chunks s k) m := by
  induction n with
  | zero =>
      rw [abandonFrom, wp_pure]
      refine ⟨[], ⟨hm.lists.pointers, by simp, fun k' hk' p hp => ?_, by simp, fun _ _ _ => rfl,
        by simp, fun _ _ _ _ => rfl, fun k' h2 hk' => by omega, fun _ _ => rfl, by simp,
        .inl ⟨rfl, rfl⟩, rfl⟩,
        by simp⟩
      have := (hm.lists.freeChunk s k' p hp).two_le
      omega
  | succ n ih =>
      rw [abandonFrom, wp_bind]
      refine (ih (by omega)).mono ?_
      rintro low u ⟨gone, h, hsmall⟩
      have hk : headerSize + n = n + 2 := by simp only [headerSize]; omega
      have hlinked := hm.lists.chunks s (n + 2) hs (by omega) (by omega)
      rw [← h.heads (n + 2) (.inr le_rfl)] at hlinked
      rw [wp_bind, hk, wp_headOfFreeChunkListInSegment,
        and_iff_right ⟨by omega, by omega, by omega⟩,
        wp_bind]
      refine (h.wp_abandonRounds hm hlinked (fun _ hp => hp) fun p hp hgone => ?_).mono ?_
      · obtain ⟨k', hk', hp'⟩ := hsmall p hgone
        have := hm.lists.unique s k' (n + 2) p hp' hp
        omega
      · rintro low' u' ⟨gone', h', hmem⟩
        rw [wp_bind, wp_resetFreeChunkListInSegment, and_iff_right ⟨by omega, by omega, by omega⟩,
          wp_pure]
        refine ⟨gone', h'.reset hm hs (by omega) fun p hp => (hmem p).mpr (.inl hp), fun p hp => ?_⟩
        rcases (hmem p).mp hp with hp | hp
        · exact ⟨n + 2, by omega, hp⟩
        · obtain ⟨k', hk', hp⟩ := hsmall p hp
          exact ⟨k', by omega, hp⟩

theorem mem_gone (h : Abandoned m L s 21 gone low u) : p ∈ gone ↔ ∃ k, p ∈ L.chunks s k := by
  refine ⟨h.chunk p, fun ⟨k', hk'⟩ => h.all k' ?_ p hk'⟩
  have := (hm.lists.freeChunk s k' p hk').le_bigSize
  omega

end Abandoned

/-! ## Reversing the pointers -/

/-- The object `p` of segment `s` will be swept. -/
structure Movable (m : ObjectMemory) (L : Layout) (s low p : Nat) : Prop where
  allocated : Allocated m L p
  segment : (m.entry p).segment = s
  le : low ≤ m.location p

/-- The oop of each object below `n` that will be swept is in the heap, and its
size in the table. -/
structure Swapped (m : ObjectMemory) (L : Layout) (s low : Nat) (u : ObjectMemory) (n : Nat)
    (v : ObjectMemory) : Prop where
  moved : ∀ p, Movable m L s low p → p < n →
    v.location p = m.chunkWord p 0 ∧ v.word s (m.location p) = p
  table : ∀ w, (∀ p, Movable m L s low p → p < n → w ≠ p + 1) → v.word 15 w = u.word 15 w
  kept : ∀ s' w, s' < 15 → (s' = s → ∀ p, Movable m L s low p → p < n → w ≠ m.location p) →
    v.word s' w = u.word s' w
  currentSegment : v.currentSegment = u.currentSegment

section Swapped

variable {v : ObjectMemory} {n : Nat}

theorem Swapped.skip (hv : Swapped m L s low u n v) (hn : ¬Movable m L s low n) (hodd : n % 2 = 0) :
    Swapped m L s low u (n + 2) v := by
  have hlt : ∀ p, Movable m L s low p → p < n + 2 → p < n := fun p hp hlt => by
    have heven := hp.allocated.inUse.even
    have hne : p ≠ n := fun hpn => hn (hpn ▸ hp)
    omega
  exact ⟨fun p hp hp' => hv.moved p hp (hlt p hp hp'),
    fun w hw => hv.table w fun p hp hp' => hw p hp (by omega),
    fun s' w hs' hw => hv.kept s' w hs' fun hs p hp hp' => hw hs p hp (by omega), hv.currentSegment⟩

theorem Swapped.entry_eq (hv : Swapped m L s low u n v) (hp : p % 2 = 0) :
    v.entry p = u.entry p :=
  congrArg decodeEntry (hv.table p fun q hq _ => by have := hq.allocated.inUse.even; omega)

theorem Swapped.location_eq (hv : Swapped m L s low u n v) (hp : ¬(Movable m L s low p ∧ p < n)) :
    v.location p = u.location p :=
  hv.table (p + 1) fun q hq hqn hpq => hp (by
    obtain rfl : p = q := by omega
    exact ⟨hq, hqn⟩)

variable (hm : Heap m L) (h : Abandoned m L s 21 gone low u)

include hm h

/-- Which entries are reversed can be told after the chunks have been given up. -/
theorem movable_iff (hp : IsOop p) : Movable m L s low p ↔
    (u.entry p).free = 0 ∧ (u.entry p).segment = s ∧ low ≤ u.location p := by
  by_cases hout : p ∈ gone
  · have hfree : (u.entry p).free = 1 := by rw [h.free p hout]
    refine ⟨fun hmoved => ?_, fun hall => by omega⟩
    obtain ⟨k', hk'⟩ := h.chunk p hout
    exact absurd hk' (hmoved.allocated.2 s k')
  · obtain ⟨hentry, hlocation⟩ := h.entry_eq hm hp hout
    rw [hentry, hlocation]
    refine ⟨fun hmoved => ⟨hmoved.allocated.inUse.2, hmoved.segment, hmoved.le⟩, ?_⟩
    rintro ⟨hfree, hseg, hle⟩
    refine ⟨⟨⟨hp, hfree⟩, fun s' k' hk' => hout ?_⟩, hseg, hle⟩
    have hs := (hm.lists.freeChunk s' k' p hk').segment
    rw [h.mem_gone hm]
    exact ⟨k', by rw [← hseg, hs]; exact hk'⟩

theorem Swapped.reverse (hv : Swapped m L s low u n v) (hn : Movable m L s low n) :
    Swapped m L s low u (n + 2) ((v.setChunkWord n 0 n).setLocation n (m.chunkWord n 0)) := by
  have hoop := hn.allocated.inUse.1
  have hout : n ∉ gone := fun hmem => by
    obtain ⟨k', hk'⟩ := h.chunk n hmem
    exact hn.allocated.2 s k' hk'
  obtain ⟨hentry, hlocation⟩ := h.entry_eq hm hoop hout
  have hventry := hv.entry_eq hoop.1
  have hvlocation := hv.location_eq (p := n) (by omega)
  have hs15 := hm.tiled.segment_lt n hn.allocated.inUse
  have hs := hn.segment
  have hsize := m.chunkWord_lt n 0
  have hword : ∀ s' w, ((v.setChunkWord n 0 n).setLocation n (m.chunkWord n 0)).word s' w =
      if s' = 15 ∧ w = n + 1 then m.chunkWord n 0
      else if s' = s ∧ w = m.location n then n else v.word s' w := fun s' w => by
    simp only [setLocation, setChunkWord, word_setWord, hventry, hvlocation, hentry, hlocation, hs,
      Nat.mod_eq_of_lt hsize, Nat.mod_eq_of_lt hoop.isEntry.2, Nat.add_zero]
    rfl
  have hother : ∀ p, Movable m L s low p → p ≠ n → m.location p ≠ m.location n :=
      fun p hp hne hloc => by
    have h2 := hm.tiled.two_le p hp.allocated.inUse
    have h2' := hm.tiled.two_le n hn.allocated.inUse
    have := (hm.tiled.eq_of_word (j := 0) (i := 0) hn.allocated.inUse hp.allocated.inUse
      (by omega) (by omega)
      (hp.segment.trans hs.symm) (by omega)).1
    exact hne this
  refine ⟨fun p hp hlt => ?_, fun w hw => ?_, fun s' w hs' hw => ?_, hv.currentSegment⟩
  · by_cases hpn : p = n
    · subst hpn
      rw [location, hword, hword, if_pos ⟨rfl, rfl⟩, if_neg (by omega), if_pos ⟨rfl, rfl⟩]
      exact ⟨rfl, rfl⟩
    · have heven := hp.allocated.inUse.even
      obtain ⟨h1, h2⟩ := hv.moved p hp (by omega)
      rw [location, hword, hword, if_neg (by omega),
        if_neg (by have : objectTableSegment = 15 := rfl; omega),
        if_neg (by omega), if_neg fun hall => hother p hp hpn hall.2]
      exact ⟨h1, h2⟩
  · rw [hword, if_neg fun hall => hw n hn (by omega) hall.2, if_neg (by omega)]
    exact hv.table w fun p hp hlt => hw p hp (by omega)
  · rw [hword, if_neg (by omega), if_neg fun hall => hw hall.1 n hn (by omega) hall.2]
    exact hv.kept s' w hs' fun hss p hp hlt => hw hss p hp (by omega)

theorem Swapped.size_eq (hv : Swapped m L s low u n v) (hn : Movable m L s low n) :
    v.chunkWord n 0 = m.chunkWord n 0 := by
  have hoop := hn.allocated.inUse.1
  have hout : n ∉ gone := fun hmem => by
    obtain ⟨k', hk'⟩ := h.chunk n hmem
    exact hn.allocated.2 s k' hk'
  have htwo := hm.tiled.two_le n hn.allocated.inUse
  rw [← h.chunkWord_eq hm hn.allocated.inUse hout (by omega), chunkWord, hv.entry_eq hoop.1,
    hv.location_eq (by omega), chunkWord]
  obtain ⟨hentry, hlocation⟩ := h.entry_eq hm hoop hout
  rw [hentry, hlocation]
  refine hv.kept _ _ (hm.tiled.segment_lt n hn.allocated.inUse) fun _ p hp hlt hloc => ?_
  have htwo' := hm.tiled.two_le p hp.allocated.inUse
  have := (hm.tiled.eq_of_word (j := 0) (i := 0) hn.allocated.inUse hp.allocated.inUse
    (by omega) (by omega)
    (hp.segment.trans hn.segment.symm) (by omega)).1
  omega

theorem wp_reverseHeapPointersAbove (hcurrent : m.currentSegment = s)
    (h0 : (m.entry 0).free ≠ 0) : Wp (reverseHeapPointersAbove low) (fun _ v =>
      Swapped m L s low u 65534 v) u := by
  rw [reverseHeapPointersAbove, wp_bind, wp_get, h.currentSegment, hcurrent]
  refine (wp_forN (fun i v => Swapped m L s low u (2 * i) v) (fun i v hi hv => ?_) ?_).mono
    fun _ v hv => hv
  · have hi' : 2 * i ≤ 65532 := by
      simp only [objectTableSize, segmentSize] at hi
      omega
    have heven : (2 * i) % 2 = 0 := by omega
    have hentry := hv.entry_eq heven
    rw [wp_bind, wp_freeBitOf, and_iff_right ⟨heven, by omega⟩, wp_ite, hentry]
    by_cases hzero : i = 0
    · subst hzero
      have hu : (u.entry 0).free ≠ 0 := by
        have : u.entry 0 = m.entry 0 := congrArg decodeEntry (h.table 0 (by omega) fun q hq => by
          obtain ⟨k', hk'⟩ := h.chunk q hq
          have := (hm.chunk_apart hk').1.2.1
          omega)
        rwa [this]
      refine ⟨fun hfree => absurd hfree hu, fun _ => ?_⟩
      rw [wp_pure]
      exact hv.skip (fun hmoved => by have := hmoved.allocated.inUse.1.2.1; omega) heven
    · have hoop : IsOop (2 * i) := ⟨heven, by omega, hi'⟩
      have hlocation := hv.location_eq (p := 2 * i) (by omega)
      have hmoved := movable_iff hm h hoop
      by_cases hmv : Movable m L s low (2 * i)
      · obtain ⟨hfree, hseg, hle⟩ := hmoved.mp hmv
        have hin := hm.tiled.inside _ hmv.allocated.inUse
        have htwo := hm.tiled.two_le _ hmv.allocated.inUse
        have hout : 2 * i ∉ gone := fun hmem => by
          obtain ⟨k', hk'⟩ := h.chunk _ hmem
          exact hmv.allocated.2 s k' hk'
        have hloc : v.location (2 * i) + 0 < 65536 := by
          rw [hlocation, (h.entry_eq hm hoop hout).2]
          omega
        have hsize := m.chunkWord_lt (2 * i) 0
        refine ⟨fun _ => ?_, fun hn => absurd hfree hn⟩
        rw [wp_bind, wp_segmentBitsOf, and_iff_right hoop.isEntry, wp_ite, hentry, hseg]
        refine ⟨fun _ => ?_, fun hn => absurd rfl hn⟩
        rw [reversePointer, wp_bind, wp_locationBitsOf, and_iff_right hoop.isEntry, wp_ite,
          hlocation]
        refine ⟨fun _ => ?_, fun hn => absurd hle hn⟩
        rw [wp_bind, wp_sizeBitsOf, and_iff_right ⟨hoop.isEntry, hloc⟩, wp_bind, wp_sizeBitsOfPut,
          and_iff_right ⟨hoop.isEntry, hloc, hoop.isEntry.2⟩, wp_locationBitsOfPut,
          hv.size_eq hm h hmv, and_iff_right ⟨hoop.isEntry, hsize⟩]
        exact hv.reverse hm h hmv
      · have hskip := hv.skip hmv heven
        refine ⟨fun hfree => ?_, fun _ => by rw [wp_pure]; exact hskip⟩
        rw [wp_bind, wp_segmentBitsOf, and_iff_right hoop.isEntry, wp_ite, hentry]
        refine ⟨fun hseg => ?_, fun _ => by rw [wp_pure]; exact hskip⟩
        rw [reversePointer, wp_bind, wp_locationBitsOf, and_iff_right hoop.isEntry, wp_ite,
          hlocation]
        refine ⟨fun hle => ?_, fun _ => by rw [wp_pure]; exact hskip⟩
        exact absurd (hmoved.mpr ⟨hfree, by omega, hle⟩) hmv
  · exact ⟨fun p hp hlt => by omega, fun _ _ => rfl, fun _ _ _ _ => rfl, rfl⟩

end Swapped

/-! ## The sweep -/

/-- Words are copied in ascending order to a place that is not above them. -/
theorem wp_copyWords {a d n : Nat} {z : ObjectMemory} (hs : s < 15) (hd : d ≤ a)
    (ha : a + n ≤ 65536) :
    Wp (forN n fun i => do segmentWordPut s (d + i) (← segmentWord s (a + i)))
      (fun _ (z' : ObjectMemory) => (∀ s' w, z'.word s' w =
        if s' = s ∧ d ≤ w ∧ w < d + n then z.word s (a + (w - d)) else z.word s' w) ∧
          z'.currentSegment = z.currentSegment) z := by
  refine wp_forN (fun i (z' : ObjectMemory) => (∀ s' w, z'.word s' w =
    if s' = s ∧ d ≤ w ∧ w < d + i then z.word s (a + (w - d)) else z.word s' w) ∧
      z'.currentSegment = z.currentSegment) ?_ ⟨fun s' w => by rw [if_neg (by omega)], rfl⟩
  rintro i z' hi ⟨hword, hcurrent⟩
  have hlt := z.word_lt s (a + i)
  -- the source has not been overwritten
  have hread : z'.word s (a + i) = z.word s (a + i) := by rw [hword, if_neg (by omega)]
  have hsize : segmentSize = 65536 := rfl
  rw [wp_bind, wp_segmentWord, hread, and_iff_right ⟨by simp only [segmentCount]; omega, by omega⟩,
    wp_segmentWordPut, and_iff_right ⟨by simp only [segmentCount]; omega, by omega, hlt⟩]
  refine ⟨fun s' w => ?_, hcurrent⟩
  rw [word_setWord, Nat.mod_eq_of_lt hlt, hword]
  by_cases hw : s' = s ∧ w = d + i
  · obtain ⟨rfl, rfl⟩ := hw
    rw [if_pos ⟨rfl, rfl⟩, if_pos ⟨rfl, by omega, by omega⟩, Nat.add_sub_cancel_left]
  · rw [if_neg hw]
    exact if_congr (by omega) rfl rfl

/-- What has the mark of a free chunk is skipped. -/
theorem wp_sweepRound_free {si di : Nat} {v : ObjectMemory}
    {Q : Nat × Nat ⊕ Nat → ObjectMemory → Prop} (hs : s < 15) (hsi : si < heapSpaceStop)
    (hmark : v.word s (si + 1) = nonPointer) :
    Wp (sweepRound s (si, di)) Q v ↔ Q (.inl (si + v.word s si, di)) v := by
  have hstop : heapSpaceStop = 65514 := rfl
  have hslot : s < segmentCount ∧ si + 1 < segmentSize := by
    simp only [segmentCount, segmentSize]
    omega
  rw [sweepRound, if_pos hsi, wp_bind, wp_segmentWord, and_iff_right hslot, hmark, if_pos rfl,
    wp_bind, wp_segmentWord, and_iff_right ⟨hslot.1, by simp only [segmentSize]; omega⟩, wp_pure]

/-- The chunks below `si` have been swept, and their objects fill the words from
`low` to `di`. -/
structure Sweeping (m : ObjectMemory) (L : Layout) (s low : Nat) (v : ObjectMemory) (si di : Nat)
    (z : ObjectMemory) : Prop where
  low_le : low ≤ di
  di_le : di ≤ si
  si_le : si ≤ 65515
  bound : ∀ p, InUse m p → (m.entry p).segment = s →
    m.location p + L.extent p ≤ si ∨ si ≤ m.location p
  gap : di + 2 ≤ si ∨ si = low
  place : ∀ p, Movable m L s low p → m.location p < si →
    low ≤ z.location p ∧ z.location p + L.extent p ≤ di ∧ z.location p ≤ m.location p
  content : ∀ p, Movable m L s low p → m.location p < si → ∀ i < L.extent p,
    z.word s (z.location p + i) = m.word s (m.location p + i)
  order : ∀ p q, Movable m L s low p → Movable m L s low q → m.location p < m.location q →
    m.location q < si → z.location p + L.extent p ≤ z.location q
  filled : ∀ w, low ≤ w → w < di → ∃ p, Movable m L s low p ∧ m.location p < si ∧
    z.location p ≤ w ∧ w < z.location p + L.extent p
  table : ∀ w, (∀ p, Movable m L s low p → m.location p < si → w ≠ p + 1) →
    z.word 15 w = v.word 15 w
  kept : ∀ s' w, s' < 15 → (s' = s → w < low ∨ si ≤ w) → z.word s' w = v.word s' w
  currentSegment : z.currentSegment = v.currentSegment

namespace Sweeping

variable {v z z' : ObjectMemory} {si di : Nat}

section Step

variable (hm : Heap m L) (hp : InUse m p) (hs : (m.entry p).segment = s) (hsi : m.location p = si)

include hm hp hs hsi

theorem before (hq : Movable m L s low q) (hlt : m.location q < si + L.extent p) :
    q = p ∨ m.location q < si := by
  by_cases hqp : q = p
  · exact .inl hqp
  · have := hm.tiled.two_le q hq.allocated.inUse
    rcases hm.tiled.apart q p hq.allocated.inUse hp hqp (hq.segment.trans hs.symm) with h' | h'
    · exact .inr (by omega)
    · omega

theorem bound_next (hq : InUse m q) (hqs : (m.entry q).segment = s) :
    m.location q + L.extent q ≤ si + L.extent p ∨ si + L.extent p ≤ m.location q := by
  by_cases hqp : q = p
  · subst hqp
    omega
  · rcases hm.tiled.apart q p hq hp hqp (hqs.trans hs.symm) with h' | h' <;> omega

variable (h : Sweeping m L s low v si di z)

include h

/-- A free chunk is skipped. -/
theorem skip (hfree : p ∈ L.chunks s k) : Sweeping m L s low v (si + L.extent p) di z := by
  have htwo := hm.tiled.two_le p hp
  have hin := hm.tiled.inside p hp
  have hle := h.di_le
  have hlt : ∀ q, Movable m L s low q → m.location q < si + L.extent p → m.location q < si :=
    fun q hq hlt => (before hm hp hs hsi hq hlt).resolve_left fun hqp =>
      hq.allocated.2 s k (hqp ▸ hfree)
  refine ⟨h.low_le, by omega, by omega, fun q hq hqs => bound_next hm hp hs hsi hq hqs,
    .inl (by omega),
    fun q hq hq' => h.place q hq (hlt q hq hq'), fun q hq hq' => h.content q hq (hlt q hq hq'),
    fun q r hq hr hqr hr' => h.order q r hq hr hqr (hlt r hr hr'), fun w hw hwd => ?_,
    fun w hw => h.table w fun q hq hq' => hw q hq (by omega),
    fun s' w hs' hw => h.kept s' w hs' fun hss => ?_, h.currentSegment⟩
  · obtain ⟨q, hq, hq', hwq⟩ := h.filled w hw hwd
    exact ⟨q, hq, by omega, hwq⟩
  · rcases hw hss with hw | hw
    · exact .inl hw
    · exact .inr (by omega)

/-- An object is moved. -/
theorem move (hs15 : s < 15) (hmoved : Movable m L s low p) (hgap : di + 2 ≤ si)
    (hword : ∀ s' w, z'.word s' w = if s' = 15 ∧ w = p + 1 then di
      else if s' = s ∧ di ≤ w ∧ w < di + L.extent p then m.word s (si + (w - di)) else z.word s' w)
    (hcurrent : z'.currentSegment = z.currentSegment) :
    Sweeping m L s low v (si + L.extent p) (di + L.extent p) z' := by
  have htwo := hm.tiled.two_le p hp
  have hin := hm.tiled.inside p hp
  have hle := h.di_le
  have hlow := h.low_le
  have hlocp : z'.location p = di := by
    rw [location, hword, if_pos ⟨rfl, rfl⟩]
  have hloc : ∀ q, q ≠ p → z'.location q = z.location q := fun q hq => by
    rw [location, hword, if_neg (by omega),
      if_neg (by have : objectTableSegment = 15 := rfl; omega), location]
  have hcontent : ∀ q, Movable m L s low q → m.location q < si → ∀ i < L.extent q,
      z'.word s (z.location q + i) = z.word s (z.location q + i) := fun q hq hq' i hi => by
    have := h.place q hq hq'
    rw [hword, if_neg (by omega), if_neg (by omega)]
  refine ⟨by omega, by omega, by omega, fun q hq hqs => bound_next hm hp hs hsi hq hqs,
    .inl (by omega), fun q hq hlt => ?_, fun q hq hlt i hi => ?_, fun q r hq hr hqr hlt => ?_,
    fun w hw hwd => ?_,
    fun w hw => ?_, fun s' w hs' hw => ?_, hcurrent.trans h.currentSegment⟩
  · rcases before hm hp hs hsi hq hlt with rfl | hlt'
    · rw [hlocp]
      omega
    · by_cases hqp : q = p
      · subst hqp
        omega
      · have := h.place q hq hlt'
        rw [hloc q hqp]
        omega
  · rcases before hm hp hs hsi hq hlt with rfl | hlt'
    · rw [hlocp, hword, if_neg (by omega), if_pos ⟨rfl, by omega, by omega⟩,
        Nat.add_sub_cancel_left, hsi]
    · have hqp : q ≠ p := fun hqp => by
        subst hqp
        omega
      rw [hloc q hqp, hcontent q hq hlt' i hi]
      exact h.content q hq hlt' i hi
  · rcases before hm hp hs hsi hr hlt with rfl | hlt'
    · have hqp : q ≠ r := fun hqp => by
        subst hqp
        omega
      rw [hlocp, hloc q hqp]
      exact (h.place q hq (by omega)).2.1
    · have hqp : q ≠ p := fun hqp => by
        subst hqp
        omega
      have hrp : r ≠ p := fun hrp => by
        subst hrp
        omega
      rw [hloc q hqp, hloc r hrp]
      exact h.order q r hq hr hqr hlt'
  · by_cases hwd' : w < di
    · obtain ⟨q, hq, hq', hwq⟩ := h.filled w hw hwd'
      have hqp : q ≠ p := fun hqp => by
        subst hqp
        omega
      exact ⟨q, hq, by omega, by rw [hloc q hqp]; exact hwq⟩
    · exact ⟨p, hmoved, by omega, by rw [hlocp]; omega⟩
  · rw [hword, if_neg fun hall => hw p hmoved (by omega) hall.2, if_neg (by omega)]
    exact h.table w fun q hq hq' => hw q hq (by omega)
  · rw [hword, if_neg (by omega), if_neg fun hall => by have := hw hall.1; omega]
    exact h.kept s' w hs' fun hss => by have := hw hss; omega

end Step

section Round

variable (hm : Heap m L) (hu : Abandoned m L s 21 gone low u) (hv : Swapped m L s low u 65534 v)
  (h : Sweeping m L s low v si di z)

include hm hu hv h

/-- The words of a chunk that the sweep reads are those of before. -/
theorem word_ahead (hp : InUse m p) (hs : (m.entry p).segment = s) (hsi : m.location p = si)
    (hi : i < L.extent p) (hne : i ≠ 0 ∨ ∃ k, p ∈ L.chunks s k)
    (hne' : i ≠ 1 ∨ Allocated m L p) : z.word s (si + i) = m.word s (si + i) := by
  have hs15 := hm.tiled.segment_lt p hp
  have hin := hm.tiled.inside p hp
  rw [h.kept s _ (by omega) (by omega), hv.kept s _ (by omega) fun _ q hq _ hw => ?_,
    hu.kept s _ (by omega) fun _ => ⟨by omega, fun q hq hw => ?_⟩]
  · obtain ⟨k', hk'⟩ := hu.chunk q hq
    have hq' := hm.lists.freeChunk s k' q hk'
    have htwo := hm.tiled.two_le q hq'.inUse
    obtain ⟨rfl, rfl⟩ := hm.tiled.eq_of_word hp hq'.inUse hi (j := 1) (by omega)
      (hq'.segment.trans hs.symm) (by omega)
    exact hne'.elim (fun hne => hne rfl) fun ha => ha.2 s k' hk'
  · have htwo := hm.tiled.two_le q hq.allocated.inUse
    obtain ⟨rfl, rfl⟩ := hm.tiled.eq_of_word hp hq.allocated.inUse hi (j := 0) (by omega)
      (hq.segment.trans hs.symm) (by omega)
    exact hne.elim (fun hne => hne rfl) fun ⟨k', hk'⟩ => hq.allocated.2 s k' hk'

theorem wp_sweepObject (hmoved : Movable m L s low p) (hsi : m.location p = si)
    (hgap : di + 2 ≤ si) :
    Wp (sweepObject s si di) (fun c z' => c = (si + L.extent p, di + L.extent p) ∧
      Sweeping m L s low v (si + L.extent p) (di + L.extent p) z') z := by
  have hp := hmoved.allocated.inUse
  have hs := hmoved.segment
  have hoop := hp.1
  have hle := hp.le
  have hs15 := hm.tiled.segment_lt p hp
  have htwo := hm.tiled.two_le p hp
  have hin := hm.tiled.inside p hp
  have hdi := h.di_le
  have hext := hm.extent_allocated p hmoved.allocated
  have hout : p ∉ gone := fun hmem => by
    obtain ⟨k', hk'⟩ := hu.chunk p hmem
    exact hmoved.allocated.2 s k' hk'
  obtain ⟨hloc, hoopAt⟩ := hv.moved p hmoved (by omega)
  -- the entry of `p` has not been changed yet
  have hzloc : z.location p = m.chunkWord p 0 := by
    rw [← hloc]
    exact h.table (p + 1) fun q hq hlt hpq => by
      obtain rfl : p = q := by omega
      omega
  have hzentry : z.entry p = m.entry p := by
    rw [← (hu.entry_eq hm hoop hout).1, ← hv.entry_eq hoop.1]
    exact congrArg decodeEntry (h.table p fun q hq _ hpq => by
      have := hq.allocated.inUse.even
      have := hoop.1
      omega)
  have hzoop : z.word s si = p := by
    rw [h.kept s si (by omega) (by omega), ← hsi]
    exact hoopAt
  have hsize := m.chunkWord_lt p 0
  have hword₁ : ∀ s' w, ((z.setLocation p di).setChunkWord p 0 (m.chunkWord p 0)).word s' w =
      if s' = s ∧ w = di then m.chunkWord p 0 else if s' = 15 ∧ w = p + 1 then di
      else z.word s' w := fun s' w => by
    have hentry : (z.setLocation p di).entry p = m.entry p := by
      rw [entry_setLocation (by omega), hzentry]
    have hplace : (z.setLocation p di).location p = di := by
      rw [location_setLocation (by omega), if_pos rfl]
    rw [setChunkWord, word_setWord, Nat.mod_eq_of_lt hsize, hentry, hplace, hs, setLocation,
      word_setWord,
      Nat.mod_eq_of_lt (show di < 65536 by omega)]
    rfl
  have hentry₁ : ((z.setLocation p di).setChunkWord p 0 (m.chunkWord p 0)).entry p = m.entry p := by
    rw [entry, hword₁, if_neg (by have : objectTableSegment = 15 := rfl; omega), if_neg (by omega)]
    exact hzentry
  have hloc₁ : ((z.setLocation p di).setChunkWord p 0 (m.chunkWord p 0)).location p = di := by
    rw [location, hword₁, if_neg (by have : objectTableSegment = 15 := rfl; omega),
      if_pos ⟨rfl, rfl⟩]
  have hspace₁ :
      ((z.setLocation p di).setChunkWord p 0 (m.chunkWord p 0)).space p = L.extent p := by
    rw [hext]
    refine space_congr (by rw [hentry₁]) ?_
    rw [chunkWord, hentry₁, hloc₁, hs, hword₁, if_pos ⟨rfl, rfl⟩]
  have hin₁ : (z.setLocation p di).location p + 0 < 65536 := by
    rw [location_setLocation (by omega), if_pos rfl]
    omega
  rw [sweepObject, wp_bind, wp_segmentWord,
    and_iff_right ⟨by simp only [segmentCount]; omega, by simp only [segmentSize]; omega⟩, hzoop,
    wp_bind, wp_locationBitsOf, and_iff_right hoop.isEntry, hzloc, wp_bind, wp_locationBitsOfPut,
    and_iff_right ⟨hoop.isEntry, by omega⟩, wp_bind, wp_sizeBitsOfPut,
    and_iff_right ⟨hoop.isEntry, hin₁, hsize⟩, wp_bind,
    wp_spaceOccupiedBy hoop.isEntry (by rw [hloc₁]; omega), hspace₁, wp_bind]
  refine (wp_copyWords (a := si + 1) (d := di + 1) (n := L.extent p - 1) (hs ▸ hs15) (by omega)
    (by omega)).mono ?_
  rintro - z' ⟨hword', hcurrent⟩
  rw [wp_pure]
  refine ⟨by rw [Prod.mk.injEq]; omega, move hm hp hs hsi h (hs ▸ hs15) hmoved hgap (fun s' w => ?_)
    hcurrent⟩
  rw [hword', hword₁, hword₁]
  by_cases htable : s' = 15 ∧ w = p + 1
  · rw [if_neg (by omega), if_neg (by omega), if_pos htable, if_pos htable]
  · rw [if_neg htable, if_neg htable]
    by_cases hcopied : s' = s ∧ di ≤ w ∧ w < di + L.extent p
    · obtain ⟨rfl, hw, hwd⟩ := hcopied
      rw [if_pos (show s' = s' ∧ di ≤ w ∧ w < di + L.extent p from ⟨rfl, hw, hwd⟩)]
      by_cases hw0 : w = di
      · subst hw0
        rw [if_neg (by omega), if_pos ⟨rfl, rfl⟩, Nat.sub_self, chunkWord, hs, hsi]
      · rw [if_pos ⟨rfl, by omega, by omega⟩, if_neg (by omega), if_neg (by omega),
          ← h.word_ahead hm hu hv hp hs hsi (i := w - di) (by omega) (.inl (by omega))
            (.inr hmoved.allocated)]
        congr 1
        omega
    · rw [if_neg hcopied, if_neg (by omega), if_neg (by omega)]

theorem wp_sweepRound (hs15 : s < 15)
    (hclass : ∀ p, Movable m L s low p → m.chunkWord p 1 ≠ nonPointer)
    (hlow : low < heapSpaceStop) :
    Wp (sweepRound s (si, di)) (LoopPost (fun c z' => Sweeping m L s low v c.1 c.2 z' ∧
      65515 - c.1 < 65515 - si) (fun d z' => d = di ∧ z' = z ∧ heapSpaceStop ≤ si)) z := by
  have hstop : heapSpaceStop = 65514 := rfl
  by_cases hsi : si < heapSpaceStop
  · obtain ⟨p, hp, hs, hle, hlt⟩ := hm.tiled.cover s si hs15 (by omega)
    have hbound := h.bound p hp hs
    have hloc : m.location p = si := by omega
    have htwo := hm.tiled.two_le p hp
    have hin := hm.tiled.inside p hp
    rcases allocated_or_chunk L hp with ha | ⟨s', k', hk'⟩
    · have hmoved : Movable m L s low p := ⟨ha, hs, by
        have := h.low_le
        have := h.di_le
        omega⟩
      have hne : z.word s (si + 1) ≠ nonPointer := by
        rw [h.word_ahead hm hu hv hp hs hloc (by omega) (.inl (by omega)) (.inr ha)]
        have := hclass p hmoved
        rwa [chunkWord, hs, hloc] at this
      have hslot : s < segmentCount ∧ si + 1 < segmentSize := by
        simp only [segmentCount, segmentSize]
        omega
      have hgap : di + 2 ≤ si := by
        rcases h.gap with hgap | hgap
        · exact hgap
        · rcases hu.low_eq with ⟨heq, -⟩ | ⟨g, hg, hgl⟩
          · omega
          · obtain ⟨k', hk'⟩ := hu.chunk g hg
            have hg' := hm.lists.freeChunk s k' g hk'
            have htwo' := hm.tiled.two_le g hg'.inUse
            have := (hm.tiled.eq_of_word (j := 0) (i := 0) hp hg'.inUse (by omega) (by omega)
              (hg'.segment.trans hs.symm) (by omega)).1
            exact absurd (this ▸ hk') (ha.2 s k')
      rw [sweepRound, if_pos hsi, wp_bind, wp_segmentWord, and_iff_right hslot, if_neg hne, wp_bind]
      refine (h.wp_sweepObject hm hu hv hmoved hloc hgap).mono ?_
      rintro c z' ⟨rfl, hz'⟩
      rw [wp_pure, loopPost_inl]
      exact ⟨hz', by omega⟩
    · obtain rfl : s' = s := (hm.lists.freeChunk s' k' p hk').segment.symm.trans hs
      have hgone := (hu.mem_gone hm).mpr ⟨k', hk'⟩
      have heq : z.word s' (si + 1) = nonPointer := by
        rw [h.kept s' _ hs15 (by omega), hv.kept s' _ hs15 fun _ q hq _ hw => ?_, ← hloc]
        · exact hu.marked p hgone
        · have htwo' := hm.tiled.two_le q hq.allocated.inUse
          have := (hm.tiled.eq_of_word (j := 0) (i := 1) hp hq.allocated.inUse (by omega) (by omega)
            (hq.segment.trans hs.symm) (by omega)).1
          exact hq.allocated.2 s' k' (this ▸ hk')
      have hsize : z.word s' si = L.extent p := by
        rw [hm.extent_chunk s' k' p hk', chunkWord, hs, hloc]
        exact h.word_ahead hm hu hv hp hs hloc (i := 0) (by omega) (.inr ⟨k', hk'⟩)
          (.inl (by omega))
      rw [wp_sweepRound_free hs15 hsi heq, hsize, loopPost_inl]
      exact ⟨skip hm hp hs hloc h hk', by dsimp only; omega⟩
  · rw [sweepRound, if_neg hsi, wp_pure, loopPost_inr]
    exact ⟨rfl, rfl, by omega⟩

end Round

end Sweeping

/-! ## The segment after the sweep -/

/-- The objects of segment `s` fill the words below `di`, in the order they had,
and the entries of its free chunks, `gone`, are on the list of free entries. -/
structure Slid (m : ObjectMemory) (L : Layout) (s : Nat) (gone : List Nat) (di : Nat)
    (z : ObjectMemory) : Prop where
  linked : Linked z.location nonPointer z.freeHead (gone ++ L.freePointers)
  ne_nil : gone ≠ []
  mem_gone : ∀ p, p ∈ gone ↔ ∃ k, p ∈ L.chunks s k
  free : ∀ p ∈ gone, (z.entry p).free = 1
  di_le : di + 2 ≤ 65515
  entry : ∀ p, Allocated m L p → z.word 15 p = m.word 15 p
  content : ∀ p, Allocated m L p → ∀ i < L.extent p, z.chunkWord p i = m.chunkWord p i
  down : ∀ p, Allocated m L p → z.location p ≤ m.location p
  inside : ∀ p, Allocated m L p → (m.entry p).segment = s → z.location p + L.extent p ≤ di
  order : ∀ p q, Allocated m L p → Allocated m L q → (m.entry p).segment = s →
    (m.entry q).segment = s → m.location p < m.location q →
      z.location p + L.extent p ≤ z.location q
  filled : ∀ w < di, ∃ p, Allocated m L p ∧ (m.entry p).segment = s ∧ z.location p ≤ w ∧
    w < z.location p + L.extent p
  others : ∀ s' w, s' < 15 → s' ≠ s → z.word s' w = m.word s' w
  table : ∀ p, IsOop p → ¬(InUse m p ∧ (m.entry p).segment = s) →
    z.word 15 p = m.word 15 p ∧ z.location p = m.location p
  heads : ∀ k, 2 ≤ k → k ≤ 20 → z.chunkHead s k = nonPointer
  reserved : z.word 15 0 = m.word 15 0
  currentSegment : z.currentSegment = m.currentSegment

section Slid

variable {v z : ObjectMemory} {si di : Nat} (hm : Heap m L) (hu : Abandoned m L s 21 gone low u)

include hm hu

theorem sweeping_start (hlow : low < heapSpaceStop) : Sweeping m L s low v low low v := by
  have hstop : heapSpaceStop = 65514 := rfl
  rcases hu.low_eq with ⟨heq, -⟩ | ⟨g, hg, hgl⟩
  · omega
  · obtain ⟨k, hk⟩ := hu.chunk g hg
    have hc := hm.lists.freeChunk s k g hk
    have htwo := hm.tiled.two_le g hc.inUse
    refine ⟨le_rfl, le_rfl, by omega, fun p hp hs => ?_, .inr rfl, fun p hp hlt => ?_,
      fun p hp hlt => ?_,
      fun p q hp hq hpq hlt => ?_, fun w hw hwd => by omega, fun _ _ => rfl, fun _ _ _ _ => rfl,
      rfl⟩
    · by_cases hpg : p = g
      · exact .inr (by rw [hpg, hgl])
      · rcases hm.tiled.apart p g hp hc.inUse hpg (hs.trans hc.segment.symm) with h' | h' <;> omega
    · have := hp.le
      omega
    · have := hp.le
      omega
    · have := hq.le
      omega

variable (hv : Swapped m L s low u 65534 v)

include hv

theorem wp_sweepCurrentSegmentFrom (hs : s < 15) (hcurrent : m.currentSegment = s)
    (hclass : ∀ p, Movable m L s low p → m.chunkWord p 1 ≠ nonPointer)
    (hlow : low < heapSpaceStop) : Wp (sweepCurrentSegmentFrom low) (fun di z => ∃ si,
      heapSpaceStop ≤ si ∧ Sweeping m L s low v si di z) v := by
  rw [sweepCurrentSegmentFrom, wp_bind, wp_get, hv.currentSegment, hu.currentSegment, hcurrent,
    Int.toNat_natCast]
  refine wp_iterate (fun c z => Sweeping m L s low v c.1 c.2 z) (fun c _ => 65515 - c.1)
    (fun c z h => ?_) (sweeping_start hm hu hlow)
  refine (h.wp_sweepRound hm hu hv hs hclass hlow).mono fun r z' hr => ?_
  cases r with
  | inl c' => exact hr
  | inr di =>
      obtain ⟨rfl, rfl, hsi⟩ := hr
      exact ⟨c.1, hsi, h⟩

omit hm hv in
theorem Abandoned.not_mem_gone (hp : Allocated m L p) : p ∉ gone := fun hmem => by
  obtain ⟨k', hk'⟩ := hu.chunk p hmem
  exact hp.2 s k' hk'

/-! ### The table and the other words after the sweep -/

section Swept

variable (h : Sweeping m L s low v si di z)

include h

omit hm hu in
/-- Of the table only the locations of the objects that have been moved change. -/
theorem Sweeping.entryWord (hp : p % 2 = 0) : z.word 15 p = u.word 15 p := by
  have h15 : objectTableSegment = 15 := rfl
  rw [h.table p fun q hq _ hpq => by have := hq.allocated.inUse.even; omega]
  exact hv.table p fun q hq _ hpq => by have := hq.allocated.inUse.even; omega

omit hm hu in
theorem Sweeping.location_eq (hp : ¬Movable m L s low p) : z.location p = u.location p := by
  refine (h.table (p + 1) fun q hq _ hpq => hp ?_).trans (hv.location_eq fun hall => hp hall.1)
  obtain rfl : p = q := by omega
  exact hq

theorem Sweeping.entryWord_kept (hp : IsOop p) (hout : p ∉ gone) :
    z.word 15 p = m.word 15 p := by
  rw [h.entryWord hv hp.1]
  refine hu.table p (by have := hp.2.2; omega) fun q hq => ?_
  obtain ⟨k', hk'⟩ := hu.chunk q hq
  have heven := (hm.chunk_apart hk').1.1
  exact ⟨fun hpq => hout (hpq ▸ hq), by have := hp.1; omega⟩

theorem Sweeping.location_kept (hp : IsOop p) (hout : p ∉ gone) (hpm : ¬Movable m L s low p) :
    z.location p = m.location p :=
  (h.location_eq hv hpm).trans (hu.entry_eq hm hp hout).2

/-- The objects below the first free chunk. -/
theorem Sweeping.below (hp : Allocated m L p) (hps : (m.entry p).segment = s)
    (hpm : ¬Movable m L s low p) (hlow : low < heapSpaceStop) :
    z.location p = m.location p ∧ m.location p + L.extent p ≤ low := by
  refine ⟨h.location_kept hm hu hv hp.inUse.1 (hu.not_mem_gone hp) hpm, ?_⟩
  have hplow : m.location p < low := by
    by_contra hn
    exact hpm ⟨hp, hps, by omega⟩
  rcases hu.low_eq with ⟨heq, -⟩ | ⟨g, hg, hgl⟩
  · omega
  · obtain ⟨k', hk'⟩ := hu.chunk g hg
    have hc := hm.lists.freeChunk s k' g hk'
    rcases hm.tiled.apart p g hp.inUse hc.inUse (fun hpg => hp.2 s k' (hpg ▸ hk'))
      (hps.trans hc.segment.symm) with h' | h' <;> omega

omit hm in
theorem Sweeping.word_kept {s' : Nat} (hs' : s' < 15) (hw : s' = s → w < low) :
    z.word s' w = m.word s' w := by
  have hlowdi := h.low_le
  have hdi := h.di_le
  have hsile := h.si_le
  rw [h.kept s' w hs' fun hss => .inl (hw hss), hv.kept s' w hs' fun hss q hq _ hwq => by
      have := hq.le
      have := hw hss
      omega]
  refine hu.kept s' w hs' fun hss => ⟨by have := hw hss; omega, fun q hq hwq => ?_⟩
  have := hu.low_le q hq
  have := hw hss
  omega

end Swept

theorem Sweeping.slid (h : Sweeping m L s low v si di z) (hsi : heapSpaceStop ≤ si) (hs : s < 15)
    (hlow : low < heapSpaceStop) : Slid m L s gone di z := by
  have hstop : heapSpaceStop = 65514 := rfl
  have hdi := h.di_le
  have hsile := h.si_le
  have hlowdi := h.low_le
  have hswept : ∀ p, Movable m L s low p → m.location p < si := fun p hp => by
    have := hm.tiled.inside p hp.allocated.inUse
    have := hm.tiled.two_le p hp.allocated.inUse
    omega
  have hout : ∀ p, Allocated m L p → p ∉ gone := fun p hp => hu.not_mem_gone hp
  have hentry : ∀ p, p % 2 = 0 → z.word 15 p = u.word 15 p := fun p hp => h.entryWord hv hp
  have hkept : ∀ p, IsOop p → p ∉ gone → z.word 15 p = m.word 15 p := fun p hp hp' =>
    h.entryWord_kept hm hu hv hp hp'
  have hfix : ∀ p, IsOop p → p ∉ gone → ¬Movable m L s low p → z.location p = m.location p :=
    fun p hp hp' hpm => h.location_kept hm hu hv hp hp' hpm
  have hbelow : ∀ p, Allocated m L p → (m.entry p).segment = s → ¬Movable m L s low p →
      z.location p = m.location p ∧ m.location p + L.extent p ≤ low := fun p hp hps hpm =>
    h.below hm hu hv hp hps hpm hlow
  refine ⟨?_, ?_, fun p => hu.mem_gone hm, fun p hp => ?_, ?_,
    fun p hp => hkept p hp.inUse.1 (hout p hp),
    fun p hp i hi => ?_, fun p hp => ?_, fun p hp hps => ?_, fun p q hp hq hps hqs hpq => ?_,
    fun w hw => ?_, fun s' w hs' hne => h.word_kept hu hv hs' fun hss => absurd hss hne,
    fun p hp hps => ?_, fun k h2 h20 => ?_, ?_, ?_⟩
  · have hhead : z.freeHead = u.freeHead := hentry 65534 (by omega)
    rw [hhead]
    refine hu.linked.congr fun p hp => h.location_eq hv fun hpm => ?_
    rcases List.mem_append.mp hp with hp | hp
    · exact hout p hpm.allocated hp
    · have h1 := ((hm.lists.mem_pointers p).mp hp).2
      have h0 := hpm.allocated.inUse.2
      omega
  · rcases hu.low_eq with ⟨heq, -⟩ | ⟨g, hg, -⟩
    · omega
    · exact List.ne_nil_of_mem hg
  · obtain ⟨k', hk'⟩ := hu.chunk p hp
    have : z.entry p = u.entry p := congrArg decodeEntry (hentry p (hm.chunk_apart hk').1.1)
    rw [this, hu.free p hp]
  · rcases h.gap with hgap | hgap <;> omega
  · have hseg := hm.tiled.segment_lt p hp.inUse
    have hze : z.entry p = m.entry p := congrArg decodeEntry (hkept p hp.inUse.1 (hout p hp))
    rw [chunkWord, hze, chunkWord]
    by_cases hpm : Movable m L s low p
    · rw [hpm.segment]
      exact h.content p hpm (hswept p hpm) i hi
    · rw [hfix p hp.inUse.1 (hout p hp) hpm]
      refine h.word_kept hu hv hseg fun hps => ?_
      have := (hbelow p hp hps hpm).2
      omega
  · by_cases hpm : Movable m L s low p
    · exact (h.place p hpm (hswept p hpm)).2.2
    · exact (hfix p hp.inUse.1 (hout p hp) hpm).le
  · by_cases hpm : Movable m L s low p
    · exact (h.place p hpm (hswept p hpm)).2.1
    · have := hbelow p hp hps hpm
      omega
  · by_cases hpm : Movable m L s low p
    · have hqm : Movable m L s low q := ⟨hq, hqs, by have := hpm.le; omega⟩
      exact h.order p q hpm hqm hpq (hswept q hqm)
    · obtain ⟨hpl, hplow⟩ := hbelow p hp hps hpm
      by_cases hqm : Movable m L s low q
      · have := (h.place q hqm (hswept q hqm)).1
        omega
      · obtain ⟨hql, -⟩ := hbelow q hq hqs hqm
        have htwo := hm.tiled.two_le q hq.inUse
        rcases hm.tiled.apart p q hp.inUse hq.inUse (fun hpq' => by rw [hpq'] at hpq; omega)
          (hps.trans hqs.symm) with h' | h' <;> omega
  · by_cases hwlow : w < low
    · obtain ⟨p, hp, hps, hle, hlt⟩ := hm.tiled.cover s w hs (by omega)
      rcases allocated_or_chunk L hp with ha | ⟨s', k', hk'⟩
      · have hpm : ¬Movable m L s low p := fun hpm => by
          have := hpm.le
          omega
        exact ⟨p, ha, hps, by rw [(hbelow p ha hps hpm).1]; exact ⟨hle, hlt⟩⟩
      · obtain rfl : s' = s := (hm.lists.freeChunk s' k' p hk').segment.symm.trans hps
        have := hu.low_le p ((hu.mem_gone hm).mpr ⟨k', hk'⟩)
        omega
    · obtain ⟨p, hp, -, hwp⟩ := h.filled w (by omega) hw
      exact ⟨p, hp.allocated, hp.segment, hwp⟩
  · have hpg : p ∉ gone := fun hmem => by
      obtain ⟨k', hk'⟩ := hu.chunk p hmem
      have hc := hm.lists.freeChunk s k' p hk'
      exact hps ⟨hc.inUse, hc.segment⟩
    exact ⟨hkept p hp hpg, hfix p hp hpg fun hpm => hps ⟨hpm.allocated.inUse, hpm.segment⟩⟩
  · have hfirst : firstFreeChunkList = 65515 := rfl
    rw [chunkHead, h.kept s _ hs fun _ => .inr (by omega), hv.kept s _ hs fun _ q hq _ hwq => by
      have := hm.tiled.inside q hq.allocated.inUse
      have := hm.tiled.two_le q hq.allocated.inUse
      omega]
    exact hu.emptied k h2 (by omega)
  · rw [hentry 0 rfl]
    refine hu.table 0 (by omega) fun q hq => ?_
    obtain ⟨k', hk'⟩ := hu.chunk q hq
    have := (hm.chunk_apart hk').1.2.1
    omega
  · rw [h.currentSegment, hv.currentSegment, hu.currentSegment]

end Slid

end ObjectMemory

end Crosstalk
