import Crosstalk.ObjectMemory.Granted
import Mathlib.Algebra.BigOperators.Group.Finset.Basic
import Mathlib.Order.Interval.Finset.Nat

/-!
# Attempts to allocate a chunk

When every segment is compacted in turn, the words of each that no object occupies
become one chunk.
-/

namespace Crosstalk

namespace ObjectMemory

variable {m u : ObjectMemory} {L L' : Layout} {p q s k w size : Nat}

/-! ## The words that no object occupies -/

/-- The words of a segment, but for the heads of its free lists. Irreducible, so that
no unification counts them. -/
@[irreducible] def heapWords : Finset Nat := Finset.range (heapSpaceStop + 1)

theorem mem_heapWords : w ∈ heapWords ↔ w < 65515 := by
  rw [heapWords]
  exact Finset.mem_range

theorem card_heapWords : heapWords.card = 65515 := by
  rw [heapWords, Finset.card_range]
  rfl

open scoped Classical in
/-- The number of words of segment `s` that no allocated object occupies. -/
noncomputable def unoccupied (m : ObjectMemory) (L : Layout) (s : Nat) : Nat :=
  (heapWords.filter fun w => ∀ p, Allocated m L p → (m.entry p).segment = s →
    ¬(m.location p ≤ w ∧ w < m.location p + m.space p)).card

/-- The oops of the objects of segment `s`. -/
@[irreducible] noncomputable def residents (m : ObjectMemory) (L : Layout) (s : Nat) : Finset Nat :=
  @Finset.filter Nat (fun p => Allocated m L p ∧ (m.entry p).segment = s)
    (Classical.decPred _) (Finset.range 65534)

theorem mem_residents : p ∈ residents m L s ↔ Allocated m L p ∧ (m.entry p).segment = s := by
  rw [residents]
  refine (@Finset.mem_filter _ _ (Classical.decPred _) _ _).trans
    ⟨fun h => h.2, fun h => ⟨Finset.mem_range.mpr ?_, h⟩⟩
  have := h.1.inUse.le
  omega

/-- The words of an object. -/
def words (m : ObjectMemory) (p : Nat) : Finset Nat :=
  Finset.Ico (m.location p) (m.location p + m.space p)

theorem mem_words : w ∈ words m p ↔ m.location p ≤ w ∧ w < m.location p + m.space p :=
  Finset.mem_Ico

theorem card_words : (words m p).card = m.space p := by
  rw [words, Nat.card_Ico, Nat.add_sub_cancel_left]

/-- The words of segment `s` that its objects occupy. -/
noncomputable def occupied (m : ObjectMemory) (L : Layout) (s : Nat) : Finset Nat :=
  (residents m L s).biUnion (words m)

theorem mem_occupied : w ∈ occupied m L s ↔
    ∃ p, (Allocated m L p ∧ (m.entry p).segment = s) ∧
      m.location p ≤ w ∧ w < m.location p + m.space p := by
  simp only [occupied, Finset.mem_biUnion, mem_residents, mem_words]

theorem occupied_lt (hm : Heap m L) (hw : w ∈ occupied m L s) : w < 65515 := by
  obtain ⟨p, ⟨hp, -⟩, -, hlt⟩ := mem_occupied.mp hw
  have hin := hm.tiled.inside p hp.inUse
  rw [hm.extent_allocated p hp] at hin
  omega

/-- The objects of a segment do not overlap. -/
theorem card_occupied (hm : Heap m L) :
    (occupied m L s).card = ∑ p ∈ residents m L s, m.space p := by
  have hdisjoint : ∀ p ∈ residents m L s, ∀ q ∈ residents m L s, p ≠ q →
      Disjoint (words m p) (words m q) := fun p hp q hq hpq => by
    obtain ⟨hp, hps⟩ := mem_residents.mp hp
    obtain ⟨hq, hqs⟩ := mem_residents.mp hq
    have hapart := hm.tiled.apart p q hp.inUse hq.inUse hpq (hps.trans hqs.symm)
    rw [hm.extent_allocated p hp, hm.extent_allocated q hq] at hapart
    rw [Finset.disjoint_left]
    intro w hw hw'
    rw [mem_words] at hw hw'
    omega
  rw [occupied, Finset.card_biUnion hdisjoint]
  exact Finset.sum_congr rfl fun p _ => card_words

theorem unoccupied_add (hm : Heap m L) :
    unoccupied m L s + ∑ p ∈ residents m L s, m.space p = 65515 := by
  classical
  have hsub : occupied m L s ⊆ heapWords := fun w hw => mem_heapWords.mpr (occupied_lt hm hw)
  have hcard : unoccupied m L s = (heapWords \ occupied m L s).card := by
    refine congrArg Finset.card (Finset.ext fun w => ?_)
    rw [Finset.mem_filter, Finset.mem_sdiff, mem_occupied]
    refine and_congr_right fun _ => ⟨?_, fun h p hp hps hw => h ⟨p, ⟨hp, hps⟩, hw⟩⟩
    rintro h ⟨p, ⟨hp, hps⟩, hw⟩
    exact h p hp hps hw
  have htotal := Finset.card_sdiff_add_card_eq_card hsub
  rw [hcard, ← card_occupied hm, htotal, card_heapWords]

namespace Compacted

variable (hm : Heap m L) (h : Compacted m L s L' u)

include h

theorem entry_eq (hp : Allocated m L p) : u.entry p = m.entry p :=
  congrArg decodeEntry (h.entry p hp)

include hm

theorem space_eq (hp : Allocated m L p) : u.space p = m.space p := by
  refine space_congr (by rw [h.entry_eq hp]) (h.content p hp 0 ?_)
  have := hm.tiled.two_le p hp.inUse
  rw [hm.extent_allocated p hp] at this
  omega

/-- Compaction keeps the number of words that are not occupied. -/
theorem unoccupied_eq (k : Nat) : unoccupied u L' k = unoccupied m L k := by
  have hresidents : residents u L' k = residents m L k := by
    ext p
    rw [mem_residents, mem_residents, h.allocated p]
    exact and_congr_right fun hp => by rw [h.entry_eq hp]
  have hsum : ∑ p ∈ residents m L k, u.space p = ∑ p ∈ residents m L k, m.space p :=
    Finset.sum_congr rfl fun p hp => h.space_eq hm (mem_residents.mp hp).1
  have hu := unoccupied_add (s := k) h.heap
  have hm' := unoccupied_add (s := k) hm
  rw [hresidents, hsum] at hu
  omega

end Compacted

/-! ## All segments in turn -/

/-- Entry 0 is reserved, nil is an object, and no object has the mark of a free chunk for
its class. -/
structure Orderly (m : ObjectMemory) (L : Layout) : Prop where
  heap : Heap m L
  reserved : (m.entry 0).free ≠ 0
  nil : Allocated m L nilPointer
  class_ne : ∀ p, Allocated m L p → m.chunkWord p 1 ≠ nonPointer

/-- The words that are not occupied make one chunk with room for the size. -/
def Fits (n size : Nat) : Prop := n = size ∨ size + headerSize ≤ n ∧ bigSize ≤ n

theorem Compacted.orderly (hm : Orderly m L) (h : Compacted m L s L' u) : Orderly u L' := by
  refine ⟨h.heap, ?_, (h.allocated nilPointer).mpr hm.nil, fun p hp => ?_⟩
  · rw [show u.entry 0 = m.entry 0 from congrArg decodeEntry h.reserved]
    exact hm.reserved
  · have hp' := (h.allocated p).mp hp
    have htwo := hm.heap.tiled.two_le p hp'.inUse
    rw [hm.heap.extent_allocated p hp'] at htwo
    rw [h.content p hp' 1 (by omega)]
    exact hm.class_ne p hp'

/-- Nothing is free but for the word above the tiling. -/
theorem unoccupied_le_one (hm : Heap m L) (hs : s < 15) (hnone : ∀ k p, p ∉ L.chunks s k) :
    unoccupied m L s ≤ 1 := by
  classical
  have hsub : unoccupied m L s ≤ ({65514} : Finset Nat).card := by
    refine Finset.card_le_card fun w hw => ?_
    obtain ⟨hw, hout⟩ := Finset.mem_filter.mp hw
    rw [mem_heapWords] at hw
    rw [Finset.mem_singleton]
    by_contra hne
    obtain ⟨p, hp, hps, hle, hlt⟩ := hm.tiled.cover s w hs (by omega)
    rcases allocated_or_chunk L hp with ha | ⟨s', k, hk⟩
    · rw [hm.extent_allocated p ha] at hlt
      exact hout p ha hps ⟨hle, hlt⟩
    · obtain rfl : s' = s := (hm.lists.freeChunk s' k p hk).segment.symm.trans hps
      exact hnone k p hk
  exact hsub

/-- After the compaction the free chunk has all words that no object occupies. -/
theorem Compacted.unoccupied_size {g : Nat} (hm : Heap m L) (h : Compacted m L s L' u)
    (hg : g ∈ L'.chunks s k) (htop : u.location g + u.chunkWord g 0 = heapSpaceStop + 1)
    (hbelow : ∀ w < u.location g, ∃ p, Allocated m L p ∧ (m.entry p).segment = s ∧
      u.location p ≤ w ∧ w < u.location p + m.space p) :
    unoccupied u L' s = u.chunkWord g 0 := by
  classical
  have hstop : heapSpaceStop = 65514 := rfl
  have hgc := h.heap.lists.freeChunk s k g hg
  have hext := h.heap.extent_chunk s k g hg
  have heq : (heapWords.filter fun w => ∀ p, Allocated u L' p → (u.entry p).segment = s →
      ¬(u.location p ≤ w ∧ w < u.location p + u.space p)) = Finset.Ico (u.location g) 65515 := by
    refine Finset.ext fun w => ?_
    rw [Finset.mem_filter, mem_heapWords, Finset.mem_Ico]
    constructor
    · rintro ⟨hw, hout⟩
      refine ⟨?_, hw⟩
      by_contra hlt
      obtain ⟨p, hp, hps, hwp⟩ := hbelow w (by omega)
      rw [← h.space_eq hm hp] at hwp
      exact hout p ((h.allocated p).mpr hp) (by rw [h.entry_eq hp]; exact hps) hwp
    · rintro ⟨hle, hw⟩
      refine ⟨hw, fun p hp hps hwp => ?_⟩
      rw [← h.heap.extent_allocated p hp] at hwp
      obtain ⟨rfl, -⟩ := h.heap.tiled.eq_of_word (i := w - u.location p) (j := w - u.location g)
        hp.inUse hgc.inUse (by omega) (by omega) (hgc.segment.trans hps.symm) (by omega)
      exact hp.2 s k hg
  have hcard : unoccupied u L' s = (Finset.Ico (u.location g) 65515).card :=
    congrArg Finset.card heq
  rw [hcard, Nat.card_Ico]
  omega

/-- Where the words that are not occupied suffice, there is room after the compaction. -/
theorem Compacted.not_noRoom (hm : Heap m L) (hs : s < 15) (h : Compacted m L s L' u)
    (h2 : 2 ≤ size) (hfits : Fits (unoccupied m L s) size) : ¬NoRoom u L' s size := fun hno => by
  have hbig : bigSize = 20 := rfl
  have hheader : headerSize = 2 := rfl
  by_cases hnone : ∀ k p, p ∉ L.chunks s k
  · have hle := unoccupied_le_one hm hs hnone
    rcases hfits with hfits | hfits <;> omega
  · simp only [not_forall, not_not] at hnone
    obtain ⟨g, -, hlist, htop, hbelow, -⟩ := h.free hnone
    have hg : g ∈ L'.chunks s (min (u.chunkWord g 0) bigSize) := (hlist _ _).mpr ⟨rfl, rfl⟩
    have hsize := h.unoccupied_size hm hg htop hbelow
    rw [h.unoccupied_eq hm s] at hsize
    rw [hsize] at hfits
    have hin := h.heap.tiled.inside g (h.heap.chunk_inUse hg)
    by_cases hsmall : u.chunkWord g 0 < 20
    · rcases hfits with hfits | hfits
      · have hempty := hno.small (by omega)
        rw [Nat.min_eq_left (by omega), hfits, hempty] at hg
        simp at hg
      · omega
    · rw [Nat.min_eq_right (by omega), hbig] at hg
      obtain ⟨hne, hlt⟩ := hno.big g hg
      rcases hfits with hfits | hfits <;> omega

theorem Heap.nextSegment (hm : Heap m L) : Heap (nextSegment m) L :=
  hm.congr (fun _ _ => rfl) (fun _ _ => rfl) (fun _ _ => rfl) (fun _ _ => rfl) rfl
    (fun _ _ _ => rfl) (fun _ _ => rfl) (fun _ _ _ _ => rfl) fun s k p hp =>
      (hm.lists.freeChunk s k p hp).count

theorem Orderly.nextSegment (hm : Orderly m L) : Orderly (nextSegment m) L :=
  ⟨hm.heap.nextSegment, hm.reserved, hm.nil, hm.class_ne⟩

theorem nextSegment_current {c : Nat} (hcurrent : m.currentSegment = c) (hc : c < 15) :
    (nextSegment m).currentSegment = ((c + 1) % 15 : Nat) := by
  have hlast : lastHeapSegment = 14 := rfl
  have hfirst : firstHeapSegment = 0 := rfl
  show (if m.currentSegment + 1 > lastHeapSegment then (firstHeapSegment : Int)
    else m.currentSegment + 1) = _
  rw [hlast, hfirst, hcurrent]
  split <;> omega

theorem Compacted.retained (h : Compacted m L s L' u) : Retained m L nilPointer L' u :=
  ⟨fun q hq => (h.allocated q).mpr hq, fun q hq => .inl ((h.allocated q).mp hq), h.entry,
    fun q hq i hi => h.content q hq i hi, h.reserved⟩

/-- A chunk that is granted after a compaction. -/
theorem Granted.after {v : ObjectMemory} {L₁ : Layout} (hm : Orderly m L)
    (h : Retained m L nilPointer L₁ u) (hg : Granted u L₁ size p L' v) :
    Granted m L size p L' v := by
  have hspace : ∀ q, Allocated m L q → u.space q = m.space q := fun q hq =>
    h.space_eq hq (hm.heap.two_le_space hq)
  refine ⟨hg.tiled, hg.lists, hg.extent_chunk, hg.extent_allocated,
    ⟨fun q hq => hg.retained.old q (h.old q hq), fun q hq => ?_, fun q hq => ?_,
      fun q hq i hi => ?_, hg.retained.reserved.trans h.reserved⟩, fun hp => ?_⟩
  · rcases hg.retained.new q hq with hq | hq
    · rcases h.new q hq with hq | rfl
      · exact .inl hq
      · exact .inl hm.nil
    · exact .inr hq
  · exact (hg.retained.entry q (h.old q hq)).trans (h.entry q hq)
  · rw [hg.retained.content q (h.old q hq) i (by rw [hspace q hq]; exact hi), h.content q hq i hi]
  · obtain ⟨hout, hrest⟩ := hg.granted hp
    exact ⟨fun hq => hout (h.old p hq), hrest⟩

/-- What a whole attempt answers: a chunk, if the words that are not occupied suffice in
one of the segments `S`. -/
structure Outcome (m : ObjectMemory) (L : Layout) (size : Nat) (S : Nat → Prop) (p : Nat)
    (u : ObjectMemory) : Prop where
  granted : ∃ L', Granted m L size p L' u
  current : ∃ c < 15, u.currentSegment = (c : Nat)
  succeeds : L.freePointers ≠ [] → ∀ s, S s → Fits (unoccupied m L s) size → p ≠ nilPointer

theorem wp_attemptInOtherSegments (h2 : 2 ≤ size) :
    ∀ {n c : Nat} {m : ObjectMemory} {L : Layout}, Orderly m L → m.currentSegment = c → c < 15 →
      Wp (attemptInOtherSegments size n)
        (Outcome m L size fun s => ∃ i < n, s = (c + 1 + i) % 15) m
  | 0, c, m, L, hm, hcurrent, hc => by
      rw [attemptInOtherSegments, wp_pure]
      exact ⟨⟨L, hm.heap.refused⟩, ⟨c, hc, hcurrent⟩,
        fun _ s ⟨i, hi, _⟩ => absurd hi (Nat.not_lt_zero i)⟩
  | n + 1, c, m, L, hm, hcurrent, hc => by
      have hc' : (c + 1) % 15 < 15 := Nat.mod_lt _ (by decide)
      have hnext := hm.nextSegment
      have hcur := nextSegment_current hcurrent hc
      rw [attemptInOtherSegments, wp_bind, wp_modify, wp_bind]
      refine (wp_compactCurrentSegment hnext.heap hc' hcur hnext.reserved
        (fun k => hnext.nil.2 _ k) fun _ _ p _ hp _ _ => hnext.class_ne p hp).mono ?_
      rintro - u ⟨L', h⟩
      have hu := h.orderly hnext
      have hretained : Retained m L nilPointer L' u :=
        ⟨h.retained.old, h.retained.new, h.retained.entry, h.retained.content, h.retained.reserved⟩
      have hcur' : u.currentSegment = ((c + 1) % 15 : Nat) := h.currentSegment.trans hcur
      have hunoccupied : ∀ s, unoccupied u L' s = unoccupied m L s := fun s =>
        h.unoccupied_eq hnext.heap s
      rw [wp_bind]
      refine (wp_attemptToAllocateChunkInCurrentSegment hu.heap hu.nil hc' hcur' h2).mono
        fun p u' hattempt => ?_
      rw [wp_ite]
      refine ⟨fun hp => ?_, fun hp => ?_⟩
      · rw [wp_pure]
        obtain ⟨L₁, hgranted⟩ := hattempt.granted
        exact ⟨⟨L₁, hgranted.after hm hretained⟩,
          ⟨_, hc', hattempt.currentSegment.trans hcur'⟩, fun _ _ _ _ => hp⟩
      · obtain ⟨rfl, hno⟩ := hattempt.refused (not_not.mp hp)
        refine (wp_attemptInOtherSegments h2 hu hcur' hc').mono fun p u' hout => ?_
        obtain ⟨L₁, hgranted⟩ := hout.granted
        refine ⟨⟨L₁, hgranted.after hm hretained⟩, hout.current, ?_⟩
        rintro hfree s ⟨i, hi, hsi⟩ hfits
        have hfree' : L'.freePointers ≠ [] := by
          obtain ⟨q, l, hl⟩ := List.exists_cons_of_ne_nil hfree
          exact List.ne_nil_of_mem (h.pointers q (hl ▸ List.mem_cons_self))
        by_cases hsc : s = (c + 1) % 15
        · rw [hsc] at hfits
          exact absurd (hno hfree') (h.not_noRoom hnext.heap hc' h2 hfits)
        · have hi0 : i ≠ 0 := fun h0 => hsc (by rw [hsi, h0, Nat.add_zero])
          refine hout.succeeds hfree' s ⟨i - 1, by omega, by omega⟩ ?_
          rw [hunoccupied s]
          exact hfits

theorem wp_attemptToAllocateChunk (hm : Orderly m L)
    (hcurrent : 0 ≤ m.currentSegment ∧ m.currentSegment ≤ 14) (h2 : 2 ≤ size) :
    Wp (attemptToAllocateChunk size) (Outcome m L size (· < 15)) m := by
  obtain ⟨c, hc⟩ := Int.eq_ofNat_of_zero_le hcurrent.1
  have hc15 : c < 15 := by omega
  rw [attemptToAllocateChunk, wp_bind, wp_checkCurrentSegment, and_iff_right hcurrent, wp_bind]
  refine (wp_attemptToAllocateChunkInCurrentSegment hm.heap hm.nil hc15 hc h2).mono
    fun p u hattempt => ?_
  rw [wp_ite]
  refine ⟨fun hp => ?_, fun hp => ?_⟩
  · rw [wp_pure]
    exact ⟨hattempt.granted, ⟨c, hc15, hattempt.currentSegment.trans hc⟩, fun _ _ _ _ => hp⟩
  · obtain ⟨rfl, -⟩ := hattempt.refused (not_not.mp hp)
    refine (wp_attemptInOtherSegments h2 hm hc hc15).mono fun p u' hout => ?_
    refine ⟨hout.granted, hout.current, fun hfree s hs hfits => ?_⟩
    -- every segment comes round within fifteen steps
    exact hout.succeeds hfree s ⟨(s + 29 - c) % 15, Nat.mod_lt _ (by decide), by omega⟩ hfits

/-- An allocation ends, and does not fail in a memory in order with a free oop, where the words
that no object occupies suffice in some segment, whichever segment is the current one. -/
theorem attemptToAllocateChunk_succeeds (hm : Orderly m L) (hfree : L.freePointers ≠ [])
    (hcurrent : 0 ≤ m.currentSegment ∧ m.currentSegment ≤ 14) (h2 : 2 ≤ size) (hs : s < 15)
    (hfits : Fits (unoccupied m L s) size) :
    ∃ p u, attemptToAllocateChunk size m = some (p, u) ∧ p ≠ nilPointer := by
  obtain ⟨p, u, hrun, hout⟩ := wp_attemptToAllocateChunk hm hcurrent h2
  exact ⟨p, u, hrun, hout.succeeds hfree s hs hfits⟩

/-! ## Without free chunks -/

section NoChunks

variable (hm : Heap m L) (hs : s < 15) (hcurrent : m.currentSegment = s)
  (hnone : ∀ k, L.chunks s k = [])

include hm hs hcurrent hnone

theorem wp_compactCurrentSegment_none :
    Wp compactCurrentSegment (fun _ u => Compacted m L s L u) m := by
  rw [compactCurrentSegment, wp_bind, wp_checkCurrentSegment, and_iff_right (by omega), wp_bind,
    wp_get, hcurrent, Int.toNat_natCast, wp_bind, abandonFreeChunksInSegment]
  refine (Abandoned.wp_abandonFrom hm hs (n := 19) le_rfl).mono ?_
  rintro low u ⟨gone, hu, -⟩
  obtain rfl : gone = [] := List.eq_nil_iff_forall_not_mem.mpr fun p hp => by
    obtain ⟨k, hk⟩ := (hu.mem_gone hm).mp hp
    rw [hnone] at hk
    cases hk
  rcases hu.low_eq with ⟨rfl, -⟩ | ⟨p, hp, -⟩
  · rw [if_neg (Nat.lt_irrefl _), wp_pure]
    exact hu.compacted hm hs
  · cases hp

theorem wp_attemptToAllocateChunkInCurrentSegment_none (h2 : 2 ≤ size) :
    Wp (attemptToAllocateChunkInCurrentSegment size) (fun p u => p = nilPointer ∧ u = m) m := by
  have hhead : ∀ k, 2 ≤ k → k ≤ 20 → m.chunkHead s k = nonPointer := fun k h2 h20 => by
    have hlinked := hm.lists.chunks s k hs h2 h20
    rwa [hnone] at hlinked
  have hbig : bigSize = 20 := rfl
  have hsearch : Wp (do
      let head ← headOfFreeChunkListInSegment bigSize (← get).currentSegment.toNat
      iterate (searchRound size) (nonPointer, head)) (fun p u => p = nilPointer ∧ u = m) m := by
    rw [wp_bind, wp_get, hcurrent, Int.toNat_natCast, wp_bind, wp_headOfFreeChunkListInSegment,
      and_iff_right ⟨by decide, by decide, by omega⟩, hhead bigSize (by decide) (by decide)]
    refine wp_iterate_of_round ?_
    rw [searchRound, if_pos rfl, wp_pure, loopPost_inr]
    exact ⟨rfl, rfl⟩
  rw [attemptToAllocateChunkInCurrentSegment, wp_bind, wp_checkCurrentSegment,
    and_iff_right (by omega)]
  dsimp only
  rw [wp_ite]
  refine ⟨fun hlt => ?_, fun _ => ?_⟩
  · rw [wp_bind, removeFromFreeChunkList, wp_bind, wp_checkCurrentSegment, and_iff_right (by omega),
      wp_bind, wp_get, hcurrent, Int.toNat_natCast, wp_bind, wp_headOfFreeChunkListInSegment,
      and_iff_right ⟨h2, by omega, by omega⟩, if_pos (hhead size h2 (by omega)), wp_pure,
      if_neg (by simp)]
    exact hsearch
  · rw [wp_bind, wp_pure, if_neg (by simp)]
    exact hsearch

end NoChunks

theorem wp_attemptInOtherSegments_none (h2 : 2 ≤ size) (hnone : ∀ s k, L.chunks s k = []) :
    ∀ {n c : Nat} {m : ObjectMemory}, Heap m L → m.currentSegment = c → c < 15 →
      Wp (attemptInOtherSegments size n) (fun p _ => p = nilPointer) m
  | 0, c, m, hm, hcurrent, hc => by
      rw [attemptInOtherSegments, wp_pure]
  | n + 1, c, m, hm, hcurrent, hc => by
      have hc' : (c + 1) % 15 < 15 := Nat.mod_lt _ (by decide)
      have hcur := nextSegment_current hcurrent hc
      rw [attemptInOtherSegments, wp_bind, wp_modify, wp_bind]
      refine (wp_compactCurrentSegment_none hm.nextSegment hc' hcur (hnone _)).mono fun _ u h => ?_
      have hcur' : u.currentSegment = ((c + 1) % 15 : Nat) := h.currentSegment.trans hcur
      rw [wp_bind]
      refine (wp_attemptToAllocateChunkInCurrentSegment_none h.heap hc' hcur' (hnone _) h2).mono ?_
      rintro _ _ ⟨rfl, rfl⟩
      rw [if_neg (by simp)]
      exact wp_attemptInOtherSegments_none h2 hnone h.heap hcur' hc'

/-- The free chunk that fits is nil, which the code takes for no chunk: it has left its
list when the other segments are searched. -/
theorem not_succeeds_full : Heap (full 4) (fullLayout 4) ∧ (fullLayout 4).freePointers ≠ [] ∧
    unoccupied (full 4) (fullLayout 4) 14 = 65515 ∧
    ∃ u, attemptToAllocateChunk 65515 (full 4) = some (nilPointer, u) := by
  have hfour : fullChunk 4 = 65532 ∧ 4 = 2 ∨ fullChunk 4 = 2 ∧ 4 = 4 := .inr ⟨rfl, rfl⟩
  have hm := heap_full hfour
  have hoop : IsOop 2 := ⟨rfl, le_rfl, by decide⟩
  have hin : InUse (full 4) 2 := inUse_full.mpr ⟨hoop, .inl rfl⟩
  have hsize : (full 4).chunkWord 2 0 = 65515 := size_full hfour hin
  have hspace : (full 4).space 2 = 65515 := space_full hfour hin
  have hnone : residents (full 4) (fullLayout 4) 14 = ∅ := by
    refine Finset.eq_empty_of_forall_notMem fun p hp => ?_
    obtain ⟨hp, hps⟩ := mem_residents.mp hp
    rcases span_full hfour hp.inUse with ⟨rfl, -⟩ | ⟨-, -, hs, -⟩ | ⟨-, hlt, hs, -⟩ | ⟨-, hs, -⟩
    · exact hp.2 14 20 List.mem_cons_self
    · omega
    · omega
    · omega
  have hadd := unoccupied_add (s := 14) hm
  rw [hnone, Finset.sum_empty] at hadd
  have hunlisted := hm.unlisted (s := 14) (k := 20) (p := 2) (l := []) (by decide)
    ⟨by decide, le_rfl⟩ rfl (hspace.trans hsize.symm)
  have hempty : ∀ s k, (if s = 14 ∧ k = 20 then [] else (fullLayout 4).chunks s k) = [] :=
    fun s k => by
      split
      · rfl
      · next hsk => exact if_neg hsk
  have hrun : Wp (attemptToAllocateChunk 65515) (fun p _ => p = nilPointer) (full 4) := by
    have hcurrent : (full 4).currentSegment = (14 : Nat) := rfl
    have hhead : (full 4).chunkHead 14 20 = 2 := rfl
    have hlocation : (full 4).location 2 = 0 := rfl
    rw [attemptToAllocateChunk, wp_bind, wp_checkCurrentSegment,
      and_iff_right ⟨by decide, by decide⟩, wp_bind, attemptToAllocateChunkInCurrentSegment, wp_bind,
      wp_checkCurrentSegment, and_iff_right ⟨by decide, by decide⟩]
    dsimp only
    rw [if_neg (by decide), wp_bind, wp_pure, if_neg (by simp), wp_bind, wp_get, hcurrent,
      Int.toNat_natCast, wp_bind, wp_headOfFreeChunkListInSegment,
      and_iff_right ⟨by decide, by decide, by decide⟩]
    refine wp_iterate_of_round ?_
    rw [hhead, searchRound, if_neg (by decide), wp_bind]
    dsimp only
    rw [wp_sizeBitsOf, and_iff_right ⟨hoop.isEntry, by rw [hlocation]; decide⟩, if_pos hsize,
      wp_bind, unlinkChunk, wp_bind, wp_classBitsOf,
      and_iff_right ⟨hoop.isEntry, by rw [hlocation]; decide⟩, if_pos rfl, wp_bind, wp_get, hcurrent,
      Int.toNat_natCast, wp_headOfFreeChunkListInSegmentPut,
      and_iff_right ⟨by decide, by decide, by decide, chunkWord_lt _ _ _⟩, wp_pure, loopPost_inr,
      if_neg (by simp)]
    exact wp_attemptInOtherSegments_none (by decide) hempty hunlisted rfl (by decide)
  obtain ⟨_, u, hrun, rfl⟩ := hrun
  exact ⟨hm, List.cons_ne_nil _ _, hadd, u, hrun⟩

theorem orderly_sparse : Orderly (sparse 2) (sparseLayout 2) := by
  refine ⟨heap_sparse (.inl rfl), by decide, allocated_sparse.mpr rfl, fun p hp => ?_⟩
  rw [allocated_sparse.mp hp]
  decide

/-- The whole of segment 1 is allocated, after segment 0 has not sufficed. -/
theorem attemptToAllocateChunk_succeeds_sparse :
    ∃ p u, attemptToAllocateChunk 65515 (sparse 2) = some (p, u) ∧ p ≠ nilPointer := by
  have hnone : residents (sparse 2) (sparseLayout 2) 1 = ∅ := by
    refine Finset.eq_empty_of_forall_notMem fun p hp => ?_
    obtain ⟨hp, hps⟩ := mem_residents.mp hp
    rw [allocated_sparse.mp hp] at hps
    exact absurd hps (by decide)
  have hadd := unoccupied_add (s := 1) orderly_sparse.heap
  rw [hnone, Finset.sum_empty] at hadd
  exact attemptToAllocateChunk_succeeds (s := 1) orderly_sparse
    (List.cons_ne_nil _ _) ⟨by decide, by decide⟩ (by decide) (by decide) (.inl hadd)

end ObjectMemory

end Crosstalk
