import Crosstalk.ObjectMemory.Compaction
import Crosstalk.Snapshot.Fidelity

/-!
# The memory after a compaction

The words above the objects that have moved down become one free chunk. A
compaction preserves the objects, and the invariant of the heap.
-/

namespace Crosstalk

namespace ObjectMemory

variable {m u : ObjectMemory} {L : Layout} {gone l : List Nat} {p q s k w i low : Nat}

/-! ## The free chunk above the objects -/

theorem word_setChunkWord {s' v : Nat} : (m.setChunkWord p i v).word s' w =
    if s' = (m.entry p).segment ∧ w = m.location p + i then v % 65536 else m.word s' w :=
  word_setWord _ _ _ _ _ _

/-- The words of segment `s` from `di` on are one free chunk, with the entry `g`. -/
def merged (z : ObjectMemory) (g s di : Nat) : ObjectMemory :=
  ((taken z g s di).setChunkWord g 0 (65515 - di)).deallocated g

section Merged

variable {z : ObjectMemory} {g di : Nat} (hg : IsOop g) (hs : s < 15) (hdi : di + 2 ≤ 65515)

include hg

theorem entry_taken_self (hs : s < 15) : (taken z g s di).entry g = ⟨0, 0, 0, 0, s⟩ := by
  rw [entry_taken hg hs hg, if_pos rfl]

theorem location_taken_self (hdi : di + 2 ≤ 65515) : (taken z g s di).location g = di := by
  rw [location_taken hg (by omega) hg, if_pos rfl]

include hs

theorem entry_sized {v : Nat} (q : Nat) :
    ((taken z g s di).setChunkWord g 0 v).entry q = (taken z g s di).entry q :=
  entry_setChunkWord (by rw [entry_taken_self hg hs]; exact Nat.ne_of_lt hs)

theorem location_sized {v : Nat} (q : Nat) :
    ((taken z g s di).setChunkWord g 0 v).location q = (taken z g s di).location q :=
  location_setChunkWord (by rw [entry_taken_self hg hs]; exact Nat.ne_of_lt hs)

theorem segment_sized {v : Nat} :
    (((taken z g s di).setChunkWord g 0 v).entry g).segment = s := by
  rw [entry_sized hg hs, entry_taken_self hg hs]

theorem table_sized {v : Nat} (hw : w < 65534) (h1 : w ≠ g) (h2 : w ≠ g + 1) :
    ((taken z g s di).setChunkWord g 0 v).word 15 w = z.word 15 w := by
  have hsegt : ((taken z g s di).entry g).segment = s := by rw [entry_taken_self hg hs]
  rw [word_setChunkWord, hsegt, if_neg (by omega), taken, word_setLocation_of_ne (by omega),
    setSegment, word_setField_of_ne (by omega), word_setWord, if_neg (by omega), setFreeHead,
    word_setWord, if_neg]
  simp only [freePointerList, objectTableStart, objectTableSize, segmentSize]
  omega

theorem freeHead_sized {v : Nat} :
    ((taken z g s di).setChunkWord g 0 v).freeHead = z.location g := by
  have hsegt : ((taken z g s di).entry g).segment = s := by rw [entry_taken_self hg hs]
  rw [freeHead_setChunkWord (by omega), freeHead_taken hg]

include hdi

theorem word_sized {s' v : Nat} (hs' : s' ≠ 15) (hv : v < 65536) :
    ((taken z g s di).setChunkWord g 0 v).word s' w =
      if s' = s ∧ w = di then v else z.word s' w := by
  rw [setChunkWord, word_setWord, entry_taken_self hg hs, location_taken_self hg hdi,
    Nat.mod_eq_of_lt hv, Nat.add_zero, word_taken hs']

theorem space_sized : ((taken z g s di).setChunkWord g 0 (65515 - di)).space g = 65515 - di := by
  have hsize : ((taken z g s di).setChunkWord g 0 (65515 - di)).chunkWord g 0 = 65515 - di := by
    rw [chunkWord, entry_sized hg hs, location_sized hg hs, entry_taken_self hg hs,
      location_taken_self hg hdi, word_sized hg hs hdi (by dsimp only; omega) (by omega),
      if_pos ⟨rfl, rfl⟩]
  rw [space, hsize, entry_sized hg hs, entry_taken_self hg hs, if_pos (.inr rfl)]

theorem word_merged {s' : Nat} (hs' : s' < 15)
    (hhead : z.chunkHead s (min (65515 - di) bigSize) = nonPointer) :
    (z.merged g s di).word s' w =
      if s' = s ∧ w = firstFreeChunkList + min (65515 - di) bigSize then g
      else if s' = s ∧ w = di + 1 then nonPointer
      else if s' = s ∧ w = di then 65515 - di
      else z.word s' w := by
  have hfirst : firstFreeChunkList = 65515 := rfl
  have hbig : bigSize = 20 := rfl
  have hseg : (((taken z g s di).setChunkWord g 0 (65515 - di)).entry g).segment = s :=
    segment_sized hg hs
  have hne : (((taken z g s di).setChunkWord g 0 (65515 - di)).entry g).segment ≠ 15 := by omega
  have hhead' : ((taken z g s di).setChunkWord g 0 (65515 - di)).chunkHead s
      (min (65515 - di) bigSize) = nonPointer := by
    rw [chunkHead, word_sized hg hs hdi (by omega) (by omega), if_neg (by omega)]
    exact hhead
  rw [merged, deallocated, space_sized hg hs hdi, hseg, hhead', setChunkHead, word_setWord,
    word_setChunkWord, entry_setChunkWord hne, location_setChunkWord hne, word_setChunkWord, hseg,
    location_sized hg hs, location_taken_self hg hdi, Nat.mod_eq_of_lt hg.isEntry.2,
    Nat.mod_eq_of_lt (show 65515 - di < 65536 by omega), word_sized hg hs hdi (by omega) (by omega)]
  refine if_congr Iff.rfl rfl (if_congr Iff.rfl rfl ?_)
  split
  · next heq => exact (if_pos heq).symm
  · rfl

omit hdi in
theorem table_merged (hw : w < 65534) (h1 : w ≠ g) (h2 : w ≠ g + 1) :
    (z.merged g s di).word 15 w = z.word 15 w := by
  have hseg : (((taken z g s di).setChunkWord g 0 (65515 - di)).entry g).segment = s :=
    segment_sized hg hs
  have hne : (((taken z g s di).setChunkWord g 0 (65515 - di)).entry g).segment ≠ 15 := by omega
  rw [merged, deallocated, hseg, setChunkHead, word_setWord, if_neg (by omega), word_setChunkWord,
    entry_setChunkWord hne, hseg, if_neg (by omega), word_setChunkWord, hseg,
    if_neg (by omega), table_sized hg hs hw h1 h2]

omit hdi in
theorem entry_merged (hq : IsOop q) :
    (z.merged g s di).entry q = if q = g then ⟨0, 0, 0, 0, s⟩ else z.entry q := by
  have hseg : (((taken z g s di).setChunkWord g 0 (65515 - di)).entry g).segment = s :=
    segment_sized hg hs
  rw [merged, entry_deallocated (by omega), entry_sized hg hs, entry_taken hg hs hq]

theorem location_merged (hq : IsOop q) :
    (z.merged g s di).location q = if q = g then di else z.location q := by
  have hseg : (((taken z g s di).setChunkWord g 0 (65515 - di)).entry g).segment = s :=
    segment_sized hg hs
  rw [merged, location_deallocated (by omega), location_sized hg hs,
    location_taken hg (by omega) hq]

omit hdi in
theorem freeHead_merged : (z.merged g s di).freeHead = z.location g := by
  have hseg : (((taken z g s di).setChunkWord g 0 (65515 - di)).entry g).segment = s :=
    segment_sized hg hs
  have hne : (((taken z g s di).setChunkWord g 0 (65515 - di)).entry g).segment ≠ 15 := by omega
  rw [merged, deallocated, hseg, freeHead_setChunkHead (by omega), freeHead_setChunkWord,
    freeHead_setChunkWord hne, freeHead_sized hg hs]
  rwa [entry_setChunkWord hne]

theorem wp_merge (hcurrent : z.currentSegment = s) (hhead : z.freeHead = g) (hnil : g ≠ nilPointer)
    {R : Unit → ObjectMemory → Prop} :
    Wp (do deallocate (← obtainPointerLocation (heapSpaceStop + 1 - di) di)) R z ↔
      R () (z.merged g s di) := by
  have hseg : (((taken z g s di).setChunkWord g 0 (65515 - di)).entry g).segment = s :=
    segment_sized hg hs
  have hsize : heapSpaceStop + 1 - di = 65515 - di := rfl
  rw [wp_bind, hsize,
    wp_obtainPointerLocation_taken hg hs hcurrent (by omega) (by omega) hhead hnil,
    wp_deallocate (by omega) hg.isEntry _ _ _]
  · rfl
  · rw [location_sized hg hs, location_taken_self hg hdi]
    omega
  · rw [space_sized hg hs hdi]
    omega
  · rw [space_sized hg hs hdi]
    omega

end Merged

/-- The layout with one free chunk `g` in segment `s`, of `size` words. -/
def Layout.merged (L : Layout) (gone : List Nat) (g s size : Nat) : Layout where
  freePointers := gone ++ L.freePointers
  chunks s' k := if s' = s then if k = min size bigSize then [g] else [] else L.chunks s' k
  extent p := if p = g then size else L.extent p

theorem Layout.mem_merged {g size s' : Nat} : p ∈ (L.merged gone g s size).chunks s' k ↔
    s' = s ∧ p = g ∧ k = min size bigSize ∨ s' ≠ s ∧ p ∈ L.chunks s' k := by
  rw [Layout.merged]
  by_cases hs : s' = s
  · by_cases hk : k = min size bigSize <;> simp [hs, hk]
  · simp [hs]

/-- Compaction of segment `s`: the objects stay as they are, and move down; the
free chunks of the segment are merged. -/
structure Compacted (m : ObjectMemory) (L : Layout) (s : Nat) (L' : Layout) (u : ObjectMemory) :
    Prop where
  heap : Heap u L'
  allocated : ∀ p, Allocated u L' p ↔ Allocated m L p
  entry : ∀ p, Allocated m L p → u.word objectTableSegment p = m.word objectTableSegment p
  content : ∀ p, Allocated m L p → ∀ i < m.space p, u.chunkWord p i = m.chunkWord p i
  down : ∀ p, Allocated m L p → u.location p ≤ m.location p
  order : ∀ p q, Allocated m L p → Allocated m L q → (m.entry p).segment = s →
    (m.entry q).segment = s → m.location p < m.location q → u.location p < u.location q
  others : ∀ s' w, s' < 15 → s' ≠ s → u.word s' w = m.word s' w
  table : ∀ p, IsOop p → ¬(InUse m p ∧ (m.entry p).segment = s) →
    u.word objectTableSegment p = m.word objectTableSegment p ∧ u.location p = m.location p
  lists : ∀ s', s' ≠ s → L'.chunks s' = L.chunks s'
  reserved : u.word objectTableSegment 0 = m.word objectTableSegment 0
  pointers : ∀ p ∈ L.freePointers, p ∈ L'.freePointers
  free : (∃ k p, p ∈ L.chunks s k) → ∃ g, (∃ k, g ∈ L.chunks s k) ∧
    (∀ k p, p ∈ L'.chunks s k ↔ p = g ∧ k = min (u.chunkWord g 0) bigSize) ∧
    u.location g + u.chunkWord g 0 = heapSpaceStop + 1 ∧
    (∀ w < u.location g, ∃ p, Allocated m L p ∧ (m.entry p).segment = s ∧
      u.location p ≤ w ∧ w < u.location p + m.space p) ∧
    ∀ k p, p ∈ L.chunks s k → p ≠ g → p ∈ L'.freePointers ∧ (u.entry p).free = 1
  currentSegment : u.currentSegment = m.currentSegment

/-- The chunk of `p` is not a free one of segment `s`. -/
def Kept (m : ObjectMemory) (L : Layout) (s p : Nat) : Prop := InUse m p ∧ ∀ k, p ∉ L.chunks s k

section Compacted

variable {z : ObjectMemory} {g di : Nat} (hm : Heap m L) (hs : s < 15)
  (h : Slid m L s (g :: gone) di z)

include hm hs h

omit hs in
theorem Slid.isOop : IsOop g := by
  obtain ⟨k, hk⟩ := (h.mem_gone g).mp List.mem_cons_self
  exact (hm.lists.freeChunk s k g hk).inUse.1

theorem Slid.word (s' w : Nat) (hs' : s' < 15) : (z.merged g s di).word s' w =
    if s' = s ∧ w = firstFreeChunkList + min (65515 - di) bigSize then g
    else if s' = s ∧ w = di + 1 then nonPointer
    else if s' = s ∧ w = di then 65515 - di
    else z.word s' w := by
  have hdi := h.di_le
  have hbig : bigSize = 20 := rfl
  exact word_merged (h.isOop hm) hs hdi hs' (h.heads _ (by omega) (by omega))

omit hm hs in
theorem Slid.kept_ne (hp : Kept m L s p) : p ≠ g := by
  obtain ⟨k, hk⟩ := (h.mem_gone g).mp List.mem_cons_self
  exact fun hpg => hp.2 k (hpg ▸ hk)

omit hs h in
/-- In segment `s` the objects are kept. -/
theorem Kept.allocated (hp : Kept m L s p) (hps : (m.entry p).segment = s) : Allocated m L p := by
  refine ⟨hp.1, fun s' k hk => hp.2 k ?_⟩
  obtain rfl : s' = s := (hm.lists.freeChunk s' k p hk).segment.symm.trans hps
  exact hk

/-- What is kept, stays as it is, its place apart. -/
theorem Slid.kept (hp : Kept m L s p) :
    (z.merged g s di).word 15 p = m.word 15 p ∧
    ((m.entry p).segment ≠ s → (z.merged g s di).location p = m.location p) ∧
    ((m.entry p).segment = s → (z.merged g s di).location p = z.location p) ∧
    ∀ i < L.extent p, (z.merged g s di).chunkWord p i = m.chunkWord p i := by
  have hdi := h.di_le
  have hg := h.isOop hm
  have hne := h.kept_ne hp
  have hoop := hp.1.1
  have hseg := hm.tiled.segment_lt p hp.1
  have hin := hm.tiled.inside p hp.1
  have hfirst : firstFreeChunkList = 65515 := rfl
  have hlocation : (z.merged g s di).location p = z.location p := by
    rw [location_merged hg hs hdi hoop, if_neg hne]
  have hz : z.word 15 p = m.word 15 p ∧
      ((m.entry p).segment ≠ s → z.location p = m.location p) := by
    by_cases hps : (m.entry p).segment = s
    · exact ⟨h.entry p (hp.allocated hm hps), fun hne => absurd hps hne⟩
    · obtain ⟨h1, h2⟩ := h.table p hoop fun hall => hps hall.2
      exact ⟨h1, fun _ => h2⟩
  have htable : (z.merged g s di).word 15 p = m.word 15 p := by
    rw [table_merged hg hs (by omega) hne (by have := hoop.1; have := hg.1; omega)]
    exact hz.1
  refine ⟨htable, fun hps => hlocation.trans (hz.2 hps), fun _ => hlocation, fun i hi => ?_⟩
  have hentry : (z.merged g s di).entry p = m.entry p := congrArg decodeEntry htable
  rw [chunkWord, hentry, hlocation, h.word hm hs _ _ hseg]
  by_cases hps : (m.entry p).segment = s
  · have ha := hp.allocated hm hps
    have hinside := h.inside p ha hps
    have hze : z.entry p = m.entry p := congrArg decodeEntry hz.1
    rw [if_neg (by omega), if_neg (by omega), if_neg (by omega), ← h.content p ha i hi, chunkWord,
      hze]
  · rw [if_neg (by omega), if_neg (by omega), if_neg (by omega), h.others _ _ hseg hps, hz.2 hps,
      chunkWord]

/-- The free entries, and those in use. -/
theorem Slid.inUse_iff : InUse (z.merged g s di) p ↔ p = g ∨ Kept m L s p := by
  have hdi := h.di_le
  have hg := h.isOop hm
  constructor
  · rintro ⟨hp, hfree⟩
    by_cases hpg : p = g
    · exact .inl hpg
    refine .inr ?_
    rw [entry_merged hg hs hp, if_neg hpg] at hfree
    have hout : p ∉ g :: gone := fun hmem => by
      have := h.free p hmem
      omega
    have hchunk : ∀ k, p ∉ L.chunks s k := fun k hk => hout ((h.mem_gone p).mpr ⟨k, hk⟩)
    refine ⟨⟨hp, ?_⟩, hchunk⟩
    by_contra hm0
    have hze : z.entry p = m.entry p :=
      congrArg decodeEntry (h.table p hp fun hall => hm0 hall.1.2).1
    exact hm0 (hze ▸ hfree)
  · rintro (rfl | hp)
    · refine ⟨hg, ?_⟩
      rw [entry_merged hg hs hg, if_pos rfl]
    · refine ⟨hp.1.1, ?_⟩
      have hentry : (z.merged g s di).entry p = m.entry p :=
        congrArg decodeEntry (h.kept hm hs hp).1
      rw [hentry]
      exact hp.1.2

theorem Slid.location_le (hp : Kept m L s p) : (z.merged g s di).location p ≤ m.location p := by
  by_cases hps : (m.entry p).segment = s
  · rw [(h.kept hm hs hp).2.2.1 hps]
    exact h.down p (hp.allocated hm hps)
  · exact ((h.kept hm hs hp).2.1 hps).le

theorem Slid.tiled : Tiled (z.merged g s di) (L.merged gone g s (65515 - di)).extent := by
  have hdi := h.di_le
  have hg := h.isOop hm
  have hself : (z.merged g s di).entry g = ⟨0, 0, 0, 0, s⟩ := by
    rw [entry_merged hg hs hg, if_pos rfl]
  have hplace : (z.merged g s di).location g = di := by
    rw [location_merged hg hs hdi hg, if_pos rfl]
  have hextent : (L.merged gone g s (65515 - di)).extent g = 65515 - di := if_pos rfl
  have hkeptExtent : ∀ p, Kept m L s p → (L.merged gone g s (65515 - di)).extent p = L.extent p :=
    fun p hp => if_neg (h.kept_ne hp)
  have hentry : ∀ p, Kept m L s p → (z.merged g s di).entry p = m.entry p := fun p hp =>
    congrArg decodeEntry (h.kept hm hs hp).1
  have hbelow : ∀ p, Kept m L s p → (m.entry p).segment = s →
      (z.merged g s di).location p + L.extent p ≤ di := fun p hp hps => by
    rw [(h.kept hm hs hp).2.2.1 hps]
    exact h.inside p (hp.allocated hm hps) hps
  refine ⟨fun p hp => ?_, fun p hp => ?_, fun p hp => ?_, fun p q hp hq hpq hseg => ?_,
    fun s' w hs' hw => ?_⟩
  · rcases (h.inUse_iff hm hs).mp hp with rfl | hp
    · rw [hself]
      exact hs
    · rw [hentry p hp]
      exact hm.tiled.segment_lt p hp.1
  · rcases (h.inUse_iff hm hs).mp hp with rfl | hp
    · rw [hextent]
      omega
    · rw [hkeptExtent p hp]
      exact hm.tiled.two_le p hp.1
  · rcases (h.inUse_iff hm hs).mp hp with rfl | hp
    · rw [hextent, hplace]
      omega
    · have hle := h.location_le hm hs hp
      have hin := hm.tiled.inside p hp.1
      rw [hkeptExtent p hp]
      omega
  · rcases (h.inUse_iff hm hs).mp hp with rfl | hkp
    · rcases (h.inUse_iff hm hs).mp hq with rfl | hkq
      · exact absurd rfl hpq
      · rw [hself, hentry q hkq] at hseg
        rw [hplace, hkeptExtent q hkq]
        exact .inr (hbelow q hkq hseg.symm)
    · rcases (h.inUse_iff hm hs).mp hq with rfl | hkq
      · rw [hself, hentry p hkp] at hseg
        rw [hplace, hkeptExtent p hkp]
        exact .inl (hbelow p hkp hseg)
      · rw [hentry p hkp, hentry q hkq] at hseg
        rw [hkeptExtent p hkp, hkeptExtent q hkq]
        have hapart := hm.tiled.apart p q hkp.1 hkq.1 hpq hseg
        by_cases hps : (m.entry p).segment = s
        · have hqs := hseg.symm.trans hps
          have hap := hkp.allocated hm hps
          have haq := hkq.allocated hm hqs
          have h2p := hm.tiled.two_le p hkp.1
          have h2q := hm.tiled.two_le q hkq.1
          rw [(h.kept hm hs hkp).2.2.1 hps, (h.kept hm hs hkq).2.2.1 hqs]
          rcases hapart with hlt | hlt
          · exact .inl (h.order p q hap haq hps hqs (by omega))
          · exact .inr (h.order q p haq hap hqs hps (by omega))
        · rw [(h.kept hm hs hkp).2.1 hps, (h.kept hm hs hkq).2.1 (hseg ▸ hps)]
          exact hapart
  · by_cases hss : s' = s
    · subst hss
      by_cases hwd : w < di
      · obtain ⟨p, hp, hps, hwp⟩ := h.filled w hwd
        have hk : Kept m L s' p := ⟨hp.inUse, fun k => hp.2 s' k⟩
        refine ⟨p, (h.inUse_iff hm hs).mpr (.inr hk), ?_⟩
        rw [hentry p hk, (h.kept hm hs hk).2.2.1 hps, hkeptExtent p hk]
        exact ⟨hps, hwp⟩
      · refine ⟨g, (h.inUse_iff hm hs).mpr (.inl rfl), ?_⟩
        rw [hself, hplace, hextent]
        exact ⟨rfl, by omega, by omega⟩
    · obtain ⟨p, hp, hps, hwp⟩ := hm.tiled.cover s' w hs' hw
      have hk : Kept m L s p := ⟨hp, fun k hk =>
        hss (hps.symm.trans (hm.lists.freeChunk s k p hk).segment)⟩
      refine ⟨p, (h.inUse_iff hm hs).mpr (.inr hk), ?_⟩
      rw [hentry p hk, (h.kept hm hs hk).2.1 (hps ▸ hss), hkeptExtent p hk]
      exact ⟨hps, hwp⟩

theorem Slid.freeLists : FreeLists (z.merged g s di) (L.merged gone g s (65515 - di)) := by
  have hdi := h.di_le
  have hbig : bigSize = 20 := rfl
  have hfirst : firstFreeChunkList = 65515 := rfl
  have hg := h.isOop hm
  have hself : (z.merged g s di).entry g = ⟨0, 0, 0, 0, s⟩ := by
    rw [entry_merged hg hs hg, if_pos rfl]
  have hplace : (z.merged g s di).location g = di := by
    rw [location_merged hg hs hdi hg, if_pos rfl]
  obtain ⟨hghead, -, hlinked⟩ := h.linked
  have hnodup := h.linked.nodup
  have hgout : g ∉ gone ++ L.freePointers := (List.nodup_cons.mp hnodup).1
  have hoop : ∀ p ∈ gone ++ L.freePointers, IsOop p := fun p hp => by
    rcases List.mem_append.mp hp with hp | hp
    · obtain ⟨k, hk⟩ := (h.mem_gone p).mp (List.mem_cons_of_mem _ hp)
      exact (hm.chunk_apart hk).1
    · exact ((hm.lists.mem_pointers p).mp hp).1
  have hkept : ∀ s' k p, s' ≠ s → p ∈ L.chunks s' k → Kept m L s p := fun s' k p hss hk => by
    have hc := hm.lists.freeChunk s' k p hk
    exact ⟨hc.inUse, fun k' hk' =>
      hss (hc.segment.symm.trans (hm.lists.freeChunk s k' p hk').segment)⟩
  have hchunkHead : ∀ s' k, s' < 15 → (z.merged g s di).chunkHead s' k =
      if s' = s ∧ k = min (65515 - di) bigSize then g else z.chunkHead s' k := fun s' k hs' => by
    rw [chunkHead, h.word hm hs _ _ hs',
      if_neg (show ¬(s' = s ∧ firstFreeChunkList + k = di + 1) by omega),
      if_neg (show ¬(s' = s ∧ firstFreeChunkList + k = di) by omega)]
    exact if_congr (by omega) rfl rfl
  refine ⟨?_, fun p => ?_, fun s' k hs' h2 h20 => ?_, fun s' k p hp => ?_,
    fun s' k k' p hp hp' => ?_⟩
  · rw [freeHead_merged hg hs]
    refine hlinked.congr fun p hp => ?_
    rw [location_merged hg hs hdi (hoop p hp), if_neg fun (hpg : p = g) => hgout (hpg ▸ hp)]
  · constructor
    · intro hp
      refine ⟨hoop p hp, ?_⟩
      rw [entry_merged hg hs (hoop p hp), if_neg fun (hpg : p = g) => hgout (hpg ▸ hp)]
      rcases List.mem_append.mp hp with hp | hp
      · exact h.free p (List.mem_cons_of_mem _ hp)
      · obtain ⟨hp', h1⟩ := (hm.lists.mem_pointers p).mp hp
        have hze : z.entry p = m.entry p := congrArg decodeEntry (h.table p hp' fun hall => by
          have := hall.1.2
          omega).1
        rw [hze]
        exact h1
    · rintro ⟨hp, h1⟩
      have hpg : p ≠ g := fun hpg => by
        rw [hpg, hself] at h1
        have h01 : (0 : Nat) = 1 := h1
        omega
      rw [entry_merged hg hs hp, if_neg hpg] at h1
      refine List.mem_append.mpr ?_
      by_cases hgone : p ∈ g :: gone
      · exact .inl ((List.mem_cons.mp hgone).resolve_left hpg)
      · refine .inr ((hm.lists.mem_pointers p).mpr ⟨hp, ?_⟩)
        have hnot : ¬Kept m L s p := fun hk => by
          have hfree := ((h.inUse_iff hm hs).mpr (.inr hk)).2
          rw [entry_merged hg hs hp, if_neg hpg] at hfree
          omega
        have hze : z.entry p = m.entry p := congrArg decodeEntry (h.table p hp fun hall =>
          hnot ⟨hall.1, fun k hk => hgone ((h.mem_gone p).mpr ⟨k, hk⟩)⟩).1
        rw [← hze]
        exact h1
  · rw [hchunkHead s' k hs', Layout.merged]
    by_cases hss : s' = s
    · subst hss
      by_cases hk : k = min (65515 - di) bigSize
      · rw [if_pos ⟨rfl, hk⟩]
        simp only [if_true, if_pos hk]
        refine ⟨rfl, ?_, ?_⟩
        · have := hg.2.2
          simp only [nonPointer]
          omega
        · show (z.merged g s' di).chunkWord g 1 = nonPointer
          rw [chunkWord, hself, hplace, h.word hm hs _ _ hs', if_neg (by omega), if_pos ⟨rfl, rfl⟩]
      · rw [if_neg fun hall => hk hall.2]
        simp only [if_true, if_neg hk]
        exact h.heads k h2 h20
    · rw [if_neg fun hall => hss hall.1]
      simp only [if_neg hss]
      rw [chunkHead, h.others s' _ hs' hss]
      refine (hm.lists.chunks s' k hs' h2 h20).congr fun p hp => ?_
      have hk := hkept s' k p hss hp
      exact (h.kept hm hs hk).2.2.2 1 (by have := hm.tiled.two_le p hk.1; omega)
  · rcases Layout.mem_merged.mp hp with ⟨rfl, rfl, rfl⟩ | ⟨hss, hp⟩
    · refine ⟨(h.inUse_iff hm hs).mpr (.inl rfl), ?_, hs, by omega, by omega, fun _ => ?_, ?_⟩
      · rw [hself]
      · rw [chunkWord, hself, hplace, h.word hm hs _ _ hs, if_neg (by omega), if_neg (by omega),
          if_pos ⟨rfl, rfl⟩]
        omega
      · rw [hself]
    · have hk := hkept s' k p hss hp
      have hc := hm.lists.freeChunk s' k p hp
      have hentry : (z.merged g s di).entry p = m.entry p :=
        congrArg decodeEntry (h.kept hm hs hk).1
      refine ⟨(h.inUse_iff hm hs).mpr (.inr hk), by rw [hentry]; exact hc.segment, hc.segment_lt,
        hc.two_le,
        hc.le_bigSize, ?_, by rw [hentry]; exact hc.count⟩
      rw [(h.kept hm hs hk).2.2.2 0 (by have := hm.tiled.two_le p hk.1; omega)]
      exact hc.size
  · rcases Layout.mem_merged.mp hp with ⟨hss, -, hk⟩ | ⟨hss, hp⟩
    · rcases Layout.mem_merged.mp hp' with ⟨-, -, hk'⟩ | ⟨hss', -⟩
      · rw [hk, hk']
      · exact absurd hss hss'
    · rcases Layout.mem_merged.mp hp' with ⟨hss', -⟩ | ⟨-, hp'⟩
      · exact absurd hss' hss
      · exact hm.lists.unique s' k k' p hp hp'

theorem Slid.compacted : Compacted m L s (L.merged gone g s (65515 - di)) (z.merged g s di) := by
  have hdi := h.di_le
  have hbig : bigSize = 20 := rfl
  have hfirst : firstFreeChunkList = 65515 := rfl
  have hg := h.isOop hm
  have hself : (z.merged g s di).entry g = ⟨0, 0, 0, 0, s⟩ := by
    rw [entry_merged hg hs hg, if_pos rfl]
  have hplace : (z.merged g s di).location g = di := by
    rw [location_merged hg hs hdi hg, if_pos rfl]
  have hsize : (z.merged g s di).chunkWord g 0 = 65515 - di := by
    rw [chunkWord, hself, hplace, h.word hm hs _ _ hs, if_neg (by omega), if_neg (by omega),
      if_pos ⟨rfl, rfl⟩]
  have hkept : ∀ p, Allocated m L p → Kept m L s p := fun p hp => ⟨hp.inUse, fun k => hp.2 s k⟩
  have hspace : ∀ p, Allocated m L p → (z.merged g s di).space p = m.space p := fun p hp => by
    have hentry : (z.merged g s di).entry p = m.entry p :=
      congrArg decodeEntry (h.kept hm hs (hkept p hp)).1
    refine space_congr (by rw [hentry]) ((h.kept hm hs (hkept p hp)).2.2.2 0 ?_)
    have := hm.tiled.two_le p hp.inUse
    omega
  have hallocated : ∀ p, Allocated (z.merged g s di) (L.merged gone g s (65515 - di)) p ↔
      Allocated m L p := fun p => by
    constructor
    · rintro ⟨huse, hout⟩
      have hpg : p ≠ g := fun hpg => hout s _ (Layout.mem_merged.mpr (.inl ⟨rfl, hpg, rfl⟩))
      have hk := ((h.inUse_iff hm hs).mp huse).resolve_left hpg
      refine ⟨hk.1, fun s' k hk' => ?_⟩
      by_cases hss : s' = s
      · exact hk.2 k (hss ▸ hk')
      · exact hout s' k (Layout.mem_merged.mpr (.inr ⟨hss, hk'⟩))
    · intro hp
      refine ⟨(h.inUse_iff hm hs).mpr (.inr (hkept p hp)), fun s' k hk => ?_⟩
      rcases Layout.mem_merged.mp hk with ⟨-, hpg, -⟩ | ⟨-, hk⟩
      · exact h.kept_ne (hkept p hp) hpg
      · exact hp.2 s' k hk
  refine ⟨⟨h.tiled hm hs, h.freeLists hm hs, fun s' k p hp => ?_, fun p hp => ?_⟩, hallocated,
    fun p hp => (h.kept hm hs (hkept p hp)).1, fun p hp i hi => ?_,
    fun p hp => h.location_le hm hs (hkept p hp), fun p q hp hq hps hqs hpq => ?_,
    fun s' w hs' hss => ?_, fun p hp hps => ?_, fun s' hss => ?_, ?_,
    fun p hp => List.mem_append_right _ hp, fun _ => ⟨g, ?_, fun k p => ?_,
    ?_,
    fun w hw => ?_, fun k p hp hpg => ?_⟩, h.currentSegment⟩
  · rcases Layout.mem_merged.mp hp with ⟨-, rfl, -⟩ | ⟨hss, hp⟩
    · rw [hsize]
      exact if_pos rfl
    · have hc := hm.lists.freeChunk s' k p hp
      have hk : Kept m L s p := ⟨hc.inUse, fun k' hk' =>
        hss (hc.segment.symm.trans (hm.lists.freeChunk s k' p hk').segment)⟩
      rw [(h.kept hm hs hk).2.2.2 0 (by have := hm.tiled.two_le p hk.1; omega),
        ← hm.extent_chunk s' k p hp]
      exact if_neg (h.kept_ne hk)
  · have ha := (hallocated p).mp hp
    rw [hspace p ha, ← hm.extent_allocated p ha]
    exact if_neg (h.kept_ne (hkept p ha))
  · rw [← hm.extent_allocated p hp] at hi
    exact (h.kept hm hs (hkept p hp)).2.2.2 i hi
  · rw [(h.kept hm hs (hkept p hp)).2.2.1 hps, (h.kept hm hs (hkept q hq)).2.2.1 hqs]
    have := h.order p q hp hq hps hqs hpq
    have := hm.tiled.two_le p hp.inUse
    omega
  · rw [h.word hm hs _ _ hs', if_neg (by omega), if_neg (by omega), if_neg (by omega)]
    exact h.others s' w hs' hss
  · have hpg : p ≠ g := fun hpg => hps (by
      obtain ⟨k, hk⟩ := (h.mem_gone g).mp List.mem_cons_self
      have hc := hm.lists.freeChunk s k g hk
      exact ⟨hpg ▸ hc.inUse, hpg ▸ hc.segment⟩)
    obtain ⟨h1, h2⟩ := h.table p hp hps
    have h15 : objectTableSegment = 15 := rfl
    rw [h15, table_merged hg hs (by omega) hpg (by have := hp.1; have := hg.1; omega),
      location_merged hg hs hdi hp, if_neg hpg]
    exact ⟨h1, h2⟩
  · funext k
    exact if_neg hss
  · exact (table_merged hg hs (by omega) (by have := hg.2.1; omega) (by omega)).trans h.reserved
  · exact (h.mem_gone g).mp List.mem_cons_self
  · rw [Layout.mem_merged, hsize]
    exact ⟨fun hall => hall.elim (fun h' => h'.2) fun h' => absurd rfl h'.1,
      fun hall => .inl ⟨rfl, hall⟩⟩
  · rw [hplace, hsize]
    have : heapSpaceStop = 65514 := rfl
    omega
  · rw [hplace] at hw
    obtain ⟨p, hp, hps, hwp⟩ := h.filled w hw
    refine ⟨p, hp, hps, ?_⟩
    rw [(h.kept hm hs (hkept p hp)).2.2.1 hps, ← hm.extent_allocated p hp]
    exact hwp
  · have hgone := (List.mem_cons.mp ((h.mem_gone p).mpr ⟨k, hp⟩)).resolve_left hpg
    have hmem : p ∈ (L.merged gone g s (65515 - di)).freePointers := List.mem_append_left _ hgone
    exact ⟨hmem, (((h.freeLists hm hs).mem_pointers p).mp hmem).2⟩

end Compacted

section Compaction

variable (hm : Heap m L) (hs : s < 15)

include hm hs

/-- A segment without free chunks stays as it is. -/
theorem Abandoned.compacted (h : Abandoned m L s 21 [] low u) : Compacted m L s L u := by
  have hempty : ∀ k p, p ∉ L.chunks s k := fun k p hp => by
    simpa using (h.mem_gone hm).mpr ⟨k, hp⟩
  have hsame : ∀ p, IsOop p → u.word 15 p = m.word 15 p ∧ u.location p = m.location p := fun p hp =>
    ⟨h.table p (by omega) (by simp), (h.entry_eq hm hp (by simp)).2⟩
  have hentry : ∀ p, IsOop p → u.entry p = m.entry p :=
      fun p hp => congrArg decodeEntry (hsame p hp).1
  have hword : ∀ p, InUse m p → ∀ i < L.extent p, u.chunkWord p i = m.chunkWord p i :=
      fun p hp i hi =>
    h.chunkWord_eq hm hp (by simp) hi
  have hallocated : ∀ p, Allocated u L p ↔ Allocated m L p := fun p =>
    and_congr_left' (and_congr_right fun hp => by rw [hentry p hp])
  refine ⟨hm.congr (fun p hp => by rw [hentry p hp]) (fun p hp => by rw [hentry p hp])
    (fun p hp => by rw [hentry p hp]) (fun p hp => (hsame p hp).2) ?_ (fun s' k hs' => ?_)
    (fun p hp => hword p hp 0 (by have := hm.tiled.two_le p hp; omega)) (fun s' k p hp => ?_)
    (fun s' k p hp => ?_), hallocated, fun p hp => (hsame p hp.inUse.1).1, fun p hp i hi => ?_,
    fun p hp => (hsame p hp.inUse.1).2.le, fun p q hp hq _ _ hpq => ?_, fun s' w hs' hss => ?_,
    fun p hp _ => hsame p hp, fun _ _ => rfl, h.table 0 (by omega) (by simp), fun p hp => hp,
    fun ⟨k, p, hp⟩ => absurd hp (hempty k p),
    h.currentSegment⟩
  · have hlinked := h.linked
    have hlinked' := hm.lists.pointers
    rw [List.nil_append] at hlinked
    cases hl : L.freePointers with
    | nil =>
        rw [hl] at hlinked hlinked'
        exact hlinked.trans hlinked'.symm
    | cons a l =>
        rw [hl] at hlinked hlinked'
        exact hlinked.1.trans hlinked'.1.symm
  · by_cases hss : s' = s
    · subst hss
      by_cases hk : 2 ≤ k ∧ k ≤ 20
      · have hnil : L.chunks s' k = [] := List.eq_nil_iff_forall_not_mem.mpr (hempty k)
        have hlinked := hm.lists.chunks s' k hs' hk.1 hk.2
        rw [hnil] at hlinked
        rw [h.emptied k hk.1 (by omega)]
        exact hlinked.symm
      · exact h.heads k (by omega)
    · exact h.kept s' _ hs' fun hs' => absurd hs' hss
  · have hp' := hm.chunk_inUse hp
    exact hword p hp' 1 (by have := hm.tiled.two_le p hp'; omega)
  · rw [hentry p (hm.chunk_inUse hp).1]
    exact (hm.lists.freeChunk s' k p hp).count
  · rw [← hm.extent_allocated p hp] at hi
    exact hword p hp.inUse i hi
  · rw [(hsame p hp.inUse.1).2, (hsame q hq.inUse.1).2]
    exact hpq
  · exact h.kept s' w hs' fun hs' => absurd hs' hss

/-- Only the objects above a free chunk are swept, and the entry of the last free chunk
that is given up is the one that the merged chunk gets. -/
theorem wp_compactCurrentSegment (hcurrent : m.currentSegment = s)
    (h0 : (m.entry 0).free ≠ 0) (hnil : ∀ k, nilPointer ∉ L.chunks s k)
    (hclass : ∀ k g p, g ∈ L.chunks s k → Allocated m L p → (m.entry p).segment = s →
      m.location g < m.location p → m.chunkWord p 1 ≠ nonPointer) :
    Wp compactCurrentSegment (fun _ u => ∃ L', Compacted m L s L' u) m := by
  have hstop : heapSpaceStop = 65514 := rfl
  rw [compactCurrentSegment, wp_bind, wp_checkCurrentSegment, and_iff_right (by omega), wp_bind,
    wp_get,
    hcurrent, Int.toNat_natCast, wp_bind, abandonFreeChunksInSegment]
  refine (Abandoned.wp_abandonFrom hm hs (n := 19) le_rfl).mono ?_
  rintro low u ⟨gone, hu, -⟩
  rw [wp_ite]
  refine ⟨fun hlow => ?_, fun hlow => ?_⟩
  · rw [wp_bind]
    refine (wp_reverseHeapPointersAbove hm hu hcurrent h0).mono fun _ v hv => ?_
    rw [wp_bind]
    have hmovable : ∀ p, Movable m L s low p → m.chunkWord p 1 ≠ nonPointer := by
      intro p hp
      rcases hu.low_eq with ⟨heq, -⟩ | ⟨g, hg, hgl⟩
      · omega
      · obtain ⟨k, hk⟩ := hu.chunk g hg
        refine hclass k g p hk hp.allocated hp.segment (lt_of_le_of_ne (hgl ▸ hp.le) fun heq => ?_)
        have hc := hm.lists.freeChunk s k g hk
        have htwo := hm.tiled.two_le g hc.inUse
        have htwo' := hm.tiled.two_le p hp.allocated.inUse
        obtain ⟨rfl, -⟩ := hm.tiled.eq_of_word (i := 0) (j := 0) hp.allocated.inUse hc.inUse
          (by omega) (by omega) (hc.segment.trans hp.segment.symm) (by omega)
        exact hp.allocated.2 s k hk
    refine (wp_sweepCurrentSegmentFrom hm hu hv hs hcurrent hmovable hlow).mono ?_
    rintro di z ⟨si, hsi, hz⟩
    have hslid := hz.slid hm hu hv hsi hs hlow
    have hdi := hslid.di_le
    obtain ⟨g, gone, rfl⟩ := List.exists_cons_of_ne_nil hslid.ne_nil
    have hg := hslid.isOop hm
    have hgnil : g ≠ nilPointer := fun hgn => by
      obtain ⟨k, hk⟩ := (hslid.mem_gone g).mp List.mem_cons_self
      exact hnil k (hgn ▸ hk)
    rw [wp_bind, wp_check, and_iff_right (by omega),
      wp_merge hg hs hdi (hslid.currentSegment.trans hcurrent) hslid.linked.1 hgnil]
    exact ⟨_, hslid.compacted hm hs⟩
  · rw [wp_pure]
    have hnone : gone = [] := by
      rcases hu.low_eq with ⟨-, hnone⟩ | ⟨g, hg, hgl⟩
      · exact hnone
      · obtain ⟨k, hk⟩ := hu.chunk g hg
        have := (hm.chunk_apart hk).2.2.2
        omega
    subst hnone
    exact ⟨L, hu.compacted hm hs⟩

/-- Compaction preserves the objects, in a segment of whose free chunks none is nil and
where no object above a free chunk has the mark of a free chunk for its class. Entry 0
is no object. -/
theorem compactCurrentSegment_compacted (hcurrent : m.currentSegment = s)
    (h0 : (m.entry 0).free ≠ 0) (hnil : ∀ k, nilPointer ∉ L.chunks s k)
    (hclass : ∀ k g p, g ∈ L.chunks s k → Allocated m L p → (m.entry p).segment = s →
      m.location g < m.location p → m.chunkWord p 1 ≠ nonPointer) :
    Wp compactCurrentSegment (fun _ u => ∃ L', Compacted m L s L' u) m :=
  wp_compactCurrentSegment hm hs hcurrent h0 hnil hclass

end Compaction

theorem allocated_sparse : Allocated (sparse 2) (sparseLayout 2) p ↔ p = 2 := by
  constructor
  · rintro ⟨huse, hout⟩
    obtain ⟨hoop, hp⟩ := inUse_sparse.mp huse
    by_contra hne
    refine hout (p / 2 - 3) 20 ?_
    show p ∈ if p / 2 - 3 < 15 ∧ 20 = 20 then [6 + 2 * (p / 2 - 3)] else []
    have heven := hoop.1
    rw [if_pos ⟨by omega, rfl⟩, List.mem_singleton]
    omega
  · rintro rfl
    refine ⟨inUse_sparse.mpr ⟨⟨rfl, le_rfl, by decide⟩, .inl rfl⟩, fun s' k hk => ?_⟩
    have hk' : 2 ∈ if s' < 15 ∧ k = 20 then [6 + 2 * s'] else [] := hk
    split at hk'
    · rw [List.mem_singleton] at hk'
      omega
    · simp at hk'

/-! ## An object above a free chunk -/

/-- In segment 0 the free chunk `g`, which is 2 or 4, lies below an object of the class
`c`, which has the other of these oops. The other segments are free chunks, with oop 6
to 32. -/
def stackedWord (g c s w : Nat) : Nat :=
  if s = 15 then
    if w = 65534 then 34
    else if w % 2 = 0 then
      if w = g then 0
      else if w = 6 - g then 256
      else if 6 ≤ w ∧ w ≤ 32 then w / 2 - 2
      else 32
    else if w = 7 - g then 65513
    else if w ≤ 33 then 0
    else if w < 65533 then w + 1
    else 65535
  else if w = 65535 then (if s = 0 then g else 4 + 2 * s) % 65536
  else if 65515 ≤ w then 65535
  else if s = 0 then
    if w = 0 then 65513 else if w = 1 then 65535 else if w = 65513 then 2
    else if w = 65514 then c % 65536 else 4
  else if w = 0 then 65515
  else if w = 1 then 65535
  else 0

theorem stackedWord_lt (g c s w : Nat) : stackedWord g c s w < 65536 := by
  have hclass : c % 65536 < 65536 := Nat.mod_lt _ (by decide)
  have hhead : (if s = 0 then g else 4 + 2 * s) % 65536 < 65536 := Nat.mod_lt _ (by decide)
  unfold stackedWord
  repeat' split
  all_goals omega

def stacked (g c : Nat) : ObjectMemory := ⟨⟨stackedWord g c, stackedWord_lt g c⟩, 0, 0, 32750⟩

def stackedChunk (g u : Nat) : Nat := if u = 0 then g else 4 + 2 * u

def stackedExtent (g p : Nat) : Nat := if p = 6 - g then 2 else if p = g then 65513 else 65515

def stackedLayout (g : Nat) : Layout :=
  Layout.big (List.range' 34 32750 2) (stackedChunk g) (stackedExtent g)

section Stacked

variable {g c n : Nat} (hg : g = 2 ∨ g = 4)

include hg

theorem entry_stacked (hp : IsOop p) : (stacked g c).entry p =
    if p = 6 - g then ⟨1, 0, 0, 0, 0⟩
    else if p ≤ 32 then ⟨0, 0, 0, 0, p / 2 - 2⟩ else ⟨0, 0, 0, 1, 0⟩ := by
  obtain ⟨heven, htwo, hle⟩ := hp
  show decodeEntry (stackedWord g c 15 p) = _
  rw [stackedWord, if_pos rfl, if_neg (by omega), if_pos heven]
  by_cases hpg : p = g
  · rw [if_pos hpg, if_neg (by omega), if_pos (by omega), show p / 2 - 2 = 0 by omega]
    rfl
  · rw [if_neg hpg]
    by_cases hobj : p = 6 - g
    · rw [if_pos hobj, if_pos hobj]
      rfl
    · rw [if_neg hobj, if_neg hobj]
      by_cases hchunk : p ≤ 32
      · rw [if_pos (by omega), if_pos hchunk, decodeEntry_segment _ (by omega)]
      · rw [if_neg (by omega), if_neg hchunk]
        rfl

omit hg in
theorem location_stacked (hp : IsOop p) : (stacked g c).location p =
    if p = 6 - g then 65513 else if p ≤ 32 then 0 else if p < 65532 then p + 2 else 65535 := by
  obtain ⟨heven, htwo, hle⟩ := hp
  show stackedWord g c 15 (p + 1) = _
  rw [stackedWord, if_pos rfl, if_neg (by omega), if_neg (by omega)]
  exact if_congr (by omega) rfl (if_congr (by omega) rfl (if_congr (by omega) rfl rfl))

theorem inUse_stacked : InUse (stacked g c) p ↔ IsOop p ∧ p ≤ 32 := by
  refine and_congr_right fun hp => ?_
  rw [entry_stacked hg hp]
  by_cases hobj : p = 6 - g
  · rw [if_pos hobj]
    exact iff_of_true rfl (by omega)
  · rw [if_neg hobj]
    by_cases hchunk : p ≤ 32
    · rw [if_pos hchunk]
      exact iff_of_true rfl hchunk
    · rw [if_neg hchunk]
      exact iff_of_false (by decide) hchunk

/-- Where the object and the chunks are. -/
theorem span_stacked (hp : InUse (stacked g c) p) :
    (p = 6 - g ∧ ((stacked g c).entry p).segment = 0 ∧ (stacked g c).location p = 65513 ∧
        stackedExtent g p = 2) ∨
      (p = g ∧ ((stacked g c).entry p).segment = 0 ∧ (stacked g c).location p = 0 ∧
        stackedExtent g p = 65513) ∨
      (6 ≤ p ∧ p ≤ 32 ∧ ((stacked g c).entry p).segment = p / 2 - 2 ∧
        (stacked g c).location p = 0 ∧ stackedExtent g p = 65515) := by
  obtain ⟨hoop, hle⟩ := (inUse_stacked hg).mp hp
  have heven := hoop.1
  have htwo := hoop.2.1
  rw [entry_stacked hg hoop, location_stacked hoop, stackedExtent]
  by_cases hobj : p = 6 - g
  · rw [if_pos hobj, if_pos hobj, if_pos hobj]
    exact .inl ⟨hobj, rfl, rfl, rfl⟩
  · rw [if_neg hobj, if_neg hobj, if_neg hobj, if_pos hle, if_pos hle]
    by_cases hpg : p = g
    · rw [if_pos hpg]
      exact .inr (.inl ⟨hpg, show p / 2 - 2 = 0 by omega, rfl, rfl⟩)
    · rw [if_neg hpg]
      exact .inr (.inr ⟨by omega, hle, rfl, rfl, rfl⟩)

theorem chunkWord_stacked (hp : InUse (stacked g c) p) : (stacked g c).chunkWord p 0 =
    stackedExtent g p ∧ (p ≠ 6 - g → (stacked g c).chunkWord p 1 = nonPointer) := by
  have heven := hp.1.1
  have hword : ∀ i, (stacked g c).chunkWord p i =
      stackedWord g c ((stacked g c).entry p).segment ((stacked g c).location p + i) :=
    fun _ => rfl
  rw [hword, hword]
  rcases span_stacked hg hp with ⟨hobj, hs, hl, he⟩ | ⟨hpg, hs, hl, he⟩ | ⟨h6, h32, hs, hl, he⟩
  · rw [hs, hl, he]
    exact ⟨rfl, fun hne => absurd hobj hne⟩
  · rw [hs, hl, he]
    exact ⟨rfl, fun _ => rfl⟩
  · have h15 : p / 2 - 2 ≠ 15 := by omega
    have h0 : p / 2 - 2 ≠ 0 := by omega
    rw [hs, hl, he, stackedWord, stackedWord, if_neg h15, if_neg h15]
    simp [h0]

theorem tiled_stacked : Tiled (stacked g c) (stackedExtent g) := by
  refine ⟨fun p hp => ?_, fun p hp => ?_, fun p hp => ?_, fun p q hp hq hne hseg => ?_,
    fun u w hu hw => ?_⟩
  · have := span_stacked hg hp
    omega
  · have := span_stacked hg hp
    omega
  · have := span_stacked hg hp
    omega
  · have hp' := span_stacked hg hp
    have hq' := span_stacked hg hq
    have hpe := hp.1.1
    have hqe := hq.1.1
    omega
  · have hin : ∀ p, p % 2 = 0 → 2 ≤ p → p ≤ 32 → InUse (stacked g c) p := fun p h1 h2 h3 =>
      (inUse_stacked hg).mpr ⟨⟨h1, h2, by omega⟩, h3⟩
    by_cases hobj : u = 0 ∧ 65513 ≤ w
    · have hp := hin (6 - g) (by omega) (by omega) (by omega)
      have := span_stacked hg hp
      exact ⟨6 - g, hp, by omega, by omega, by omega⟩
    · have hp := hin (stackedChunk g u) (by unfold stackedChunk; split <;> omega)
        (by unfold stackedChunk; split <;> omega) (by unfold stackedChunk; split <;> omega)
      have hchunk : stackedChunk g u = if u = 0 then g else 4 + 2 * u := rfl
      have := span_stacked hg hp
      refine ⟨stackedChunk g u, hp, ?_, ?_, ?_⟩
      · split at hchunk <;> omega
      · split at hchunk <;> omega
      · split at hchunk <;> omega

omit hg in
theorem linked_stacked : ∀ {n p : Nat}, p % 2 = 0 → 34 ≤ p → p + 2 * n = 65534 →
    Linked (stacked g c).location nonPointer (if n = 0 then 65535 else p) (List.range' p n 2)
  | 0, _, _, _, _ => rfl
  | n + 1, p, heven, hge, hsum => by
      have ih := linked_stacked (n := n) (p := p + 2) (by omega) (by omega) (by omega)
      have hlocation : (stacked g c).location p = if n = 0 then 65535 else p + 2 := by
        rw [location_stacked ⟨heven, by omega, by omega⟩, if_neg (by omega), if_neg (by omega)]
        by_cases hn : n = 0
        · rw [if_pos hn, if_neg (by omega)]
        · rw [if_neg hn, if_pos (by omega)]
      rw [List.range'_succ, if_neg (Nat.succ_ne_zero n)]
      refine ⟨rfl, by simp only [nonPointer]; omega, ?_⟩
      rw [hlocation]
      exact ih

theorem heap_stacked : Heap (stacked g c) (stackedLayout g) := by
  have hlinked := linked_stacked (g := g) (c := c) (n := 32750) (p := 34) rfl le_rfl rfl
  rw [if_neg (by omega)] at hlinked
  have hfirst : firstFreeChunkList = 65515 := rfl
  refine .of_big (tiled_stacked hg) hlinked (fun p => ?_) (fun u k hu h2 h20 => ?_)
    (fun u hu => ?_) fun p hp hout => ?_
  · rw [List.mem_range']
    constructor
    · rintro ⟨i, hi, rfl⟩
      have hoop : IsOop (34 + 2 * i) := ⟨by omega, by omega, by omega⟩
      rw [entry_stacked hg hoop, if_neg (by omega), if_neg (by omega)]
      exact ⟨hoop, rfl⟩
    · rintro ⟨hoop, hfree⟩
      have hnot : ¬p ≤ 32 := fun hle => by
        have h0 := ((inUse_stacked hg (c := c)).mpr ⟨hoop, hle⟩).2
        omega
      obtain ⟨heven, htwo, hle⟩ := hoop
      exact ⟨(p - 34) / 2, by omega, by omega⟩
  · show stackedWord g c u (firstFreeChunkList + k) = _
    rw [stackedWord, if_neg (by omega), stackedChunk]
    by_cases hk : k = 20
    · rw [if_pos hk, if_pos (by omega)]
      split <;> omega
    · rw [if_neg hk, if_neg (by omega), if_pos (by omega)]
  · have hchunk : stackedChunk g u = if u = 0 then g else 4 + 2 * u := rfl
    have hoop : IsOop (stackedChunk g u) := by
      rw [hchunk]
      split <;> exact ⟨by omega, by omega, by omega⟩
    have hle : stackedChunk g u ≤ 32 := by
      rw [hchunk]
      split <;> omega
    have hne : stackedChunk g u ≠ 6 - g := by
      rw [hchunk]
      split <;> omega
    have hin := (inUse_stacked hg (c := c)).mpr ⟨hoop, hle⟩
    have hentry := entry_stacked hg (c := c) hoop
    rw [if_neg hne, if_pos hle] at hentry
    obtain ⟨hsize, hlink⟩ := chunkWord_stacked hg hin
    refine ⟨hin, ?_, by rw [hentry], hlink hne, hsize.symm⟩
    rw [hentry]
    show stackedChunk g u / 2 - 2 = u
    split at hchunk <;> omega
  · have hobj : p = 6 - g := by
      obtain ⟨hoop, hle⟩ := (inUse_stacked hg).mp hp
      by_contra hne
      refine hout (p / 2 - 2) (by omega) ?_
      have heven := hoop.1
      have htwo := hoop.2.1
      rw [stackedChunk]
      split <;> omega
    have hsize := (chunkWord_stacked hg hp).1
    rw [stackedExtent, if_pos hobj] at hsize
    rw [space, hsize, if_pos (.inl (by decide)), stackedExtent, if_pos hobj]

theorem allocated_stacked : Allocated (stacked g c) (stackedLayout g) p ↔ p = 6 - g := by
  constructor
  · rintro ⟨huse, hout⟩
    obtain ⟨hoop, hle⟩ := (inUse_stacked hg).mp huse
    by_contra hne
    refine hout (p / 2 - 2) 20 (Layout.mem_big.mpr ⟨⟨by omega, rfl⟩, ?_⟩)
    have heven := hoop.1
    have htwo := hoop.2.1
    rw [stackedChunk]
    split <;> omega
  · rintro rfl
    refine ⟨(inUse_stacked hg).mpr ⟨⟨by omega, by omega, by omega⟩, by omega⟩, fun s k hk => ?_⟩
    have hchunk := (Layout.mem_big.mp hk).2
    rw [stackedChunk] at hchunk
    split at hchunk <;> omega

theorem gone_stacked (hu : Abandoned (stacked g c) (stackedLayout g) 0 21 gone low u) :
    gone = [g] ∧ low = 0 := by
  have hm := heap_stacked hg (c := c)
  have hmem : ∀ p, p ∈ gone ↔ p = g := fun p => by
    rw [hu.mem_gone hm]
    constructor
    · rintro ⟨k, hk⟩
      exact (Layout.mem_big.mp hk).2
    · rintro rfl
      exact ⟨20, Layout.mem_big.mpr ⟨⟨by decide, rfl⟩, rfl⟩⟩
  refine ⟨?_, ?_⟩
  · obtain ⟨a, l, rfl⟩ := List.exists_cons_of_ne_nil (List.ne_nil_of_mem ((hmem g).mpr rfl))
    obtain rfl := (hmem a).mp List.mem_cons_self
    have hnodup := (List.nodup_cons.mp (List.nodup_append.mp hu.linked.nodup).1).1
    rw [List.eq_nil_iff_forall_not_mem.mpr fun q hq =>
      hnodup ((hmem q).mp (List.mem_cons_of_mem _ hq) ▸ hq)]
  · have hlocation := location_stacked (c := c) (g := g) (p := g) ⟨by omega, by omega, by omega⟩
    rw [if_neg (by omega), if_pos (by omega)] at hlocation
    have := hu.low_le g ((hmem g).mpr rfl)
    omega

theorem movable_stacked (hp : Movable (stacked g c) (stackedLayout g) 0 0 p) : p = 6 - g :=
  (allocated_stacked hg).mp hp.allocated

end Stacked

/-- The sweep skips an object with the mark of a free chunk for its class, and its
size is where its oop was put. -/
theorem wp_compactCurrentSegment_marked : Wp compactCurrentSegment (fun _ u =>
    u.chunkWord 2 0 ≠ (stacked 4 65535).chunkWord 2 0) (stacked 4 65535) := by
  have hm := heap_stacked (.inr rfl) (c := 65535)
  have hoop : IsOop 2 := ⟨rfl, le_rfl, by decide⟩
  have hallocated := (allocated_stacked (.inr rfl) (c := 65535)).mpr rfl
  have hmoved : Movable (stacked 4 65535) (stackedLayout 4) 0 0 2 :=
    ⟨hallocated, rfl, Nat.zero_le _⟩
  rw [compactCurrentSegment, wp_bind, wp_checkCurrentSegment,
    and_iff_right ⟨by decide, by decide⟩, wp_bind, wp_get, wp_bind, abandonFreeChunksInSegment]
  refine (Abandoned.wp_abandonFrom hm (by decide) le_rfl).mono ?_
  rintro low u ⟨gone, hu, -⟩
  obtain ⟨rfl, rfl⟩ := gone_stacked (.inr rfl) hu
  rw [if_pos (by decide), wp_bind]
  refine (wp_reverseHeapPointersAbove hm hu rfl (by decide)).mono fun _ v hv => ?_
  have hother : ∀ w ≠ 65513, v.word 0 w = u.word 0 w := fun w hw =>
    hv.kept 0 w (by decide) fun _ p hp _ hwp => by
      obtain rfl := movable_stacked (.inr rfl) hp
      exact hw hwp
  have hkept : ∀ w, w < 65515 → w ≠ 1 → u.word 0 w = (stacked 4 65535).word 0 w :=
    fun w hw hne => hu.kept 0 w (by decide) fun _ => ⟨hw, fun p hp => by
      rw [List.mem_singleton.mp hp]
      exact hne⟩
  obtain ⟨hsize, hreversed⟩ := hv.moved 2 hmoved (by decide)
  have h0 : v.word 0 0 = 65513 := (hother 0 (by decide)).trans (hkept 0 (by decide) (by decide))
  have h1 : v.word 0 1 = nonPointer := (hother 1 (by decide)).trans (hu.marked 4 List.mem_cons_self)
  have hclass : v.word 0 65514 = nonPointer :=
    (hother 65514 (by decide)).trans (hkept 65514 (by decide) (by decide))
  have hhead : v.freeHead = 4 :=
    (hv.table 65534 fun p hp _ => by have := hp.allocated.inUse.1.2.2; omega).trans hu.linked.1
  have hsegment : (stacked 4 65535).currentSegment.toNat = 0 := rfl
  rw [wp_bind, sweepCurrentSegmentFrom, wp_bind, wp_get, hv.currentSegment, hu.currentSegment,
    hsegment]
  -- first the free chunk is skipped, then the object
  refine wp_iterate_of_round ?_
  rw [wp_sweepRound_free (by decide) (by decide) h1, loopPost_inl]
  refine wp_iterate_of_round ?_
  rw [wp_sweepRound_free (by decide) (by rw [h0]; decide) (by rw [h0]; exact hclass), loopPost_inl]
  refine wp_iterate_of_round ?_
  have hreversed' : v.word 0 (0 + 65513) = 2 := hreversed
  rw [h0, hreversed', sweepRound, if_neg (by decide), wp_pure, loopPost_inr, wp_bind, wp_check,
    and_iff_right (by decide), wp_merge ⟨rfl, by decide, by decide⟩ (by decide) (by decide)
      (hv.currentSegment.trans hu.currentSegment) hhead (by decide)]
  have hentry : v.entry 2 = (stacked 4 65535).entry 2 :=
    (hv.entry_eq rfl).trans (hu.entry_eq hm hoop (by decide)).1
  have hempty : v.chunkHead 0 (min (65515 - 0) bigSize) = nonPointer :=
    (hother 65535 (by decide)).trans (hu.emptied 20 (by decide) (by decide))
  have hword : v.word 0 2 = 4 := (hother 2 (by decide)).trans (hkept 2 (by decide) (by decide))
  have hsize' : v.location 2 = 2 := hsize
  have h4 : IsOop 4 := ⟨rfl, by decide, by decide⟩
  have hmerged : (v.merged 4 0 0).chunkWord 2 0 = 4 := by
    rw [chunkWord, entry_merged h4 (by decide) hoop, if_neg (by decide),
      location_merged h4 (by decide) (by decide) hoop, if_neg (by decide), hentry, hsize']
    show (v.merged 4 0 0).word 0 2 = 4
    rw [word_merged h4 (by decide) (by decide) (by decide) hempty, if_neg (by decide),
      if_neg (by decide), if_neg (by decide), hword]
  rw [hmerged]
  decide

theorem wlp_deallocate {z : ObjectMemory} (hs : (z.entry p).segment < 15) :
    Wlp (deallocate p) (fun _ u => ∀ q, u.entry q = z.entry q) z := by
  have hs' : (z.entry p).segment ≠ 15 := by omega
  have hsized : ∀ v, ((z.setChunkWord p 0 v).entry p).segment ≠ 15 := fun v => by
    rwa [entry_setChunkWord hs']
  simp only [deallocate, spaceOccupiedBy, toFreeChunkListAdd, wlp_bind, wlp_sizeBitsOf,
    wlp_pointerBitOf, wlp_ite, wlp_pure, wlp_sizeBitsOfPut, wlp_segmentBitsOf,
    wlp_headOfFreeChunkListInSegment, wlp_classBitsOfPut, wlp_headOfFreeChunkListInSegmentPut,
    entry_setChunkHead hs', entry_setChunkWord (hsized _), entry_setChunkWord hs', implies_true,
    and_self]

/-- Nil stands for no entry, so its own stays free, and the words above the objects are
lost. -/
theorem wlp_compactCurrentSegment_nil : Wlp compactCurrentSegment (fun _ u =>
    (u.entry nilPointer).free = 1) (stacked 2 12) := fun _ u hrun => by
  have hm := heap_stacked (.inl rfl) (c := 12)
  have h : Wp compactCurrentSegment (fun _ z => z = u) (stacked 2 12) := ⟨_, _, hrun, rfl⟩
  rw [compactCurrentSegment, wp_bind, wp_checkCurrentSegment,
    and_iff_right ⟨by decide, by decide⟩, wp_bind, wp_get, wp_bind, abandonFreeChunksInSegment] at h
  obtain ⟨low, v, -, h, gone, hv, -⟩ :=
    h.and_wlp (Abandoned.wp_abandonFrom hm (by decide) le_rfl).toWlp
  obtain ⟨rfl, rfl⟩ := gone_stacked (.inl rfl) hv
  have hclass : ∀ p, Movable (stacked 2 12) (stackedLayout 2) 0 0 p →
      (stacked 2 12).chunkWord p 1 ≠ nonPointer := fun p hp => by
    rw [movable_stacked (.inl rfl) hp]
    decide
  rw [if_pos (by decide), wp_bind] at h
  obtain ⟨-, r, -, h, hr⟩ := h.and_wlp (wp_reverseHeapPointersAbove hm hv rfl (by decide)).toWlp
  rw [wp_bind] at h
  obtain ⟨di, z, -, h, si, hsi, hz⟩ :=
    h.and_wlp (wp_sweepCurrentSegmentFrom hm hv hr (by decide) rfl hclass (by decide)).toWlp
  have hslid := hz.slid hm hv hr hsi (by decide) (by decide)
  have hcurrent : z.currentSegment = 0 := hslid.currentSegment
  have hentry : z.entry nilPointer = { (stacked 2 12).entry 2 with free := 1 } :=
    (congrArg decodeEntry (hz.entryWord hr rfl)).trans (hv.free 2 List.mem_cons_self)
  rw [wp_bind, wp_check, wp_bind,
    wp_obtainPointerLocation_nil (by omega) hslid.linked.1] at h
  obtain ⟨-, z', -, rfl, hkept⟩ := h.2.and_wlp (wlp_deallocate (by
    show (z.entry nilPointer).segment < 15
    rw [hentry]
    decide))
  dsimp only
  rw [hkept nilPointer]
  exact hslid.free nilPointer List.mem_cons_self

/-- With a mark of a free chunk for a class, or with nil for a free chunk, a compaction
does not preserve the objects and the heap. -/
theorem not_compacted_stacked :
    ¬Wp compactCurrentSegment (fun _ u => ∃ L', Compacted (stacked 4 65535) (stackedLayout 4) 0
      L' u) (stacked 4 65535) ∧
    ¬Wp compactCurrentSegment (fun _ u => ∃ L', Compacted (stacked 2 12) (stackedLayout 2) 0
      L' u) (stacked 2 12) := by
  refine ⟨fun h => ?_, fun h => ?_⟩
  · obtain ⟨_, u, -, ⟨L', hu⟩, hne⟩ := h.and_wlp wp_compactCurrentSegment_marked.toWlp
    exact hne (hu.content 2 ((allocated_stacked (.inr rfl)).mpr rfl) 0 (by decide))
  · obtain ⟨_, u, -, ⟨L', hu⟩, hfree⟩ := h.and_wlp wlp_compactCurrentSegment_nil
    obtain ⟨g, ⟨k, hg⟩, hlist, -⟩ := hu.free ⟨20, 2, Layout.mem_big.mpr ⟨⟨by decide, rfl⟩, rfl⟩⟩
    obtain rfl : g = nilPointer := (Layout.mem_big.mp hg).2
    have huse := hu.heap.chunk_inUse ((hlist _ _).mpr ⟨rfl, rfl⟩)
    rw [huse.2] at hfree
    exact absurd hfree (by decide)

/-- The object comes down to the bottom of the segment. -/
theorem compactCurrentSegment_compacted_stacked : ∃ u L',
    compactCurrentSegment (stacked 4 12) = some ((), u) ∧
      Compacted (stacked 4 12) (stackedLayout 4) 0 L' u ∧
      u.location 2 < (stacked 4 12).location 2 := by
  have hm := heap_stacked (.inr rfl) (c := 12)
  have hallocated := (allocated_stacked (.inr rfl) (c := 12)).mpr rfl
  obtain ⟨_, u, hrun, L', hu⟩ := compactCurrentSegment_compacted hm (by decide) rfl (by decide)
    (fun k hk => absurd (Layout.mem_big.mp hk).2 (by decide))
    fun _ _ p _ hp _ _ => by
      rw [(allocated_stacked (.inr rfl)).mp hp]
      decide
  refine ⟨u, L', hrun, hu, ?_⟩
  obtain ⟨g, ⟨k, hg⟩, hlist, htop, hbelow, -⟩ :=
    hu.free ⟨20, 4, Layout.mem_big.mpr ⟨⟨by decide, rfl⟩, rfl⟩⟩
  obtain rfl : g = 4 := (Layout.mem_big.mp hg).2
  have hlocation : (stacked 4 12).location 2 = 65513 := rfl
  have hstop : heapSpaceStop = 65514 := rfl
  have hchunk : 4 ∈ L'.chunks 0 _ := (hlist _ _).mpr ⟨rfl, rfl⟩
  have hin := (hu.allocated 2).mpr hallocated
  have hsegment : (u.entry 2).segment = (u.entry 4).segment := by
    rw [(hu.heap.lists.freeChunk _ _ _ hchunk).segment]
    exact congrArg (fun w => (decodeEntry w).segment) (hu.entry 2 hallocated)
  have hextent := hu.heap.extent_chunk _ _ _ hchunk
  have htwo := hu.heap.tiled.two_le 2 hin.inUse
  have hdown := hu.down 2 hallocated
  have hapart := hu.heap.tiled.apart 2 4 hin.inUse (hu.heap.chunk_inUse hchunk) (by decide) hsegment
  rcases Nat.eq_zero_or_pos (u.location 4) with h0 | hpos
  · omega
  · obtain ⟨p, hp, -, hle, -⟩ := hbelow 0 hpos
    rw [(allocated_stacked (.inr rfl)).mp hp] at hle
    have hle' : u.location 2 ≤ 0 := hle
    omega

end ObjectMemory

end Crosstalk
