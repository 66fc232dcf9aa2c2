import Mathlib.Data.Finset.Card
import Crosstalk.Snapshot.Reload

/-!
# Fidelity of snapshots

What the loader leaves after a save: the objects with all their words, and a
heap that is tiled by them and the free chunks.
-/

namespace Crosstalk

open ObjectMemory

variable {m s₀ s s' : ObjectMemory} {d : Destination} {l : List Nat} {c : Nat → Nat}
  {p q t u w k n i : Nat}

/-! ## Objects next to each other -/

namespace ObjectMemory

/-- Next fit goes on: within a segment, or to a later one. -/
theorem packed_mono (h : i ≤ n) : (m.packed i).bin < (m.packed n).bin ∨
    (m.packed i).bin = (m.packed n).bin ∧ (m.packed i).used ≤ (m.packed n).used := by
  induction n, h using Nat.le_induction with
  | base => exact .inr ⟨rfl, le_rfl⟩
  | succ n _ ih =>
      by_cases hobj : m.holdsObject (2 * (n + 1)) = true
      · rw [packed_succ_of_object hobj, Bin.put]
        split
        · rcases ih with hlt | ⟨heq, hle⟩
          · exact .inl hlt
          · exact .inr ⟨heq, Nat.le_add_right_of_le hle⟩
        · rcases ih with hlt | ⟨heq, -⟩
          · exact .inl (Nat.lt_succ_of_lt hlt)
          · exact .inl (heq ▸ Nat.lt_succ_self _)
      · rwa [packed_succ_of_free hobj]

/-- An object ends before a later one in its segment starts. -/
theorem packed_apart (hq : IsOop q) (hobj : m.holdsObject q = true) (hlt : p / 2 < q / 2)
    (hbin : (m.packed (p / 2)).bin = (m.packed (q / 2)).bin) :
    (m.packed (p / 2)).used + m.space q ≤ (m.packed (q / 2)).used := by
  obtain ⟨heven, htwo, -⟩ := hq
  obtain ⟨n, hn⟩ : ∃ n, q / 2 = n + 1 := ⟨q / 2 - 1, by omega⟩
  have hqn : q = 2 * (n + 1) := by omega
  subst hqn
  rw [hn] at hbin hlt ⊢
  have hmono := packed_mono (m := m) (i := p / 2) (n := n) (by omega)
  rw [packed_succ_of_object hobj] at hbin ⊢
  by_cases hfits : (m.packed n).used + m.space (2 * (n + 1)) ≤ 65515
  · rw [Bin.put_fits hfits] at hbin ⊢
    dsimp only at hbin ⊢
    omega
  · rw [Bin.put_next hfits] at hbin
    dsimp only at hbin
    omega

/-- The segments, among the first `t`, that next fit does not fill: what is left
suffices for a free chunk. -/
def rests (m : ObjectMemory) (t : Nat) : Nat :=
  ((Finset.range t).filter fun u => m.packedWords u 32766 + headerSize ≤ 65515).card

/-- The oops without an object. -/
def spare (m : ObjectMemory) : Nat :=
  ((Finset.range 65534).filter fun p => IsOop p ∧ m.holdsObject p = false).card

/-- Nil is an object, and there is an oop for the rest of each segment. Without rests no
oop is needed. -/
def Suffices (m : ObjectMemory) : Prop :=
  m.rests 15 ≤ m.spare ∧ (m.holdsObject nilPointer = true ∨ m.rests 15 = 0)

theorem rests_succ : m.rests (t + 1) =
    m.rests t + if m.packedWords t 32766 + headerSize ≤ 65515 then 1 else 0 := by
  rw [rests, Finset.range_add_one, Finset.filter_insert]
  split
  · rw [Finset.card_insert_of_notMem fun hmem =>
      Finset.notMem_range_self (Finset.mem_of_mem_filter t hmem)]
    rfl
  · rfl

theorem rests_mono (h : t ≤ u) : m.rests t ≤ m.rests u :=
  Finset.card_le_card (Finset.filter_subset_filter _ (Finset.range_mono h))

theorem length_eq_spare (hnodup : l.Nodup)
    (hmem : ∀ p, p ∈ l ↔ IsOop p ∧ m.holdsObject p = false) : l.length = m.spare := by
  rw [← List.toFinset_card_of_nodup hnodup, spare]
  refine congrArg Finset.card (Finset.ext fun p => ?_)
  rw [List.mem_toFinset, hmem, Finset.mem_filter, Finset.mem_range]
  exact ⟨fun hp => ⟨by have := hp.1.2.2; omega, hp⟩, fun hp => hp.2⟩

end ObjectMemory

/-! ## The memory with the objects -/

/-- The loader has placed the objects, and the list of free entries has all
others. -/
structure Placed (m : ObjectMemory) (d : Destination) (s₀ : ObjectMemory) : Prop where
  tracks : Tracks d (m.packed 32766)
  filled : Filled m 32766 d s₀
  sized : m.Sized
  linked : ∃ l, Linked s₀.location nonPointer s₀.freeHead l ∧
    ∀ p, p ∈ l ↔ IsOop p ∧ m.holdsObject p = false
  free : ∀ p, IsOop p → ((s₀.entry p).free = 1 ↔ m.holdsObject p = false)

namespace Placed

variable (h : Placed m d s₀)

include h

theorem entry (hp : IsOop p) (hobj : m.holdsObject p = true) :
    s₀.entry p = { m.entry p with segment := (m.packed (p / 2)).bin } :=
  h.filled.entry p hp (by have := hp.2.2; omega) hobj

theorem location (hp : IsOop p) (hobj : m.holdsObject p = true) :
    s₀.location p + m.space p = (m.packed (p / 2)).used :=
  h.filled.location p hp (by have := hp.2.2; omega) hobj

theorem below (hp : IsOop p) (hobj : m.holdsObject p = true) :
    ((m.packed (p / 2)).used : Int) ≤ 65515 - d.heapSpaceRemaining (m.packed (p / 2)).bin :=
  h.filled.below p hp (by have := hp.2.2; omega) hobj

theorem bin_lt (hp : IsOop p) : (m.packed (p / 2)).bin < 15 := by
  have hle : (m.packed (p / 2)).bin ≤ (m.packed 32766).bin :=
    bin_packed_le (by have := hp.2.2; omega)
  have hlt := h.tracks.segment_lt
  rw [h.tracks.segment] at hlt
  omega

theorem two_le_space (hp : IsOop p) (hobj : m.holdsObject p = true) : 2 ≤ m.space p :=
  (h.sized p hp hobj).trans ObjectMemory.size_le_space

theorem rest_iff : 2 ≤ d.heapSpaceRemaining t ↔
    m.packedWords t 32766 + headerSize ≤ 65515 := by
  have hremaining := h.filled.remaining t
  simp only [headerSize]
  omega

theorem rests_of_rest (h2 : 2 ≤ d.heapSpaceRemaining t) : m.rests (t + 1) = m.rests t + 1 := by
  rw [rests_succ, if_pos (h.rest_iff.mp h2)]

/-- The words of an object lie below the rest of its segment. -/
theorem word_below (hp : IsOop p) (hobj : m.holdsObject p = true) (hk : k < m.space p) :
    ((s₀.location p + k : Nat) : Int) <
      65515 - d.heapSpaceRemaining (m.packed (p / 2)).bin := by
  have hlocation := h.location hp hobj
  have hbelow := h.below hp hobj
  omega

end Placed

/-! ## Free chunks -/

/-- The memory with a free chunk `p` of `size` words at word `i` of segment `t`. -/
def withChunk (s : ObjectMemory) (p t i size : Nat) : ObjectMemory :=
  (((taken s p t i).setWord t (i + 0) size).setWord t (i + 1) nonPointer).setChunkHead t
    (min size bigSize) p

section WithChunk

variable {size : Nat} (hp : IsOop p) (ht : t < 15)

include hp ht

theorem entry_withChunk (hq : IsOop q) :
    (withChunk s p t i size).entry q = if q = p then ⟨0, 0, 0, 0, t⟩ else s.entry q := by
  have h15 : t ≠ 15 := Nat.ne_of_lt ht
  rw [withChunk, entry_setChunkHead h15, entry_setWord h15, entry_setWord h15,
    entry_taken hp ht hq]

theorem location_withChunk (hi : i < 65536) (hq : IsOop q) :
    (withChunk s p t i size).location q = if q = p then i else s.location q := by
  have h15 : t ≠ 15 := Nat.ne_of_lt ht
  rw [withChunk, location_setChunkHead h15, location_setWord h15, location_setWord h15,
    location_taken hp hi hq]

theorem freeHead_withChunk : (withChunk s p t i size).freeHead = s.location p := by
  have h15 : t ≠ 15 := Nat.ne_of_lt ht
  rw [withChunk, freeHead_setChunkHead h15, freeHead_setWord h15, freeHead_setWord h15,
    freeHead_taken hp]

omit ht in
theorem word_withChunk (hsize : size < 65536) (hu : u ≠ 15) :
    (withChunk s p t i size).word u w =
      if u = t ∧ w = firstFreeChunkList + min size bigSize then p
      else if u = t ∧ w = i + 1 then nonPointer
      else if u = t ∧ w = i + 0 then size
      else s.word u w := by
  have hp' := hp.isEntry.2
  rw [withChunk, setChunkHead, word_setWord, word_setWord, word_setWord, word_taken hu,
    Nat.mod_eq_of_lt hp', Nat.mod_eq_of_lt hsize,
    Nat.mod_eq_of_lt (show nonPointer < 65536 by decide)]

end WithChunk

theorem wp_freeRestOfSegment_eq {r : Nat → Int} {Q : Unit → ObjectMemory → Prop} (ht : t < 15)
    (hr : 2 ≤ r t ∧ r t ≤ 65515) (hp : IsOop p) (hhead : s.freeHead = p) (hnil : p ≠ nilPointer)
    (hchunks : s.chunkHead t (min (r t).toNat bigSize) = nonPointer)
    (hQ : ∀ s', (∀ u w, s'.word u w = (withChunk s p t (65515 - r t).toNat (r t).toNat).word u w) →
      Q () s') : Wp (freeRestOfSegment r t) Q s := by
  obtain ⟨h0, h1⟩ := hr
  have hheader : (headerSize : Int) = 2 := rfl
  have hspace : segmentHeapSpaceSize = 65515 := by decide
  have hbig : bigSize = 20 := rfl
  have hsize : (r t).toNat < 65536 := by omega
  have hi : (65515 - r t).toNat < 65536 := by omega
  have hfirst : firstFreeChunkList = 65515 := rfl
  generalize hk : min (r t).toNat bigSize = k at *
  let s₁ : ObjectMemory := { s with freeWords := s.freeWords + r t, currentSegment := t }
  let s₂ := (taken s₁ p t (65515 - r t).toNat).setChunkWord p 0 (r t).toNat
  have hseg : ((taken s₁ p t (65515 - r t).toNat).entry p).segment = t := by
    rw [entry_taken hp ht hp, if_pos rfl]
  have hloc : (taken s₁ p t (65515 - r t).toNat).location p = (65515 - r t).toNat := by
    rw [location_taken hp hi hp, if_pos rfl]
  have h15 : ((taken s₁ p t (65515 - r t).toNat).entry p).segment ≠ 15 := by omega
  have hseg₂ : (s₂.entry p).segment = t := by
    rw [entry_setChunkWord h15, hseg]
  have hloc₂ : s₂.location p = (65515 - r t).toNat := by
    rw [location_setChunkWord h15, hloc]
  have hhead₂ : s₂.chunkHead t k = nonPointer := by
    rw [chunkHead_setChunkWord hsize (by rw [hloc]; omega), chunkHead, word_taken (by omega)]
    exact hchunks
  rw [freeRestOfSegment, wp_bind, wp_modify, if_pos (by omega), wp_bind, wp_check,
    and_iff_right (by omega), wp_bind, wp_modify, wp_bind, hspace,
    wp_obtainPointerLocation_taken (s := s₁) hp ht rfl hsize hi hhead hnil, hk,
    wp_toFreeChunkListAdd_eq (s := s₂) hp (by omega) (by omega) (by omega) (by omega)]
  refine hQ _ fun u w => ?_
  rw [hseg₂, hhead₂, ObjectMemory.setChunkWord, hseg₂, hloc₂, withChunk, hk]
  have hstore : s₂ = (taken s₁ p t (65515 - r t).toNat).setWord t ((65515 - r t).toNat + 0)
      (r t).toNat := by
    show (taken s₁ p t (65515 - r t).toNat).setWord _ _ _ = _
    rw [hseg, hloc]
  rw [hstore]
  rfl

/-- After the first `t` segments: the rest of each is a free chunk `c u`, and all
else is as it was. -/
structure Chunked (m : ObjectMemory) (d : Destination) (s₀ : ObjectMemory) (t : Nat)
    (l : List Nat) (c : Nat → Nat) (s : ObjectMemory) : Prop where
  linked : Linked s.location nonPointer s.freeHead l
  mem : ∀ p, p ∈ l ↔ IsOop p ∧ (s.entry p).free = 1
  object : ∀ p, IsOop p → m.holdsObject p = true →
    s.entry p = s₀.entry p ∧ s.location p = s₀.location p
  words : ∀ u w : Nat, u < 15 → (w : Int) < 65515 - d.heapSpaceRemaining u →
    s.word u w = s₀.word u w
  chunk : ∀ u < t, 2 ≤ d.heapSpaceRemaining u → IsOop (c u) ∧ m.holdsObject (c u) = false ∧
    s.entry (c u) = ⟨0, 0, 0, 0, u⟩ ∧
    (s.location (c u) : Int) = 65515 - d.heapSpaceRemaining u ∧
    (s.chunkWord (c u) 0 : Int) = d.heapSpaceRemaining u ∧ s.chunkWord (c u) 1 = nonPointer
  inUse : ∀ p, IsOop p → (s.entry p).free = 0 → m.holdsObject p = true ∨
    ∃ u < t, 2 ≤ d.heapSpaceRemaining u ∧ p = c u
  heads : ∀ u k, u < 15 → 2 ≤ k → k ≤ 20 → s.chunkHead u k =
    if u < t ∧ 2 ≤ d.heapSpaceRemaining u ∧ k = min (d.heapSpaceRemaining u).toNat 20 then c u
    else nonPointer
  count : l.length + m.rests t = m.spare

/-- Only the words of the memory matter. -/
theorem Chunked.congr (h : Chunked m d s₀ t l c s) (hw : ∀ u w, s'.word u w = s.word u w) :
    Chunked m d s₀ t l c s' := by
  have hentry : ∀ p, s'.entry p = s.entry p := fun p => congrArg decodeEntry (hw _ _)
  have hlocation : s'.location = s.location := funext fun p => hw _ _
  have hchunk : ∀ p i, s'.chunkWord p i = s.chunkWord p i := fun p i => by
    rw [ObjectMemory.chunkWord, hw, hentry, hlocation]
    rfl
  refine ⟨?_, fun p => by rw [hentry]; exact h.mem p, fun p hp ho => ?_, fun u w hu hlt => ?_,
    fun u hu hr => ?_, fun p hp h0 => h.inUse p hp (by rwa [hentry] at h0), fun u k hu h2 h20 => ?_,
    h.count⟩
  · rw [hlocation, show s'.freeHead = s.freeHead from hw _ _]
    exact h.linked
  · rw [hentry, hlocation]
    exact h.object p hp ho
  · rw [hw]
    exact h.words u w hu hlt
  · rw [hentry, hlocation, hchunk, hchunk]
    exact h.chunk u hu hr
  · rw [show s'.chunkHead u k = s.chunkHead u k from hw _ _]
    exact h.heads u k hu h2 h20

/-- The next segment has no rest that can be used. -/
theorem Chunked.skip (h : Chunked m d s₀ t l c s) (hplaced : Placed m d s₀)
    (hr : ¬2 ≤ d.heapSpaceRemaining t) : Chunked m d s₀ (t + 1) l c s := by
  have hlt : ∀ u, u < t + 1 → 2 ≤ d.heapSpaceRemaining u → u < t := by
    intro u hu h2
    by_contra hge
    obtain rfl : u = t := by omega
    exact hr h2
  refine ⟨h.linked, h.mem, h.object, h.words, fun u hu h2 => h.chunk u (hlt u hu h2) h2,
    fun p hp h0 => (h.inUse p hp h0).imp_right fun ⟨u, hu, hrest⟩ => ⟨u, by omega, hrest⟩,
    fun u k hu h2 h20 => ?_, ?_⟩
  · rw [h.heads u k hu h2 h20]
    exact if_congr ⟨fun ⟨h1, h2⟩ => ⟨by omega, h2⟩, fun ⟨h1, h2⟩ => ⟨hlt u h1 h2.1, h2⟩⟩ rfl rfl
  · rw [rests_succ, if_neg fun hrest => hr (hplaced.rest_iff.mpr hrest)]
    exact h.count

/-- The rest of the next segment becomes a free chunk. -/
theorem Chunked.next (h : Chunked m d s₀ t (p :: l) c s) (hplaced : Placed m d s₀) (ht : t < 15)
    (h2 : 2 ≤ d.heapSpaceRemaining t) :
    Chunked m d s₀ (t + 1) l (fun u => if u = t then p else c u)
      (withChunk s p t (65515 - d.heapSpaceRemaining t).toNat (d.heapSpaceRemaining t).toNat) := by
  have hbounds := hplaced.tracks.bounds
  obtain ⟨hr0, hr1⟩ := hbounds t
  obtain ⟨hp, hfree⟩ := (h.mem p).mp List.mem_cons_self
  obtain ⟨hhead, hne, hlinked⟩ := h.linked
  have hnodup := h.linked.nodup
  have hpl : p ∉ l := (List.nodup_cons.mp hnodup).1
  have hsize : (d.heapSpaceRemaining t).toNat < 65536 := by omega
  have hi : (65515 - d.heapSpaceRemaining t).toNat < 65536 := by omega
  have hfirst : firstFreeChunkList = 65515 := rfl
  have hbig : bigSize = 20 := rfl
  have hoops : ∀ q ∈ l, IsOop q := fun q hq => ((h.mem q).mp (List.mem_cons_of_mem _ hq)).1
  have hobj : m.holdsObject p = false := by
    by_contra hobj
    have hobj : m.holdsObject p = true := by simpa using hobj
    rw [(h.object p hp hobj).1, hplaced.entry hp hobj] at hfree
    have h0 := (of_decide_eq_true hobj).1
    dsimp only at hfree
    omega
  have hentry : ∀ q, IsOop q → (withChunk s p t (65515 - d.heapSpaceRemaining t).toNat
      (d.heapSpaceRemaining t).toNat).entry q = if q = p then ⟨0, 0, 0, 0, t⟩ else s.entry q :=
    fun q hq => entry_withChunk hp ht hq
  have hlocation : ∀ q, IsOop q → (withChunk s p t (65515 - d.heapSpaceRemaining t).toNat
      (d.heapSpaceRemaining t).toNat).location q =
        if q = p then (65515 - d.heapSpaceRemaining t).toNat else s.location q :=
    fun q hq => location_withChunk hp ht hi hq
  have hword : ∀ u w, u ≠ 15 → (withChunk s p t (65515 - d.heapSpaceRemaining t).toNat
      (d.heapSpaceRemaining t).toNat).word u w = _ := fun u w hu =>
    word_withChunk (u := u) (w := w) hp hsize hu
  have hfreeHead : (withChunk s p t (65515 - d.heapSpaceRemaining t).toNat
      (d.heapSpaceRemaining t).toNat).freeHead = s.location p := freeHead_withChunk hp ht
  generalize withChunk s p t (65515 - d.heapSpaceRemaining t).toNat
    (d.heapSpaceRemaining t).toNat = s' at *
  have hneq : ∀ q ∈ l, q ≠ p := by
    rintro q hq rfl
    exact hpl hq
  have hchunk : ∀ u j, u < t → 2 ≤ d.heapSpaceRemaining u →
      s'.chunkWord (c u) j = s.chunkWord (c u) j ∧ s'.entry (c u) = s.entry (c u) ∧
        s'.location (c u) = s.location (c u) := by
    intro u j hu hru
    obtain ⟨hoop, -, hcu, -⟩ := h.chunk u hu hru
    have hne : c u ≠ p := by
      rintro rfl
      rw [hcu] at hfree
      cases hfree
    have he := hentry (c u) hoop
    have hl := hlocation (c u) hoop
    rw [if_neg hne] at he hl
    refine ⟨?_, he, hl⟩
    rw [ObjectMemory.chunkWord, he, hl, ObjectMemory.chunkWord, hcu]
    dsimp only
    rw [hword u _ (by omega), if_neg (by omega), if_neg (by omega), if_neg (by omega)]
  refine ⟨?_, fun q => ⟨fun hq => ?_, ?_⟩, fun q hq ho => ?_,
    fun u w hu hw => ?_, fun u hu hru => ?_, fun q hq h0 => ?_, fun u k hu hk hk' => ?_, ?_⟩
  · rw [hfreeHead]
    refine hlinked.congr fun q hq => ?_
    rw [hlocation q (hoops q hq), if_neg (hneq q hq)]
  · rw [hentry q (hoops q hq), if_neg (hneq q hq)]
    exact (h.mem q).mp (List.mem_cons_of_mem _ hq)
  · rintro ⟨hq, h1⟩
    rw [hentry q hq] at h1
    by_cases hqp : q = p
    · rw [if_pos hqp] at h1
      cases h1
    · rw [if_neg hqp] at h1
      exact (List.mem_cons.mp ((h.mem q).mpr ⟨hq, h1⟩)).resolve_left hqp
  · have hqp : q ≠ p := by
      rintro rfl
      rw [hobj] at ho
      cases ho
    rw [hentry q hq, hlocation q hq, if_neg hqp, if_neg hqp]
    exact h.object q hq ho
  · have hru := (hbounds u).1
    have hnot : ¬(u = t ∧ (w = (65515 - d.heapSpaceRemaining t).toNat + 1 ∨
        w = (65515 - d.heapSpaceRemaining t).toNat + 0)) := by
      rintro ⟨rfl, hw'⟩
      omega
    rw [hword u w (by omega), if_neg (by omega), if_neg (by omega), if_neg (by omega)]
    exact h.words u w hu hw
  · by_cases hut : u = t
    · subst hut
      have he := hentry p hp
      have hl := hlocation p hp
      rw [if_pos rfl] at he hl
      rw [if_pos rfl, ObjectMemory.chunkWord, ObjectMemory.chunkWord, he, hl]
      dsimp only
      rw [hword u _ (by omega), hword u _ (by omega), if_neg (by omega), if_neg (by omega),
        if_pos ⟨rfl, rfl⟩, if_neg (by omega), if_pos ⟨rfl, rfl⟩]
      exact ⟨hp, hobj, rfl, by omega, by omega, rfl⟩
    · obtain ⟨hw0, he, hl⟩ := hchunk u 0 (by omega) hru
      rw [if_neg hut, hw0, (hchunk u 1 (by omega) hru).1, he, hl]
      exact h.chunk u (by omega) hru
  · rw [hentry q hq] at h0
    by_cases hqp : q = p
    · exact .inr ⟨t, Nat.lt_succ_self t, h2, by rw [if_pos rfl, hqp]⟩
    · rw [if_neg hqp] at h0
      refine (h.inUse q hq h0).imp_right ?_
      rintro ⟨u, hu, hru, hqu⟩
      exact ⟨u, by omega, hru, by rw [if_neg (by omega), hqu]⟩
  · have hheads := h.heads u k hu hk hk'
    rw [ObjectMemory.chunkHead] at hheads ⊢
    rw [hword u _ (by omega)]
    by_cases hut : u = t
    · subst hut
      rw [if_neg fun hlt => Nat.lt_irrefl u hlt.1] at hheads
      by_cases hkm : k = min (d.heapSpaceRemaining u).toNat 20
      · rw [if_pos ⟨rfl, by omega⟩, if_pos ⟨Nat.lt_succ_self u, h2, hkm⟩, if_pos rfl]
      · rw [if_neg (by omega), if_neg (by omega), if_neg (by omega), hheads,
          if_neg fun hall => hkm hall.2.2]
    · rw [if_neg fun hall => hut hall.1, if_neg fun hall => hut hall.1,
        if_neg fun hall => hut hall.1, hheads, if_neg hut]
      exact if_congr (by omega) rfl rfl
  · have hcount := h.count
    rw [List.length_cons] at hcount
    rw [hplaced.rests_of_rest h2]
    omega

/-! ## Building the free chunks -/

/-- Nothing has changed but heads of the lists of free chunks. -/
structure HeadsOnly (s₀ s : ObjectMemory) : Prop where
  entry : ∀ q, s.entry q = s₀.entry q
  location : ∀ q, s.location q = s₀.location q
  freeHead : s.freeHead = s₀.freeHead
  words : ∀ u w, w < 65515 → s.word u w = s₀.word u w

theorem HeadsOnly.setChunkHead {v : Nat} (h : HeadsOnly s₀ s) (hu : u < 15) :
    HeadsOnly s₀ (s.setChunkHead u k v) := by
  have hu : u ≠ 15 := Nat.ne_of_lt hu
  refine ⟨fun q => by rw [entry_setChunkHead hu, h.entry],
    fun q => by rw [location_setChunkHead hu, h.location],
    by rw [freeHead_setChunkHead hu, h.freeHead], fun t w hw => ?_⟩
  have hfirst : firstFreeChunkList = 65515 := rfl
  rw [ObjectMemory.setChunkHead, word_setWord, if_neg (by omega)]
  exact h.words t w hw

/-- All lists of free chunks are empty. -/
theorem wp_resetFreeChunkLists_heads : Wp resetFreeChunkLists (fun _ s => HeadsOnly s₀ s ∧
    ∀ u k, u < 15 → 2 ≤ k → k ≤ 20 → s.chunkHead u k = nonPointer) s₀ := by
  have hheader : headerSize = 2 := rfl
  have hnon : nonPointer < 65536 := by decide
  let Inv : Nat → Nat → ObjectMemory → Prop := fun n i s => HeadsOnly s₀ s ∧
    ∀ u k, 2 ≤ k → k ≤ 20 → u < n ∨ (u = n ∧ k < 2 + i) → s.chunkHead u k = nonPointer
  rw [resetFreeChunkLists]
  refine (wp_forN (fun n => Inv n 0) (fun n s hn hs => ?_) ?_).mono fun _ s h => ⟨h.1, ?_⟩
  · refine (wp_forN (fun i => Inv n i) (fun i s' hi hs' => ?_) hs).mono fun _ s' h => ⟨h.1, ?_⟩
    · simp only [heapSegmentCount, segmentCount, bigSize] at hn hi
      rw [wp_resetFreeChunkListInSegment, and_iff_right ⟨by omega, by omega, by omega⟩]
      refine ⟨hs'.1.setChunkHead (by omega), fun u k h2 h20 hcase => ?_⟩
      rw [chunkHead_setChunkHead hnon]
      split
      · rfl
      · exact hs'.2 u k h2 h20 (by omega)
    · simp only [bigSize] at h
      exact fun u k h2 h20 hcase => h.2 u k h2 h20 (by omega)
  · exact ⟨⟨fun _ => rfl, fun _ => rfl, rfl, fun _ _ _ => rfl⟩, fun u k h2 h20 hcase => by omega⟩
  · simp only [heapSegmentCount, segmentCount] at h
    exact fun u k hu h2 h20 => h.2 u k h2 h20 (.inl hu)

theorem Chunked.start (h : Placed m d s₀) (hs : HeadsOnly s₀ s)
    (hheads : ∀ u k, u < 15 → 2 ≤ k → k ≤ 20 → s.chunkHead u k = nonPointer) :
    ∃ l c, Chunked m d s₀ 0 l c s := by
  obtain ⟨l, hlinked, hmem⟩ := h.linked
  refine ⟨l, fun _ => 0, ?_, fun p => ?_, fun p _ _ => ⟨hs.entry p, hs.location p⟩,
    fun u w hu hw => hs.words u w ?_, fun u hu => absurd hu (Nat.not_lt_zero u), fun p hp h0 => ?_,
    fun u k hu h2 h20 => ?_, length_eq_spare hlinked.nodup hmem⟩
  · rw [hs.freeHead]
    exact hlinked.congr fun q _ => hs.location q
  · rw [hmem, hs.entry]
    exact and_congr_right fun hp => (h.free p hp).symm
  · have := (h.tracks.bounds u).1
    omega
  · rw [hs.entry] at h0
    refine .inl ?_
    by_contra hobj
    have h1 := (h.free p hp).mpr (by simpa using hobj)
    omega
  · rw [if_neg fun hlt => Nat.not_lt_zero u hlt.1]
    exact hheads u k hu h2 h20

/-- There is no entry left, and nil has been put on a list of free chunks. -/
structure Lost (s : ObjectMemory) : Prop where
  freeHead : s.freeHead = nonPointer
  segment_lt : (s.entry nilPointer).segment < 15
  location_lt : s.location nilPointer + 1 < 65515
  head : ∃ k, 2 ≤ k ∧ k ≤ 20 ∧ s.chunkHead (s.entry nilPointer).segment k = nilPointer

/-- The loader takes the nil that stands for no entry for the entry of the chunk. -/
theorem wp_freeRestOfSegment_lost {r : Nat → Int} (ht : t < 15) (hr : 2 ≤ r t ∧ r t ≤ 65515)
    (hhead : s.freeHead = nonPointer) (hseg : (s.entry nilPointer).segment < 15)
    (hlocation : s.location nilPointer + 1 < 65515) :
    Wp (freeRestOfSegment r t) (fun _ s' => Lost s') s := by
  obtain ⟨h0, h1⟩ := hr
  have hheader : (headerSize : Int) = 2 := rfl
  have hspace : segmentHeapSpaceSize = 65515 := by decide
  have hbig : bigSize = 20 := rfl
  have hoop : IsOop nilPointer := ⟨rfl, le_rfl, by decide⟩
  let s₁ : ObjectMemory := { s with freeWords := s.freeWords + r t, currentSegment := t }
  have hcurrent : 0 ≤ s₁.currentSegment ∧ s₁.currentSegment ≤ 14 := by
    show 0 ≤ (t : Int) ∧ (t : Int) ≤ 14
    omega
  have h15 : (s₁.entry nilPointer).segment ≠ 15 := Nat.ne_of_lt hseg
  rw [freeRestOfSegment, wp_bind, wp_modify, if_pos (by omega), wp_bind, wp_check,
    and_iff_right (by omega), wp_bind, wp_modify, wp_bind,
    wp_obtainPointerLocation_none (s := s₁) hcurrent hhead,
    wp_toFreeChunkListAdd_eq (s := s₁) hoop hseg (Nat.lt_trans hlocation (by decide)) (by omega)
      (by omega)]
  have hentry : ∀ v k, ((s₁.setChunkWord nilPointer 1 v).setChunkHead
      (s₁.entry nilPointer).segment k nilPointer).entry nilPointer = s.entry nilPointer :=
    fun v k => (entry_setChunkHead h15).trans (entry_setChunkWord h15)
  refine ⟨?_, by rw [hentry]; exact hseg, ?_, min (r t).toNat bigSize, by omega, by omega, ?_⟩
  · rw [freeHead_setChunkHead h15, freeHead_setChunkWord h15]
    exact hhead
  · rw [location_setChunkHead h15, location_setChunkWord h15]
    exact hlocation
  · rw [hentry, chunkHead_setChunkHead (by decide), if_pos ⟨rfl, rfl⟩]

theorem Lost.congr (h : Lost s) (hw : ∀ u w, s'.word u w = s.word u w) : Lost s' := by
  have hentry : s'.entry nilPointer = s.entry nilPointer := congrArg decodeEntry (hw _ _)
  obtain ⟨k, h2, h20, hhead⟩ := h.head
  have hlocation : s'.location nilPointer = s.location nilPointer := hw _ _
  exact ⟨(hw _ _).trans h.freeHead, hentry ▸ h.segment_lt, hlocation ▸ h.location_lt, k, h2, h20,
    (hw _ _).trans (hentry ▸ hhead)⟩

/-- The rests have become free chunks, or there was no entry for one of them. -/
def Built (m : ObjectMemory) (d : Destination) (s₀ : ObjectMemory) (t : Nat) (s : ObjectMemory) :
    Prop :=
  (∃ l c, Chunked m d s₀ t l c s) ∨ m.spare < m.rests t ∧ Lost s

theorem wp_freeRestOfSegment_built (h : Built m d s₀ t s) (hplaced : Placed m d s₀)
    (hnil : m.holdsObject nilPointer = true ∨ m.rests 15 = 0) (ht : t < 15) :
    Wp (freeRestOfSegment d.heapSpaceRemaining t) (fun _ => Built m d s₀ (t + 1)) s := by
  have hoop : IsOop nilPointer := ⟨rfl, le_rfl, by decide⟩
  have hbounds := hplaced.tracks.bounds t
  by_cases h2 : 2 ≤ d.heapSpaceRemaining t
  · have hrests := hplaced.rests_of_rest h2
    have hmono := rests_mono (m := m) (t := t + 1) (u := 15) (by omega)
    have hobj := hnil.resolve_right (by omega)
    rcases h with ⟨l, c, h⟩ | ⟨hlt, h⟩
    · cases l with
      | nil =>
          have hcount := h.count
          rw [List.length_nil] at hcount
          have hentry := h.object nilPointer hoop hobj
          have hlocation := hplaced.location hoop hobj
          have hused := hplaced.below hoop hobj
          have hremaining := (hplaced.tracks.bounds (m.packed (nilPointer / 2)).bin).1
          have hspace := hplaced.two_le_space hoop hobj
          refine (wp_freeRestOfSegment_lost ht ⟨h2, hbounds.2⟩ h.linked ?_ ?_).mono
            fun _ _ hlost => .inr ⟨by omega, hlost⟩
          · rw [hentry.1, hplaced.entry hoop hobj]
            exact hplaced.bin_lt hoop
          · rw [hentry.2]
            omega
      | cons p l =>
          obtain ⟨hp, hfree⟩ := (h.mem p).mp List.mem_cons_self
          have hne : p ≠ nilPointer := by
            rintro rfl
            rw [(h.object nilPointer hp hobj).1] at hfree
            have := (hplaced.free nilPointer hp).mp hfree
            rw [hobj] at this
            cases this
          have hbig : bigSize = 20 := rfl
          have hchunks := h.heads t (min (d.heapSpaceRemaining t).toNat bigSize) ht (by omega)
            (by omega)
          rw [if_neg fun hlt => Nat.lt_irrefl t hlt.1] at hchunks
          refine wp_freeRestOfSegment_eq ht ⟨h2, hbounds.2⟩ hp h.linked.1 hne hchunks fun s' hw => ?_
          exact .inl ⟨l, _, (h.next hplaced ht h2).congr hw⟩
    · exact (wp_freeRestOfSegment_lost ht ⟨h2, hbounds.2⟩ h.freeHead h.segment_lt
        h.location_lt).mono fun _ _ hlost => .inr ⟨by omega, hlost⟩
  · have hheader : (headerSize : Int) = 2 := rfl
    rw [freeRestOfSegment, wp_bind, wp_modify, if_neg (by omega), wp_pure]
    rcases h with ⟨l, c, h⟩ | ⟨hlt, h⟩
    · exact .inl ⟨l, c, (h.skip hplaced h2).congr fun _ _ => rfl⟩
    · exact .inr ⟨hlt.trans_le (rests_mono (Nat.le_succ t)), h.congr fun _ _ => rfl⟩

theorem wp_buildFreeChunks_built (hplaced : Placed m d s₀)
    (hnil : m.holdsObject nilPointer = true ∨ m.rests 15 = 0) :
    Wp (buildFreeChunks d.heapSpaceRemaining) (fun _ => Built m d s₀ 15) s₀ := by
  rw [buildFreeChunks, wp_bind]
  refine wp_resetFreeChunkLists_heads.mono ?_
  rintro _ s₁ ⟨hs, hheads⟩
  obtain ⟨l, c, hstart⟩ := Chunked.start hplaced hs hheads
  have hready : Built m d s₀ 0 { s₁ with freeWords := 0 } :=
    .inl ⟨l, c, hstart.congr fun _ _ => rfl⟩
  rw [wp_bind, wp_modify, wp_bind]
  refine Wp.mono (wp_forN (Built m d s₀) (fun t s ht hs => ?_) hready) fun _ s hs => ?_
  · simp only [heapSegmentCount, segmentCount] at ht
    exact wp_freeRestOfSegment_built hs hplaced hnil (by omega)
  · rw [wp_modify]
    rcases hs with ⟨l, c, hs⟩ | ⟨hlt, hs⟩
    · exact .inl ⟨l, c, hs.congr fun _ _ => rfl⟩
    · exact .inr ⟨hlt, hs.congr fun _ _ => rfl⟩

/-- With nil for the only free entry, the loader halts. -/
theorem wlp_buildFreeChunks_nil {r : Nat → Int} (hhead : s.freeHead = nilPointer)
    (hlocation : s.location nilPointer = nonPointer) (hr : ∃ u < 15, 2 ≤ r u) :
    Wlp (buildFreeChunks r) (fun _ _ => False) s := by
  let Inv : Nat → ObjectMemory → Prop := fun t s' => (s'.freeHead = nilPointer ∧
    s'.location nilPointer = nonPointer) ∧ ∀ u < t, ¬2 ≤ r u
  rw [buildFreeChunks, wlp_bind]
  refine wp_resetFreeChunkLists_heads.toWlp.mono ?_
  rintro _ s₁ ⟨hs, -⟩
  have hready : Inv 0 { s₁ with freeWords := 0 } :=
    ⟨⟨hs.freeHead.trans hhead, (hs.location _).trans hlocation⟩,
      fun u hu => absurd hu (Nat.not_lt_zero u)⟩
  rw [wlp_bind, wlp_modify, wlp_bind]
  refine (wlp_forN Inv (fun t s' ht hs' => ?_) hready).mono fun _ _ h => ?_
  · obtain ⟨⟨hhead', hlocation'⟩, hrests⟩ := hs'
    simp only [heapSegmentCount, segmentCount] at ht
    have hheader : (headerSize : Int) = 2 := rfl
    rw [freeRestOfSegment, wlp_bind, wlp_modify, wlp_ite]
    refine ⟨fun hge => ?_, fun hlt => ?_⟩
    · rw [wlp_bind, wlp_check]
      intro _
      rw [wlp_bind, wlp_modify, wlp_bind]
      let s₂ : ObjectMemory := { s' with freeWords := s'.freeWords + r t, currentSegment := t }
      have hcurrent : 0 ≤ s₂.currentSegment ∧ s₂.currentSegment ≤ 14 := by
        show 0 ≤ (t : Int) ∧ (t : Int) ≤ 14
        omega
      refine ((wp_obtainPointerLocation_nil (s := s₂) (Q := fun p z => p = nilPointer ∧
        z.location nilPointer = nonPointer) hcurrent hhead').mpr ⟨rfl, ?_⟩).toWlp.mono ?_
      · exact (location_setFreeHead (by decide)).trans hlocation'
      · rintro _ z ⟨rfl, hz⟩
        rw [toFreeChunkListAdd, wlp_bind, wlp_segmentBitsOf]
        intro _
        rw [wlp_bind, wlp_headOfFreeChunkListInSegment]
        intro _ _
        rw [wlp_bind, wlp_classBitsOfPut]
        intro _ hin
        rw [hz] at hin
        exact absurd hin (by decide)
    · rw [wlp_pure]
      refine ⟨⟨hhead', hlocation'⟩, fun u hu => ?_⟩
      rcases Nat.lt_succ_iff_lt_or_eq.mp hu with hut | rfl
      · exact hrests u hut
      · omega
  · obtain ⟨u, hu, h2⟩ := hr
    exact absurd h2 (h.2 u hu)

/-! ## The loaded heap -/

/-- The memory has the objects of `m`, with all their data, and every other oop
is on the list of free entries or on one of free chunks. -/
structure Restored (m s : ObjectMemory) : Prop where
  hasObject : ∀ p, IsOop p → s.holdsObject p = m.holdsObject p
  count : ∀ p, IsOop p → m.holdsObject p = true → (s.entry p).count = (m.entry p).count
  odd : ∀ p, IsOop p → m.holdsObject p = true → (s.entry p).odd = (m.entry p).odd
  pointer : ∀ p, IsOop p → m.holdsObject p = true → (s.entry p).pointer = (m.entry p).pointer
  /-- The size, the class and the fields. -/
  words : ∀ p, IsOop p → m.holdsObject p = true → ∀ i < m.chunkWord p 0,
    s.chunkWord p i = m.chunkWord p i
  heap : ∃ L, Heap s L ∧ ∀ p, IsOop p → m.holdsObject p = false →
    p ∈ L.freePointers ∨ ∃ u k, p ∈ L.chunks u k

namespace Chunked

section Loaded

variable (h : Chunked m d s₀ 15 l c s) (hplaced : Placed m d s₀)

include h hplaced

theorem entry_object (hp : IsOop p) (hobj : m.holdsObject p = true) :
    s.entry p = { m.entry p with segment := (m.packed (p / 2)).bin } :=
  (h.object p hp hobj).1.trans (hplaced.entry hp hobj)

theorem chunkWord_object (hp : IsOop p) (hobj : m.holdsObject p = true)
    (hi : i < m.chunkWord p 0) : s.chunkWord p i = m.chunkWord p i := by
  have hspace := ObjectMemory.size_le_space (m := m) (p := p)
  rw [ObjectMemory.chunkWord, h.entry_object hplaced hp hobj, (h.object p hp hobj).2]
  dsimp only
  rw [h.words _ _ (hplaced.bin_lt hp) (hplaced.word_below hp hobj (by omega))]
  exact hplaced.filled.words p hp (by have := hp.2.2; omega) hobj i hi

theorem space_object (hp : IsOop p) (hobj : m.holdsObject p = true) : s.space p = m.space p := by
  have htwo := hplaced.sized p hp hobj
  refine space_congr ?_ (h.chunkWord_object hplaced hp hobj (by omega))
  rw [h.entry_object hplaced hp hobj]

theorem free_object (hp : IsOop p) (hobj : m.holdsObject p = true) : (s.entry p).free = 0 := by
  rw [h.entry_object hplaced hp hobj]
  exact (of_decide_eq_true hobj).1

theorem holdsObject_eq (hp : IsOop p) : s.holdsObject p = m.holdsObject p := by
  cases hobj : m.holdsObject p with
  | true =>
      rw [ObjectMemory.holdsObject, h.entry_object hplaced hp hobj]
      exact hobj
  | false =>
      refine decide_eq_false ?_
      rintro ⟨h0, hcount⟩
      rcases h.inUse p hp h0 with ho | ⟨u, hu, hr, rfl⟩
      · rw [hobj] at ho
        cases ho
      · rw [(h.chunk u hu hr).2.2.1] at hcount
        exact hcount rfl

end Loaded

/-- The chunks on the lists, and the space that each entry takes. -/
def layout (m : ObjectMemory) (d : Destination) (l : List Nat) (c : Nat → Nat)
    (s : ObjectMemory) : Layout where
  freePointers := l
  chunks u k := if u < 15 ∧ 2 ≤ d.heapSpaceRemaining u ∧
    k = min (d.heapSpaceRemaining u).toNat 20 then [c u] else []
  extent p := if m.holdsObject p then m.space p else s.chunkWord p 0

theorem mem_layout {k : Nat} (hp : p ∈ (layout m d l c s).chunks u k) : u < 15 ∧
    2 ≤ d.heapSpaceRemaining u ∧ k = min (d.heapSpaceRemaining u).toNat 20 ∧ p = c u := by
  simp only [layout] at hp
  split at hp
  · next hc => exact ⟨hc.1, hc.2.1, hc.2.2, List.mem_singleton.mp hp⟩
  · cases hp

theorem chunk_mem_layout (hu : u < 15) (hr : 2 ≤ d.heapSpaceRemaining u) :
    c u ∈ (layout m d l c s).chunks u (min (d.heapSpaceRemaining u).toNat 20) := by
  show c u ∈ (if u < 15 ∧ 2 ≤ d.heapSpaceRemaining u ∧ min (d.heapSpaceRemaining u).toNat 20 =
    min (d.heapSpaceRemaining u).toNat 20 then [c u] else [])
  rw [if_pos ⟨hu, hr, rfl⟩]
  exact List.mem_singleton_self _

theorem extent_object (hobj : m.holdsObject p = true) : (layout m d l c s).extent p = m.space p :=
  if_pos hobj

section Loaded

variable (h : Chunked m d s₀ 15 l c s) (hplaced : Placed m d s₀)

include h

theorem extent_chunk (hu : u < 15) (hr : 2 ≤ d.heapSpaceRemaining u) :
    ((layout m d l c s).extent (c u) : Int) = d.heapSpaceRemaining u := by
  obtain ⟨-, hobj, -, -, hsize, -⟩ := h.chunk u hu hr
  show ((if m.holdsObject (c u) = true then m.space (c u) else s.chunkWord (c u) 0 : Nat) : Int) = _
  rw [hobj, if_neg Bool.false_ne_true, hsize]

include hplaced

/-- The place of an entry in use, as an object or as a chunk. -/
theorem place (hp : InUse s p) : (m.holdsObject p = true ∧
    (s.entry p).segment = (m.packed (p / 2)).bin ∧
    s.location p + m.space p = (m.packed (p / 2)).used) ∨
    ∃ u < 15, 2 ≤ d.heapSpaceRemaining u ∧ p = c u := by
  refine (h.inUse p hp.1 hp.2).imp_left fun hobj => ⟨hobj, ?_, ?_⟩
  · rw [h.entry_object hplaced hp.1 hobj]
  · rw [(h.object p hp.1 hobj).2]
    exact hplaced.location hp.1 hobj

theorem tiled : Tiled s (layout m d l c s).extent := by
  have hbounds := hplaced.tracks.bounds
  refine ⟨fun p hp => ?_, fun p hp => ?_, fun p hp => ?_, fun p q hp hq hne hseg => ?_,
    fun u w hu hw => ?_⟩
  · rcases h.place hplaced hp with ⟨hobj, hseg, -⟩ | ⟨u, hu, hr, rfl⟩
    · rw [hseg]
      exact hplaced.bin_lt hp.1
    · rw [(h.chunk u hu hr).2.2.1]
      exact hu
  · rcases h.place hplaced hp with ⟨hobj, -⟩ | ⟨u, hu, hr, rfl⟩
    · rw [extent_object hobj]
      exact hplaced.two_le_space hp.1 hobj
    · have := h.extent_chunk hu hr
      omega
  · rcases h.place hplaced hp with ⟨hobj, -, hloc⟩ | ⟨u, hu, hr, rfl⟩
    · have hbelow := hplaced.below hp.1 hobj
      have := (hbounds (m.packed (p / 2)).bin).1
      rw [extent_object hobj]
      omega
    · have hextent := h.extent_chunk hu hr
      obtain ⟨-, -, -, hloc, -⟩ := h.chunk u hu hr
      omega
  · -- objects are apart by next fit, and chunks are above the objects
    have hchunk : ∀ {p u}, InUse s p → m.holdsObject p = true → u < 15 →
        2 ≤ d.heapSpaceRemaining u → (s.entry p).segment = (s.entry (c u)).segment →
        s.location p + (layout m d l c s).extent p ≤ s.location (c u) := by
      intro p u hp hobj hu hr hseg
      obtain ⟨-, -, hentry, hloc, -⟩ := h.chunk u hu hr
      rw [hentry, h.entry_object hplaced hp.1 hobj] at hseg
      have hbelow := hplaced.below hp.1 hobj
      have hlocation := hplaced.location hp.1 hobj
      dsimp only at hseg
      rw [hseg] at hbelow
      rw [extent_object hobj, (h.object p hp.1 hobj).2]
      omega
    have hobjects : ∀ {p q}, InUse s p → InUse s q → m.holdsObject p = true →
        m.holdsObject q = true → p < q → (s.entry p).segment = (s.entry q).segment →
        s.location p + (layout m d l c s).extent p ≤ s.location q := by
      intro p q hp hq hpobj hqobj hlt hseg
      rw [h.entry_object hplaced hp.1 hpobj, h.entry_object hplaced hq.1 hqobj] at hseg
      have heven := hp.1.1
      have heven' := hq.1.1
      have hapart := packed_apart hq.1 hqobj (p := p) (by omega) hseg
      have hploc := hplaced.location hp.1 hpobj
      have hqloc := hplaced.location hq.1 hqobj
      rw [extent_object hpobj, (h.object p hp.1 hpobj).2, (h.object q hq.1 hqobj).2]
      omega
    rcases h.place hplaced hp with ⟨hpobj, -⟩ | ⟨u, hu, hru, rfl⟩
    · rcases h.place hplaced hq with ⟨hqobj, -⟩ | ⟨v, hv, hrv, rfl⟩
      · rcases Nat.lt_or_gt_of_ne hne with hlt | hlt
        · exact .inl (hobjects hp hq hpobj hqobj hlt hseg)
        · exact .inr (hobjects hq hp hqobj hpobj hlt hseg.symm)
      · exact .inl (hchunk hp hpobj hv hrv hseg)
    · rcases h.place hplaced hq with ⟨hqobj, -⟩ | ⟨v, hv, hrv, rfl⟩
      · exact .inr (hchunk hq hqobj hu hru hseg.symm)
      · rw [(h.chunk u hu hru).2.2.1, (h.chunk v hv hrv).2.2.1] at hseg
        exact absurd (congrArg c hseg) hne
  · by_cases hlow : (w : Int) < 65515 - d.heapSpaceRemaining u
    · obtain ⟨p, hp, -, hobj, hbin, hge, hlt⟩ := hplaced.filled.cover u w hlow
      refine ⟨p, ⟨hp, h.free_object hplaced hp hobj⟩, ?_⟩
      rw [h.entry_object hplaced hp hobj, extent_object hobj, (h.object p hp hobj).2]
      exact ⟨hbin, hge, hlt⟩
    · have hr : 2 ≤ d.heapSpaceRemaining u := by omega
      have hextent := h.extent_chunk hu hr
      obtain ⟨hoop, -, hentry, hloc, -⟩ := h.chunk u hu hr
      refine ⟨c u, ⟨hoop, by rw [hentry]⟩, by rw [hentry], ?_, ?_⟩
      · omega
      · omega

theorem heap : Heap s (layout m d l c s) := by
  have hfree : ∀ u k p, p ∈ (layout m d l c s).chunks u k → FreeChunk s u k p := by
    intro u k p hp
    obtain ⟨hu, hr, hk, rfl⟩ := mem_layout hp
    obtain ⟨hoop, -, hentry, -, hsize, -⟩ := h.chunk u hu hr
    refine ⟨⟨hoop, by rw [hentry]⟩, by rw [hentry], hu, by omega, by omega, fun hlt => by omega,
      by rw [hentry]⟩
  refine ⟨h.tiled hplaced, ⟨h.linked, h.mem, fun u k hu h2 h20 => ?_, hfree,
    fun u k k' p hp hp' => ?_⟩, fun u k p hp => ?_, fun p hp => ?_⟩
  · rw [h.heads u k hu h2 h20]
    simp only [layout]
    by_cases hc : 2 ≤ d.heapSpaceRemaining u ∧ k = min (d.heapSpaceRemaining u).toNat 20
    · obtain ⟨hoop, -, -, -, -, hlink⟩ := h.chunk u hu hc.1
      rw [if_pos ⟨hu, hc⟩, if_pos ⟨hu, hc⟩]
      refine ⟨rfl, ?_, hlink⟩
      have := hoop.2.2
      simp only [nonPointer]
      omega
    · rw [if_neg fun hall => hc hall.2, if_neg fun hall => hc hall.2]
      rfl
  · rw [(mem_layout hp).2.2.1, (mem_layout hp').2.2.1]
  · obtain ⟨hu, hr, -, rfl⟩ := mem_layout hp
    exact if_neg (by rw [(h.chunk u hu hr).2.1]; exact Bool.false_ne_true)
  · rcases h.place hplaced hp.inUse with ⟨hobj, -⟩ | ⟨u, hu, hr, rfl⟩
    · rw [extent_object hobj, h.space_object hplaced hp.inUse.1 hobj]
    · exact absurd (chunk_mem_layout hu hr) (hp.2 u _)

theorem restored : Restored m s := by
  refine ⟨fun p hp => h.holdsObject_eq hplaced hp, fun p hp hobj => ?_, fun p hp hobj => ?_,
    fun p hp hobj => ?_, fun p hp hobj i hi => h.chunkWord_object hplaced hp hobj hi,
    layout m d l c s, h.heap hplaced, fun p hp hobj => ?_⟩
  · rw [h.entry_object hplaced hp hobj]
  · rw [h.entry_object hplaced hp hobj]
  · rw [h.entry_object hplaced hp hobj]
  · have hlt := s.free_lt p
    by_cases h0 : (s.entry p).free = 0
    · rcases h.inUse p hp h0 with ho | ⟨u, hu, hr, rfl⟩
      · rw [hobj] at ho
        cases ho
      · exact .inr ⟨u, _, chunk_mem_layout hu hr⟩
    · exact .inl ((h.mem p).mpr ⟨hp, by omega⟩)

end Loaded

end Chunked

/-! ## Saving and loading -/

/-- The situation after the objects have been loaded. -/
theorem placed_of_unpacked {m₁ : ObjectMemory} (hm : m.Saveable) (hs : m.Sized)
    (h₁ : TableLoaded m.image m₁) (htracks : Tracks d (m.packed 32766))
    (hu : Unpacked m₁ 65532 s₀) (hf : Filled m 32766 d s₀) : Placed m d s₀ := by
  obtain ⟨l, -, hlinked, hmem⟩ := h₁.freeEntries
  have hfree : ∀ p, IsOop p → ((s₀.entry p).free = 1 ↔ m.holdsObject p = false) := by
    intro p hp
    cases hobj : m.holdsObject p with
    | true =>
        rw [hf.entry p hp (by have := hp.2.2; omega) hobj]
        have h0 := (of_decide_eq_true hobj).1
        exact iff_of_false (by dsimp only; omega) (by decide)
    | false =>
        have h1 := free_of_not_object hm h₁ hp (by rw [hobj]; exact Bool.false_ne_true)
        rw [(hu.kept p hp (.inr h1)).1]
        exact iff_of_true h1 rfl
  refine ⟨htracks, hf, hs, ⟨l, ?_, fun p => ?_⟩, hfree⟩
  · rw [hu.freeHead]
    exact hlinked.congr fun q hq => (hu.kept q ((hmem q).mp hq).1 (.inr ((hmem q).mp hq).2)).2
  · rw [hmem]
    refine and_congr_right fun hp => ?_
    rw [← hfree p hp]
    constructor
    · intro h1
      rw [(hu.kept p hp (.inr h1)).1]
      exact h1
    · intro h1
      refine free_of_not_object hm h₁ hp ?_
      rw [(hfree p hp).mp h1]
      exact Bool.false_ne_true

theorem Restored.count_nil (h : Restored m s) (hobj : m.holdsObject nilPointer = true) :
    (s.entry nilPointer).count ≠ 0 := by
  have hheld := h.hasObject nilPointer ⟨rfl, le_rfl, by decide⟩
  rw [hobj] at hheld
  exact (of_decide_eq_true hheld).2

/-- An object is no free chunk. -/
theorem Lost.not_restored (h : Lost s) (hobj : m.holdsObject nilPointer = true) :
    ¬Restored m s := fun hrestored => by
  obtain ⟨L, hheap, -⟩ := hrestored.heap
  obtain ⟨k, h2, h20, hhead⟩ := h.head
  have hlinked := hheap.lists.chunks _ k h.segment_lt h2 h20
  rw [hhead] at hlinked
  have hmem : nilPointer ∈ L.chunks (s.entry nilPointer).segment k := by
    cases hl : L.chunks (s.entry nilPointer).segment k with
    | nil =>
        rw [hl] at hlinked
        exact absurd (show nilPointer = nonPointer from hlinked) (by decide)
    | cons a l =>
        rw [hl] at hlinked
        exact hlinked.1 ▸ List.mem_cons_self
  exact hrestored.count_nil hobj (hheap.lists.freeChunk _ k _ hmem).count

/-- Nil is free, but on no list. -/
theorem not_restored_of_free (hobj : m.holdsObject nilPointer = false)
    (hfree : (s.entry nilPointer).free = 1) (hlinked : Linked s.location nonPointer s.freeHead l)
    (hnot : nilPointer ∉ l) : ¬Restored m s := fun hrestored => by
  obtain ⟨L, hheap, hlists⟩ := hrestored.heap
  rcases hlists nilPointer ⟨rfl, le_rfl, by decide⟩ hobj with hmem | ⟨u, k, hmem⟩
  · rw [hheap.lists.pointers.unique hlinked] at hmem
    exact hnot hmem
  · have h0 := (hheap.chunk_inUse hmem).2
    omega

theorem exists_rest (hplaced : Placed m d s₀) (h : m.rests 15 ≠ 0) :
    ∃ u < 15, 2 ≤ d.heapSpaceRemaining u := by
  obtain ⟨u, hu⟩ := Finset.card_pos.mp (Nat.pos_of_ne_zero h)
  obtain ⟨hlt, hrest⟩ := Finset.mem_filter.mp hu
  exact ⟨u, Finset.mem_range.mp hlt, hplaced.rest_iff.mpr hrest⟩

/-- A free nil is taken off the list, for the first rest, and lost. -/
theorem wlp_buildFreeChunks_free {m₁ : ObjectMemory} (hm : m.Saveable)
    (h₁ : TableLoaded m.image m₁) (hu : Unpacked m₁ 65532 s₀) (hplaced : Placed m d s₀)
    (hobj : m.holdsObject nilPointer = false) (hrests : m.rests 15 ≠ 0) :
    Wlp (buildFreeChunks d.heapSpaceRemaining) (fun _ s' => ¬Restored m s') s₀ := by
  have hoop : IsOop nilPointer := ⟨rfl, le_rfl, by decide⟩
  obtain ⟨u, hu15, h2⟩ := exists_rest hplaced hrests
  by_cases hmore : MoreThanNil m
  · obtain ⟨l, hready⟩ := hu.ready hm h₁ hmore
    refine (wp_buildFreeChunks hready hplaced.tracks.bounds).toWlp.mono ?_
    rintro _ s' ⟨l', hl', hentry, hnil⟩
    refine not_restored_of_free hobj ?_ hl'.linked (hnil u hu15 h2)
    rw [hentry]
    exact (hplaced.free nilPointer hoop).mpr hobj
  · obtain ⟨l, hlinked, hmem⟩ := hplaced.linked
    have hall : ∀ p ∈ l, p = nilPointer := fun p hp => by
      by_contra hne
      exact hmore (.inr ⟨p, ((hmem p).mp hp).1, hne, ((hmem p).mp hp).2⟩)
    have hnodup := hlinked.nodup
    have hin := (hmem nilPointer).mpr ⟨hoop, hobj⟩
    cases l with
    | nil => cases hin
    | cons a l =>
        obtain rfl := hall a List.mem_cons_self
        have hl : l = [] := List.eq_nil_iff_forall_not_mem.mpr fun q hq =>
          (List.nodup_cons.mp hnodup).1 (hall q (List.mem_cons_of_mem _ hq) ▸ hq)
        subst hl
        exact (wlp_buildFreeChunks_nil hlinked.1 hlinked.2.2 ⟨u, hu15, h2⟩).mono
          fun _ _ hfalse => hfalse.elim

/-- A load that answers true has restored the memory exactly where the oops suffice. -/
theorem wlp_unpack_restored (hm : m.Saveable) (hs : m.Sized)
    (hspace : ∀ p, IsOop p → m.holdsObject p → m.space p ≤ 65515) :
    Wlp (unpack m.image) (fun r s' => r = true → (Restored m s' ↔ m.Suffices)) s := by
  refine wlp_unpack_image (R := fun s' => Restored m s' ↔ m.Suffices) hm hs hspace
    fun m₁ d s₀ h₁ htracks hu hf => ?_
  have hplaced := placed_of_unpacked hm hs h₁ htracks hu hf
  by_cases hnil : m.holdsObject nilPointer = true ∨ m.rests 15 = 0
  · refine (wp_buildFreeChunks_built hplaced hnil).toWlp.mono ?_
    rintro _ s' (⟨l, c, h⟩ | ⟨hlt, hlost⟩)
    · have hcount := h.count
      exact iff_of_true (h.restored hplaced) ⟨by omega, hnil⟩
    · exact iff_of_false (hlost.not_restored (hnil.resolve_right (by omega)))
        fun hsuffices => by
          have := hsuffices.1
          omega
  · obtain ⟨hobj, hrests⟩ := not_or.mp hnil
    refine (wlp_buildFreeChunks_free hm h₁ hu hplaced (by simpa using hobj) hrests).mono ?_
    exact fun _ s' hnot => iff_of_false hnot fun hsuffices => hnil hsuffices.2

/-- What loading a saved snapshot restores, from the file or through the array: all of a
memory in which the oops suffice for nil and for the rests of the segments, and of no other. -/
theorem loadSnapshot_restores {h h' g g' : Host} {L : Layout} {bootmode : Nat}
    (hheap : Heap h.memory L) (hf : h.file.Faithful) (hsave : saveSnapshot h = some (true, h'))
    (hbytes : g.file.bytes = h'.file.bytes) (hg : g.file.Faithful)
    (hmode : bootmode = 1 ∨ bootmode = 2) (hload : loadSnapshot bootmode g = some (true, g')) :
    Restored h.memory g'.memory ↔ h.memory.Suffices := by
  obtain ⟨hsaveable, himage⟩ := saved_image hf hsave
  have hrun := unpack_of_loadSnapshot (readable_image hsaveable hheap.sized)
    (hbytes.trans himage) hg hmode hload
  exact wlp_unpack_restored hsaveable hheap.sized (fun p hp hobj => hheap.space_le hp hobj) _ _
    hrun rfl

/-! ## A memory with one object -/

/-- Oop `o`, which is 2 or 4, has an object of two words; every heap segment ends
with a free chunk, with oop 6 to 34. -/
def sparseWord (o s w : Nat) : Nat :=
  if s = 15 then
    if w = 65534 then 6 - o
    else if w % 2 = 0 then
      if w = o then 256
      else if 6 ≤ w ∧ w ≤ 34 then w / 2 - 3
      else 32
    else if w = o + 1 then 0
    else if w = 7 - o then 36
    else if w = 7 then 2
    else if 6 ≤ w ∧ w ≤ 35 then 0
    else if w < 65533 then w + 1
    else 65535
  else if w = 65535 then (6 + 2 * s) % 65536
  else if 65515 ≤ w then 65535
  else if s = 0 then
    if w = 0 then 2 else if w = 1 then 12 else if w = 2 then 65513 else if w = 3 then 65535 else 0
  else if w = 0 then 65515
  else if w = 1 then 65535
  else 0

theorem sparseWord_lt (o s w : Nat) : sparseWord o s w < 65536 := by
  have hlow : (6 + 2 * s) % 65536 < 65536 := Nat.mod_lt _ (by decide)
  unfold sparseWord
  repeat' split
  all_goals omega

def sparse (o : Nat) : ObjectMemory := ⟨⟨sparseWord o, sparseWord_lt o⟩, 0, 0, 32750⟩

def sparseExtent (o p : Nat) : Nat := if p = o then 2 else if p = 6 then 65513 else 65515

def sparseLayout (o : Nat) : Layout where
  freePointers := (6 - o) :: List.range' 36 32749 2
  chunks u k := if u < 15 ∧ k = 20 then [6 + 2 * u] else []
  extent := sparseExtent o

section Sparse

variable {o : Nat} (ho : o = 2 ∨ o = 4)

include ho

omit ho in
theorem entry_sparse (hp : IsOop p) : (sparse o).entry p =
    if p = o then ⟨1, 0, 0, 0, 0⟩
    else if 6 ≤ p ∧ p ≤ 34 then ⟨0, 0, 0, 0, p / 2 - 3⟩ else ⟨0, 0, 0, 1, 0⟩ := by
  obtain ⟨heven, htwo, hle⟩ := hp
  show decodeEntry (sparseWord o 15 p) = _
  rw [sparseWord, if_pos rfl, if_neg (by omega), if_pos heven]
  by_cases hpo : p = o
  · rw [if_pos hpo, if_pos hpo]
    rfl
  · rw [if_neg hpo, if_neg hpo]
    by_cases hchunk : 6 ≤ p ∧ p ≤ 34
    · rw [if_pos hchunk, if_pos hchunk, decodeEntry_segment _ (by omega)]
    · rw [if_neg hchunk, if_neg hchunk]
      rfl

omit ho in
theorem location_sparse (hp : IsOop p) : (sparse o).location p =
    if p = o then 0 else if p = 6 - o then 36 else if p = 6 then 2
    else if 6 ≤ p ∧ p ≤ 34 then 0 else if p < 65532 then p + 2 else 65535 := by
  obtain ⟨heven, htwo, hle⟩ := hp
  show sparseWord o 15 (p + 1) = _
  rw [sparseWord, if_pos rfl, if_neg (by omega), if_neg (by omega)]
  exact if_congr (by omega) rfl (if_congr (by omega) rfl (if_congr (by omega) rfl
    (if_congr (by omega) rfl (if_congr (by omega) rfl rfl))))

omit ho in
theorem inUse_sparse : InUse (sparse o) p ↔ IsOop p ∧ (p = o ∨ 6 ≤ p ∧ p ≤ 34) := by
  refine and_congr_right fun hp => ?_
  rw [entry_sparse hp]
  by_cases hpo : p = o
  · rw [if_pos hpo]
    exact iff_of_true rfl (.inl hpo)
  · rw [if_neg hpo]
    by_cases hchunk : 6 ≤ p ∧ p ≤ 34
    · rw [if_pos hchunk]
      exact iff_of_true rfl (.inr hchunk)
    · rw [if_neg hchunk]
      exact iff_of_false (by decide) fun h => h.elim hpo hchunk

omit ho in
theorem holdsObject_sparse (hp : IsOop p) : (sparse o).holdsObject p = decide (p = o) := by
  rw [holdsObject, entry_sparse hp]
  by_cases hpo : p = o
  · rw [if_pos hpo, decide_eq_true hpo]
    rfl
  · rw [if_neg hpo, decide_eq_false hpo]
    by_cases hchunk : 6 ≤ p ∧ p ≤ 34
    · rw [if_pos hchunk]
      rfl
    · rw [if_neg hchunk]
      rfl

theorem size_sparse (hp : InUse (sparse o) p) : (sparse o).chunkWord p 0 = sparseExtent o p := by
  obtain ⟨hoop, hcase⟩ := inUse_sparse.mp hp
  have heven := hoop.1
  show sparseWord o ((sparse o).entry p).segment ((sparse o).location p + 0) = _
  rw [entry_sparse hoop, location_sparse hoop, sparseExtent]
  by_cases hpo : p = o
  · rw [if_pos hpo, if_pos hpo, if_pos hpo]
    rfl
  · have hchunk := hcase.resolve_left hpo
    rw [if_neg hpo, if_neg hpo, if_neg hpo, if_pos hchunk, if_neg (by omega)]
    by_cases h6 : p = 6
    · rw [if_pos h6, if_pos h6, h6]
      rfl
    · rw [if_neg h6, if_neg h6, if_pos hchunk, sparseWord]
      dsimp only
      rw [if_neg (by omega), if_neg (by omega), if_neg (by omega), if_neg (by omega), if_pos rfl]

theorem space_sparse : (sparse o).space o = 2 := by
  have hoop : IsOop o := ⟨by omega, by omega, by omega⟩
  rw [ObjectMemory.space, size_sparse ho (inUse_sparse.mpr ⟨hoop, .inl rfl⟩),
    entry_sparse hoop, if_pos rfl, if_pos (.inr rfl), sparseExtent, if_pos rfl]

theorem link_sparse (hu : u < 15) : (sparse o).chunkWord (6 + 2 * u) 1 = nonPointer := by
  have hoop : IsOop (6 + 2 * u) := ⟨by omega, by omega, by omega⟩
  show sparseWord o ((sparse o).entry (6 + 2 * u)).segment ((sparse o).location (6 + 2 * u) + 1) = _
  have hpo : ¬6 + 2 * u = o := by omega
  have hfree : ¬6 + 2 * u = 6 - o := by omega
  have hchunk : 6 ≤ 6 + 2 * u ∧ 6 + 2 * u ≤ 34 := by omega
  rw [entry_sparse hoop, location_sparse hoop, if_neg hpo, if_neg hpo, if_pos hchunk, if_neg hfree]
  by_cases h6 : 6 + 2 * u = 6
  · obtain rfl : u = 0 := by omega
    rw [if_pos rfl]
    rfl
  · rw [if_neg h6, if_pos hchunk, sparseWord]
    dsimp only
    rw [if_neg (by omega), if_neg (by omega), if_neg (by omega), if_neg (by omega),
      if_neg (by omega), if_pos rfl]

theorem tiled_sparse : Tiled (sparse o) (sparseExtent o) := by
  have hspan : ∀ {p}, InUse (sparse o) p → ((sparse o).entry p).segment < 15 ∧
      ((p = o ∧ ((sparse o).entry p).segment = 0 ∧ (sparse o).location p = 0 ∧
          sparseExtent o p = 2) ∨
        (p = 6 ∧ ((sparse o).entry p).segment = 0 ∧ (sparse o).location p = 2 ∧
          sparseExtent o p = 65513) ∨
        (8 ≤ p ∧ p ≤ 34 ∧ ((sparse o).entry p).segment = p / 2 - 3 ∧
          (sparse o).location p = 0 ∧ sparseExtent o p = 65515)) := by
    intro p hp
    obtain ⟨hoop, hcase⟩ := inUse_sparse.mp hp
    have heven := hoop.1
    rw [entry_sparse hoop, location_sparse hoop, sparseExtent]
    by_cases hpo : p = o
    · rw [if_pos hpo, if_pos hpo, if_pos hpo]
      exact ⟨Nat.zero_lt_succ 14, .inl ⟨hpo, rfl, rfl, rfl⟩⟩
    · have hchunk := hcase.resolve_left hpo
      rw [if_neg hpo, if_neg hpo, if_neg hpo, if_pos hchunk, if_neg (by omega)]
      by_cases h6 : p = 6
      · rw [if_pos h6, if_pos h6, h6]
        exact ⟨Nat.zero_lt_succ 14, .inr (.inl ⟨rfl, rfl, rfl, rfl⟩)⟩
      · rw [if_neg h6, if_neg h6, if_pos hchunk]
        dsimp only
        exact ⟨by omega, .inr (.inr ⟨by omega, by omega, rfl, rfl, rfl⟩)⟩
  refine ⟨fun p hp => (hspan hp).1, fun p hp => ?_, fun p hp => ?_, fun p q hp hq hne hseg => ?_,
    fun u w hu hw => ?_⟩
  · have := (hspan hp).2
    omega
  · have := (hspan hp).2
    omega
  · have hp' := (hspan hp).2
    have hq' := (hspan hq).2
    have hpe := hp.1.1
    have hqe := hq.1.1
    omega
  · by_cases h0 : u = 0 ∧ w < 2
    · obtain ⟨rfl, hw2⟩ := h0
      have hoop : IsOop o := ⟨by omega, by omega, by omega⟩
      have hin : InUse (sparse o) o := inUse_sparse.mpr ⟨hoop, .inl rfl⟩
      have := (hspan hin).2
      exact ⟨o, hin, by omega, by omega, by omega⟩
    · have hoop : IsOop (6 + 2 * u) := ⟨by omega, by omega, by omega⟩
      have hin : InUse (sparse o) (6 + 2 * u) := inUse_sparse.mpr ⟨hoop, .inr (by omega)⟩
      have := (hspan hin).2
      exact ⟨6 + 2 * u, hin, by omega, by omega, by omega⟩

theorem linked_sparse : ∀ {n p : Nat}, p % 2 = 0 → 36 ≤ p → p + 2 * n = 65534 →
    Linked (sparse o).location nonPointer (if n = 0 then 65535 else p) (List.range' p n 2)
  | 0, _, _, _, _ => rfl
  | n + 1, p, heven, hge, hsum => by
      have ih := linked_sparse (n := n) (p := p + 2) (by omega) (by omega) (by omega)
      have hlocation : (sparse o).location p = if n = 0 then 65535 else p + 2 := by
        rw [location_sparse ⟨heven, by omega, by omega⟩, if_neg (by omega), if_neg (by omega),
          if_neg (by omega), if_neg (by omega)]
        by_cases hn : n = 0
        · rw [if_pos hn, if_neg (by omega)]
        · rw [if_neg hn, if_pos (by omega)]
      rw [List.range'_succ, if_neg (Nat.succ_ne_zero n)]
      refine ⟨rfl, by simp only [nonPointer]; omega, ?_⟩
      rw [hlocation]
      exact ih

omit ho in
theorem mem_chunks_sparse (hp : p ∈ (sparseLayout o).chunks u k) :
    u < 15 ∧ k = 20 ∧ p = 6 + 2 * u :=
  and_assoc.mp (Layout.mem_big.mp hp)

theorem heap_sparse : Heap (sparse o) (sparseLayout o) := by
  have hlinked := linked_sparse ho (n := 32749) (p := 36) rfl le_rfl rfl
  rw [if_neg (by omega)] at hlinked
  have hfirst : firstFreeChunkList = 65515 := rfl
  refine .of_big (tiled_sparse ho) ?_ (fun p => ?_) (fun u k hu h2 h20 => ?_) (fun u hu => ?_)
    fun p hp hout => ?_
  · have hoop : IsOop (6 - o) := ⟨by omega, by omega, by omega⟩
    have hhead : (sparse o).freeHead = 6 - o := by
      show sparseWord o 15 65534 = _
      rw [sparseWord, if_pos rfl, if_pos rfl]
    refine ⟨hhead, by simp only [nonPointer]; omega, ?_⟩
    rw [location_sparse hoop, if_neg (by omega), if_pos rfl]
    exact hlinked
  · rw [List.mem_cons, List.mem_range']
    constructor
    · intro hcase
      have hoop : IsOop p := by
        rcases hcase with rfl | ⟨i, hi, rfl⟩
        · exact ⟨by omega, by omega, by omega⟩
        · exact ⟨by omega, by omega, by omega⟩
      rw [entry_sparse hoop, if_neg (by omega), if_neg (by omega)]
      exact ⟨hoop, rfl⟩
    · rintro ⟨hoop, hfree⟩
      have hnot : ¬(p = o ∨ 6 ≤ p ∧ p ≤ 34) := fun hcase => by
        have h0 := (inUse_sparse.mpr ⟨hoop, hcase⟩).2
        omega
      obtain ⟨heven, htwo, hle⟩ := hoop
      by_cases hlow : p = 6 - o
      · exact .inl hlow
      · exact .inr ⟨(p - 36) / 2, by omega, by omega⟩
  · show sparseWord o u (firstFreeChunkList + k) = _
    rw [sparseWord, if_neg (by omega)]
    by_cases hk : k = 20
    · rw [if_pos hk, if_pos (by omega)]
      omega
    · rw [if_neg hk, if_neg (by omega), if_pos (by omega)]
  · have hoop : IsOop (6 + 2 * u) := ⟨by omega, by omega, by omega⟩
    have hin : InUse (sparse o) (6 + 2 * u) := inUse_sparse.mpr ⟨hoop, .inr (by omega)⟩
    have hentry := entry_sparse (o := o) hoop
    rw [if_neg (by omega), if_pos (by omega)] at hentry
    refine ⟨hin, ?_, by rw [hentry], link_sparse ho hu, (size_sparse ho hin).symm⟩
    rw [hentry]
    show (6 + 2 * u) / 2 - 3 = u
    omega
  · have hpo : p = o := by
      obtain ⟨hoop, hcase⟩ := inUse_sparse.mp hp
      have heven := hoop.1
      have hne := hout (p / 2 - 3)
      omega
    rw [hpo, space_sparse ho, sparseExtent, if_pos rfl]

theorem packed_sparse (hn : n ≤ 32766) :
    (sparse o).packed n = if o ≤ 2 * n then ⟨0, 2⟩ else ⟨0, 0⟩ := by
  induction n with
  | zero =>
      rw [if_neg (by omega)]
      rfl
  | succ n ih =>
      have hoop : IsOop (2 * (n + 1)) := ⟨by omega, by omega, by omega⟩
      have hobj := holdsObject_sparse (o := o) hoop
      by_cases hno : 2 * (n + 1) = o
      · rw [decide_eq_true hno] at hobj
        rw [packed_succ_of_object hobj, ih (by omega), if_neg (by omega), if_pos (by omega), hno,
          space_sparse ho]
        rfl
      · rw [decide_eq_false hno] at hobj
        rw [packed_succ_of_free (by rw [hobj]; exact Bool.false_ne_true), ih (by omega)]
        exact if_congr (by omega) rfl rfl

theorem wordsBefore_sparse (hn : n ≤ 32766) : (sparse o).wordsBefore n ≤
    if o ≤ 2 * n then 2 else 0 := by
  induction n with
  | zero => exact Nat.zero_le _
  | succ n ih =>
      have hoop : IsOop (2 * (n + 1)) := ⟨by omega, by omega, by omega⟩
      have ih := ih (by omega)
      rw [wordsBefore, objectWords, holdsObject_sparse hoop]
      by_cases hno : 2 * (n + 1) = o
      · have hsize := ObjectMemory.size_le_space (m := sparse o) (p := o)
        rw [space_sparse ho] at hsize
        rw [if_neg (by omega)] at ih
        rw [if_pos (decide_eq_true hno), if_pos (by omega), hno]
        omega
      · rw [decide_eq_false hno, if_neg Bool.false_ne_true]
        split at ih <;> split <;> omega

theorem saveable_sparse : (sparse o).Saveable := by
  have ho' : IsOop o := ⟨by omega, by omega, by omega⟩
  have hlast := lastUsed_le_of_object (m := sparse o) (p := o)
    (by rw [holdsObject_sparse ho', decide_eq_true rfl]) ho'
  constructor
  · intro i hi
    rw [storedObjectTableLength] at hi
    have hp : IsOop (2 * (i + 1)) := ⟨by omega, by omega, by omega⟩
    refine ⟨hp.isEntry, fun hobj => ?_⟩
    rw [holdsObject_sparse hp] at hobj
    have hpo : 2 * (i + 1) = o := of_decide_eq_true hobj
    have hin : InUse (sparse o) o := inUse_sparse.mpr ⟨ho', .inl rfl⟩
    rw [hpo, size_sparse ho hin, location_sparse ho', if_pos rfl, sparseExtent, if_pos rfl]
    decide
  · intro i hi
    rw [storedObjectTableLength] at hi
    refine ⟨⟨by omega, by omega⟩, fun _ _ => ?_⟩
    have hwords := wordsBefore_sparse ho (n := i - 1) (by omega)
    split at hwords <;> omega

theorem packs_sparse : (sparse o).Packs := by
  rw [ObjectMemory.Packs, packed_sparse ho le_rfl, if_pos (by omega)]
  decide

end Sparse

/-- A host that runs the memory, with no file yet. -/
def running (m : ObjectMemory) : Host where
  memory := m
  file := ⟨[], 0, fun _ => none, 0⟩
  filesSnapshotIm _ := 0
  filesSnapshotImLen := 0
  offset := 0

/-- A memory that can be loaded back is saved and loaded. -/
theorem exists_load (hm : Reloadable m) (hpacks : m.Packs) : ∃ h' g',
    saveSnapshot (running m) = some (true, h') ∧
    loadSnapshot 1 { running m with file.bytes := h'.file.bytes } = some (true, g') := by
  obtain ⟨h', hsave⟩ := exists_save (h := running m) (fun _ => rfl) hm.saveable
  have hanswer := answer_loadSnapshot_one (m := m)
    (g := { running m with file.bytes := h'.file.bytes }) hm
    (saved_image (h := running m) (fun _ => rfl) hsave).2 fun _ => rfl
  rw [decide_eq_true hpacks, answer, Option.map_eq_some_iff] at hanswer
  obtain ⟨⟨r, g'⟩, hload, rfl⟩ := hanswer
  exact ⟨h', g', hsave, hload⟩

theorem suffices_sparse : (sparse 2).Suffices := by
  have hnil : (sparse 2).holdsObject nilPointer = true :=
    holdsObject_sparse ⟨rfl, le_rfl, by decide⟩
  refine ⟨?_, .inl hnil⟩
  have hrests : (sparse 2).rests 15 ≤ 15 :=
    (Finset.card_filter_le _ _).trans (Finset.card_range 15).le
  have hspare : ((Finset.range 15).image fun i => 6 + 2 * i).card ≤ (sparse 2).spare := by
    refine Finset.card_le_card fun p hp => ?_
    obtain ⟨i, hi, rfl⟩ := Finset.mem_image.mp hp
    rw [Finset.mem_range] at hi
    have hoop : IsOop (6 + 2 * i) := ⟨by omega, by omega, by omega⟩
    rw [Finset.mem_filter, Finset.mem_range, holdsObject_sparse hoop]
    exact ⟨by omega, hoop, decide_eq_false (by omega)⟩
  exact hrests.trans hspare

theorem loadSnapshot_restores_sparse : ∃ h' g',
    saveSnapshot (running (sparse 2)) = some (true, h') ∧
    loadSnapshot 1 { running (sparse 2) with file.bytes := h'.file.bytes } = some (true, g') ∧
    Restored (sparse 2) g'.memory := by
  have hheap := heap_sparse (.inl rfl)
  have hnil : (sparse 2).holdsObject nilPointer = true :=
    holdsObject_sparse ⟨rfl, le_rfl, by decide⟩
  obtain ⟨h', g', hsave, hload⟩ := exists_load ⟨saveable_sparse (.inl rfl), hheap.sized,
    fun p hp hobj => hheap.space_le hp hobj, .inl hnil⟩ (packs_sparse (.inl rfl))
  exact ⟨h', g', hsave, hload, (loadSnapshot_restores (h := running (sparse 2))
    (g := { running (sparse 2) with file.bytes := h'.file.bytes }) hheap
    (fun _ => rfl) hsave rfl (fun _ => rfl) (.inl rfl) hload).mpr suffices_sparse⟩

/-! ## A full object table -/

/-- The free chunk of the memory `full a`. -/
def fullChunk (a : Nat) : Nat := if a = 2 then 65532 else 2

/-- For `a = 2` each oop but 65532 has an object, for `a = 4` each but 2 and 65532, where
65532 is free. The small ones, the first of `a` words, and the last one of 13 words fill
segment 0, each of the others fills a segment, and the last segment is a free chunk. -/
def fullWord (a s w : Nat) : Nat :=
  if s = 15 then
    if w = 65534 then (if a = 2 then 65535 else 65532)
    else if w % 2 = 0 then
      if w = fullChunk a then 14
      else if w < 2 ∨ 65530 < w then 32
      else if w ≤ 65502 ∨ w = 65530 then 256
      else 256 + (w / 2 - 32751)
    else if w = fullChunk a + 1 then 0
    else if w = 65533 then 65535
    else if w = 65531 then 65502
    else if w ≤ a + 1 ∨ 65504 ≤ w then 0
    else w - 3
  else if w = 65535 then (if s = 14 then fullChunk a else 65535)
  else if 65515 ≤ w then 65535
  else if s = 0 then
    if w = 0 then (if a = 2 then 2 else 4)
    else if w = 65502 then 13
    else if w % 2 = 0 then 2
    else 12
  else if w = 0 then 65515
  else if s = 14 then 65535
  else 12

theorem fullWord_lt (a s w : Nat) : fullWord a s w < 65536 := by
  unfold fullWord fullChunk
  repeat' split
  all_goals omega

def full (a : Nat) : ObjectMemory := ⟨⟨fullWord a, fullWord_lt a⟩, 14, 0, 0⟩

def fullExtent (a p : Nat) : Nat :=
  if p = fullChunk a then 65515
  else if p = a then a
  else if p ≤ 65502 then 2
  else if p = 65530 then 13
  else 65515

def fullLayout (a : Nat) : Layout where
  freePointers := if a = 2 then [] else [65532]
  chunks s k := if s = 14 ∧ k = 20 then [fullChunk a] else []
  extent := fullExtent a

section Full

variable {a : Nat} (ha : fullChunk a = 65532 ∧ a = 2 ∨ fullChunk a = 2 ∧ a = 4)

theorem entry_full (hp : IsOop p) : (full a).entry p =
    if p = fullChunk a then ⟨0, 0, 0, 0, 14⟩
    else if p = 65532 then ⟨0, 0, 0, 1, 0⟩
    else if p ≤ 65502 ∨ p = 65530 then ⟨1, 0, 0, 0, 0⟩
    else ⟨1, 0, 0, 0, p / 2 - 32751⟩ := by
  obtain ⟨heven, htwo, hle⟩ := hp
  show decodeEntry (fullWord a 15 p) = _
  rw [fullWord, if_pos rfl, if_neg (by omega), if_pos heven]
  by_cases hchunk : p = fullChunk a
  · rw [if_pos hchunk, if_pos hchunk]
    rfl
  · rw [if_neg hchunk, if_neg hchunk]
    by_cases hfree : p = 65532
    · rw [if_pos (by omega), if_pos hfree]
      rfl
    · rw [if_neg (by omega), if_neg hfree]
      by_cases hlow : p ≤ 65502 ∨ p = 65530
      · rw [if_pos hlow, if_pos hlow]
        rfl
      · rw [if_neg hlow, if_neg hlow, decodeEntry_crowded _ (by omega)]

theorem location_full (hp : IsOop p) : (full a).location p =
    if p = fullChunk a then 0
    else if p = 65532 then 65535
    else if p = 65530 then 65502
    else if p ≤ a ∨ 65504 ≤ p then 0
    else p - 2 := by
  obtain ⟨heven, htwo, hle⟩ := hp
  show fullWord a 15 (p + 1) = _
  rw [fullWord, if_pos rfl, if_neg (by omega), if_neg (by omega)]
  exact if_congr (by omega) rfl (if_congr (by omega) rfl (if_congr (by omega) rfl
    (if_congr (by omega) rfl (by omega))))

theorem inUse_full : InUse (full a) p ↔ IsOop p ∧ (p = fullChunk a ∨ p ≠ 65532) := by
  refine and_congr_right fun hp => ?_
  rw [entry_full hp]
  by_cases hchunk : p = fullChunk a
  · rw [if_pos hchunk]
    exact iff_of_true rfl (.inl hchunk)
  · rw [if_neg hchunk]
    by_cases hfree : p = 65532
    · rw [if_pos hfree]
      exact iff_of_false (by decide) fun hall => hall.elim hchunk fun hne => hne hfree
    · rw [if_neg hfree]
      split
      · exact iff_of_true rfl (.inr hfree)
      · exact iff_of_true rfl (.inr hfree)

theorem holdsObject_full (hp : IsOop p) :
    (full a).holdsObject p = decide (p ≠ fullChunk a ∧ p ≠ 65532) := by
  rw [holdsObject, entry_full hp]
  by_cases hchunk : p = fullChunk a
  · rw [if_pos hchunk]
    exact (decide_eq_false fun hall => hall.2 rfl).trans
      (decide_eq_false fun hall => hall.1 hchunk).symm
  · rw [if_neg hchunk]
    by_cases hfree : p = 65532
    · rw [if_pos hfree]
      exact (decide_eq_false (by decide)).trans (decide_eq_false fun hall => hall.2 hfree).symm
    · rw [if_neg hfree]
      split
      · exact (decide_eq_true ⟨rfl, Nat.one_ne_zero⟩).trans (decide_eq_true ⟨hchunk, hfree⟩).symm
      · exact (decide_eq_true ⟨rfl, Nat.one_ne_zero⟩).trans (decide_eq_true ⟨hchunk, hfree⟩).symm

include ha

/-- Where the objects and the chunk are. -/
theorem span_full (hp : InUse (full a) p) :
    (p = fullChunk a ∧ ((full a).entry p).segment = 14 ∧ (full a).location p = 0 ∧
        fullExtent a p = 65515) ∨
      (a ≤ p ∧ p ≤ 65502 ∧ ((full a).entry p).segment = 0 ∧
        (full a).location p + fullExtent a p = p ∧
        (p = a ∧ (full a).location p = 0 ∨ a < p ∧ (full a).location p + 2 = p)) ∨
      (65504 ≤ p ∧ p ≤ 65528 ∧ ((full a).entry p).segment = p / 2 - 32751 ∧
        (full a).location p = 0 ∧ fullExtent a p = 65515) ∨
      (p = 65530 ∧ ((full a).entry p).segment = 0 ∧ (full a).location p = 65502 ∧
        fullExtent a p = 13) := by
  obtain ⟨hoop, hcase⟩ := inUse_full.mp hp
  obtain ⟨heven, htwo, hle⟩ := hoop
  rw [entry_full hp.1, location_full hp.1, fullExtent]
  by_cases hchunk : p = fullChunk a
  · rw [if_pos hchunk, if_pos hchunk, if_pos hchunk]
    exact .inl ⟨hchunk, rfl, rfl, rfl⟩
  · have hfree := hcase.resolve_left hchunk
    rw [if_neg hchunk, if_neg hchunk, if_neg hchunk, if_neg hfree, if_neg hfree]
    by_cases hlast : p = 65530
    · rw [if_pos (.inr hlast), if_pos hlast, if_neg (by omega), if_neg (by omega), if_pos hlast]
      exact .inr (.inr (.inr ⟨hlast, rfl, rfl, rfl⟩))
    · rw [if_neg hlast, if_neg hlast]
      by_cases hlow : p ≤ 65502
      · rw [if_pos (.inl hlow), if_pos hlow]
        refine .inr (.inl ⟨by omega, hlow, rfl, ?_⟩)
        by_cases hpa : p = a
        · rw [if_pos (by omega), if_pos hpa]
          omega
        · rw [if_neg (by omega), if_neg hpa]
          omega
      · rw [if_neg (by omega), if_pos (by omega), if_neg (by omega), if_neg hlow]
        exact .inr (.inr (.inl ⟨by omega, by omega, rfl, rfl, rfl⟩))

theorem size_full (hp : InUse (full a) p) : (full a).chunkWord p 0 = fullExtent a p := by
  have heven := hp.1.1
  show fullWord a ((full a).entry p).segment ((full a).location p + 0) = _
  rcases span_full ha hp with ⟨-, hs, hl, he⟩ | ⟨hap, hlow, hs, he, hl⟩ |
      ⟨hge, hlt, hs, hl, he⟩ | ⟨-, hs, hl, he⟩
  · rw [hs, hl, he]
    rfl
  · rw [hs]
    rcases hl with ⟨rfl, hl⟩ | ⟨hlt, hl⟩
    · rw [hl] at he ⊢
      have hsize : fullWord p 0 (0 + 0) = if p = 2 then 2 else 4 := rfl
      rw [hsize]
      split <;> omega
    · rw [fullWord, if_neg (by decide), if_neg (by omega), if_neg (by omega), if_pos rfl,
        if_neg (by omega), if_neg (by omega), if_pos (by omega)]
      omega
  · rw [hs, hl, he, fullWord, if_neg (by omega), if_neg (by decide), if_neg (by decide),
      if_neg (by omega), if_pos rfl]
  · rw [hs, hl, he]
    rfl

theorem space_full (hp : InUse (full a) p) : (full a).space p = fullExtent a p := by
  have hpointer : ((full a).entry p).pointer = 0 := by
    rw [entry_full hp.1]
    split
    · rfl
    · split
      · rfl
      · split <;> rfl
  rw [ObjectMemory.space, size_full ha hp, if_pos (.inr hpointer)]

theorem tiled_full : Tiled (full a) (fullExtent a) := by
  refine ⟨fun p hp => ?_, fun p hp => ?_, fun p hp => ?_, fun p q hp hq hne hseg => ?_,
    fun u w hu hw => ?_⟩
  · have := span_full ha hp
    omega
  · have := span_full ha hp
    omega
  · have := span_full ha hp
    omega
  · have hp' := span_full ha hp
    have hq' := span_full ha hq
    have hpe := hp.1.1
    have hqe := hq.1.1
    omega
  · have hin : ∀ p, p % 2 = 0 → 2 ≤ p → p ≤ 65530 → InUse (full a) p := fun p h1 h2 h3 =>
      inUse_full.mpr ⟨⟨h1, h2, by omega⟩, .inr (by omega)⟩
    by_cases h0 : u = 0
    · by_cases hfirst : w < a
      · have hp := hin a (by omega) (by omega) (by omega)
        have := span_full ha hp
        exact ⟨a, hp, by omega, by omega, by omega⟩
      · by_cases hlow : w < 65502
        · have hp := hin (2 * (w / 2) + 2) (by omega) (by omega) (by omega)
          have := span_full ha hp
          exact ⟨2 * (w / 2) + 2, hp, by omega, by omega, by omega⟩
        · have hp := hin 65530 rfl (by decide) le_rfl
          have := span_full ha hp
          exact ⟨65530, hp, by omega, by omega, by omega⟩
    · by_cases h14 : u = 14
      · have hoop : IsOop (fullChunk a) := ⟨by omega, by omega, by omega⟩
        have hp : InUse (full a) (fullChunk a) := inUse_full.mpr ⟨hoop, .inl rfl⟩
        have := span_full ha hp
        exact ⟨fullChunk a, hp, by omega, by omega, by omega⟩
      · have hp := hin (2 * (u + 32751)) (by omega) (by omega) (by omega)
        have := span_full ha hp
        exact ⟨2 * (u + 32751), hp, by omega, by omega, by omega⟩

omit ha in
theorem mem_chunks_full (hp : p ∈ (fullLayout a).chunks u k) : u = 14 ∧ k = 20 ∧ p = fullChunk a := by
  change p ∈ if u = 14 ∧ k = 20 then [fullChunk a] else [] at hp
  split at hp
  · next hc => exact ⟨hc.1, hc.2, List.mem_singleton.mp hp⟩
  · cases hp

theorem heap_full : Heap (full a) (fullLayout a) := by
  have hfirst : firstFreeChunkList = 65515 := rfl
  have hoop : IsOop (fullChunk a) := ⟨by omega, by omega, by omega⟩
  have hin : InUse (full a) (fullChunk a) := inUse_full.mpr ⟨hoop, .inl rfl⟩
  have hentry := entry_full (a := a) hoop
  have hlocation := location_full (a := a) hoop
  rw [if_pos rfl] at hentry hlocation
  have hsize := size_full ha hin
  have hextent : fullExtent a (fullChunk a) = 65515 := if_pos rfl
  refine ⟨tiled_full ha, ⟨?_, fun p => ?_, fun u k hu h2 h20 => ?_, fun u k p hp => ?_,
    fun u k k' p hp hp' => ?_⟩, fun u k p hp => ?_, fun p hp => ?_⟩
  · show Linked (full a).location nonPointer (if a = 2 then 65535 else 65532)
      (if a = 2 then [] else [65532])
    split
    · rfl
    · refine ⟨rfl, by decide, ?_⟩
      rw [location_full ⟨rfl, by decide, le_rfl⟩, if_neg (by omega), if_pos rfl]
      rfl
  · show p ∈ (if a = 2 then [] else [65532]) ↔ _
    constructor
    · intro hp
      split at hp
      · cases hp
      · obtain rfl := List.mem_singleton.mp hp
        have hoop : IsOop 65532 := ⟨rfl, by decide, le_rfl⟩
        rw [entry_full hoop, if_neg (by omega), if_pos rfl]
        exact ⟨hoop, rfl⟩
    · rintro ⟨hp, hfree⟩
      have hnot : ¬(p = fullChunk a ∨ p ≠ 65532) := fun hcase => by
        have h0 := (inUse_full.mpr ⟨hp, hcase⟩).2
        omega
      rw [if_neg (by omega), List.mem_singleton]
      omega
  · show Linked _ _ (fullWord a u (firstFreeChunkList + k))
      (if u = 14 ∧ k = 20 then [fullChunk a] else [])
    rw [fullWord, if_neg (by omega)]
    by_cases hk : u = 14 ∧ k = 20
    · rw [if_pos hk, if_pos (by omega), if_pos hk.1]
      refine ⟨rfl, by simp only [nonPointer]; omega, ?_⟩
      show fullWord a ((full a).entry (fullChunk a)).segment ((full a).location (fullChunk a) + 1) = _
      rw [hentry, hlocation]
      rfl
    · rw [if_neg hk]
      by_cases hk20 : k = 20
      · rw [if_pos (by omega), if_neg fun hu14 => hk ⟨hu14, hk20⟩]
        rfl
      · rw [if_neg (by omega), if_pos (by omega)]
        rfl
  · obtain ⟨rfl, rfl, rfl⟩ := mem_chunks_full hp
    exact ⟨hin, by rw [hentry], by decide, by decide, by decide, fun hlt => absurd hlt (by decide),
      by rw [hentry]⟩
  · rw [(mem_chunks_full hp).2.1, (mem_chunks_full hp').2.1]
  · obtain ⟨-, -, rfl⟩ := mem_chunks_full hp
    exact hsize.symm
  · exact (space_full ha hp.inUse).symm

end Full

section FullTable

theorem fullChunk_two : fullChunk 2 = 65532 ∧ 2 = 2 ∨ fullChunk 2 = 2 ∧ 2 = 4 := .inl ⟨rfl, rfl⟩

theorem holdsObject_fullTable (hp : IsOop p) :
    (full 2).holdsObject p = decide (p ≠ 65532) := by
  rw [holdsObject_full hp]
  exact decide_eq_decide.mpr ⟨fun hall => hall.2, fun hne => ⟨hne, hne⟩⟩

/-- The small objects come first, then those that fill a segment, and then the last one. -/
theorem space_fullTable (hn : n < 32765) : (full 2).holdsObject (2 * (n + 1)) = true ∧
    (n < 32751 ∧ (full 2).space (2 * (n + 1)) = 2 ∨
      32751 ≤ n ∧ n < 32764 ∧ (full 2).space (2 * (n + 1)) = 65515 ∨
      n = 32764 ∧ (full 2).space (2 * (n + 1)) = 13) := by
  have hoop : IsOop (2 * (n + 1)) := ⟨by omega, by omega, by omega⟩
  have hne : 2 * (n + 1) ≠ 65532 := by omega
  have hin : InUse (full 2) (2 * (n + 1)) := inUse_full.mpr ⟨hoop, .inr hne⟩
  have hchunk : fullChunk 2 = 65532 := rfl
  refine ⟨(holdsObject_fullTable hoop).trans (decide_eq_true hne), ?_⟩
  have hspan := span_full fullChunk_two hin
  rw [space_full fullChunk_two hin]
  omega

theorem packed_full (hn : n ≤ 32765) :
    (n ≤ 32751 → (full 2).packed n = ⟨0, 2 * n⟩) ∧
      (32751 < n → n ≤ 32764 → (full 2).packed n = ⟨n - 32751, 65515⟩) ∧
      (n = 32765 → (full 2).packed n = ⟨14, 13⟩) := by
  induction n with
  | zero => exact ⟨fun _ => rfl, fun hlt => by omega, fun heq => by omega⟩
  | succ n ih =>
      obtain ⟨hsmall, hbig, -⟩ := ih (by omega)
      obtain ⟨hobj, hspace⟩ := space_fullTable (n := n) (by omega)
      rw [packed_succ_of_object hobj]
      rcases hspace with ⟨hlt, hspace⟩ | ⟨hge, hlt, hspace⟩ | ⟨rfl, hspace⟩
      · rw [hspace, hsmall (by omega), Bin.put_fits (by dsimp only; omega)]
        exact ⟨fun _ => rfl, fun hlt => by omega, fun heq => by omega⟩
      · refine ⟨fun hle => by omega, fun _ _ => ?_, fun heq => by omega⟩
        rw [hspace]
        by_cases hfirst : n = 32751
        · rw [hsmall (by omega), Bin.put_next (by dsimp only; omega), Bin.mk.injEq]
          dsimp only
          omega
        · rw [hbig (by omega) (by omega), Bin.put_next (by dsimp only; omega), Bin.mk.injEq]
          dsimp only
          omega
      · refine ⟨fun hle => by omega, fun _ hle => by omega, fun _ => ?_⟩
        rw [hspace, hbig (by omega) (by omega), Bin.put_next (by dsimp only; omega)]

theorem holdsObject_full_last : ¬(full 2).holdsObject (2 * (32765 + 1)) = true := by
  rw [holdsObject_fullTable ⟨rfl, by decide, by decide⟩]
  decide

theorem packed_full_last : (full 2).packed 32766 = ⟨14, 13⟩ := by
  rw [packed_succ_of_free holdsObject_full_last]
  exact (packed_full le_rfl).2.2 rfl

/-- Next fit gives 65502 words of segment 0 to objects, and 13 words of segment 14. -/
theorem packedWords_full (hn : n ≤ 32766) : (full 2).packedWords 0 n ≤ 2 * min n 32751 ∧
    (n ≤ 32764 → (full 2).packedWords 14 n = 0) ∧ (full 2).packedWords 14 n ≤ 13 := by
  induction n with
  | zero => exact ⟨le_rfl, fun _ => rfl, Nat.zero_le _⟩
  | succ n ih =>
      obtain ⟨h0, hnone, h14⟩ := ih (by omega)
      rw [packedWords, packedWords]
      by_cases hlast : n = 32765
      · subst hlast
        rw [if_neg fun hall => holdsObject_full_last hall.1,
          if_neg fun hall => holdsObject_full_last hall.1]
        omega
      · obtain ⟨hobj, hspace⟩ := space_fullTable (n := n) (by omega)
        obtain ⟨hsmall, hbig, hend⟩ := packed_full (n := n + 1) (by omega)
        rcases hspace with ⟨hlt, hspace⟩ | ⟨hge, hlt, hspace⟩ | ⟨rfl, hspace⟩
        · have hnone := hnone (by omega)
          rw [hsmall (by omega), hspace, if_pos ⟨hobj, rfl⟩,
            if_neg fun hall => absurd (show 0 = 14 from hall.2) (by decide)]
          omega
        · have hnone := hnone (by omega)
          rw [hbig (by omega) (by omega), if_neg fun hall => by
              have heq : n + 1 - 32751 = 0 := hall.2
              omega,
            if_neg fun hall => by
              have heq : n + 1 - 32751 = 14 := hall.2
              omega]
          omega
        · have hnone := hnone le_rfl
          rw [hend rfl, hspace, if_neg fun hall => absurd hall.2 (by decide),
            if_pos ⟨hobj, rfl⟩]
          omega

/-- Segments 0 and 14 have rests, and only one oop has no object. -/
theorem not_suffices_full : ¬(full 2).Suffices := fun hsuffices => by
  obtain ⟨h0, -, h14⟩ := packedWords_full le_rfl
  have hheader : headerSize = 2 := rfl
  have hrests : ({0, 14} : Finset Nat).card ≤ (full 2).rests 15 := by
    refine Finset.card_le_card fun u hu => ?_
    rw [Finset.mem_filter, Finset.mem_range]
    rcases Finset.mem_insert.mp hu with rfl | hu
    · exact ⟨by decide, by omega⟩
    · obtain rfl := Finset.mem_singleton.mp hu
      exact ⟨by decide, by omega⟩
  have hspare : (full 2).spare ≤ ({65532} : Finset Nat).card := by
    refine Finset.card_le_card fun p hp => ?_
    obtain ⟨-, hoop, hobj⟩ := Finset.mem_filter.mp hp
    rw [holdsObject_fullTable hoop] at hobj
    exact Finset.mem_singleton.mpr (not_not.mp (of_decide_eq_false hobj))
  have htwo : ({0, 14} : Finset Nat).card = 2 := rfl
  have hone : ({65532} : Finset Nat).card = 1 := rfl
  have hle := hsuffices.1
  omega

theorem wordsBefore_full (hn : n ≤ 32765) : (full 2).wordsBefore n ≤
    2 * n + 65513 * (n - 32751) := by
  induction n with
  | zero => exact le_rfl
  | succ n ih =>
      have ih := ih (by omega)
      obtain ⟨hobj, hspace⟩ := space_fullTable (n := n) (by omega)
      have hsize := ObjectMemory.size_le_space (m := full 2) (p := 2 * (n + 1))
      rw [wordsBefore, objectWords, hobj, if_pos rfl]
      omega

theorem saveable_full : (full 2).Saveable := by
  have hnil : (full 2).holdsObject nilPointer = true :=
    (holdsObject_fullTable ⟨rfl, le_rfl, by decide⟩).trans (decide_eq_true (by decide))
  have hlast := lastUsed_le_of_object hnil ⟨rfl, le_rfl, by decide⟩
  constructor
  · intro i hi
    rw [storedObjectTableLength] at hi
    have hp : IsOop (2 * (i + 1)) := ⟨by omega, by omega, by omega⟩
    refine ⟨hp.isEntry, fun hobj => ?_⟩
    rw [holdsObject_fullTable hp] at hobj
    have hin : InUse (full 2) (2 * (i + 1)) :=
      inUse_full.mpr ⟨hp, .inr (of_decide_eq_true hobj)⟩
    have hinside := (tiled_full fullChunk_two).inside _ hin
    have htwo := (tiled_full fullChunk_two).two_le _ hin
    rw [size_full fullChunk_two hin]
    omega
  · intro i hi
    rw [storedObjectTableLength] at hi
    refine ⟨⟨by omega, by omega⟩, fun _ _ => ?_⟩
    have hwords := wordsBefore_full (n := i - 1) (by omega)
    omega

/-- The full table is saved and loaded: there is no entry for the rest of segment 14, and
nil, which is an object, is put on a list of free chunks. -/
theorem not_restored_full : Heap (full 2) (fullLayout 2) ∧ ∃ h' g',
    saveSnapshot (running (full 2)) = some (true, h') ∧
    loadSnapshot 1 { running (full 2) with file.bytes := h'.file.bytes } = some (true, g') ∧
    ¬Restored (full 2) g'.memory := by
  have hheap := heap_full fullChunk_two
  have hnil : (full 2).holdsObject nilPointer = true :=
    (holdsObject_fullTable ⟨rfl, le_rfl, by decide⟩).trans (decide_eq_true (by decide))
  have hspace : ∀ p, IsOop p → (full 2).holdsObject p → (full 2).space p ≤ 65515 :=
    fun p hp hobj => hheap.space_le hp hobj
  have hpacks : (full 2).Packs := by
    rw [ObjectMemory.Packs, packed_full_last]
    decide
  obtain ⟨h', g', hsave, hload⟩ :=
    exists_load ⟨saveable_full, hheap.sized, hspace, .inl hnil⟩ hpacks
  have himage := (saved_image (h := running (full 2)) (fun _ => rfl) hsave).2
  have hrun := unpack_of_loadSnapshot
    (g := { running (full 2) with file.bytes := h'.file.bytes })
    (readable_image saveable_full hheap.sized) himage (fun _ => rfl) (.inl rfl) hload
  have hiff := wlp_unpack_restored saveable_full hheap.sized hspace _ _ hrun rfl
  exact ⟨hheap, h', g', hsave, hload, fun hrestored => not_suffices_full (hiff.mp hrestored)⟩

end FullTable

end Crosstalk
