import Crosstalk.Lib.NextFit
import Crosstalk.Snapshot.BootModes
import Crosstalk.Snapshot.Readback

/-!
# Packing the objects of an image

The loader places the objects of a saved image by next fit, in the order of
their oops. It never halts on such an image, and it answers true exactly when
the fifteen heap segments suffice.
-/

namespace Crosstalk

open ObjectMemory

variable {bytes : List UInt8} {m m₁ s : ObjectMemory} {p q i n k base : Nat} {d : Destination}

/-! ## The spaces of the saved objects -/

namespace ObjectMemory

/-- The spaces of the objects among the first `n` oops. -/
def savedSpaces (m : ObjectMemory) (n : Nat) : List Nat :=
  (List.range n).flatMap fun i =>
    if m.holdsObject (2 * (i + 1)) then [m.space (2 * (i + 1))] else []

/-- The place after the objects among the first `n` oops, by next fit in heap
segments of 65515 words. -/
def packed (m : ObjectMemory) (n : Nat) : Bin := Bin.putAll 65515 ⟨0, 0⟩ (m.savedSpaces n)

/-- The words of segment `u` that next fit gives to the objects among the first `n`
oops. -/
def packedWords (m : ObjectMemory) (u : Nat) : Nat → Nat
  | 0 => 0
  | n + 1 => m.packedWords u n +
      if m.holdsObject (2 * (n + 1)) ∧ (m.packed (n + 1)).bin = u then m.space (2 * (n + 1)) else 0

/-- The objects can be loaded: next fit needs the fifteen heap segments at most. -/
def Packs (m : ObjectMemory) : Prop := (m.packed 32766).bin < 15

instance : Decidable m.Packs := inferInstanceAs (Decidable (_ < _))

theorem savedSpaces_succ (n : Nat) : m.savedSpaces (n + 1) = m.savedSpaces n ++
    if m.holdsObject (2 * (n + 1)) then [m.space (2 * (n + 1))] else [] := by
  rw [savedSpaces, List.range_succ, List.flatMap_append, List.flatMap_singleton]
  rfl

theorem packed_succ_of_object (hobj : m.holdsObject (2 * (n + 1)) = true) :
    m.packed (n + 1) = (m.packed n).put 65515 (m.space (2 * (n + 1))) := by
  rw [packed, savedSpaces_succ, if_pos hobj, Bin.putAll_append]
  rfl

theorem packed_succ_of_free (hobj : ¬m.holdsObject (2 * (n + 1)) = true) :
    m.packed (n + 1) = m.packed n := by
  rw [packed, savedSpaces_succ, if_neg hobj, List.append_nil]
  rfl

theorem bin_packed_le (h : i ≤ n) : (m.packed i).bin ≤ (m.packed n).bin := by
  induction n, h using Nat.le_induction with
  | base => exact le_rfl
  | succ n _ ih =>
      refine ih.trans ?_
      by_cases hobj : m.holdsObject (2 * (n + 1)) = true
      · rw [packed_succ_of_object hobj]
        exact Bin.bin_le_put
      · rw [packed_succ_of_free hobj]

/-! ## The last oop in use -/

theorem le_lastUsedFrom {l : Nat} (hn : n ≤ 32766) (hl : l ≤ objectTableSize - 2 * n) :
    l ≤ m.lastUsedFrom n l := by
  induction n generalizing l with
  | zero => exact le_rfl
  | succ n ih =>
      simp only [objectTableSize, segmentSize] at hl
      rw [ObjectMemory.lastUsedFrom]
      split
      · refine le_trans hl (ih (by omega) ?_)
        simp only [objectTableSize, segmentSize]
        omega
      · refine ih (by omega) ?_
        simp only [objectTableSize, segmentSize]
        omega

theorem le_lastUsedFrom_of_object {l : Nat} (hobj : m.holdsObject p = true) (hp : IsOop p)
    (hn : n ≤ 32766) (hge : objectTableSize - 2 * n ≤ p) : p ≤ m.lastUsedFrom n l := by
  have heven := hp.1
  have hle := hp.2.2
  simp only [objectTableSize, segmentSize] at hge
  induction n generalizing l with
  | zero => omega
  | succ n ih =>
      rw [ObjectMemory.lastUsedFrom]
      by_cases hpn : p = objectTableSize - 2 * (n + 1)
      · rw [← hpn, if_pos hobj]
        refine le_lastUsedFrom (by omega) ?_
        simp only [objectTableSize, segmentSize] at hpn ⊢
        omega
      · simp only [objectTableSize, segmentSize] at hpn
        exact ih (by omega) (by omega)

/-- The last oop in use is one, where there is an object. -/
theorem lastUsedFrom_le_of_object {l : Nat} (hobj : m.holdsObject p = true) (hp : IsOop p)
    (hn : n ≤ 32766) (hge : objectTableSize - 2 * n ≤ p) : m.lastUsedFrom n l ≤ 65532 := by
  have heven := hp.1
  have hle := hp.2.2
  simp only [objectTableSize, segmentSize] at hge
  induction n generalizing l with
  | zero => omega
  | succ n ih =>
      rw [ObjectMemory.lastUsedFrom]
      by_cases hpn : p = objectTableSize - 2 * (n + 1)
      · rw [← hpn, if_pos hobj]
        rcases lastUsedFrom_cases m (n := n) (l := p) (by omega) with heq | ⟨-, -, -, hle'⟩
        · rwa [heq]
        · exact hle'
      · simp only [objectTableSize, segmentSize] at hpn
        exact ih (by omega) (by omega)

theorem lastUsed_le_of_object (hobj : m.holdsObject p = true) (hp : IsOop p) :
    m.lastUsed ≤ 65532 := by
  refine lastUsedFrom_le_of_object hobj hp (by decide) ?_
  have := hp.2.1
  simp only [objectTableSize, segmentSize]
  omega

/-- Every object is in the stored object table. -/
theorem lt_storedObjectTableLength (hobj : m.holdsObject p = true) (hp : IsOop p) :
    p < m.storedObjectTableLength := by
  have h : p ≤ m.lastUsed := by
    refine le_lastUsedFrom_of_object hobj hp (by decide) ?_
    have := hp.2.1
    simp only [objectTableSize, segmentSize]
    omega
  rw [storedObjectTableLength]
  omega

/-! ## The table after loading -/

section Loaded

variable (hm : m.Saveable) (h₁ : TableLoaded m.image m₁)

include hm h₁

omit h₁ in
theorem toNat_tableLength_image : (tableLength m.image).toNat = m.storedObjectTableLength := by
  rw [tableLength_image hm.tableSize]
  exact Int.toNat_natCast _

theorem free_iff (hp : IsOop p) : (m₁.entry p).free = 0 ↔ m.holdsObject p = true := by
  have ht := toNat_tableLength_image hm
  constructor
  · intro h0
    obtain ⟨hlt, hentry, -⟩ := h₁.live p hp h0
    rw [hentry] at h0
    exact (imageEntry_free_iff hm hp (ht ▸ hlt)).mp h0
  · intro hobj
    have hlt := lt_storedObjectTableLength hobj hp
    rw [h₁.entry p hp (ht.symm ▸ hlt)]
    exact (imageEntry_free_iff hm hp hlt).mpr hobj

/-- What the loader reads of an object. -/
theorem entry_object (hp : IsOop p) (hobj : m.holdsObject p = true) :
    (∃ t, m₁.entry p = { m.entry p with segment := t }) ∧
      ((m₁.entry p).segment <<< 16) + m₁.location p = m.wordsBefore (p / 2 - 1) := by
  have hlt := lt_storedObjectTableLength hobj hp
  have hentry := h₁.live p hp ((free_iff hm h₁ hp).mpr hobj)
  refine ⟨⟨m.wordsBefore (p / 2 - 1) >>> 16, ?_⟩, ?_⟩
  · rw [hentry.2.1, (image_entry hm hp hlt).1, if_pos hobj]
  · rw [hentry.2.1, hentry.2.2, image_address hm hp hlt hobj]

end Loaded

end ObjectMemory

/-! ## One object -/

/-- Moving an object changes its entry, and its words on the heap. -/
structure Moved (p : Nat) (d : Destination) (s s' : ObjectMemory) : Prop where
  entry : s'.entry p = { s.entry p with segment := d.segment }
  location : s'.location p = d.word
  others : ∀ q, q % 2 = 0 → q ≠ p → s'.entry q = s.entry q ∧ s'.location q = s.location q
  freeHead : s'.freeHead = s.freeHead

theorem Moved.setChunkWord {s' : ObjectMemory} {v : Nat} (h : Moved p d s s') (hd : d.segment < 15) :
    Moved p d s (s'.setChunkWord p i v) := by
  have hseg : (s'.entry p).segment ≠ 15 := by
    rw [h.entry]
    exact Nat.ne_of_lt hd
  refine ⟨by rw [entry_setChunkWord hseg, h.entry], by rw [location_setChunkWord hseg, h.location],
    fun q hq hne => ?_, by rw [freeHead_setChunkWord hseg, h.freeHead]⟩
  rw [entry_setChunkWord hseg, location_setChunkWord hseg]
  exact h.others q hq hne

/-- A store in the object that has been moved. -/
theorem Moved.setChunkWord_eq {s' : ObjectMemory} {v : Nat} (h : Moved p d s s') :
    s'.setChunkWord p i v = s'.setWord d.segment (d.word + i) v := by
  rw [ObjectMemory.setChunkWord, h.entry, h.location]

/-- The first `n` words of the object at byte `base`, of `size` words, are at the
destination, and no others of the heap have changed. -/
structure Copied (bytes : List UInt8) (base size : Nat) (d : Destination) (n : Nat)
    (s s' : ObjectMemory) : Prop where
  words : ∀ j < n, s'.word d.segment (d.word + j) = wordAt bytes (base + 2 * j)
  frame : ∀ t w, t ≠ 15 → ¬(t = d.segment ∧ d.word ≤ w ∧ w < d.word + size) →
    s'.word t w = s.word t w

theorem Copied.next {s' : ObjectMemory} {size v : Nat} (h : Copied bytes base size d n s s')
    (hn : n < size) (hv : v = wordAt bytes (base + 2 * n)) :
    Copied bytes base size d (n + 1) s (s'.setWord d.segment (d.word + n) v) := by
  have hlt : v < 65536 := hv ▸ Crosstalk.wordAt_lt _ _
  refine ⟨fun j hj => ?_, fun t w ht hw => ?_⟩
  · rw [word_setWord]
    by_cases hjn : j = n
    · rw [hjn, if_pos ⟨rfl, rfl⟩, Nat.mod_eq_of_lt hlt, hv]
    · rw [if_neg (by omega)]
      exact h.words j (by omega)
  · rw [word_setWord, if_neg (by omega)]
    exact h.frame t w ht hw

theorem wp_unpackWords (hp : IsOop p) (hd : d.segment < 15) (hsize : 2 ≤ wordAt bytes base)
    (hin : d.word + wordAt bytes base ≤ 65515) :
    Wp (unpackWords bytes base p d) (fun _ s' => Moved p d s s' ∧
      Copied bytes base (wordAt bytes base) d (wordAt bytes base) s s') s := by
  have hw := Crosstalk.wordAt_lt bytes base
  have hw' := Crosstalk.wordAt_lt bytes (base + 2)
  have hentry := hp.isEntry
  have hheader : headerSize = 2 := rfl
  have hmoved : Moved p d s ((s.setSegment p d.segment).setLocation p d.word) := by
    refine ⟨?_, ?_, fun q hq hne => ?_, ?_⟩
    · rw [entry_setLocation (by omega), entry_setSegment (by omega), if_pos rfl]
    · rw [location_setLocation (by omega), if_pos rfl]
    · rw [entry_setLocation (by omega), entry_setSegment (by omega), if_neg hne,
        location_setLocation (by omega), if_neg hne, setSegment, location_setField (by omega)]
      exact ⟨rfl, rfl⟩
    · rw [freeHead_setLocation hp.2.2, setSegment, freeHead_setField hp.2.2]
  have hcopied : Copied bytes base (wordAt bytes base) d 0 s
      ((s.setSegment p d.segment).setLocation p d.word) := by
    refine ⟨fun j hj => absurd hj (Nat.not_lt_zero j), fun t w ht _ => ?_⟩
    rw [word_setLocation_of_ne fun h => ht h.1, setSegment, word_setField ht]
  -- the words so far, the size first, so that the fields are within the object
  let Inv : Nat → ObjectMemory → Prop := fun n s' => Moved p d s s' ∧
    Copied bytes base (wordAt bytes base) d n s s'
  have hput : ∀ n s' v, n < wordAt bytes base → v = wordAt bytes (base + 2 * n) → Inv n s' →
      Inv (n + 1) (s'.setChunkWord p n v) := by
    intro n s' v hn hv h
    refine ⟨h.1.setChunkWord hd, ?_⟩
    rw [h.1.setChunkWord_eq]
    exact h.2.next hn hv
  have hone := hput 0 _ _ (by omega) rfl ⟨hmoved, hcopied⟩
  have htwo := hput 1 _ _ (by omega) rfl hone
  rw [unpackWords, wp_bind, wp_segmentBitsOfPut, and_iff_right ⟨hentry, by omega⟩, wp_bind,
    wp_locationBitsOfPut, and_iff_right ⟨hentry, by omega⟩, wp_bind, wp_sizeBitsOfPut,
    and_iff_right ⟨hentry, by rw [hmoved.location]; omega, hw⟩, wp_bind, wp_classBitsOfPut,
    and_iff_right ⟨hentry, by rw [(hmoved.setChunkWord hd).location]; omega, hw'⟩]
  refine (wp_forN (fun n => Inv (2 + n)) (fun n s' hn h => ?_) htwo).mono fun _ _ h => ?_
  · have hsize' : s'.chunkWord p 0 = wordAt bytes base := by
      rw [chunkWord, h.1.entry, h.1.location]
      exact h.2.words 0 (by omega)
    rw [unpackField, wp_storeWordOfObjectWithValue]
    refine ⟨⟨⟨hentry, by omega, ?_, ?_⟩, Crosstalk.wordAt_lt _ _⟩,
      hput (2 + n) s' _ (by omega) (congrArg (wordAt bytes) (by omega)) h⟩
    · rw [hsize']
      omega
    · rw [h.1.location, Int.toNat_natCast]
      omega
  · rwa [show 2 + (wordAt bytes base - headerSize) = wordAt bytes base by omega] at h

/-! ## The destination -/

/-- The destination is the bin in use; the segments after it are empty. -/
structure Tracks (d : Destination) (b : Bin) : Prop where
  segment : d.segment = b.bin
  segment_lt : d.segment < 15
  word : d.word = b.used
  used_le : b.used ≤ 65515
  current : d.heapSpaceRemaining d.segment = 65515 - (b.used : Int)
  fresh : ∀ s, d.segment < s → d.heapSpaceRemaining s = 65515
  bounds : ∀ s, 0 ≤ d.heapSpaceRemaining s ∧ d.heapSpaceRemaining s ≤ 65515

theorem tracks_start : Tracks .start ⟨0, 0⟩ :=
  ⟨rfl, by decide, rfl, by decide, rfl, fun _ _ => rfl,
    fun _ => ⟨(by decide : (0 : Int) ≤ 65515), (by decide : (65515 : Int) ≤ 65515)⟩⟩

variable {b : Bin} {space : Nat}

/-- The loader advances by next fit. -/
theorem Tracks.advance (h : Tracks d b) (hspace : space ≤ 65515) :
    (d.advance space).segment = (b.put 65515 space).bin ∧ ((d.advance space).segment < 15 →
      (d.advance space).word + space ≤ 65515 ∧
        Tracks ((d.advance space).take space) (b.put 65515 space)) := by
  have hcurrent := h.current
  have hused := h.used_le
  have hword := h.word
  by_cases hfits : b.used + space ≤ 65515
  · have hadvance : d.advance space = d := if_neg (by omega)
    rw [hadvance, Bin.put_fits hfits]
    refine ⟨h.segment, fun hlt => ⟨by omega, h.segment, hlt, ?_, hfits, ?_, fun s hs => ?_,
      fun s => ?_⟩⟩
    · exact congrArg (· + space) hword
    · show (if d.segment = d.segment then d.heapSpaceRemaining d.segment - space else _) = _
      rw [if_pos rfl]
      push_cast
      omega
    · have hs : d.segment < s := hs
      show (if s = d.segment then _ else d.heapSpaceRemaining s) = _
      rw [if_neg (by omega), h.fresh s hs]
    · show 0 ≤ (if s = d.segment then d.heapSpaceRemaining s - space else _) ∧
        (if s = d.segment then d.heapSpaceRemaining s - space else _) ≤ 65515
      have hbounds := h.bounds s
      split
      · next hs =>
          subst hs
          omega
      · exact hbounds
  · have hadvance : d.advance space = { d with segment := d.segment + 1, word := 0 } :=
      if_pos (by omega)
    have hfresh := h.fresh (d.segment + 1) (Nat.lt_succ_self _)
    rw [hadvance, Bin.put_next hfits]
    refine ⟨congrArg (· + 1) h.segment, fun hlt => ⟨?_, congrArg (· + 1) h.segment, hlt, ?_, hspace,
      ?_, fun s hs => ?_, fun s => ?_⟩⟩
    · show 0 + space ≤ _
      omega
    · exact Nat.zero_add _
    · show (if d.segment + 1 = d.segment + 1 then d.heapSpaceRemaining (d.segment + 1) - space
        else _) = _
      rw [if_pos rfl, hfresh]
    · have hs : d.segment + 1 < s := hs
      show (if s = d.segment + 1 then _ else d.heapSpaceRemaining s) = _
      rw [if_neg (by omega), h.fresh s (by omega)]
    · show 0 ≤ (if s = d.segment + 1 then d.heapSpaceRemaining s - space else _) ∧
        (if s = d.segment + 1 then d.heapSpaceRemaining s - space else _) ≤ 65515
      have hbounds := h.bounds s
      split
      · next hs =>
          subst hs
          omega
      · exact hbounds

/-! ## All objects -/

/-- The objects up to `n` have been moved; later entries and free ones are as
they were. -/
structure Unpacked (m₁ : ObjectMemory) (n : Nat) (s : ObjectMemory) : Prop where
  kept : ∀ q, IsOop q → n < q ∨ (m₁.entry q).free = 1 →
    s.entry q = m₁.entry q ∧ s.location q = m₁.location q
  nil : nilPointer ≤ n → (m₁.entry nilPointer).free = 0 →
    (s.entry nilPointer).segment < 15 ∧ s.location nilPointer + 1 < 65536
  freeHead : s.freeHead = m₁.freeHead

theorem Unpacked.skip (h : Unpacked m₁ n s) (hfree : ∀ q, IsOop q → n < q → q ≤ k →
    (m₁.entry q).free = 1) (hnk : n ≤ k) : Unpacked m₁ k s := by
  refine ⟨fun q hq hcase => h.kept q hq ?_, fun hle h0 => ?_, h.freeHead⟩
  · rcases hcase with hlt | h1
    · exact .inl (by omega)
    · exact .inr h1
  · by_cases hn : nilPointer ≤ n
    · exact h.nil hn h0
    · have h1 := hfree nilPointer ⟨rfl, le_rfl, by decide⟩ (by omega) hle
      omega

theorem Unpacked.moved {s' : ObjectMemory} (h : Unpacked m₁ n s) (hmoved : Moved p d s s')
    (hp : IsOop p) (hpn : p = n + 2) (h0 : (m₁.entry p).free = 0) (hd : d.segment < 15)
    (hword : d.word + 1 < 65536) : Unpacked m₁ p s' := by
  refine ⟨fun q hq hcase => ?_, fun hle hnil => ?_, hmoved.freeHead.trans h.freeHead⟩
  · have hne : q ≠ p := by
      rintro rfl
      omega
    rw [(hmoved.others q hq.1 hne).1, (hmoved.others q hq.1 hne).2]
    exact h.kept q hq (hcase.imp_left fun hlt => by omega)
  · by_cases hne : nilPointer = p
    · rw [hne, hmoved.entry, hmoved.location]
      exact ⟨hd, hword⟩
    · obtain ⟨hentry, hlocation⟩ := hmoved.others nilPointer rfl hne
      rw [hentry, hlocation]
      have := hp.1
      simp only [nilPointer] at hne hle ⊢
      exact h.nil (by simp only [nilPointer]; omega) hnil

/-- The objects up to oop `2 * n` are where next fit puts them, with the words
they have in `m`, and fill the segments up to what remains of them. -/
structure Filled (m : ObjectMemory) (n : Nat) (d : Destination) (s : ObjectMemory) : Prop where
  entry : ∀ p, IsOop p → p ≤ 2 * n → m.holdsObject p →
    s.entry p = { m.entry p with segment := (m.packed (p / 2)).bin }
  location : ∀ p, IsOop p → p ≤ 2 * n → m.holdsObject p →
    s.location p + m.space p = (m.packed (p / 2)).used
  words : ∀ p, IsOop p → p ≤ 2 * n → m.holdsObject p → ∀ j < m.chunkWord p 0,
    s.word (m.packed (p / 2)).bin (s.location p + j) = m.chunkWord p j
  below : ∀ p, IsOop p → p ≤ 2 * n → m.holdsObject p →
    ((m.packed (p / 2)).used : Int) ≤ 65515 - d.heapSpaceRemaining (m.packed (p / 2)).bin
  cover : ∀ t w : Nat, (w : Int) < 65515 - d.heapSpaceRemaining t →
    ∃ p, IsOop p ∧ p ≤ 2 * n ∧ m.holdsObject p ∧ (m.packed (p / 2)).bin = t ∧
      s.location p ≤ w ∧ w < s.location p + m.space p
  remaining : ∀ t, d.heapSpaceRemaining t + m.packedWords t n = 65515

theorem filled_start : Filled m 0 .start s := by
  have hnone : ∀ p, IsOop p → ¬p ≤ 2 * 0 := fun p hp hle => by
    have := hp.2.1
    omega
  refine ⟨fun p hp hle => absurd hle (hnone p hp), fun p hp hle => absurd hle (hnone p hp),
    fun p hp hle => absurd hle (hnone p hp), fun p hp hle => absurd hle (hnone p hp),
    fun t w hw => ?_, fun _ => rfl⟩
  have hstart : Destination.start.heapSpaceRemaining t = 65515 := rfl
  omega

theorem Filled.skip (h : Filled m n d s) (hobj : ¬m.holdsObject (2 * (n + 1)) = true) :
    Filled m (n + 1) d s := by
  have hle : ∀ p, IsOop p → p ≤ 2 * (n + 1) → m.holdsObject p → p ≤ 2 * n := by
    intro p hp hle hpobj
    have heven := hp.1
    by_contra hgt
    obtain rfl : p = 2 * (n + 1) := by omega
    exact hobj hpobj
  refine ⟨fun p hp hp' ho => h.entry p hp (hle p hp hp' ho) ho,
    fun p hp hp' ho => h.location p hp (hle p hp hp' ho) ho,
    fun p hp hp' ho => h.words p hp (hle p hp hp' ho) ho,
    fun p hp hp' ho => h.below p hp (hle p hp hp' ho) ho, fun t w hw => ?_, fun t => ?_⟩
  · obtain ⟨p, hp, hp', hrest⟩ := h.cover t w hw
    exact ⟨p, hp, by omega, hrest⟩
  · rw [packedWords, if_neg fun hall => hobj hall.1]
    exact h.remaining t

/-- The next object goes above all objects of its segment. -/
theorem Filled.next {s' : ObjectMemory} {size : Nat} (h : Filled m n d s)
    (hd : Tracks d (m.packed n)) (hp : IsOop (2 * (n + 1)))
    (hobj : m.holdsObject (2 * (n + 1)) = true)
    (htracks : Tracks ((d.advance (m.space (2 * (n + 1)))).take (m.space (2 * (n + 1))))
      (m.packed (n + 1)))
    (hmoved : Moved (2 * (n + 1)) (d.advance (m.space (2 * (n + 1)))) s s')
    (hentry : ∃ t, s.entry (2 * (n + 1)) = { m.entry (2 * (n + 1)) with segment := t })
    (hcopied : Copied m.image base size (d.advance (m.space (2 * (n + 1)))) size s s')
    (hsize : size = m.chunkWord (2 * (n + 1)) 0)
    (himage : ∀ j < size, wordAt m.image (base + 2 * j) = m.chunkWord (2 * (n + 1)) j) :
    Filled m (n + 1) ((d.advance (m.space (2 * (n + 1)))).take (m.space (2 * (n + 1)))) s' := by
  have hremaining : (d.advance (m.space (2 * (n + 1)))).heapSpaceRemaining =
      d.heapSpaceRemaining := by
    rw [Destination.advance]
    split <;> rfl
  have hsizeSpace := ObjectMemory.size_le_space (m := m) (p := 2 * (n + 1))
  have hhalf : 2 * (n + 1) / 2 = n + 1 := by omega
  generalize hD : d.advance (m.space (2 * (n + 1))) = D at *
  generalize hspace : m.space (2 * (n + 1)) = space at *
  have htake : ∀ t, (D.take space).heapSpaceRemaining t =
      if t = D.segment then d.heapSpaceRemaining t - space else d.heapSpaceRemaining t := by
    intro t
    rw [← hremaining]
    by_cases ht : t = D.segment
    · subst ht
      rfl
    · rw [if_neg ht]
      exact if_neg ht
  have hbin : D.segment = (m.packed (n + 1)).bin := htracks.segment
  have hused : D.word + space = (m.packed (n + 1)).used := htracks.word
  have hcurrent := htracks.current
  rw [htake, show (D.take space).segment = D.segment from rfl, if_pos rfl] at hcurrent
  have hold : ∀ p, IsOop p → p ≤ 2 * (n + 1) → p ≠ 2 * (n + 1) → p ≤ 2 * n := by
    intro p hp hle hne
    have heven := hp.1
    omega
  -- the objects that are there end below the new one
  have hends : ∀ p, IsOop p → p ≤ 2 * n → m.holdsObject p →
      (m.packed (p / 2)).bin = D.segment → (m.packed (p / 2)).used ≤ D.word := by
    intro p hp hle hpobj hseg
    have hbelow := h.below p hp hle hpobj
    rw [hseg] at hbelow
    omega
  refine ⟨fun p hq hle ho => ?_, fun p hq hle ho => ?_, fun p hq hle ho j hj => ?_,
    fun p hq hle ho => ?_, fun t w hw => ?_, fun t => ?_⟩
  · by_cases hpn : p = 2 * (n + 1)
    · subst hpn
      obtain ⟨t, ht⟩ := hentry
      rw [hmoved.entry, hhalf, ← hbin, ht]
    · rw [(hmoved.others p hq.1 hpn).1]
      exact h.entry p hq (hold p hq hle hpn) ho
  · by_cases hpn : p = 2 * (n + 1)
    · subst hpn
      rw [hmoved.location, hhalf, hspace]
      exact hused
    · rw [(hmoved.others p hq.1 hpn).2]
      exact h.location p hq (hold p hq hle hpn) ho
  · by_cases hpn : p = 2 * (n + 1)
    · subst hpn
      rw [hmoved.location, hhalf, ← hbin, hcopied.words j (by omega), himage j (by omega)]
    · have hpn' := hold p hq hle hpn
      have hloc := h.location p hq hpn' ho
      have hle' := ObjectMemory.size_le_space (m := m) (p := p)
      have hbinp : (m.packed (p / 2)).bin ≤ (m.packed n).bin := bin_packed_le (by omega)
      have hlt := hd.segment_lt
      rw [hd.segment] at hlt
      rw [(hmoved.others p hq.1 hpn).2, hcopied.frame _ _ (by omega)]
      · exact h.words p hq hpn' ho j hj
      · rintro ⟨hseg, hge, -⟩
        have := hends p hq hpn' ho hseg
        omega
  · rw [htake]
    by_cases hpn : p = 2 * (n + 1)
    · subst hpn
      rw [hhalf, ← hbin, if_pos rfl]
      omega
    · have hbelow := h.below p hq (hold p hq hle hpn) ho
      split
      · omega
      · exact hbelow
  · rw [htake] at hw
    by_cases hnew : t = D.segment ∧ D.word ≤ w
    · obtain ⟨rfl, hge⟩ := hnew
      rw [if_pos rfl] at hw
      refine ⟨2 * (n + 1), hp, le_rfl, hobj, by rw [hhalf, hbin], ?_⟩
      rw [hmoved.location, hspace]
      omega
    · have hw' : (w : Int) < 65515 - d.heapSpaceRemaining t := by
        split at hw
        · next ht =>
            subst ht
            omega
        · exact hw
      obtain ⟨p, hq, hle, ho, hseg, hcover⟩ := h.cover t w hw'
      have hne : p ≠ 2 * (n + 1) := by omega
      refine ⟨p, hq, by omega, ho, hseg, ?_⟩
      rw [(hmoved.others p hq.1 hne).2]
      exact hcover
  · have hremains := h.remaining t
    rw [htake, packedWords, hspace, ← hbin]
    by_cases ht : t = D.segment
    · rw [if_pos ht, if_pos ⟨hobj, ht.symm⟩]
      omega
    · rw [if_neg ht, if_neg fun hall => ht hall.2.symm]
      exact hremains

/-- After the first `n` oops: the segments are full, or the objects have been
placed by next fit. -/
def PackedAfter (m m₁ : ObjectMemory) (n : Nat) : Option Destination → ObjectMemory → Prop
  | none, _ => 15 ≤ (m.packed n).bin
  | some d, s => Tracks d (m.packed n) ∧ Unpacked m₁ (2 * n) s ∧ Filled m n d s

theorem wp_spaceInMemory (hp : IsOop p) (hpointer : (s.entry p).pointer = (m.entry p).pointer)
    {Q : Nat → ObjectMemory → Prop} :
    Wp (spaceInMemory (m.chunkWord p 0) p) Q s ↔ Q (m.space p) s := by
  rw [spaceInMemory, wp_bind, wp_pointerBitOf, and_iff_right hp.isEntry, hpointer,
    ObjectMemory.space]
  by_cases h : m.chunkWord p 0 < hugeSize ∨ (m.entry p).pointer = 0
  · rw [if_pos h, if_pos h, wp_pure]
  · rw [if_neg h, if_neg h, wp_pure]

section Objects

variable (hm : m.Saveable) (hs : m.Sized)
  (hspace : ∀ p, IsOop p → m.holdsObject p → m.space p ≤ 65515)
  (h₁ : TableLoaded m.image m₁)

include hm hs hspace h₁

theorem wp_unpackObject (hi : i < 32766) (hd : Tracks d (m.packed i))
    (hu : Unpacked m₁ (2 * i) s) (hf : Filled m i d s) :
    Wp (unpackObject m.image (2 * (i + 1)) d) (PackedAfter m m₁ (i + 1)) s := by
  have hp : IsOop (2 * (i + 1)) := ⟨by omega, by omega, by omega⟩
  have hkept := hu.kept _ hp (.inl (by omega))
  have hfree := free_iff hm h₁ hp
  rw [unpackObject, wp_bind, wp_freeBitOf, and_iff_right hp.isEntry, hkept.1]
  by_cases hobj : m.holdsObject (2 * (i + 1)) = true
  · obtain ⟨⟨t, hentry⟩, haddress⟩ := entry_object hm h₁ hp hobj
    have hcount : (m₁.entry (2 * (i + 1))).count ≠ 0 := by
      rw [hentry]
      exact (of_decide_eq_true hobj).2
    have hpointer : (m₁.entry (2 * (i + 1))).pointer = (m.entry (2 * (i + 1))).pointer := by
      rw [hentry]
    have hlt := lt_storedObjectTableLength hobj hp
    obtain ⟨hsize, -⟩ := image_size hm hs hp hlt hobj
    have hle := hspace _ hp hobj
    have htwo := hs _ hp hobj
    have hsizeSpace := ObjectMemory.size_le_space (m := m) (p := 2 * (i + 1))
    obtain ⟨hbin, htake⟩ := hd.advance hle
    rw [← packed_succ_of_object hobj] at hbin htake
    rw [if_neg (not_not.mpr (hfree.mpr hobj)), wp_bind, wp_countBitsOf, and_iff_right hp.isEntry,
      hkept.1, wp_bind, wp_check, and_iff_right hcount, wp_bind, objectImageWordAddress, wp_bind,
      wp_segmentBitsOf, and_iff_right hp.isEntry, wp_bind, wp_locationBitsOf,
      and_iff_right hp.isEntry, wp_pure, hkept.1, hkept.2, haddress]
    dsimp only
    rw [hsize, wp_bind, wp_spaceInMemory hp (by rw [hkept.1, hpointer])]
    by_cases hfull : (d.advance (m.space (2 * (i + 1)))).segment = heapSegmentCount
    · rw [if_pos hfull, wp_pure]
      exact Nat.le_of_eq (hfull.symm.trans hbin)
    · have hadvance := d.advance_segment_le (m.space (2 * (i + 1)))
      have hlt15 : (d.advance (m.space (2 * (i + 1)))).segment < 15 := by
        have := hd.segment_lt
        simp only [heapSegmentCount, segmentCount] at hfull
        omega
      obtain ⟨hin, htracks⟩ := htake hlt15
      rw [if_neg hfull, wp_bind]
      refine (wp_unpackWords hp hlt15 (by rw [hsize]; exact htwo) (by rw [hsize]; omega)).mono ?_
      rintro _ s' ⟨hmoved, hcopied⟩
      rw [wp_pure]
      exact ⟨htracks, hu.moved hmoved hp (by omega) (hfree.mpr hobj) hlt15 (by omega),
        hf.next hd hp hobj htracks hmoved ⟨t, hkept.1.trans hentry⟩ hcopied hsize
          fun j hj => image_word hm hs hp hlt hobj (by omega)⟩
  · have h1 : (m₁.entry (2 * (i + 1))).free = 1 := by
      have := m₁.free_lt (2 * (i + 1))
      have hne : (m₁.entry (2 * (i + 1))).free ≠ 0 := fun h0 => hobj (hfree.mp h0)
      omega
    rw [if_pos (by omega), wp_pure]
    refine ⟨by rw [packed_succ_of_free hobj]; exact hd,
      hu.skip (k := 2 * (i + 1)) (fun q hq hlt hle => ?_) (by omega), hf.skip hobj⟩
    have heven := hq.1
    obtain rfl : q = 2 * (i + 1) := by omega
    exact h1

/-- The loop over the oops. -/
theorem wp_unpackLoop (hn : n ≤ 32766) (hu : Unpacked m₁ 0 s) :
    Wp (foldN n (fun i d => unpackObject m.image (2 * (i + 1)) d) .start)
      (PackedAfter m m₁ n) s := by
  induction n with
  | zero =>
      rw [foldN, wp_pure]
      exact ⟨tracks_start, hu, filled_start⟩
  | succ n ih =>
      rw [foldN, wp_bind]
      refine (ih (by omega)).mono fun r s' hr => ?_
      cases r with
      | none =>
          rw [wp_pure]
          exact Nat.le_trans hr (bin_packed_le (Nat.le_succ n))
      | some d => exact wp_unpackObject hm hs hspace h₁ (by omega) hr.1 hr.2.1 hr.2.2

end Objects

/-! ## The free chunks -/

/-- The free entries form a list in ascending order, which is more than nil, and
nil has a place on the heap once it is not on it. -/
structure Ready (l : List Nat) (s : ObjectMemory) : Prop where
  linked : Linked s.location nonPointer s.freeHead l
  oops : ∀ p ∈ l, IsOop p
  sorted : l.Pairwise (· < ·)
  more : l ≠ [nilPointer]
  nilSegment : (s.entry nilPointer).segment < 15
  nilLocation : nilPointer ∉ l → s.location nilPointer + 1 < 65536

theorem Ready.congr {l : List Nat} {s' : ObjectMemory} (h : Ready l s)
    (hlocation : ∀ q, IsOop q → s'.location q = s.location q)
    (hnil : (s'.entry nilPointer).segment = (s.entry nilPointer).segment)
    (hhead : s'.freeHead = s.freeHead) : Ready l s' := by
  have hoop : IsOop nilPointer := ⟨rfl, le_rfl, by decide⟩
  refine ⟨?_, h.oops, h.sorted, h.more, by rw [hnil]; exact h.nilSegment, fun hne => ?_⟩
  · rw [hhead]
    exact h.linked.congr fun q hq => hlocation q (h.oops q hq)
  · rw [hlocation _ hoop]
    exact h.nilLocation hne

theorem Ready.setChunkHead {l : List Nat} {n v : Nat} (h : Ready l s) (hn : n < 15) :
    Ready l (s.setChunkHead n k v) := by
  have hn : n ≠ 15 := Nat.ne_of_lt hn
  exact h.congr (fun _ _ => location_setChunkHead hn) (by rw [entry_setChunkHead hn])
    (freeHead_setChunkHead hn)

theorem Ready.setChunkWord {l : List Nat} {v : Nat} (h : Ready l s) (hp : (s.entry p).segment < 15) :
    Ready l (s.setChunkWord p i v) := by
  have hp : (s.entry p).segment ≠ 15 := Nat.ne_of_lt hp
  exact h.congr (fun _ _ => location_setChunkWord hp) (by rw [entry_setChunkWord hp])
    (freeHead_setChunkWord hp)

variable {l : List Nat}

theorem wp_toFreeChunkListAdd_eq (hp : IsOop p) (hseg : (s.entry p).segment < 15)
    (hlocation : s.location p + 1 < 65536) (hk : 2 ≤ k) (hk' : k ≤ 20)
    {Q : Unit → ObjectMemory → Prop} : Wp (toFreeChunkListAdd k p) Q s ↔
      Q () ((s.setChunkWord p 1 (s.chunkHead (s.entry p).segment k)).setChunkHead
        (s.entry p).segment k p) := by
  have hp' := hp.isEntry.2
  rw [toFreeChunkListAdd, wp_bind, wp_segmentBitsOf, and_iff_right hp.isEntry, wp_bind,
    wp_headOfFreeChunkListInSegment, and_iff_right ⟨hk, hk', by omega⟩, wp_bind,
    wp_classBitsOfPut, and_iff_right ⟨hp.isEntry, hlocation, chunkHead_lt _ _ _⟩,
    wp_headOfFreeChunkListInSegmentPut, and_iff_right ⟨hk, hk', by omega, hp'⟩]

theorem wp_toFreeChunkListAdd (h : Ready l s) (hp : IsOop p) (hseg : (s.entry p).segment < 15)
    (hlocation : s.location p + 1 < 65536) (hk : 2 ≤ k) (hk' : k ≤ 20) :
    Wp (toFreeChunkListAdd k p) (fun _ s' => Ready l s' ∧
      s'.entry nilPointer = s.entry nilPointer) s := by
  have hne : (s.entry p).segment ≠ 15 := Nat.ne_of_lt hseg
  rw [wp_toFreeChunkListAdd_eq hp hseg hlocation hk hk']
  exact ⟨(h.setChunkWord hseg).setChunkHead hseg,
    (entry_setChunkHead hne).trans (by rw [entry_setChunkWord hne])⟩

/-- Entry `p` taken off the list of free entries, for a chunk at word `k` of
segment `n`. -/
def taken (s : ObjectMemory) (p n k : Nat) : ObjectMemory :=
  (((s.setFreeHead (s.location p)).setWord objectTableSegment p 0).setSegment p n).setLocation p k

section Taken

variable {n : Nat} (hp : IsOop p) (hn : n < 15) (hk : k < 65536)

include hp

theorem entry_taken (hn : n < 15) (hq : IsOop q) :
    (taken s p n k).entry q = if q = p then ⟨0, 0, 0, 0, n⟩ else s.entry q := by
  have hq1 := hq.1
  have hp1 := hp.1
  rw [taken, entry_setLocation (by omega), entry_setSegment (by omega),
    entry_setWord_entry (by omega), if_pos rfl, decodeEntry_zero, entry_setWord_entry (by omega)]
  split
  · rfl
  · exact entry_setFreeHead hq.2.2

theorem location_taken (hk : k < 65536) (hq : IsOop q) :
    (taken s p n k).location q = if q = p then k else s.location q := by
  have hq1 := hq.1
  have hp1 := hp.1
  rw [taken, location_setLocation hk]
  split
  · rfl
  · rw [setSegment, location_setField (by omega), location_setWord_entry (by omega),
      location_setFreeHead hq.2.2]

theorem freeHead_taken : (taken s p n k).freeHead = s.location p := by
  have hle := hp.2.2
  rw [taken, freeHead_setLocation hle, setSegment, freeHead_setField hle, freeHead,
    word_setWord, if_neg (by
      simp only [freePointerList, objectTableStart, objectTableSize, segmentSize]
      omega)]
  exact freeHead_setFreeHead (s.location_lt p)

omit hp in
theorem word_taken {t w : Nat} (ht : t ≠ 15) : (taken s p n k).word t w = s.word t w := by
  rw [taken, word_setLocation_of_ne fun h => ht h.1, setSegment, word_setField ht, word_setWord,
    if_neg fun h => ht h.1, setFreeHead, word_setWord, if_neg fun h => ht h.1]

/-- The entry for a free chunk is the next one on the list. -/
theorem wp_obtainPointerLocation_taken {size : Nat} (hn : n < 15)
    (hcurrent : s.currentSegment = n) (hsize : size < 65536) (hk : k < 65536)
    (hhead : s.freeHead = p) (hnil : p ≠ nilPointer) {Q : Nat → ObjectMemory → Prop} :
    Wp (obtainPointerLocation size k) Q s ↔ Q p ((taken s p n k).setChunkWord p 0 size) := by
  have hcur : 0 ≤ s.currentSegment ∧ s.currentSegment ≤ 14 := by omega
  have hloc := s.location_lt p
  have hne : p ≠ nonPointer := by
    have := hp.2.2
    simp only [nonPointer]
    omega
  have hin : (taken s p n k).location p + 0 < 65536 := by
    rw [location_taken hp hk hp, if_pos rfl]
    exact hk
  rw [obtainPointerLocation, wp_bind, wp_checkCurrentSegment, and_iff_right hcur, wp_bind, wp_get,
    wp_bind, removeFromFreePointerList, wp_bind, wp_headOfFreePointerList, hcurrent,
    Int.toNat_natCast, hhead, if_neg hne, wp_bind, wp_locationBitsOf, and_iff_right hp.isEntry,
    wp_bind, wp_headOfFreePointerListPut, and_iff_right hloc, wp_pure, if_neg hnil, wp_bind,
    wp_otPut, and_iff_right ⟨hp.isEntry, by omega⟩, wp_bind, wp_segmentBitsOfPut,
    and_iff_right ⟨hp.isEntry, by omega⟩, wp_bind, wp_locationBitsOfPut,
    and_iff_right ⟨hp.isEntry, hk⟩, wp_bind, wp_sizeBitsOfPut,
    and_iff_right ⟨hp.isEntry, hin, hsize⟩, wp_pure]
  rfl

end Taken

/-- Nil is taken from the list, but it stands for no entry. -/
theorem wp_obtainPointerLocation_nil {size : Nat} {Q : Nat → ObjectMemory → Prop}
    (hcurrent : 0 ≤ s.currentSegment ∧ s.currentSegment ≤ 14) (hhead : s.freeHead = nilPointer) :
    Wp (obtainPointerLocation size k) Q s ↔
      Q nilPointer (s.setFreeHead (s.location nilPointer)) := by
  have hentry : IsEntry nilPointer := by decide
  rw [obtainPointerLocation, wp_bind, wp_checkCurrentSegment, and_iff_right hcurrent, wp_bind,
    wp_get, wp_bind, removeFromFreePointerList, wp_bind, wp_headOfFreePointerList, hhead,
    if_neg (by decide), wp_bind, wp_locationBitsOf, and_iff_right hentry, wp_bind,
    wp_headOfFreePointerListPut, and_iff_right (s.location_lt _), wp_pure, if_pos rfl, wp_pure]

/-- Nil stands for none where the list is empty. -/
theorem wp_obtainPointerLocation_none {size : Nat} {Q : Nat → ObjectMemory → Prop}
    (hcurrent : 0 ≤ s.currentSegment ∧ s.currentSegment ≤ 14) (hhead : s.freeHead = nonPointer) :
    Wp (obtainPointerLocation size k) Q s ↔ Q nilPointer s := by
  rw [obtainPointerLocation, wp_bind, wp_checkCurrentSegment, and_iff_right hcurrent, wp_bind,
    wp_get, wp_bind, removeFromFreePointerList, wp_bind, wp_headOfFreePointerList, if_pos hhead,
    wp_pure, if_pos rfl, wp_pure]

/-- Nil has left the list, and its entry is as it was. -/
structure NilLeft (l : List Nat) (s s' : ObjectMemory) : Prop where
  notMem : nilPointer ∉ l
  entry : s'.entry nilPointer = s.entry nilPointer

/-- Where there is no entry on the list, nil stands for none, and it also stands
for itself. -/
theorem wp_obtainPointerLocation {n size : Nat} (h : Ready l s) (hn : n < 15)
    (hcurrent : s.currentSegment = n) (hin : size < 65536) (hk : k + 2 ≤ 65535) :
    Wp (obtainPointerLocation size k) (fun p s' => ∃ l', Ready l' s' ∧ IsOop p ∧
      (s'.entry p).segment < 15 ∧ s'.location p + 1 < 65536 ∧ NilLeft l' s s') s := by
  have hoop : IsOop nilPointer := ⟨rfl, le_rfl, by decide⟩
  have hcur : 0 ≤ s.currentSegment ∧ s.currentSegment ≤ 14 := by omega
  cases l with
  | nil =>
      have hhead : s.freeHead = nonPointer := h.linked
      rw [wp_obtainPointerLocation_none hcur hhead]
      exact ⟨[], h, hoop, h.nilSegment, h.nilLocation List.not_mem_nil, List.not_mem_nil, rfl⟩
  | cons p l =>
      obtain ⟨hhead, hne, hlinked⟩ := h.linked
      have hp := h.oops p List.mem_cons_self
      obtain ⟨hlt, hsorted⟩ := List.pairwise_cons.mp h.sorted
      have hoops : ∀ q ∈ l, IsOop q := fun q hq => h.oops q (List.mem_cons_of_mem _ hq)
      have hnotMem : nilPointer ∉ l := fun hmem =>
        absurd (hlt nilPointer hmem) (Nat.not_lt.mpr hp.2.1)
      have hmore : l ≠ [nilPointer] := by
        rintro rfl
        exact hnotMem List.mem_cons_self
      have hloc := s.location_lt p
      by_cases hnil : p = nilPointer
      · subst hnil
        have hentry := entry_setFreeHead (m := s) (v := s.location nilPointer) hoop.2.2
        have hlocation : ∀ q, IsOop q →
            (s.setFreeHead (s.location nilPointer)).location q = s.location q :=
          fun q hq => location_setFreeHead hq.2.2
        have hlinked' : Linked (s.setFreeHead (s.location nilPointer)).location nonPointer
            (s.setFreeHead (s.location nilPointer)).freeHead l := by
          rw [freeHead_setFreeHead hloc]
          exact hlinked.congr fun q hq => hlocation q (hoops q hq)
        -- the next entry on the list is where the location of nil leads
        have hnext : s.location nilPointer + 1 < 65536 := by
          cases l with
          | nil => exact absurd rfl h.more
          | cons q l =>
              have := (hoops q List.mem_cons_self).2.2
              rw [hlinked.1]
              omega
        rw [wp_obtainPointerLocation_nil hcur hhead]
        refine ⟨l, ⟨hlinked', hoops, hsorted, hmore, ?_, fun _ => ?_⟩, hoop, ?_, ?_, hnotMem, hentry⟩
        · rw [hentry]
          exact h.nilSegment
        · rw [hlocation _ hoop]
          exact hnext
        · rw [hentry]
          exact h.nilSegment
        · rw [hlocation _ hoop]
          exact hnext
      · have hnilNot : nilPointer ∉ p :: l := fun hmem => by
          rcases List.mem_cons.mp hmem with heq | hmem
          · exact hnil heq.symm
          · exact hnotMem hmem
        have hk' : k < 65536 := by omega
        have hentry := entry_taken (s := s) (k := k) hp hn hoop
        have hlocation := location_taken (s := s) (n := n) hp hk' hoop
        rw [if_neg (Ne.symm hnil)] at hentry hlocation
        have hready : Ready l (taken s p n k) := by
          refine ⟨?_, hoops, hsorted, hmore, ?_, fun _ => ?_⟩
          · rw [freeHead_taken hp]
            refine hlinked.congr fun q hq => ?_
            rw [location_taken hp hk' (hoops q hq), if_neg (Nat.ne_of_gt (hlt q hq))]
          · rw [hentry]
            exact h.nilSegment
          · rw [hlocation]
            exact h.nilLocation hnilNot
        have hseg : ((taken s p n k).entry p).segment < 15 := by
          rw [entry_taken hp hn hp, if_pos rfl]
          exact hn
        have hne15 : ((taken s p n k).entry p).segment ≠ 15 := Nat.ne_of_lt hseg
        rw [wp_obtainPointerLocation_taken hp hn hcurrent hin hk' hhead hnil]
        refine ⟨l, hready.setChunkWord hseg, hp, ?_, ?_, hnotMem, ?_⟩
        · rw [entry_setChunkWord hne15]
          exact hseg
        · rw [location_setChunkWord hne15, location_taken hp hk' hp, if_pos rfl]
          omega
        · rw [entry_setChunkWord hne15, hentry]

/-- After a segment with a rest, nil has left the list. -/
theorem wp_freeRestOfSegment {r : Nat → Int} {n : Nat} (h : Ready l s) (hn : n < 15)
    (hr : ∀ n, 0 ≤ r n ∧ r n ≤ 65515) :
    Wp (freeRestOfSegment r n) (fun _ s' => ∃ l', Ready l' s' ∧
      s'.entry nilPointer = s.entry nilPointer ∧
      (2 ≤ r n ∨ nilPointer ∉ l → nilPointer ∉ l')) s := by
  obtain ⟨h0, h1⟩ := hr n
  have hheader : (headerSize : Int) = 2 := rfl
  have hspace : segmentHeapSpaceSize = 65515 := by decide
  rw [freeRestOfSegment, wp_bind, wp_modify, wp_ite]
  refine ⟨fun hge => ?_, fun hlt => (wp_pure _ _ _).mpr ⟨l, h.congr (fun _ _ => rfl) rfl rfl, rfl,
    fun hcase => hcase.resolve_left fun h2 => hlt h2⟩⟩
  have hsize : (r n).toNat < 65536 := by omega
  have hlocation : (segmentHeapSpaceSize - r n).toNat + 2 ≤ 65535 := by omega
  have hready : Ready l { s with freeWords := s.freeWords + r n, currentSegment := n } :=
    h.congr (fun _ _ => rfl) rfl rfl
  rw [wp_bind, wp_check, and_iff_right (by omega), wp_bind, wp_modify, wp_bind]
  refine (wp_obtainPointerLocation hready hn rfl hsize hlocation).mono
    fun p s' ⟨l', hready', hp, hseg, hloc, hleft⟩ => ?_
  refine (wp_toFreeChunkListAdd hready' hp hseg hloc ?_ ?_).mono
    fun _ s'' ⟨hready'', hentry⟩ => ⟨l', hready'', hentry.trans hleft.entry, fun _ => hleft.notMem⟩
  · simp only [bigSize]
    omega
  · simp only [bigSize]
    omega

theorem wp_resetFreeChunkLists (h : Ready l s) :
    Wp resetFreeChunkLists (fun _ s' => Ready l s' ∧
      s'.entry nilPointer = s.entry nilPointer) s := by
  rw [resetFreeChunkLists]
  let Inv : ObjectMemory → Prop := fun s' => Ready l s' ∧ s'.entry nilPointer = s.entry nilPointer
  refine wp_forN (fun _ => Inv) (fun n s' hn hs' => ?_) ⟨h, rfl⟩
  refine wp_forN (fun _ => Inv) (fun i s'' hi hs'' => ?_) hs'
  have hheader : headerSize = 2 := rfl
  simp only [heapSegmentCount, segmentCount, bigSize] at hn hi
  rw [wp_resetFreeChunkListInSegment, and_iff_right ⟨by omega, by omega, by omega⟩]
  exact ⟨hs''.1.setChunkHead (by omega), (entry_setChunkHead (by omega)).trans hs''.2⟩

/-- Nil is not allocated for a chunk, but it does leave the list. -/
theorem wp_buildFreeChunks {r : Nat → Int} (h : Ready l s) (hr : ∀ n, 0 ≤ r n ∧ r n ≤ 65515) :
    Wp (buildFreeChunks r) (fun _ s' => ∃ l', Ready l' s' ∧
      s'.entry nilPointer = s.entry nilPointer ∧ ∀ u < 15, 2 ≤ r u → nilPointer ∉ l') s := by
  rw [buildFreeChunks, wp_bind]
  refine (wp_resetFreeChunkLists h).mono fun _ s₁ ⟨h₁, hentry₁⟩ => ?_
  let Inv : Nat → ObjectMemory → Prop := fun n s' => ∃ l', Ready l' s' ∧
    s'.entry nilPointer = s.entry nilPointer ∧ ∀ u < n, 2 ≤ r u → nilPointer ∉ l'
  have hready : Inv 0 { s₁ with freeWords := 0 } :=
    ⟨l, h₁.congr (fun _ _ => rfl) rfl rfl, hentry₁, fun u hu => absurd hu (Nat.not_lt_zero u)⟩
  rw [wp_bind, wp_modify, wp_bind]
  refine Wp.mono (wp_forN Inv (fun n s' hn hs' => ?_) hready) fun _ s' hs' => ?_
  · obtain ⟨l', hs', hentry, hleft⟩ := hs'
    simp only [heapSegmentCount, segmentCount] at hn
    refine (wp_freeRestOfSegment hs' (by omega) hr).mono fun _ s'' ⟨l'', hready, hentry', hleft'⟩ =>
      ⟨l'', hready, hentry'.trans hentry, fun u hu h2 => hleft' ?_⟩
    rcases Nat.lt_succ_iff_lt_or_eq.mp hu with hlt | rfl
    · exact .inr (hleft u hlt h2)
    · exact .inl h2
  · obtain ⟨l', hs', hentry, hleft⟩ := hs'
    rw [wp_modify]
    exact ⟨l', hs'.congr (fun _ _ => rfl) rfl rfl, hentry, hleft⟩

/-! ## The whole image -/

/-- The free entries of the memory are more than nil. -/
def MoreThanNil (m : ObjectMemory) : Prop :=
  m.holdsObject nilPointer = true ∨ ∃ p, IsOop p ∧ p ≠ nilPointer ∧ m.holdsObject p = false

section Image

variable (hm : m.Saveable) (h₁ : TableLoaded m.image m₁) (hnil : MoreThanNil m)

include hm h₁

theorem free_of_not_object (hp : IsOop p) (hobj : ¬m.holdsObject p = true) :
    (m₁.entry p).free = 1 := by
  have hlt := m₁.free_lt p
  have hne : (m₁.entry p).free ≠ 0 := fun h0 => hobj ((free_iff hm h₁ hp).mp h0)
  omega

theorem segment_nil (hfree : (m₁.entry nilPointer).free = 1) :
    (m₁.entry nilPointer).segment = 0 := by
  have hoop : IsOop nilPointer := ⟨rfl, le_rfl, by decide⟩
  have hlt : nilPointer < m.storedObjectTableLength := hm.tableSize.pos.trans_lt' (by decide)
  have hobj : ¬m.holdsObject nilPointer = true := fun hobj => by
    rw [(free_iff hm h₁ hoop).mpr hobj] at hfree
    cases hfree
  rw [h₁.entry _ hoop (by rw [toNat_tableLength_image hm]; exact hlt), (image_entry hm hoop hlt).1,
    if_neg hobj]

include hnil

/-- After the objects, the free entries are as in the image. -/
theorem Unpacked.ready (hu : Unpacked m₁ 65532 s) : ∃ l, Ready l s := by
  have hoop : IsOop nilPointer := ⟨rfl, le_rfl, by decide⟩
  obtain ⟨l, hsorted, hlinked, hmem⟩ := h₁.freeEntries
  have hlt := m₁.free_lt nilPointer
  refine ⟨l, ?_, fun p hp => ((hmem p).mp hp).1, hsorted, ?_, ?_, fun hnot => ?_⟩
  · rw [hu.freeHead]
    exact hlinked.congr fun q hq => (hu.kept q ((hmem q).mp hq).1 (.inr ((hmem q).mp hq).2)).2
  · rintro rfl
    have h1 := ((hmem nilPointer).mp List.mem_cons_self).2
    rcases hnil with hobj | ⟨p, hp, hne, hobj⟩
    · rw [(free_iff hm h₁ hoop).mpr hobj] at h1
      cases h1
    · have hfree := free_of_not_object hm h₁ hp (by rw [hobj]; exact Bool.false_ne_true)
      exact hne (List.mem_singleton.mp ((hmem p).mpr ⟨hp, hfree⟩))
  · by_cases h0 : (m₁.entry nilPointer).free = 0
    · exact (hu.nil (by decide) h0).1
    · have h1 : (m₁.entry nilPointer).free = 1 := by omega
      rw [(hu.kept _ hoop (.inr h1)).1, segment_nil hm h₁ h1]
      decide
  · have h0 : (m₁.entry nilPointer).free = 0 := by
      by_contra hne
      exact hnot ((hmem nilPointer).mpr ⟨hoop, by omega⟩)
    exact (hu.nil (by decide) h0).2

end Image

/-- Loading the image of a memory: the answer is whether its objects can be
packed; the memory is what `buildFreeChunks` leaves. -/
theorem wp_unpack_image {R : ObjectMemory → Prop} (hm : m.Saveable) (hs : m.Sized)
    (hspace : ∀ p, IsOop p → m.holdsObject p → m.space p ≤ 65515)
    (hbuild : ∀ m₁ d s, TableLoaded m.image m₁ → Tracks d (m.packed 32766) →
      Unpacked m₁ 65532 s → Filled m 32766 d s →
      Wp (buildFreeChunks d.heapSpaceRemaining) (fun _ => R) s) :
    Wp (unpack m.image) (fun r s' => r = decide m.Packs ∧ (r = true → R s')) s := by
  have ht := hm.tableSize
  have hle := ht.le
  rw [unpack, wp_bind]
  refine (wp_unpackTable (tableLength_image ht) ht.even (by omega)).mono fun _ m₁ h₁ => ?_
  have hstart : Unpacked m₁ 0 m₁ :=
    ⟨fun _ _ _ => ⟨rfl, rfl⟩, fun h => absurd h (by decide), rfl⟩
  have hn : objectTableSize / 2 - 1 = 32766 := rfl
  rw [unpackObjects, hn, wp_bind]
  refine (wp_unpackLoop hm hs hspace h₁ le_rfl hstart).mono fun r s' hr => ?_
  cases r with
  | none =>
      rw [wp_pure]
      exact ⟨(decide_eq_false (Nat.not_lt.mpr hr)).symm, fun h => absurd h Bool.false_ne_true⟩
  | some d =>
      obtain ⟨htracks, hu, hf⟩ := hr
      have hlt : (m.packed 32766).bin < 15 := htracks.segment ▸ htracks.segment_lt
      rw [wp_bind]
      refine (hbuild m₁ d s' h₁ htracks hu hf).mono fun _ _ hR => ?_
      rw [wp_pure]
      exact ⟨(decide_eq_true hlt).symm, fun _ => hR⟩

/-- What holds after `buildFreeChunks`, holds after a load that answers true. -/
theorem wlp_unpack_image {R : ObjectMemory → Prop} (hm : m.Saveable) (hs : m.Sized)
    (hspace : ∀ p, IsOop p → m.holdsObject p → m.space p ≤ 65515)
    (hbuild : ∀ m₁ d s, TableLoaded m.image m₁ → Tracks d (m.packed 32766) →
      Unpacked m₁ 65532 s → Filled m 32766 d s →
      Wlp (buildFreeChunks d.heapSpaceRemaining) (fun _ => R) s) :
    Wlp (unpack m.image) (fun r s' => r = true → R s') s := by
  have ht := hm.tableSize
  have hle := ht.le
  rw [unpack, wlp_bind]
  refine (wp_unpackTable (tableLength_image ht) ht.even (by omega)).toWlp.mono fun _ m₁ h₁ => ?_
  have hstart : Unpacked m₁ 0 m₁ :=
    ⟨fun _ _ _ => ⟨rfl, rfl⟩, fun h => absurd h (by decide), rfl⟩
  have hn : objectTableSize / 2 - 1 = 32766 := rfl
  rw [unpackObjects, hn, wlp_bind]
  refine (wp_unpackLoop hm hs hspace h₁ le_rfl hstart).toWlp.mono fun r s' hr => ?_
  cases r with
  | none =>
      rw [wlp_pure]
      exact fun h => absurd h Bool.false_ne_true
  | some d =>
      obtain ⟨htracks, hu, hf⟩ := hr
      rw [wlp_bind]
      refine (hbuild m₁ d s' h₁ htracks hu hf).mono fun _ _ hR => ?_
      rw [wlp_pure]
      exact fun _ => hR

end Crosstalk
