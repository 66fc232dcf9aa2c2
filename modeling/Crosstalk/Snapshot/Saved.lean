import Crosstalk.Snapshot.Writes

/-!
# What saving writes

The contents of a saved image as a function of the memory, and the writers of
`Save` with them: the objects in the order of their oops, and the entries with
the addresses that the objects have in the image.
-/

namespace Crosstalk

variable {m m' : ObjectMemory} {p a n : Nat}

/-! ## The objects -/

namespace ObjectMemory

def holdsObject (m : ObjectMemory) (p : Nat) : Bool :=
  (m.entry p).free = 0 ∧ (m.entry p).count ≠ 0

def fieldChunks (m : ObjectMemory) (p : Nat) : List (List UInt8) :=
  (List.range (m.chunkWord p 0 - 2)).flatMap fun i => [wordBytes (m.chunkWord p (2 + i))]

def objectChunks (m : ObjectMemory) (p : Nat) : List (List UInt8) :=
  if m.holdsObject p then
    [wordBytes (m.chunkWord p 0) ++ wordBytes (m.chunkWord p 1)] ++ m.fieldChunks p
  else []

def objectWords (m : ObjectMemory) (p : Nat) : Nat := if m.holdsObject p then m.chunkWord p 0 else 0

/-- The words of the objects among the first `n` oops. -/
def wordsBefore (m : ObjectMemory) : Nat → Nat
  | 0 => 0
  | n + 1 => m.wordsBefore n + m.objectWords (2 * (n + 1))

/-- The words that are saved lie in the segment. -/
def SavedInside (m : ObjectMemory) (p : Nat) : Prop :=
  IsEntry p ∧ (m.holdsObject p → m.location p + max 2 (m.chunkWord p 0) ≤ 65536)

end ObjectMemory

open ObjectMemory

theorem wp_hasObject {Q : Bool → ObjectMemory → Prop} :
    Wp (hasObject p) Q m ↔ IsEntry p ∧ Q (m.holdsObject p) m := by
  rw [hasObject, wp_bind, cantBeIntegerObject, wp_check, wp_bind, wp_freeBitOf, holdsObject]
  by_cases hp : IsEntry p
  · by_cases hf : (m.entry p).free = 0
    · rw [if_pos hf, wp_bind, wp_countBitsOf, wp_pure]
      simp [hp, hf]
    · rw [if_neg hf, wp_pure]
      simp [hp, hf]
  · simp [hp]

theorem reads_hasObject : Reads m (IsEntry p) (hasObject p) (m.holdsObject p) :=
  reads_of_wp fun _ => wp_hasObject

theorem writes_writeHeader (hp : p % 2 = 0) :
    Writes m (IsEntry p ∧ m.location p + 1 < 65536) (writeHeader p)
      [wordBytes (m.chunkWord p 0) ++ wordBytes (m.chunkWord p 1)] (m.chunkWord p 0) := by
  refine ((reads_of_wp fun _ => wp_sizeBitsOf).writes <| (reads_of_wp fun _ =>
    wp_fetchClassOf hp).writes <| (Writes.writeBytes _).andThen (.pure _)).congr ?_ rfl
  simp only [and_true]
  exact ⟨fun h => h.2, fun h => ⟨⟨h.1, by omega⟩, h⟩⟩

theorem writes_writeFields : Writes m ((IsEntry p ∧ m.location p + 0 < 65536) ∧
      ∀ i < m.chunkWord p 0 - 2, HasField m p i) (writeFields p) (m.fieldChunks p) () := by
  have hlen : ((m.chunkWord p 0 : Int) - headerSize).toNat = m.chunkWord p 0 - 2 := by
    have h2 : headerSize = 2 := rfl
    omega
  refine (reads_of_wp fun _ => wp_fetchWordLengthOf).writes ?_
  rw [hlen]
  refine Writes.foldN (a := fun _ => ()) (c := fun i => HasField m p i) fun i hi => ?_
  refine ((reads_of_wp fun _ => wp_fetchWordOfObject).writes (Writes.writeBytes _)).congr ?_ rfl
  rw [and_true]

/-- The condition under which no assertion stops the object. -/
theorem savedInside_iff (hobj : m.holdsObject p = true) :
    m.SavedInside p ↔ (IsEntry p ∧ m.location p + 1 < 65536) ∧
      (IsEntry p ∧ m.location p + 0 < 65536) ∧ ∀ i < m.chunkWord p 0 - 2, HasField m p i := by
  have h2 : headerSize = 2 := rfl
  constructor
  · rintro ⟨he, hin⟩
    have hle := hin hobj
    refine ⟨⟨he, by omega⟩, ⟨he, by omega⟩, fun i hi => ⟨he, by omega, by omega, ?_⟩⟩
    rw [Int.toNat_natCast]
    omega
  · rintro ⟨⟨he, h1⟩, -, hfield⟩
    refine ⟨he, fun _ => ?_⟩
    by_cases hsize : m.chunkWord p 0 ≤ 2
    · omega
    · have hlast := (hfield (m.chunkWord p 0 - 3) (by omega)).inside
      rw [Int.toNat_natCast] at hlast
      omega

theorem writes_saveObject {s : Int} (hp : p % 2 = 0) :
    Writes m (m.SavedInside p) (saveObject p s) (m.objectChunks p)
      (s + m.objectWords p) := by
  by_cases hobj : m.holdsObject p = true
  · have hread := reads_hasObject (m := m) (p := p)
    rw [hobj] at hread
    rw [objectChunks, objectWords, if_pos hobj, if_pos hobj]
    refine (hread.writes (Writes.ite_true ((writes_writeHeader hp).andThen
      (writes_writeFields.andThen (.pure _))))).congr ?_ (by rw [List.append_nil])
    rw [savedInside_iff hobj]
    simp only [and_true]
    exact ⟨fun h => h.2, fun h => ⟨h.1.1, h⟩⟩
  · have hread := reads_hasObject (m := m) (p := p)
    have hfalse : m.holdsObject p = false := by simpa using hobj
    rw [hfalse] at hread
    have h0 : s + ((0 : Nat) : Int) = s := by omega
    rw [objectChunks, objectWords, if_neg hobj, if_neg hobj, h0]
    refine (hread.writes (Writes.ite_false (.pure _))).congr ?_ rfl
    rw [and_true]
    exact ⟨fun h => ⟨h, fun h' => absurd h' hobj⟩, fun h => h.1⟩

/-! ## The object table -/

namespace ObjectMemory

/-- Entry `p` as it is saved: where the objects before it take `a` words. -/
def savedEntry (m : ObjectMemory) (p a : Nat) : List UInt8 :=
  if p < 2 then wordBytes (m.word objectTableSegment p) ++ wordBytes (m.location p)
  else if m.holdsObject p then
    wordBytes (putField (m.word objectTableSegment p) 0 4 (a >>> 16)) ++ wordBytes (a &&& 0xFFFF)
  else wordBytes 32 ++ wordBytes 0

/-- Only the entry of `p` differs. -/
structure SameBut (m : ObjectMemory) (p : Nat) (m' : ObjectMemory) : Prop where
  word : ∀ s w, ¬(s = objectTableSegment ∧ (w = p ∨ w = p + 1)) → m'.word s w = m.word s w
  currentSegment : m'.currentSegment = m.currentSegment
  freeWords : m'.freeWords = m.freeWords
  freeOops : m'.freeOops = m.freeOops

theorem SameBut.refl (m : ObjectMemory) (p : Nat) : SameBut m p m :=
  ⟨fun _ _ _ => rfl, rfl, rfl, rfl⟩

theorem SameBut.setWord {v : Nat} (h : SameBut m p m') :
    SameBut m p (m'.setWord objectTableSegment p v) := by
  refine ⟨fun s w hsw => ?_, h.currentSegment, h.freeWords, h.freeOops⟩
  rw [word_setWord, if_neg fun hp => hsw ⟨hp.1, .inl hp.2⟩]
  exact h.word s w hsw

theorem SameBut.setLocation {v : Nat} (h : SameBut m p m') : SameBut m p (m'.setLocation p v) := by
  refine ⟨fun s w hsw => ?_, h.currentSegment, h.freeWords, h.freeOops⟩
  rw [word_setLocation_of_ne fun hp => hsw ⟨hp.1, .inr hp.2⟩]
  exact h.word s w hsw

/-- The entry is restored. -/
theorem SameBut.restore (h : SameBut m p m') :
    (m'.setWord objectTableSegment p (m.word objectTableSegment p)).setLocation p (m.location p) =
      m := by
  have hw : ∀ s w, ((m'.setWord objectTableSegment p (m.word objectTableSegment p)).setLocation p
      (m.location p)).word s w = m.word s w := by
    intro s w
    rw [ObjectMemory.setLocation, word_setWord, word_setWord]
    split
    · next hp =>
        rw [hp.1, hp.2, location, Nat.mod_eq_of_lt (m.word_lt _ _)]
    · split
      · next hp => rw [hp.1, hp.2, Nat.mod_eq_of_lt (m.word_lt _ _)]
      · next h1 h2 =>
          refine h.word s w fun hp => ?_
          rcases hp.2 with rfl | rfl
          · exact h2 ⟨hp.1, rfl⟩
          · exact h1 ⟨hp.1, rfl⟩
  have hmem := RealWordMemory.ext hw
  obtain ⟨w, cs, fw, fo⟩ := m
  obtain ⟨w', cs', fw', fo'⟩ := m'
  obtain rfl : cs' = cs := h.currentSegment
  obtain rfl : fw' = fw := h.freeWords
  obtain rfl : fo' = fo := h.freeOops
  simp only [ObjectMemory.setLocation, ObjectMemory.setWord] at hmem ⊢
  rw [hmem]

end ObjectMemory

/-- The address fits the 20 bits of an entry. -/
def AddressFits (m : ObjectMemory) (p a : Nat) : Prop :=
  IsEntry p ∧ (2 ≤ p → m.holdsObject p → a < 1048576)

theorem ObjectMemory.SameBut.setFree {v : Nat} (h : SameBut m p m') :
    SameBut m p (m'.setFree p v) := h.setWord

/-- The end of the branch for free entries. -/
theorem wp_clearEntry (hp : IsEntry p) (h : SameBut m p m') :
    Wp (do
      otPut p 0
      freeBitOfPut p 1
      locationBitsOfPut p 0
      return a) (fun r m'' => r = a ∧ SameBut m p m'' ∧
        m''.word objectTableSegment p = 32 ∧ m''.location p = 0) m' := by
  rw [wp_bind, wp_otPut, and_iff_right ⟨hp, by omega⟩, wp_bind, wp_freeBitOfPut,
    and_iff_right ⟨hp, by omega⟩, wp_bind, wp_locationBitsOfPut, and_iff_right ⟨hp, by omega⟩,
    wp_pure]
  refine ⟨rfl, h.setWord.setFree.setLocation, ?_, by rw [location_setLocation (by omega), if_pos rfl]⟩
  rw [word_setLocation_of_ne (by omega), ObjectMemory.setFree, setField, word_setWord,
    if_pos ⟨rfl, rfl⟩, word_setWord, if_pos ⟨rfl, rfl⟩]
  rfl

theorem wp_relocateEntry_free (hp : IsEntry p) (hobj : m.holdsObject p = false) :
    Wp (relocateEntry p a) (fun r m' => r = a ∧ SameBut m p m' ∧
      m'.word objectTableSegment p = 32 ∧ m'.location p = 0) m := by
  have hdec : ¬((m.entry p).free = 0 ∧ (m.entry p).count ≠ 0) := of_decide_eq_false hobj
  rw [relocateEntry, wp_bind, releaseChunkEntry, wp_bind, wp_freeBitOf, and_iff_right hp]
  by_cases hf : (m.entry p).free = 0
  · -- a free chunk
    have hc : (m.entry p).count = 0 := not_not.mp fun hc => hdec ⟨hf, hc⟩
    rw [if_pos hf, wp_bind, wp_countBitsOf, and_iff_right hp, if_pos hc, wp_freeBitOfPut,
      and_iff_right ⟨hp, by omega⟩, wp_bind, wp_freeBitOf, and_iff_right hp,
      entry_setFree (by omega), if_pos rfl, if_pos (show (1 : Nat) ≠ 0 by omega)]
    exact wp_clearEntry hp (SameBut.refl m p).setFree
  · rw [if_neg hf, wp_pure, wp_bind, wp_freeBitOf, and_iff_right hp, if_pos hf]
    exact wp_clearEntry hp (SameBut.refl m p)

theorem wp_relocateEntry_object (hp : IsEntry p) (hobj : m.holdsObject p = true)
    {Q : Nat → ObjectMemory → Prop} :
    Wp (relocateEntry p a) Q m ↔ a >>> 16 < 16 ∧ Q (a + m.chunkWord p 0)
      ((m.setSegment p (a >>> 16)).setLocation p (a &&& 0xFFFF)) := by
  obtain ⟨hf, hc⟩ : (m.entry p).free = 0 ∧ (m.entry p).count ≠ 0 := of_decide_eq_true hobj
  have hand : a &&& 0xFFFF < 65536 := Nat.lt_succ_of_le Nat.and_le_right
  have hloc : m.location p + 0 < 65536 := m.location_lt p
  rw [relocateEntry, wp_bind, releaseChunkEntry, wp_bind, wp_freeBitOf, and_iff_right hp,
    if_pos hf, wp_bind, wp_countBitsOf, and_iff_right hp, if_neg hc, wp_pure, wp_bind,
    wp_freeBitOf, and_iff_right hp, if_neg (by simp [hf]), wp_bind, wp_sizeBitsOf,
    and_iff_right ⟨hp, hloc⟩, wp_bind, wp_segmentBitsOfPut, and_iff_right hp, wp_bind,
    wp_locationBitsOfPut, and_iff_right (show IsEntry p ∧ a &&& 0xFFFF < 65536 from ⟨hp, hand⟩),
    wp_pure]

theorem reads_assembleEntry (hp : p % 2 = 0) :
    Reads m (AddressFits m p a) (assembleEntry p a)
      (a + (if p < 2 then 0 else m.objectWords p), m.savedEntry p a) := by
  refine reads_of_wp fun Q => ?_
  by_cases he : IsEntry p
  · have hw := m.word_lt objectTableSegment p
    have hl := m.location_lt p
    -- the end of the function, which restores the entry
    have htail : ∀ (m' : ObjectMemory) (r : Nat), SameBut m p m' →
        (Wp (do
          let word0 ← ot p
          let word1 ← locationBitsOf p
          otPut p (m.word objectTableSegment p)
          locationBitsOfPut p (m.location p)
          return (r, wordBytes word0 ++ wordBytes word1)) Q m' ↔
        Q (r, wordBytes (m'.word objectTableSegment p) ++ wordBytes (m'.location p)) m) := by
      intro m' r h
      rw [wp_bind, wp_ot, and_iff_right he, wp_bind, wp_locationBitsOf, and_iff_right he, wp_bind,
        wp_otPut, and_iff_right ⟨he, hw⟩, wp_bind, wp_locationBitsOfPut, and_iff_right ⟨he, hl⟩,
        wp_pure, h.restore]
    rw [assembleEntry, wp_bind, wp_ot, and_iff_right he, wp_bind, wp_locationBitsOf,
      and_iff_right he, wp_bind, relocate]
    by_cases h2 : p < 2
    · rw [if_neg (by omega), wp_pure, htail m a (.refl m p), if_pos h2, savedEntry, if_pos h2]
      exact (and_iff_right ⟨he, fun hle => by omega⟩).symm
    · rw [if_pos (by omega), if_neg h2, savedEntry, if_neg h2]
      cases hobj : m.holdsObject p with
      | false =>
          have hwp := wp_relocateEntry_free (a := a) he hobj
          have hfits : AddressFits m p a := ⟨he, fun _ ho => by rw [hobj] at ho; cases ho⟩
          obtain ⟨r, m', hrun, rfl, hsame, hw32, hl0⟩ := hwp
          have hiff := htail m' r hsame
          rw [hw32, hl0] at hiff
          rw [objectWords, hobj, if_neg Bool.false_ne_true, if_neg Bool.false_ne_true,
            and_iff_right hfits, Nat.add_zero, ← hiff]
          exact ⟨fun ⟨r', m'', hrun', hQ⟩ => by rw [hrun] at hrun'; cases hrun'; exact hQ,
            fun hQ => ⟨r, m', hrun, hQ⟩⟩
      | true =>
          have hfits : AddressFits m p a ↔ a >>> 16 < 16 := by
            rw [AddressFits, hobj, Nat.shiftRight_eq_div_pow]
            constructor
            · rintro ⟨-, hlt⟩
              have := hlt (by omega) rfl
              omega
            · intro hlt
              exact ⟨he, fun _ _ => by omega⟩
          rw [wp_relocateEntry_object he hobj, hfits, objectWords, hobj, if_pos rfl, if_pos rfl]
          refine and_congr_right fun hseg => ?_
          have hand : a &&& 0xFFFF < 65536 := Nat.lt_succ_of_le Nat.and_le_right
          have hsame : SameBut m p ((m.setSegment p (a >>> 16)).setLocation p (a &&& 0xFFFF)) :=
            ((SameBut.refl m p).setWord).setLocation
          have hput := putField_lt (k := 0) (n := 4) (v := a >>> 16) hw hseg (by omega)
          rw [htail _ _ hsame, location_setLocation hand, if_pos rfl,
            word_setLocation_of_ne (by omega), ObjectMemory.setSegment, setField, word_setWord,
            if_pos ⟨rfl, rfl⟩, Nat.mod_eq_of_lt hput]
  · constructor
    · intro h
      rw [assembleEntry, wp_bind, wp_ot] at h
      exact absurd h.1 he
    · rintro ⟨⟨he', -⟩, -⟩
      exact absurd he' he

theorem writes_saveEntry (hp : p % 2 = 0) :
    Writes m (AddressFits m p a) (saveEntry p a) [m.savedEntry p a]
      (a + (if p < 2 then 0 else m.objectWords p)) := by
  refine ((reads_assembleEntry hp).writes ((Writes.writeBytes _).andThen (.pure _))).congr ?_ rfl
  simp only [and_true]

end Crosstalk
