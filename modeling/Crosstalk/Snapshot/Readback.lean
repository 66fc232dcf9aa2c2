import Crosstalk.Snapshot.Report

/-!
# Reading an image back

What the image of a memory has at the places where the loader looks: the length
of the object table, the entries, and the size of each object.
-/

namespace Crosstalk

variable {a b bytes data data' : List UInt8} {i j k n w : Nat}

/-! ## Bytes at a place -/

/-- `bytes` has `data` at byte `k`. -/
def HasAt (bytes : List UInt8) (k : Nat) (data : List UInt8) : Prop :=
  ∃ a b, bytes = a ++ (data ++ b) ∧ a.length = k

theorem hasAt_left (a b : List UInt8) : HasAt (a ++ b) 0 a := ⟨[], b, rfl, rfl⟩

theorem hasAt_right (a b : List UInt8) : HasAt (a ++ b) a.length b :=
  ⟨a, [], by rw [List.append_nil], rfl⟩

namespace HasAt

theorem trans (h : HasAt bytes k data) (h' : HasAt data j data') : HasAt bytes (k + j) data' := by
  obtain ⟨a, b, rfl, rfl⟩ := h
  obtain ⟨a', b', rfl, rfl⟩ := h'
  exact ⟨a ++ a', b' ++ b, by simp only [List.append_assoc], List.length_append⟩

theorem length_le (h : HasAt bytes k data) : k + data.length ≤ bytes.length := by
  obtain ⟨a, b, rfl, rfl⟩ := h
  simp only [List.length_append]
  omega

theorem byteAt_eq (h : HasAt bytes k data) (hi : i < data.length) :
    byteAt bytes (k + i) = byteAt data i := by
  obtain ⟨a, b, rfl, rfl⟩ := h
  have hle : a.length ≤ a.length + i := Nat.le_add_right _ _
  rw [byteAt, byteAt, List.getD_eq_getElem?_getD, List.getD_eq_getElem?_getD,
    List.getElem?_append_right hle, Nat.add_sub_cancel_left, List.getElem?_append_left hi]

theorem wordAt_eq (h : HasAt bytes k (wordBytes w)) (hw : w < 65536) : wordAt bytes k = w := by
  have h0 : byteAt bytes (k + 0) = byteAt (wordBytes w) 0 := h.byteAt_eq (Nat.zero_lt_succ 1)
  have h1 : byteAt bytes (k + 1) = byteAt (wordBytes w) 1 := h.byteAt_eq (Nat.lt_succ_self 1)
  rw [Nat.add_zero] at h0
  have e0 : byteAt (wordBytes w) 0 = w % 256 := UInt8.toNat_ofNat'
  have e1 : byteAt (wordBytes w) 1 = w / 256 % 256 := UInt8.toNat_ofNat'
  rw [wordAt, h0, h1, e0, e1]
  omega

/-- Two words of an `int32_t`, of which the high one is zero. -/
theorem int32At_eq (h : HasAt bytes k (wordBytes w ++ wordBytes 0)) (hw : w < 65536) :
    int32At bytes k = w := by
  have hlow : HasAt bytes (k + 0) (wordBytes w) := h.trans (hasAt_left _ _)
  have hhigh : HasAt bytes (k + 2) (wordBytes 0) := h.trans (hasAt_right _ _)
  have h0 := hlow.wordAt_eq hw
  have h2 := hhigh.wordAt_eq (by omega)
  have hsum : wordAt bytes k + 65536 * wordAt bytes (k + 2) = w := by
    rw [Nat.add_zero] at h0
    rw [h0, h2, Nat.mul_zero, Nat.add_zero]
  have hbmod : (w : Int).bmod 4294967296 = w :=
    Int.bmod_eq_of_le_mul_two (by push_cast; omega) (by push_cast; omega)
  unfold Crosstalk.int32At
  rw [hsum]
  exact hbmod

/-- One of the parts of a list of chunks. -/
theorem flatMap {f : Nat → List (List UInt8)} (hi : i < n) :
    HasAt ((List.range n).flatMap f).flatten ((List.range i).flatMap f).flatten.length
      (f i).flatten := by
  obtain ⟨l, hl⟩ : ∃ l, List.range n = List.range i ++ i :: l := by
    refine ⟨(List.range (n - i - 1)).map (i + 1 + ·), ?_⟩
    obtain ⟨d, rfl⟩ := Nat.exists_eq_add_of_lt hi
    rw [show i + d + 1 - i - 1 = d by omega, show i + d + 1 = i + 1 + d by omega,
      List.range_add, List.range_succ, List.append_assoc]
    rfl
  refine ⟨_, (l.flatMap f).flatten, ?_, rfl⟩
  rw [hl, List.flatMap_append, List.flatten_append, List.flatMap_cons, List.flatten_append]

end HasAt

/-! ## The parts of an image -/

namespace ObjectMemory

variable {m : ObjectMemory} {p : Nat}

/-- Every object has its two header words. -/
def Sized (m : ObjectMemory) : Prop := ∀ p, IsOop p → m.holdsObject p → 2 ≤ m.chunkWord p 0

theorem length_wordsBefore (f : Nat → Nat) (n : Nat) :
    ((List.range n).flatMap fun i => [wordBytes (f i)]).flatten.length = 2 * n := by
  induction n with
  | zero => rfl
  | succ n ih =>
      rw [List.range_succ, List.flatMap_append, List.flatten_append, List.length_append, ih]
      rfl

theorem length_fieldChunks (p : Nat) :
    (m.fieldChunks p).flatten.length = 2 * (m.chunkWord p 0 - 2) := length_wordsBefore _ _

theorem length_objectChunks (hs : m.Sized) (hp : IsOop p) :
    (m.objectChunks p).flatten.length = 2 * m.objectWords p := by
  rw [objectChunks, objectWords]
  by_cases hobj : m.holdsObject p = true
  · have htwo := hs p hp hobj
    rw [if_pos hobj, if_pos hobj, List.flatten_append, List.length_append, length_fieldChunks]
    change 4 + _ = _
    omega
  · rw [if_neg hobj, if_neg hobj]
    rfl

theorem length_objectsBefore (hs : m.Sized) (hn : n ≤ 32766) :
    ((List.range n).flatMap fun i => m.objectChunks (2 * (i + 1))).flatten.length =
      2 * m.wordsBefore n := by
  induction n with
  | zero => rfl
  | succ n ih =>
      rw [List.range_succ, List.flatMap_append, List.flatten_append, List.length_append,
        ih (by omega), List.flatMap_singleton, length_objectChunks hs ⟨by omega, by omega, by omega⟩,
        wordsBefore, ← Nat.mul_add]

theorem length_savedEntry (p a : Nat) : (m.savedEntry p a).length = 4 := by
  rw [savedEntry]
  split
  · rfl
  · split <;> rfl

theorem length_entriesBefore (f : Nat → List UInt8) (hf : ∀ i, (f i).length = 4) (n : Nat) :
    ((List.range n).flatMap fun i => [f i]).flatten.length = 4 * n := by
  induction n with
  | zero => rfl
  | succ n ih =>
      rw [List.range_succ, List.flatMap_append, List.flatten_append, List.length_append, ih,
        List.flatMap_singleton, List.flatten_singleton, hf]
      omega

/-- The length of the object table is that of a saved memory. -/
structure TableSize (m : ObjectMemory) (t : Nat) : Prop where
  eq : m.storedObjectTableLength = t
  even : t % 2 = 0
  pos : 4 ≤ t
  le : t ≤ 65534

theorem Saveable.tableSize (h : m.Saveable) : TableSize m m.storedObjectTableLength := by
  obtain ⟨-, heven, hge, hle⟩ := h.lastUsed
  refine ⟨rfl, ?_, ?_, ?_⟩ <;> rw [storedObjectTableLength] <;> omega

section Image

variable {t : Nat} (ht : TableSize m t) (hs : m.Sized)

include ht

theorem hasAt_tableLength : HasAt m.image 4 (wordBytes t ++ wordBytes 0) := by
  have hle := ht.le
  have hbytes : int32Bytes m.storedObjectTableLength = wordBytes t ++ wordBytes 0 := by
    rw [ht.eq, int32Bytes_of_lt (by omega)]
    rfl
  have himage : m.image = int32Bytes m.objectSpaceLength ++
      ((wordBytes t ++ wordBytes 0) ++ m.imageBody) := by
    rw [image, hbytes, List.append_assoc]
  rw [himage]
  exact (hasAt_right _ _).trans (hasAt_left _ _)

theorem tableLength_image : tableLength m.image = t := by
  have hle := ht.le
  exact HasAt.int32At_eq (hasAt_tableLength ht) (by omega)

omit ht in
/-- The image ends with the object table. -/
theorem image_eq :
    ∃ l, m.image = l ++ m.tableChunks.flatten ∧ HasAt l 512 m.objectsChunks.flatten := by
  refine ⟨(int32Bytes m.objectSpaceLength ++ int32Bytes m.storedObjectTableLength ++
    wordBytes 0 ++ (padWords 251).flatten) ++ (m.objectsChunks.flatten ++
      (padWords (pageRest (512 + m.objectsChunks.flatten.length))).flatten), ?_, ?_⟩
  · simp only [image, imageBody, List.append_assoc]
  · have hlen : (int32Bytes m.objectSpaceLength ++ int32Bytes m.storedObjectTableLength ++
        wordBytes 0 ++ (padWords 251).flatten).length = 512 := by
      rw [List.length_append, length_padWords]
      rfl
    have h := (hasAt_right (int32Bytes m.objectSpaceLength ++ int32Bytes m.storedObjectTableLength ++
      wordBytes 0 ++ (padWords 251).flatten) (m.objectsChunks.flatten ++
        (padWords (pageRest (512 + m.objectsChunks.flatten.length))).flatten)).trans
          (hasAt_left _ _)
    rwa [hlen] at h

theorem length_tableChunks : m.tableChunks.flatten.length = 2 * t := by
  rw [tableChunks, length_entriesBefore _ fun i => length_savedEntry _ _, ht.eq]
  have := ht.even
  omega

theorem hasAt_table : HasAt m.image (tableBase m.image) m.tableChunks.flatten := by
  obtain ⟨l, hl, -⟩ := image_eq (m := m)
  have hbase : tableBase m.image = l.length := by
    rw [tableBase, tableLength_image ht, hl, List.length_append, length_tableChunks ht]
    omega
  rw [hbase, hl]
  exact hasAt_right _ _

theorem hasAt_entry (hp : p % 2 = 0) (hlt : p < t) : HasAt m.image (tableBase m.image + 2 * p)
    (m.savedEntry p (m.wordsBefore (p / 2 - 1))) := by
  have hn : p / 2 < (m.storedObjectTableLength + 1) / 2 := by
    rw [ht.eq]
    have := ht.even
    omega
  have h := HasAt.flatMap (f := fun i => [m.savedEntry (2 * i) (m.wordsBefore (i - 1))]) hn
  rw [length_entriesBefore _ fun i => length_savedEntry _ _, List.flatten_singleton,
    show 4 * (p / 2) = 2 * p by omega, show 2 * (p / 2) = p by omega] at h
  exact (hasAt_table ht).trans h

include hs

theorem hasAt_object (hp : IsOop p) (hlt : p < t) :
    HasAt m.image (objectBase (m.wordsBefore (p / 2 - 1))) (m.objectChunks p).flatten := by
  have hle := ht.le
  have hpe := hp.1
  have hpt := hp.2.1
  have hn : p / 2 - 1 < (m.storedObjectTableLength - 1) / 2 := by
    rw [ht.eq]
    have := ht.even
    omega
  have h := HasAt.flatMap (f := fun i => m.objectChunks (2 * (i + 1))) hn
  rw [length_objectsBefore hs (by omega), show 2 * (p / 2 - 1 + 1) = p by omega] at h
  obtain ⟨l, hl, hobjects⟩ := image_eq (m := m)
  have hat := ((hasAt_left l m.tableChunks.flatten).trans hobjects).trans h
  rw [← hl] at hat
  rw [objectBase, show objectSpaceBaseInImage + m.wordsBefore (p / 2 - 1) * 2 =
    0 + 512 + 2 * m.wordsBefore (p / 2 - 1) by simp only [objectSpaceBaseInImage]; omega]
  exact hat

end Image

/-! ## What the loader finds -/

theorem address_split (a : Nat) : (a >>> 16 <<< 16) + (a &&& 0xFFFF) = a := by
  have hand : a &&& 0xFFFF = a % 65536 := Nat.and_two_pow_sub_one_eq_mod a 16
  rw [hand, Nat.shiftRight_eq_div_pow, Nat.shiftLeft_eq]
  omega

section Found

variable (hm : m.Saveable)

include hm

/-- Objects keep their entries, with the addresses they have in the image; all
others are free. -/
theorem image_entry (hp : IsOop p) (hlt : p < m.storedObjectTableLength) :
    imageEntry m.image p = (if m.holdsObject p then
      { m.entry p with segment := m.wordsBefore (p / 2 - 1) >>> 16 } else ⟨0, 0, 0, 1, 0⟩) ∧
    (m.holdsObject p → imageLocation m.image p = m.wordsBefore (p / 2 - 1) &&& 0xFFFF ∧
      m.wordsBefore (p / 2 - 1) < 1048576) := by
  have ht := hm.tableSize
  have hat := hasAt_entry ht hp.1 hlt
  have htwo := hp.2.1
  have heven := hp.1
  rw [savedEntry, if_neg (by omega)] at hat
  unfold imageEntry imageLocation
  by_cases hobj : m.holdsObject p = true
  · have hfits : m.wordsBefore (p / 2 - 1) < 1048576 := by
      have h := (hm.fits (p / 2) (by omega)).2
      rw [show 2 * (p / 2) = p by omega] at h
      exact h htwo hobj
    have hand : m.wordsBefore (p / 2 - 1) &&& 0xFFFF < 65536 := Nat.lt_succ_of_le Nat.and_le_right
    have hsegment : m.wordsBefore (p / 2 - 1) >>> 16 < 16 := by
      rw [Nat.shiftRight_eq_div_pow]
      omega
    rw [if_pos hobj] at hat
    rw [if_pos hobj]
    have h0 := (hat.trans (hasAt_left _ _)).wordAt_eq
      (putField_lt (m.word_lt objectTableSegment p) hsegment (by omega))
    have h1 := (hat.trans (hasAt_right _ _)).wordAt_eq hand
    refine ⟨?_, fun _ => ⟨h1, hfits⟩⟩
    rw [Nat.add_zero] at h0
    rw [h0, decodeEntry_putSegment hsegment]
    rfl
  · rw [if_neg hobj] at hat
    rw [if_neg hobj]
    have h0 := (hat.trans (hasAt_left _ _)).wordAt_eq (by omega)
    refine ⟨?_, fun h => absurd h hobj⟩
    rw [Nat.add_zero] at h0
    rw [h0]
    rfl

theorem imageEntry_free_iff (hp : IsOop p) (hlt : p < m.storedObjectTableLength) :
    (imageEntry m.image p).free = 0 ↔ m.holdsObject p = true := by
  rw [(image_entry hm hp hlt).1]
  by_cases hobj : m.holdsObject p = true
  · rw [if_pos hobj]
    exact iff_of_true (of_decide_eq_true hobj).1 hobj
  · rw [if_neg hobj]
    exact iff_of_false (by decide) hobj

/-- Where the loader looks for an object. -/
theorem image_address (hp : IsOop p) (hlt : p < m.storedObjectTableLength)
    (hobj : m.holdsObject p = true) :
    ((imageEntry m.image p).segment <<< 16) + imageLocation m.image p =
      m.wordsBefore (p / 2 - 1) := by
  obtain ⟨hentry, hlocation⟩ := image_entry hm hp hlt
  rw [hentry, if_pos hobj, (hlocation hobj).1]
  exact address_split _

variable (hs : m.Sized)

include hs

theorem image_size (hp : IsOop p) (hlt : p < m.storedObjectTableLength)
    (hobj : m.holdsObject p = true) :
    Crosstalk.wordAt m.image (objectBase (m.wordsBefore (p / 2 - 1))) = m.chunkWord p 0 ∧
      InImage m.image (m.wordsBefore (p / 2 - 1)) := by
  have hat := hasAt_object hm.tableSize hs hp hlt
  have hle := hat.length_le
  have htwo := hs p hp hobj
  rw [length_objectChunks hs hp, objectWords, if_pos hobj] at hle
  rw [objectChunks, if_pos hobj, List.singleton_append, List.flatten_cons] at hat
  have h0 := ((hat.trans (hasAt_left _ _)).trans (hasAt_left _ _)).wordAt_eq (m.chunkWord_lt p 0)
  rw [Nat.add_zero] at h0
  refine ⟨h0, ?_⟩
  rw [InImage, h0]
  have hheader : headerSize = 2 := rfl
  omega

/-- All words of an object are in the image. -/
theorem image_word (hp : IsOop p) (hlt : p < m.storedObjectTableLength)
    (hobj : m.holdsObject p = true) (hj : j < m.chunkWord p 0) :
    Crosstalk.wordAt m.image (objectBase (m.wordsBefore (p / 2 - 1)) + 2 * j) =
      m.chunkWord p j := by
  have hat := hasAt_object hm.tableSize hs hp hlt
  rw [objectChunks, if_pos hobj, List.singleton_append, List.flatten_cons] at hat
  have hword := m.chunkWord_lt p j
  by_cases h0 : j = 0
  · subst h0
    exact ((hat.trans (hasAt_left _ _)).trans (hasAt_left _ _)).wordAt_eq hword
  · by_cases h1 : j = 1
    · subst h1
      exact ((hat.trans (hasAt_left _ _)).trans (hasAt_right _ _)).wordAt_eq hword
    · have hfield := HasAt.flatMap (f := fun i => [wordBytes (m.chunkWord p (2 + i))])
        (n := m.chunkWord p 0 - 2) (i := j - 2) (by omega)
      rw [length_wordsBefore, List.flatten_singleton, show 2 + (j - 2) = j by omega] at hfield
      have h := (hat.trans (hasAt_right _ _)).trans hfield
      have hbase : objectBase (m.wordsBefore (p / 2 - 1)) + 4 + 2 * (j - 2) =
          objectBase (m.wordsBefore (p / 2 - 1)) + 2 * j := by omega
      rw [← hbase]
      exact h.wordAt_eq hword

theorem readable_image : Readable m.image := by
  have ht := hm.tableSize
  have hlength := tableLength_image ht
  have hheader := (hasAt_tableLength ht).length_le
  have htable := (hasAt_table ht).length_le
  rw [length_tableChunks ht] at htable
  have heven := ht.even
  refine ⟨hheader, by omega, by omega, fun p hp hlt => by omega, fun p hp htwo hlt hlt' hfree => ?_⟩
  have hoop : IsOop p := by
    simp only [objectTableSize, segmentSize] at hlt'
    exact ⟨hp, htwo, by omega⟩
  have hlt : p < m.storedObjectTableLength := by omega
  have hobj := (imageEntry_free_iff hm hoop hlt).mp hfree
  have hin := (image_size hm hs hoop hlt hobj).2
  rwa [← image_address hm hoop hlt hobj] at hin

end Found

end ObjectMemory

end Crosstalk
