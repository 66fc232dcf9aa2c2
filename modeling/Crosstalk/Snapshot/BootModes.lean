import Crosstalk.Snapshot.Table

/-!
# The boot modes agree

From a host that holds a well-formed image, the loader of each boot mode refines
`unpack` of the image: the positions in the file and in the array stay in step
with the byte addresses that `unpack` computes.
-/

namespace Crosstalk

variable {bytes : List UInt8} {bootmode k n : Nat} {h : Host}

/-- The host holds the image `bytes` where boot mode `bootmode` reads it. -/
structure Holds (bytes : List UInt8) (bootmode : Nat) (h : Host) : Prop where
  mode : bootmode ≤ 2
  file : bootmode ≠ 0 → h.file.bytes = bytes
  faults : bootmode = 1 → ∀ n, h.file.faults n = none
  array : bootmode ≠ 1 → ∀ k < bytes.length, h.filesSnapshotIm k = bytes.getD k 0
  length : bootmode = 0 → h.filesSnapshotImLen = bytes.length

/-- And is about to read byte `k`. -/
structure At (bytes : List UInt8) (bootmode k : Nat) (h : Host) : Prop where
  holds : Holds bytes bootmode h
  position : bootmode = 1 → h.file.position = k
  offset : bootmode ≠ 1 → h.offset = k

/-! ## Words inside the image -/

theorem byteAt_drop_take {i : Nat} (hi : i < n) :
    byteAt ((bytes.drop k).take n) i = byteAt bytes (k + i) := by
  rw [byteAt, byteAt, List.getD_eq_getElem?_getD, List.getD_eq_getElem?_getD,
    List.getElem?_take_of_lt hi, List.getElem?_drop]

theorem wordAt_drop_take {i : Nat} (hi : i + 1 < n) :
    wordAt ((bytes.drop k).take n) i = wordAt bytes (k + i) := by
  rw [wordAt, wordAt, byteAt_drop_take (by omega), byteAt_drop_take hi, Nat.add_assoc]

theorem int32At_drop_take : int32At ((bytes.drop k).take 4) 0 = int32At bytes k := by
  have h0 : wordAt ((bytes.drop k).take 4) 0 = wordAt bytes k := wordAt_drop_take (by omega)
  have h2 : wordAt ((bytes.drop k).take 4) 2 = wordAt bytes (k + 2) :=
    wordAt_drop_take (by omega)
  unfold int32At
  rw [h0, Nat.zero_add, h2]

/-! ## The calls -/

theorem Holds.congr_memory (hh : Holds bytes bootmode h) (m : ObjectMemory) :
    Holds bytes bootmode { h with memory := m } :=
  ⟨hh.mode, hh.file, hh.faults, hh.array, hh.length⟩

theorem At.congr_memory (hk : At bytes bootmode k h) (m : ObjectMemory) :
    At bytes bootmode k { h with memory := m } :=
  ⟨hk.holds.congr_memory m, hk.position, hk.offset⟩

theorem copyImage_eq (hlen : bytes.length ≤ sizeofFilesSnapshotIm) (hkn : k + n ≤ bytes.length)
    (ha : ∀ i < bytes.length, h.filesSnapshotIm i = bytes.getD i 0) :
    copyImage k n h = some ((bytes.drop k).take n, h) := by
  have hin : 0 ≤ (k : Int) ∧ (k : Int) + n ≤ sizeofFilesSnapshotIm := by omega
  rw [copyImage, if_pos hin]
  congr 2
  refine List.ext_getElem ?_ fun i h1 h2 => ?_
  · rw [List.length_map, List.length_range, List.length_take, List.length_drop]
    omega
  · rw [List.length_map, List.length_range] at h1
    rw [List.getElem_map, List.getElem_range, List.getElem_take, List.getElem_drop,
      Int.toNat_natCast, ha _ (by omega), List.getD_eq_getElem _ _ (by omega)]

theorem wp_nextBytes (hlen : bootmode ≠ 1 → bytes.length ≤ sizeofFilesSnapshotIm)
    (hk : At bytes bootmode k h) (hkn : k + n ≤ bytes.length) :
    Wp (nextBytes bootmode n) (fun bs h' => h'.memory = h.memory ∧
      bs = (bytes.drop k).take n ∧ At bytes bootmode (k + n) h') h := by
  have hh := hk.holds
  by_cases hm : bootmode = 1
  · have hdata : (h.file.bytes.drop h.file.position).take n = (bytes.drop k).take n := by
      rw [hh.file (by omega), hk.position hm]
    rw [nextBytes, if_pos hm, wp_onFile]
    refine ⟨rfl, hdata, ⟨hh.mode, hh.file, hh.faults, hh.array, hh.length⟩, fun _ => ?_,
      fun hne => absurd hm hne⟩
    change h.file.position + ((h.file.bytes.drop h.file.position).take n).length = k + n
    rw [hdata, hk.position hm, List.length_take, List.length_drop]
    omega
  · have hcopy : copyImage h.offset n h = some ((bytes.drop k).take n, h) := by
      rw [hk.offset hm]
      exact copyImage_eq (hlen hm) hkn (hh.array hm)
    rw [nextBytes, if_neg hm, wp_bind, wp_get, wp_bind]
    refine ⟨_, _, hcopy, ?_⟩
    dsimp only
    rw [wp_bind, wp_modify, wp_pure]
    refine ⟨rfl, rfl, ⟨hh.mode, hh.file, hh.faults, hh.array, hh.length⟩,
      fun h1 => absurd h1 hm, fun _ => ?_⟩
    change h.offset + n = _
    rw [hk.offset hm]
    omega

theorem wp_nextWord (hlen : bootmode ≠ 1 → bytes.length ≤ sizeofFilesSnapshotIm)
    (hk : At bytes bootmode k h) (hkn : k + 2 ≤ bytes.length) :
    Wp (nextWord bootmode) (fun w h' => h'.memory = h.memory ∧
      w = wordAt bytes k ∧ At bytes bootmode (k + 2) h') h := by
  rw [nextWord, wp_bind]
  refine (wp_nextBytes hlen hk hkn).mono fun bs h' ⟨hmem, hbs, hat⟩ => ?_
  rw [wp_pure]
  refine ⟨hmem, ?_, hat⟩
  rw [hbs, wordAt_drop_take (by omega), Nat.add_zero]

theorem wp_seekImage (hh : Holds bytes bootmode h) (k : Nat) :
    Wp (seekImage bootmode k) (fun r h' => h'.memory = h.memory ∧
      r = true ∧ At bytes bootmode k h') h := by
  by_cases hm : bootmode = 1
  · have hf := hh.faults hm
    have hseek : h.file.seekTo k = (↑k, { h.file.called with position := k }) := by
      have hok : 0 ≤ (k : Int) ∧ h.file.fault.all (!·.error) = true := by
        rw [File.fault, hf]
        exact ⟨by omega, rfl⟩
      rw [File.seekTo, if_pos hok]
      rfl
    rw [seekImage, if_pos hm, wp_bind, wp_onFile, hseek, wp_pure]
    refine ⟨rfl, decide_eq_true (by omega), ⟨hh.mode, hh.file, hh.faults, hh.array, hh.length⟩,
      fun _ => rfl, fun hne => absurd hm hne⟩
  · rw [seekImage, if_neg hm, wp_bind, wp_modify, wp_pure]
    exact ⟨rfl, rfl, ⟨hh.mode, hh.file, hh.faults, hh.array, hh.length⟩,
      fun h1 => absurd h1 hm, fun _ => rfl⟩

/-- A program on the memory keeps the place in the image. -/
theorem refines_onMemory {α : Type} {P : Host → Prop} {x : OM α} {Q : α → Host → Prop}
    (hQ : ∀ h, P h → Wlp x (fun a m => Q a { h with memory := m }) h.memory) :
    Refines Host.memory P (onMemory x) x Q := by
  intro h hP
  cases hx : x h.memory with
  | none => exact .inl ⟨rfl, by rw [onMemory, hx]⟩
  | some r =>
      obtain ⟨a, m⟩ := r
      exact .inr ⟨a, { h with memory := m }, by rw [onMemory, hx], rfl, hQ h hP a m hx⟩

/-! ## The object table -/

theorem wp_imageLengths (hfits : bootmode ≠ 1 → bytes.length ≤ sizeofFilesSnapshotIm)
    (hw : Readable bytes) (hh : Holds bytes bootmode h) :
    Wp (imageLengths bootmode) (fun r h' => h'.memory = h.memory ∧
      r = some (tableLength bytes, (bytes.length : Int)) ∧ Holds bytes bootmode h') h := by
  have hheader := hw.header
  have hlength : int32At ((bytes.drop 4).take 4) 0 = tableLength bytes := int32At_drop_take
  obtain hm | hm | hm : bootmode = 0 ∨ bootmode = 1 ∨ bootmode = 2 := by
    have := hh.mode
    omega
  · subst hm
    have hcopy := copyImage_eq (n := 4) (k := 4) (hfits (by omega)) hheader (hh.array (by omega))
    rw [imageLengths, wp_bind]
    refine ⟨_, _, hcopy, ?_⟩
    dsimp only
    rw [wp_bind, wp_get, wp_pure, hlength, hh.length rfl]
    exact ⟨rfl, rfl, hh⟩
  · subst hm
    have hf := hh.faults rfl
    have hseek : h.file.seekTo 4 = (4, { h.file.called with position := 4 }) := by
      have hok : 0 ≤ (4 : Int) ∧ h.file.fault.all (!·.error) = true := by
        rw [File.fault, hf]
        exact ⟨by omega, rfl⟩
      rw [File.seekTo, if_pos hok]
      rfl
    have hdata : (h.file.bytes.drop 4).take 4 = (bytes.drop 4).take 4 := by
      rw [hh.file (by omega)]
    have hlen4 : ((bytes.drop 4).take 4).length = 4 := by
      rw [List.length_take, List.length_drop]
      omega
    rw [imageLengths, wp_bind, wp_onFile, hseek, if_neg (by omega), wp_bind, wp_onFile]
    change Wp (if ((h.file.bytes.drop 4).take 4).length ≠ 4 then _ else _) _ _
    rw [hdata, if_neg (fun hne => hne hlen4), wp_bind, wp_get, wp_pure]
    refine ⟨rfl, ?_, hh.mode, hh.file, hh.faults, hh.array, hh.length⟩
    change some (int32At ((h.file.bytes.drop 4).take 4) 0, (h.file.bytes.length : Int)) = _
    rw [hdata, hlength, hh.file (by omega)]
  · subst hm
    have hcopy := copyImage_eq (n := 4) (k := 4)
      (h := { h with filesSnapshotImLen := h.file.fileSize }) (hfits (by omega)) hheader
      (hh.array (by omega))
    rw [imageLengths, wp_bind, wp_get, wp_bind, wp_modify, wp_bind]
    refine ⟨_, _, hcopy, ?_⟩
    dsimp only
    rw [wp_pure, hlength]
    refine ⟨rfl, ?_, hh.mode, hh.file, hh.faults, hh.array, fun h0 => absurd h0 (by omega)⟩
    rw [File.fileSize, hh.file (by omega)]

theorem refines_loadEntry {p : Nat} (hfits : bootmode ≠ 1 → bytes.length ≤ sizeofFilesSnapshotIm)
    (hin : tableBase bytes + 2 * p + 4 ≤ bytes.length) :
    Refines Host.memory (At bytes bootmode (tableBase bytes + 2 * p)) (loadEntry bootmode p)
      (unpackEntry bytes p >>= fun _ => pure (some ()))
      fun r h => r = some () ∧ At bytes bootmode (tableBase bytes + 2 * (p + 2)) h := by
  refine Refines.bind_left (fun h hk => wp_nextBytes hfits hk hin) fun words => ?_
  refine Refines.of_fact (fun _ hq => hq.1) fun hwords => ?_
  have hlen : ¬words.length ≠ 4 := by
    rw [hwords, List.length_take, List.length_drop]
    omega
  have h0 : wordAt words 0 = wordAt bytes (tableBase bytes + 2 * p) := by
    rw [hwords, wordAt_drop_take (by omega), Nat.add_zero]
  have h2 : wordAt words 2 = wordAt bytes (tableBase bytes + 2 * p + 2) := by
    rw [hwords, wordAt_drop_take (by omega)]
  rw [if_neg hlen, unpackEntry, bind_assoc, h0, h2]
  refine (refines_onMemory (Q := fun _ => At bytes bootmode (tableBase bytes + 2 * p + 4))
    fun h hk _ _ _ => hk.2.congr_memory _).bind fun _ => ?_
  refine (refines_onMemory (Q := fun _ => At bytes bootmode (tableBase bytes + 2 * p + 4))
    fun h hk _ _ _ => hk.congr_memory _).bind fun _ => .pure fun _ hk => ⟨rfl, ?_⟩
  rwa [Nat.mul_add, ← Nat.add_assoc]

theorem Readable.even (hw : Readable bytes) : (tableLength bytes).toNat % 2 = 0 := by
  by_contra hodd
  have h1 := hw.length_nonneg
  have h2 := hw.base
  have h3 := hw.table ((tableLength bytes).toNat - 1) (by omega) (by omega)
  rw [tableBase] at h3
  omega

theorem wlp_unpackTable (hw : Readable bytes) (m : ObjectMemory) :
    Wlp (unpackTable bytes) (fun _ => ObjectMemory.TableLoaded bytes) m := by
  obtain ⟨t, ht⟩ := Int.eq_ofNat_of_zero_le hw.length_nonneg
  have heven := hw.even
  rw [ht, Int.toNat_natCast] at heven
  by_cases hle : t ≤ 65536
  · exact (ObjectMemory.wp_unpackTable ht heven hle).toWlp
  · intro a m' hrun
    rw [unpackTable_eq_none ht (by omega)] at hrun
    cases hrun

/-- The live entries from `p` on refer to objects inside the image. -/
def Described (bytes : List UInt8) (p : Nat) (m : ObjectMemory) : Prop :=
  ∀ q, ObjectMemory.IsOop q → p ≤ q → (m.entry q).free = 0 →
    InImage bytes (((m.entry q).segment <<< 16) + m.location q)

theorem Readable.described (hw : Readable bytes) {m : ObjectMemory}
    (hm : ObjectMemory.TableLoaded bytes m) : Described bytes 2 m := by
  intro q hq _ h0
  obtain ⟨hlt, hentry, hlocation⟩ := hm.live q hq h0
  rw [hentry] at h0
  rw [hentry, hlocation]
  refine hw.objects q hq.1 hq.2.1 (by omega) ?_ h0
  have := hq.2.2
  simp only [objectTableSize, segmentSize]
  omega

theorem refines_loadObjectTable (hfits : bootmode ≠ 1 → bytes.length ≤ sizeofFilesSnapshotIm)
    (hw : Readable bytes) :
    Refines Host.memory (Holds bytes bootmode) (loadObjectTable bootmode)
      (unpackTable bytes >>= fun _ => pure true)
      fun r h => r = true ∧ Holds bytes bootmode h ∧ Described bytes 2 h.memory := by
  have hbase : (bytes.length : Int) - tableLength bytes * 2 = (tableBase bytes : Nat) := by
    have := hw.base
    rw [tableBase]
    omega
  refine Refines.bind_left (fun h hh => wp_imageLengths hfits hw hh) fun r => ?_
  refine Refines.of_fact (fun _ hq => hq.1) fun hr => ?_
  subst hr
  dsimp only
  rw [hbase]
  refine Refines.bind_left (fun h hh => wp_seekImage hh.2 _) fun r => ?_
  refine Refines.of_fact (fun _ hq => hq.1) fun hr => ?_
  rw [if_pos hr]
  have hloop : Refines Host.memory _ _ _ _ := Refines.foldN_forN
    (f := fun i _ => loadEntry bootmode (2 * i)) (g := fun i => unpackEntry bytes (2 * i))
    (fun i => At bytes bootmode (tableBase bytes + 2 * (2 * i)))
    (n := ((tableLength bytes + 1) / 2).toNat) fun i hi =>
      refines_loadEntry hfits (hw.table (2 * i) (by omega) (by omega))
  have hunpack : (unpackTable bytes >>= fun _ => pure true) =
      ((forN ((tableLength bytes + 1) / 2).toNat fun i => unpackEntry bytes (2 * i)) >>=
        fun _ => pure (some ())) >>= fun r : Option Unit =>
          (r.elim (pure false) fun _ => buildFreeEntries (tableLength bytes) >>= fun _ =>
            pure true : OM Bool) := by
    simp only [unpackTable, bind_assoc, pure_bind, Option.elim_some]
  rw [hunpack]
  refine (((hloop.mono (fun h hk => by rw [Nat.mul_zero, Nat.add_zero]; exact hk.2)
    fun _ _ hq => hq).bind (R := fun r h => r = true ∧
    Holds bytes bootmode h) fun r => ?_).and_wlp (R := fun _ m => Described bytes 2 m)
      fun h _ => ?_).mono (fun _ hk => hk) fun _ _ hq => ⟨hq.1.1, hq.1.2, hq.2⟩
  · refine Refines.of_fact (fun _ hq => hq.1) fun hr => ?_
    subst hr
    dsimp only
    refine (refines_onMemory (Q := fun _ => Holds bytes bootmode)
      fun h hk _ _ _ => hk.2.holds.congr_memory _).bind fun _ => ?_
    exact .pure fun _ hk => ⟨rfl, hk⟩
  · rw [← hunpack, wlp_bind]
    exact (wlp_unpackTable hw h.memory).mono fun _ m hm => (wlp_pure _ _ _).mpr (hw.described hm)

/-! ## The objects -/

section Objects

open ObjectMemory

variable {m : ObjectMemory} {p base : Nat} {d : Destination}

/-- Copying an object leaves the entries of the others alone. -/
theorem wlp_unpackWords (hd : d.segment < 15) :
    Wlp (unpackWords bytes base p d) (fun _ m' => ∀ q, q % 2 = 0 → q ≠ p →
      m'.entry q = m.entry q ∧ m'.location q = m.location q) m := by
  -- the entry of `p` names a heap segment, where the words go
  let Inv : ObjectMemory → Prop := fun m' => (m'.entry p).segment ≠ objectTableSegment ∧
    ∀ q, q % 2 = 0 → q ≠ p → m'.entry q = m.entry q ∧ m'.location q = m.location q
  have hput : ∀ i v m', Inv m' → Inv (m'.setChunkWord p i v) := by
    intro i v m' h
    refine ⟨by rw [entry_setChunkWord h.1]; exact h.1, fun q hq hne => ?_⟩
    rw [entry_setChunkWord h.1, location_setChunkWord h.1]
    exact h.2 q hq hne
  rw [unpackWords, wlp_bind, wlp_segmentBitsOfPut]
  intro hp _
  rw [wlp_bind, wlp_locationBitsOfPut]
  intro _ hw
  have hstart : Inv ((m.setSegment p d.segment).setLocation p d.word) := by
    refine ⟨?_, fun q hq hne => ?_⟩
    · rw [entry_setLocation (by omega), entry_setSegment (by omega), if_pos rfl]
      change d.segment ≠ 15
      omega
    · rw [entry_setLocation (by omega), entry_setSegment (by omega), if_neg hne,
        location_setLocation hw, if_neg hne, setSegment, location_setField (by omega)]
      exact ⟨rfl, rfl⟩
  rw [wlp_bind, wlp_sizeBitsOfPut]
  intro _ _ _
  rw [wlp_bind, wlp_classBitsOfPut]
  intro _ _ _
  refine (wlp_forN (fun _ => Inv) (fun i m' _ h => ?_) (hput _ _ _ (hput _ _ _ hstart))).mono
    fun _ _ h => h.2
  rw [unpackField, storeWordOfObjectWithValue, wlp_bind, wlp_fetchWordLengthOf]
  intro _ _
  rw [wlp_bind, wlp_check]
  intro _
  rw [wlp_heapChunkOfWordPut]
  intro _ _ _
  exact hput _ _ _ h

theorem Destination.advance_segment_le (d : Destination) (space : Nat) :
    (d.advance space).segment ≤ d.segment + 1 := by
  rw [Destination.advance]
  split
  · exact le_rfl
  · exact Nat.le_succ _

theorem wlp_spaceInMemory {size : Nat} {Q : Nat → ObjectMemory → Prop}
    (hQ : ∀ space, Q space m) : Wlp (spaceInMemory size p) Q m := by
  rw [spaceInMemory, wlp_bind, wlp_pointerBitOf]
  intro _
  rw [wlp_ite, wlp_pure, wlp_pure]
  exact ⟨fun _ => hQ _, fun _ => hQ _⟩

/-- The entries after the object are not touched. -/
theorem wlp_unpackObject (hd : d.segment < 15) (hm : Described bytes p m) :
    Wlp (unpackObject bytes p d) (fun r m' => ∀ d', r = some d' →
      d'.segment < 15 ∧ Described bytes (p + 2) m') m := by
  have hweak : Described bytes (p + 2) m := fun q hq hle => hm q hq (by omega)
  rw [unpackObject, wlp_bind, wlp_freeBitOf]
  intro hp
  rw [wlp_ite]
  refine ⟨fun _ => (wlp_pure _ _ _).mpr fun d' hd' => ?_, fun _ => ?_⟩
  · obtain rfl := Option.some.inj hd'
    exact ⟨hd, hweak⟩
  rw [wlp_bind, wlp_countBitsOf]
  intro _
  rw [wlp_bind, wlp_check]
  intro _
  rw [wlp_bind, objectImageWordAddress, wlp_bind, wlp_segmentBitsOf]
  intro _
  rw [wlp_bind, wlp_locationBitsOf]
  intro _
  rw [wlp_pure, wlp_bind]
  refine wlp_spaceInMemory fun space => ?_
  have hle := d.advance_segment_le space
  dsimp only
  rw [wlp_ite]
  refine ⟨fun _ => (wlp_pure _ _ _).mpr fun d' hd' => ?_, fun hne => ?_⟩
  · cases hd'
  have hseg : (d.advance space).segment < 15 := by
    simp only [heapSegmentCount, segmentCount] at hne
    omega
  rw [wlp_bind]
  refine (wlp_unpackWords hseg).mono fun _ m' h => (wlp_pure _ _ _).mpr fun d' hd' => ?_
  obtain rfl := Option.some.inj hd'
  refine ⟨hseg, fun q hq hle h0 => ?_⟩
  obtain ⟨hentry, hlocation⟩ := h q hq.1 (by omega)
  rw [hentry] at h0
  rw [hentry, hlocation]
  exact hweak q hq hle h0

theorem refines_copyObject (hfits : bootmode ≠ 1 → bytes.length ≤ sizeofFilesSnapshotIm)
    (hin : base + 2 * max headerSize (wordAt bytes base) ≤ bytes.length) :
    Refines Host.memory (At bytes bootmode (base + 2))
      (copyObject bootmode p (wordAt bytes base) d) (unpackWords bytes base p d)
      fun _ => Holds bytes bootmode := by
  have hput : ∀ (x : OM Unit) k, Refines Host.memory (At bytes bootmode k) (onMemory x) x
      fun _ => At bytes bootmode k := fun x k =>
    refines_onMemory fun h hk _ _ _ => hk.congr_memory _
  have hheader : headerSize = 2 := rfl
  have hmax := Nat.le_max_left headerSize (wordAt bytes base)
  have hmax' := Nat.le_max_right headerSize (wordAt bytes base)
  refine (hput _ _).bind fun _ => (hput _ _).bind fun _ => (hput _ _).bind fun _ => ?_
  refine Refines.bind_left (fun h hk => wp_nextWord hfits hk (by omega)) fun w => ?_
  refine Refines.of_fact (fun _ hq => hq.1) fun hw => ?_
  subst hw
  refine ((hput _ (base + 2 + 2)).mono (fun _ hk => hk.2) fun _ _ hq => hq).bind fun _ => ?_
  refine (Refines.forN (fun i => At bytes bootmode (base + 4 + 2 * i)) fun i hi => ?_).mono
    (fun _ hk => hk) fun _ _ hk => hk.holds
  refine Refines.bind_left (fun h hk => wp_nextWord hfits hk (by omega)) fun w => ?_
  refine Refines.of_fact (fun _ hq => hq.1) fun hw => ?_
  subst hw
  exact (hput _ _).mono (fun _ hk => hk.2) fun _ _ hq => hq

theorem refines_loadObject (hfits : bootmode ≠ 1 → bytes.length ≤ sizeofFilesSnapshotIm)
    (hp : IsOop p) :
    Refines Host.memory (fun h => Holds bytes bootmode h ∧ Described bytes p h.memory)
      (loadObject bootmode p d) (unpackObject bytes p d) fun _ => Holds bytes bootmode := by
  have hread : ∀ (x : OM Nat), (∀ m, Wlp x (fun _ m' => m' = m) m) →
      Refines Host.memory (fun h => Holds bytes bootmode h ∧ Described bytes p h.memory ∧
          (h.memory.entry p).free = 0) (onMemory x) x
        fun _ h => Holds bytes bootmode h ∧ Described bytes p h.memory ∧
          (h.memory.entry p).free = 0 := fun x hx =>
    refines_onMemory fun h hk a m hrun => by
      obtain rfl := hx h.memory a m hrun
      exact hk
  refine (refines_onMemory (Q := fun r h => Holds bytes bootmode h ∧
    Described bytes p h.memory ∧ r = (h.memory.entry p).free) fun h hk => ?_).bind fun r => ?_
  · rw [wlp_freeBitOf]
    exact fun _ => ⟨hk.1.congr_memory _, hk.2, rfl⟩
  refine Refines.ite (fun _ => .pure fun _ hk => hk.1) fun hr => ?_
  refine Refines.bind ((hread (countBitsOf p) fun m => by simp).mono
    (fun h hk => ⟨hk.1, hk.2.1, by rw [← hk.2.2]; exact not_not.mp hr⟩) fun _ _ hq => hq) fun c => ?_
  refine (Refines.check (Q := fun _ h => Holds bytes bootmode h ∧ Described bytes p h.memory ∧
    (h.memory.entry p).free = 0) fun _ hk _ => hk).bind fun _ => ?_
  refine (refines_onMemory (Q := fun address h => Holds bytes bootmode h ∧
    InImage bytes address) fun h hk => ?_).bind fun address => ?_
  · rw [objectImageWordAddress, wlp_bind, wlp_segmentBitsOf]
    intro _
    rw [wlp_bind, wlp_locationBitsOf]
    intro _
    rw [wlp_pure]
    exact ⟨hk.1.congr_memory _, hk.2.1 p hp le_rfl hk.2.2⟩
  refine Refines.of_fact (fun _ hq => hq.2) fun hin => ?_
  have hheader : headerSize = 2 := rfl
  have hmax := Nat.le_max_left headerSize (wordAt bytes (objectBase address))
  have hbase : ((objectSpaceBaseInImage : Nat) + (address : Nat) * 2 : Int) =
      (objectBase address : Nat) := by
    rw [objectBase]
    omega
  dsimp only
  rw [hbase]
  refine Refines.bind_left (fun h hk => wp_seekImage hk.1 _) fun _ => ?_
  refine Refines.bind_left (fun h hk => wp_nextWord hfits hk.2 (by
    unfold InImage at hin
    omega)) fun size => ?_
  refine Refines.of_fact (fun _ hq => hq.1) fun hsize => ?_
  subst hsize
  refine (refines_onMemory (Q := fun _ => At bytes bootmode (objectBase address + 2))
    fun h hk _ _ _ => hk.2.congr_memory _).bind fun space => ?_
  refine Refines.ite (fun _ => .pure fun _ hk => hk.holds) fun _ => ?_
  exact (refines_copyObject hfits hin).bind fun _ => .pure fun _ hk => hk

theorem refines_loadObjects (hfits : bootmode ≠ 1 → bytes.length ≤ sizeofFilesSnapshotIm) :
    Refines Host.memory (fun h => Holds bytes bootmode h ∧ Described bytes 2 h.memory)
      (loadObjects bootmode) (unpackObjects bytes) fun r h => r = true → Holds bytes bootmode h := by
  have hloop : Refines Host.memory _ _ _ _ := Refines.foldN
    (f := fun i d => loadObject bootmode (2 * (i + 1)) d)
    (g := fun i d => unpackObject bytes (2 * (i + 1)) d) (n := objectTableSize / 2 - 1)
    (fun i d h => d.segment < 15 ∧ Holds bytes bootmode h ∧
      Described bytes (2 * (i + 1)) h.memory) (c := .start) fun i hi d => ?_
  · refine (hloop.mono (fun h hk => ⟨by decide, hk⟩) fun _ _ hq => hq).bind fun r => ?_
    cases r with
    | none => exact .pure fun _ _ hr => by cases hr
    | some d =>
        refine (refines_onMemory (Q := fun _ => Holds bytes bootmode)
          fun h hk _ _ _ => (hk d rfl).2.1.congr_memory _).bind fun _ => ?_
        exact .pure fun _ hk _ => hk
  · refine Refines.of_fact (fun _ hk => hk.1) fun hd => ?_
    have hp : IsOop (2 * (i + 1)) := by
      simp only [objectTableSize, segmentSize] at hi
      exact ⟨by omega, by omega, by omega⟩
    refine (((refines_loadObject hfits hp).and_wlp fun h hk => wlp_unpackObject hd hk.2).mono
      (fun _ hk => hk.2) fun r h hq d' hd' => ?_)
    have := hq.2 d' hd'
    exact ⟨this.1, hq.1, this.2⟩

end Objects

/-! ## The snapshot -/

theorem refines_loadImage (hfits : bootmode ≠ 1 → bytes.length ≤ sizeofFilesSnapshotIm)
    (hw : Readable bytes) :
    Refines Host.memory (Holds bytes bootmode) (loadImage bootmode) (unpack bytes)
      fun r h => r = true → Holds bytes bootmode h := by
  have hunpack : unpack bytes = (unpackTable bytes >>= fun _ => pure true) >>= fun r =>
      if r then unpackObjects bytes else pure false := by
    simp only [unpack, bind_assoc, pure_bind, if_true]
  rw [hunpack]
  refine (refines_loadObjectTable hfits hw).bind fun r => ?_
  refine Refines.of_fact (fun _ hk => hk.1) fun hr => ?_
  subst hr
  exact (refines_loadObjects hfits).mono (fun _ hk => hk.2) fun _ _ hq => hq

/-- The result of loading and the memory it leaves. -/
def loaded (bootmode : Nat) (h : Host) : Option (Bool × ObjectMemory) :=
  (loadImage bootmode h).map fun r => (r.1, r.2.memory)

/-- The three boot modes agree: from the same memory, with the file, the file and
the array, or the array holding one image, they have the same outcome. -/
theorem loaded_bootModes (hw : WellFormed bytes) {h₀ h₁ h₂ : Host} (h0 : Holds bytes 0 h₀)
    (h1 : Holds bytes 1 h₁) (h2 : Holds bytes 2 h₂) (hm1 : h₁.memory = h₀.memory)
    (hm2 : h₂.memory = h₀.memory) : loaded 1 h₁ = loaded 0 h₀ ∧ loaded 2 h₂ = loaded 0 h₀ := by
  have e0 := (refines_loadImage (fun _ => hw.fits) hw.toReadable).map_eq h0
  have e1 := (refines_loadImage (fun _ => hw.fits) hw.toReadable).map_eq h1
  have e2 := (refines_loadImage (fun _ => hw.fits) hw.toReadable).map_eq h2
  rw [hm1] at e1
  rw [hm2] at e2
  exact ⟨e1.trans e0.symm, e2.trans e0.symm⟩

/-- An image with three objects of class 2: one without fields, one that points to it and
to the integer 1, and one of a single byte. The entry 6 is free. -/
def smallImage : List UInt8 :=
  [9, 0, 0, 0, 10, 0, 0, 0] ++ List.replicate 504 0 ++
    ([2, 0, 2, 0] ++ [4, 0, 2, 0, 2, 0, 3, 0] ++ [3, 0, 2, 0, 101, 0]) ++
    ([32, 0, 0, 0] ++ [0, 1, 0, 0] ++ [64, 1, 2, 0] ++ [32, 0, 0, 0] ++ [128, 1, 6, 0])

theorem wellFormed_smallImage : WellFormed smallImage := by
  have hlength : tableLength smallImage = 10 := by decide +kernel
  refine ⟨⟨by decide +kernel, by decide +kernel, by decide +kernel, fun p hp hlt => ?_,
    fun p hp hle hlt _ _ => ?_⟩, by decide +kernel⟩
  · rw [hlength] at hlt
    have hcases : p = 0 ∨ p = 2 ∨ p = 4 ∨ p = 6 ∨ p = 8 := by omega
    rcases hcases with rfl | rfl | rfl | rfl | rfl <;> decide +kernel
  · rw [hlength] at hlt
    have hcases : p = 2 ∨ p = 4 ∨ p = 6 ∨ p = 8 := by omega
    unfold InImage
    rcases hcases with rfl | rfl | rfl | rfl <;> decide +kernel

/-- A host with the image in the file and in the array. -/
def hostOf (bytes : List UInt8) : Host where
  memory := .blank
  file := ⟨bytes, 0, fun _ => none, 0⟩
  filesSnapshotIm k := bytes.getD k 0
  filesSnapshotImLen := bytes.length
  offset := 0

theorem holds_hostOf (hb : bootmode ≤ 2) : Holds bytes bootmode (hostOf bytes) :=
  ⟨hb, fun _ => rfl, fun _ _ => rfl, fun _ _ _ => rfl, fun _ => rfl⟩

theorem loaded_smallImage : loaded 1 (hostOf smallImage) = loaded 0 (hostOf smallImage) ∧
    loaded 2 (hostOf smallImage) = loaded 0 (hostOf smallImage) :=
  loaded_bootModes wellFormed_smallImage (holds_hostOf (by omega)) (holds_hostOf (by omega))
    (holds_hostOf (by omega)) rfl rfl

/-- Boot mode 2 reads the file into the array first. -/
theorem wp_readImageIntoArray (hfits : bytes.length ≤ sizeofFilesSnapshotIm)
    (hbytes : h.file.bytes = bytes) (hpos : h.file.position = 0) :
    Wp readImageIntoArray (fun r h' => r = true ∧ h'.memory = h.memory ∧ Holds bytes 2 h') h := by
  have hsize : ¬h.file.fileSize > sizeofFilesSnapshotIm := by
    rw [File.fileSize, hbytes]
    omega
  have hread : (h.file.bytes.drop h.file.position).take h.file.bytes.length = bytes := by
    rw [hpos, List.drop_zero, List.take_length, hbytes]
  rw [readImageIntoArray, wp_bind, wp_get]
  dsimp only
  rw [if_neg hsize, wp_bind, wp_onFile]
  dsimp only [File.read]
  simp only [hread]
  rw [wp_bind, wp_modify, wp_pure]
  refine ⟨decide_eq_true (by rw [File.fileSize, hbytes]), rfl, le_rfl, fun _ => hbytes,
    fun h21 => absurd h21 (by omega), fun _ k hk => ?_, fun h20 => absurd h20 (by omega)⟩
  exact if_pos hk

end Crosstalk
