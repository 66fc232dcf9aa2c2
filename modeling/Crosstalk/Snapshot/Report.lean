import Crosstalk.Snapshot.SavedImage

/-!
# What a successful save reports

`saveSnapshot` answers true exactly when every checked call succeeds. The last
three calls, which write the header, are not checked.
-/

namespace Crosstalk

open ObjectMemory

variable {m : ObjectMemory} {f : File} {h h' : Host} {n k : Nat} {S T : Int}

/-! ## The header -/

/-- The bytes of `data` that the next write gets to the file. -/
def File.taken (f : File) (data : List UInt8) : List UInt8 :=
  match f.fault with
  | none => data
  | some e => data.take e.written

/-- The file after the three calls that are not checked. -/
def File.patched (f : File) (S T : Int) : File :=
  (((f.seekTo 0).2.write (int32Bytes S)).2.write (int32Bytes T)).2

theorem File.write_snd (f : File) (data : List UInt8) :
    (f.write data).2 = (f.put (f.taken data)).called := by
  rw [File.write, File.taken]
  cases f.fault <;> rfl

theorem saveHeader_eq : saveHeader S T h = some ((), { h with file := h.file.patched S T }) := rfl

/-! ## Success -/

/-- The save reports success: the file is created, no assertion stops the
program, and every checked call succeeds. -/
structure Reported (m : ObjectMemory) (f : File) (n k : Nat) : Prop where
  created : f.Answers
  saveable : m.Saveable
  checked : Checked m f.opened n k

/-- The file that a successful save leaves. -/
def finalFile (m : ObjectMemory) (f : File) (n k : Nat) : File :=
  (savedFile m f.opened n k).patched m.objectSpaceLength m.storedObjectTableLength

theorem reads_lastUsedObjectPointer : Reads m True lastUsedObjectPointer m.lastUsed :=
  reads_lastUsedFrom (by decide)

theorem wp_saveObjects {Q : Bool → Host → Prop} :
    Wp saveObjects Q h ↔ Wp (saveContents h.memory.storedObjectTableLength) (fun r h' =>
      match r with
      | none => Q false h'
      | some S => Q true { h' with
          file := h'.file.patched S h.memory.storedObjectTableLength }) h := by
  rw [saveObjects, wp_bind, wp_onMemory, wp_of_run (reads_lastUsedObjectPointer.1 trivial), wp_bind]
  have hbranch : ∀ (r : Option Int) (h' : Host),
      Wp (match r with
        | none => return false
        | some objectSpaceLength => do
            saveHeader objectSpaceLength h.memory.storedObjectTableLength
            return true : HM Bool) Q h' ↔
      match r with
      | none => Q false h'
      | some S => Q true { h' with
          file := h'.file.patched S h.memory.storedObjectTableLength } := by
    intro r h'
    cases r with
    | none => exact wp_pure _ _ _
    | some S => exact (wp_bind _ _ _ _).trans ((wp_of_run saveHeader_eq).trans (wp_pure _ _ _))
  constructor
  · exact fun hw => hw.mono fun r h' hr => (hbranch r h').mp hr
  · exact fun hw => hw.mono fun r h' hr => (hbranch r h').mpr hr

theorem saveObjects_eq_true (hf : h.file.AtEnd) (hn : (headedFile h.file).PadsTo n)
    (hk : (objectsFile h.memory h.file n).PadsTo k) :
    saveObjects h = some (true, h') ↔ (h.memory.Saveable ∧ Checked h.memory h.file n k) ∧
      h' = { h with file := ((savedFile h.memory h.file n k).patched
        h.memory.objectSpaceLength h.memory.storedObjectTableLength) } := by
  have hsaves := saves_saveContents (m := h.memory) hf hn hk
  have hrun : saveObjects h = some (true, h') ↔ Wp saveObjects (fun r t => r = true ∧ t = h') h :=
    ⟨fun hr => ⟨_, _, hr, rfl, rfl⟩, fun ⟨_, _, hr, h1, h2⟩ => by rw [hr, h1, h2]⟩
  rw [hrun, wp_saveObjects]
  by_cases hs : h.memory.Saveable
  · have hwp := hsaves.total hs h rfl rfl
    by_cases hc : Checked h.memory h.file n k
    · obtain ⟨r, t, hrt, hyes, -⟩ := hwp
      obtain ⟨rfl, rfl⟩ := hyes hc
      rw [wp_of_run hrt]
      exact ⟨fun hq => ⟨⟨hs, hc⟩, hq.2.symm⟩, fun hq => ⟨rfl, hq.2.symm⟩⟩
    · obtain ⟨r, t, hrt, -, hno⟩ := hwp
      obtain rfl := hno hc
      rw [wp_of_run hrt]
      exact ⟨fun hq => absurd hq.1 Bool.false_ne_true, fun hq => absurd hq.1.2 hc⟩
  · refine ⟨fun ⟨r, t, hrt, hq⟩ => ?_, fun hq => absurd hq.1.1 hs⟩
    obtain rfl := hsaves.halts hs h rfl rfl r t hrt
    exact absurd hq.1 Bool.false_ne_true

theorem saveSnapshot_eq_true (hn : (headedFile h.file.opened).PadsTo n)
    (hk : (objectsFile h.memory h.file.opened n).PadsTo k) :
    saveSnapshot h = some (true, h') ↔
      Reported h.memory h.file n k ∧ h' = { h with file := finalFile h.memory h.file n k } := by
  by_cases ha : h.file.Answers
  · have hcreate : h.file.create = (0, h.file.opened) := if_pos (File.answers_iff.mp ha)
    have hrun : saveSnapshot h = saveObjects { h with file := h.file.opened } := by
      show (onFile (·.create) >>= fun r => if r = -1 then pure false else saveObjects) h = _
      show (if (h.file.create).1 = -1 then pure false else saveObjects)
        { h with file := (h.file.create).2 } = _
      rw [hcreate, if_neg (show ¬(0 : Int) = -1 by decide)]
    have hend : h.file.opened.AtEnd := rfl
    rw [hrun, saveObjects_eq_true (h := { h with file := h.file.opened }) hend hn hk]
    exact ⟨fun hq => ⟨⟨ha, hq.1.1, hq.1.2⟩, hq.2⟩, fun hq => ⟨⟨hq.1.saveable, hq.1.checked⟩, hq.2⟩⟩
  · have hcreate : h.file.create = (-1, h.file.called) :=
      if_neg fun hall => ha (File.answers_iff.mpr hall)
    have hrun : saveSnapshot h = some (false, { h with file := h.file.called }) := by
      show (if (h.file.create).1 = -1 then pure false else saveObjects)
        { h with file := (h.file.create).2 } = _
      rw [hcreate, if_pos rfl]
      rfl
    rw [hrun]
    exact ⟨fun hq => (by cases hq), fun hq => absurd hq.1.created ha⟩

/-! ## The bytes of the file -/

/-- What the checked calls write after the eight bytes of the header. -/
def savedBody (m : ObjectMemory) (n k : Nat) : List UInt8 :=
  wordBytes 0 ++ (padWords n).flatten ++ m.objectsChunks.flatten ++ (padWords k).flatten ++
    m.tableChunks.flatten

theorem savedFile_bytes (hf : f.bytes = []) :
    (savedFile m f n k).bytes = (int32Bytes 0 ++ int32Bytes 0) ++ savedBody m n k := by
  simp [savedFile, objectsFile, headedFile, File.append, File.called, hf, savedBody]

/-- The part of `data` that the next write does not get to the file holds only
zeros, which are there already. -/
def File.DropsZeros (f : File) (data : List UInt8) : Prop :=
  ∀ e, f.fault = some e → ∀ b ∈ data.drop e.written, b = 0

/-- The header has its values. -/
structure HeaderWritten (g : File) (T : Int) : Prop where
  sought : g.Answers
  objectSpaceLength : ∀ e, g.called.fault = some e → 4 ≤ e.written
  objectTableLength : g.called.called.DropsZeros (int32Bytes T)

theorem File.exists_taken (f : File) (data : List UInt8) : ∃ w, f.taken data = data.take w ∧
    (∀ e, f.fault = some e → e.written = w) ∧ (f.fault = none → w = data.length) := by
  rw [File.taken]
  cases f.fault with
  | none => exact ⟨data.length, List.take_length.symm, (fun e he => by cases he), fun _ => rfl⟩
  | some e => exact ⟨e.written, rfl, (fun e' he => by cases he; rfl), fun h => by cases h⟩

theorem File.patched_of_answers (h : f.Answers) :
    (f.patched S T).bytes = f.called.taken (int32Bytes S) ++ f.called.called.taken (int32Bytes T) ++
      f.bytes.drop ((f.called.taken (int32Bytes S)).length +
        (f.called.called.taken (int32Bytes T)).length) := by
  have hseek : (f.seekTo 0).2 = { f.called with position := 0 } := by
    rw [File.seekTo, if_pos ⟨Int.le_refl 0, File.answers_iff.mp h⟩]
    rfl
  rw [File.patched, hseek, File.write_snd, File.write_snd]
  have h1 : File.taken { f.called with position := 0 } (int32Bytes S) =
    f.called.taken (int32Bytes S) := rfl
  have h2 : ∀ d : List UInt8, (File.put { f.called with position := 0 } d).called.taken (int32Bytes T) =
    f.called.called.taken (int32Bytes T) := fun _ => rfl
  rw [h1, h2]
  simp [File.put, File.called, List.drop_append]

theorem File.put_of_atEnd (hf : f.AtEnd) (data : List UInt8) :
    (f.put data).bytes = f.bytes ++ data ∧ (f.put data).called.AtEnd := by
  have hpos : f.position = f.bytes.length := hf
  have hbytes : (f.put data).bytes = f.bytes ++ data := by
    simp [File.put, hpos]
  refine ⟨hbytes, ?_⟩
  show f.position + data.length = (f.put data).bytes.length
  rw [hbytes, List.length_append, hpos]

theorem File.patched_of_not_answers (h : ¬f.Answers) (hf : f.AtEnd) :
    (f.patched S T).bytes = f.bytes ++ (f.called.taken (int32Bytes S) ++
      f.called.called.taken (int32Bytes T)) := by
  have hseek : (f.seekTo 0).2 = f.called := by
    rw [File.seekTo, if_neg fun hc => h (File.answers_iff.mpr hc.2)]
  rw [File.patched, hseek, File.write_snd, File.write_snd]
  have h2 : ∀ d : List UInt8, (File.put f.called d).called.taken (int32Bytes T) =
    f.called.called.taken (int32Bytes T) := fun _ => rfl
  rw [h2]
  generalize f.called.taken (int32Bytes S) = data
  generalize f.called.called.taken (int32Bytes T) = data'
  obtain ⟨hbytes, hend⟩ := File.put_of_atEnd (f := f.called) hf data
  exact (File.put_of_atEnd hend data').1.trans
    ((congrArg (· ++ data') hbytes).trans (List.append_assoc _ _ _))

theorem int32Bytes_of_lt {v : Nat} (hv : v < 65536) :
    int32Bytes v = [UInt8.ofNat v, UInt8.ofNat (v / 256), 0, 0] := by
  have h1 : ((v : Int) % 65536).toNat = v := by omega
  have h2 : ((v : Int) / 65536 % 65536).toNat = 0 := by omega
  rw [int32Bytes, h1, h2]
  rfl

theorem wordBytes_ne_zero {v : Nat} (hv : v < 65536) (h0 : v ≠ 0) :
    ¬(UInt8.ofNat v = 0 ∧ UInt8.ofNat (v / 256) = 0) := by
  rintro ⟨h1, h2⟩
  have h1' := congrArg UInt8.toNat h1
  have h2' := congrArg UInt8.toNat h2
  simp only [UInt8.toNat_ofNat', UInt8.toNat_zero] at h1' h2'
  omega

/-- Where a write of the header falls short, what it drops has to be zero; the
first write must not, since the second follows it. -/
theorem header_eq_iff {s0 s1 s2 s3 t0 t1 : UInt8} {B B' : List UInt8} {v w : Nat}
    (ht : ¬(t0 = 0 ∧ t1 = 0)) :
    [s0, s1, s2, s3].take v ++ [t0, t1, 0, 0].take w ++
      ([0, 0, 0, 0, 0, 0, 0, 0] ++ B).drop (([s0, s1, s2, s3].take v).length +
        ([t0, t1, 0, 0].take w).length) = [s0, s1, s2, s3] ++ [t0, t1, 0, 0] ++ B' ↔
    (4 ≤ v ∧ ∀ b ∈ [t0, t1, 0, 0].drop w, b = 0) ∧ B = B' := by
  have htake : ∀ (a b c d : UInt8) (n : Nat), [a, b, c, d].take n = [a, b, c, d].take (min n 4) :=
    fun a b c d n => by
      rcases Nat.le_total n 4 with h | h
      · rw [Nat.min_eq_left h]
      · rw [Nat.min_eq_right h, List.take_of_length_le h, List.take_of_length_le (le_refl 4)]
  have hdrop : ∀ (a b c d : UInt8) (n : Nat), [a, b, c, d].drop n = [a, b, c, d].drop (min n 4) :=
    fun a b c d n => by
      rcases Nat.le_total n 4 with h | h
      · rw [Nat.min_eq_left h]
      · rw [Nat.min_eq_right h, List.drop_of_length_le h, List.drop_of_length_le (le_refl 4)]
  have h4 : 4 ≤ v ↔ min v 4 = 4 := by omega
  rw [htake s0, htake t0, hdrop t0, h4]
  have hv : min v 4 ≤ 4 := by omega
  have hw : min w 4 ≤ 4 := by omega
  generalize min v 4 = v at hv ⊢
  generalize min w 4 = w at hw ⊢
  have hv' : v = 0 ∨ v = 1 ∨ v = 2 ∨ v = 3 ∨ v = 4 := by omega
  have hw' : w = 0 ∨ w = 1 ∨ w = 2 ∨ w = 3 ∨ w = 4 := by omega
  rcases hv' with rfl | rfl | rfl | rfl | rfl <;> rcases hw' with rfl | rfl | rfl | rfl | rfl <;>
    simp only [List.take_succ_cons, List.take_zero, List.drop_succ_cons, List.drop_zero,
      List.length_cons, List.length_nil, List.nil_append, List.cons_append, List.drop_nil,
      List.cons.injEq, List.forall_mem_cons] <;> grind

/-! ## The padding -/

namespace ObjectMemory

/-- Every object has a header. -/
def Headed (m : ObjectMemory) : Prop := ∀ p, m.holdsObject p → m.chunkWord p 0 ≠ 0

theorem lastUsedFrom_cases (m : ObjectMemory) {l : Nat} (hn : n ≤ 32766) :
    m.lastUsedFrom n l = l ∨ m.holdsObject (m.lastUsedFrom n l) ∧ m.lastUsedFrom n l % 2 = 0 ∧
      2 ≤ m.lastUsedFrom n l ∧ m.lastUsedFrom n l ≤ 65532 := by
  induction n generalizing l with
  | zero => exact .inl rfl
  | succ n ih =>
      rw [ObjectMemory.lastUsedFrom]
      split
      · next hobj =>
          rcases ih (l := objectTableSize - 2 * (n + 1)) (by omega) with heq | hcase
          · rw [heq]
            refine .inr ⟨hobj, ?_⟩
            simp only [objectTableSize, segmentSize]
            omega
          · exact .inr hcase
      · exact ih (by omega)

/-- No assertion stops the save of a memory with an object only. -/
theorem Saveable.lastUsed (h : m.Saveable) : m.holdsObject m.lastUsed ∧ m.lastUsed % 2 = 0 ∧
    2 ≤ m.lastUsed ∧ m.lastUsed ≤ 65532 := by
  rcases lastUsedFrom_cases m (n := objectTableSize / 2 - 1) (l := nonPointer) (by decide) with
    hnone | hcase
  · have hlen : m.storedObjectTableLength = 65537 := congrArg (· + 2) hnone
    have hfits := (h.fits 32768 (by rw [hlen]; decide)).1
    exact absurd hfits.2 (by decide)
  · exact hcase

end ObjectMemory

/-- The objects start with the size of one of them. -/
theorem flatten_objectChunks {l : List Nat} (h : ∃ p ∈ l, m.holdsObject p = true) :
    ∃ p, m.holdsObject p = true ∧
      ∃ rest, (l.flatMap m.objectChunks).flatten = wordBytes (m.chunkWord p 0) ++ rest := by
  induction l with
  | nil =>
      obtain ⟨p, hp, -⟩ := h
      cases hp
  | cons q l ih =>
      by_cases hq : m.holdsObject q = true
      · refine ⟨q, hq, ?_⟩
        rw [List.flatMap_cons, objectChunks, if_pos hq]
        simp only [List.append_assoc, List.flatten_cons, List.cons_append, List.nil_append,
          List.append_cancel_left_eq, exists_eq']
      · obtain ⟨p, hp, hobj⟩ := h
        have hpl : p ∈ l := by
          rcases List.mem_cons.mp hp with rfl | hpl
          · exact absurd hobj hq
          · exact hpl
        rw [List.flatMap_cons, objectChunks, if_neg hq, List.nil_append]
        exact ih ⟨p, hpl, hobj⟩

theorem length_padWords (n : Nat) : (padWords n).flatten.length = 2 * n := by
  induction n with
  | zero => rfl
  | succ n ih =>
      rw [padWords, List.range_succ, List.flatMap_append, List.flatten_append, List.length_append]
      rw [padWords] at ih
      rw [ih]
      rfl

theorem padWords_succ (n : Nat) : (padWords (n + 1)).flatten = 0 :: 0 :: (padWords n).flatten := by
  rw [padWords, List.range_succ_eq_map, List.flatMap_cons, List.flatMap_map]
  rfl

/-- Both paddings reach the next page. -/
def Padded (m : ObjectMemory) (f : File) (n : Nat) : Prop :=
  (headedFile f).Answers ∧
    ((objectsFile m f n).Answers ∨ pageRest (512 + m.objectsChunks.flatten.length) = 0)

theorem savedBody_eq_iff_of_answers (hf : f.position = 0) (hn : (headedFile f).PadsTo n)
    (hk : (objectsFile m f n).PadsTo k) (ha : (headedFile f).Answers) :
    savedBody m n k = m.imageBody ↔ Padded m f n := by
  have hpos : (headedFile f).position = 10 := by
    simp [headedFile, File.append, hf, int32Bytes, wordBytes]
  have hn' : n = 251 := by
    rw [hn.1 ha, hpos]
    rfl
  have hpos' : (objectsFile m f n).position = 512 + m.objectsChunks.flatten.length := by
    show (headedFile f).position + (padWords n ++ m.objectsChunks).flatten.length = _
    rw [hpos, List.flatten_append, List.length_append, length_padWords, hn']
    omega
  have hbody : savedBody m n k = m.imageBody ↔
      k = pageRest (512 + m.objectsChunks.flatten.length) := by
    subst hn'
    constructor
    · intro heq
      have hlen := congrArg List.length heq
      simp only [savedBody, imageBody, List.length_append, length_padWords] at hlen
      omega
    · rintro rfl
      rfl
  rw [hbody, Padded, and_iff_right ha]
  by_cases ha' : (objectsFile m f n).Answers
  · rw [hk.1 ha', hpos']
    exact iff_of_true rfl (.inl ha')
  · rw [hk.2 ha']
    exact ⟨fun h => .inr h.symm, fun h => (h.resolve_left ha').symm⟩

/-- Without the first padding the objects start too early. -/
theorem savedBody_ne (hm : m.Headed) (hs : m.Saveable) : savedBody m 0 k ≠ m.imageBody := by
  obtain ⟨hobj, heven, hge, hle⟩ := hs.lastUsed
  have hmem : m.lastUsed / 2 - 1 ∈ List.range ((m.storedObjectTableLength - 1) / 2) := by
    rw [List.mem_range, storedObjectTableLength]
    omega
  have hlist : m.objectsChunks =
      ((List.range ((m.storedObjectTableLength - 1) / 2)).map fun i => 2 * (i + 1)).flatMap
        m.objectChunks := by
    rw [objectsChunks, List.flatMap_map]
  have hlast : 2 * (m.lastUsed / 2 - 1 + 1) = m.lastUsed := by omega
  obtain ⟨p, hp, rest, hrest⟩ := flatten_objectChunks (m := m)
    (l := (List.range ((m.storedObjectTableLength - 1) / 2)).map fun i => 2 * (i + 1))
    ⟨m.lastUsed, List.mem_map.mpr ⟨_, hmem, hlast⟩, hobj⟩
  rw [← hlist] at hrest
  intro heq
  have hpad : (padWords 251).flatten = 0 :: 0 :: (padWords 250).flatten := padWords_succ 250
  rw [savedBody, imageBody, hrest, hpad] at heq
  have hzero := wordBytes_ne_zero (m.word_lt _ _) (hm p hp)
  simp only [padWords, wordBytes, List.range_zero, List.flatMap_nil, List.flatten_nil,
    List.append_nil, List.cons_append, List.nil_append, List.cons.injEq] at heq
  exact hzero ⟨heq.2.2.1, heq.2.2.2.1⟩

/-! ## A complete image -/

/-- The three calls that patch the header do, and the padding is there. -/
structure Complete (m : ObjectMemory) (f : File) (n k : Nat) : Prop where
  header : HeaderWritten (savedFile m f n k) m.storedObjectTableLength
  padded : Padded m f n

theorem savedBody_eq_iff (hm : ¬(headedFile f).Answers → m.Headed) (hs : m.Saveable)
    (hf : f.position = 0) (hn : (headedFile f).PadsTo n) (hk : (objectsFile m f n).PadsTo k) :
    savedBody m n k = m.imageBody ↔ Padded m f n := by
  by_cases ha : (headedFile f).Answers
  · exact savedBody_eq_iff_of_answers hf hn hk ha
  · obtain rfl := hn.2 ha
    exact iff_of_false (savedBody_ne (hm ha) hs) fun h => ha h.1

theorem headerWritten_iff {g : File} {v w : Nat} (ha : g.Answers)
    (hv : ∀ e, g.called.fault = some e → e.written = v) (hv' : g.called.fault = none → v = 4)
    (hw : ∀ e, g.called.called.fault = some e → e.written = w)
    (hw' : g.called.called.fault = none → w = 4) :
    HeaderWritten g T ↔ 4 ≤ v ∧ ∀ b ∈ (int32Bytes T).drop w, b = 0 := by
  constructor
  · intro h
    refine ⟨?_, ?_⟩
    · cases he : g.called.fault with
      | none => rw [hv' he]
      | some e =>
          rw [← hv e he]
          exact h.objectSpaceLength e he
    · cases he : g.called.called.fault with
      | none =>
          rw [hw' he]
          intro b hb
          cases hb
      | some e =>
          rw [← hw e he]
          exact h.objectTableLength e he
  · rintro ⟨h1, h2⟩
    refine ⟨ha, fun e he => ?_, fun e he => ?_⟩
    · rwa [hv e he]
    · rwa [hw e he]

theorem finalFile_bytes_eq_iff_of (hm : ¬(headedFile f.opened).Answers → m.Headed)
    (hs : m.Saveable) (hn : (headedFile f.opened).PadsTo n) (hk : (objectsFile m f.opened n).PadsTo k) :
    (finalFile m f n k).bytes = m.image ↔ Complete m f.opened n k := by
  obtain ⟨hobj, heven, hge, hle⟩ := hs.lastUsed
  have hlen : m.storedObjectTableLength < 65536 := by
    rw [storedObjectTableLength]
    omega
  have hlen0 : m.storedObjectTableLength ≠ 0 := by
    rw [storedObjectTableLength]
    omega
  have ht := wordBytes_ne_zero hlen hlen0
  have hbody := savedBody_eq_iff hm hs (show f.opened.position = 0 from rfl) hn hk
  have hbytes := savedFile_bytes (m := m) (n := n) (k := k) (show f.opened.bytes = [] from rfl)
  have hzeros : int32Bytes 0 ++ int32Bytes 0 = [0, 0, 0, 0, 0, 0, 0, 0] := rfl
  have hend : (savedFile m f.opened n k).AtEnd :=
    ((File.AtEnd.append (f := f.opened) rfl _).called.append _).called.append _
  obtain ⟨v, htake, hv, hv'⟩ := (savedFile m f.opened n k).called.exists_taken
    (int32Bytes m.objectSpaceLength)
  obtain ⟨w, htake', hw, hw'⟩ := (savedFile m f.opened n k).called.called.exists_taken
    (int32Bytes m.storedObjectTableLength)
  rw [finalFile, image]
  by_cases ha : (savedFile m f.opened n k).Answers
  · have hheader := headerWritten_iff (T := m.storedObjectTableLength) ha hv hv' hw hw'
    have hcomplete : Complete m f.opened n k ↔
        (4 ≤ v ∧ ∀ b ∈ (int32Bytes m.storedObjectTableLength).drop w, b = 0) ∧
          savedBody m n k = m.imageBody :=
      ⟨fun h => ⟨hheader.mp h.header, hbody.mpr h.padded⟩,
        fun h => ⟨hheader.mpr h.1, hbody.mp h.2⟩⟩
    rw [File.patched_of_answers ha, htake, htake', hbytes, hcomplete, hzeros,
      int32Bytes_of_lt hlen]
    exact header_eq_iff ht
  · -- the header stays zero, and its values go to the end of the file
    rw [File.patched_of_not_answers ha hend, hbytes, hzeros, int32Bytes_of_lt hlen]
    refine iff_of_false (fun heq => ht ?_) fun h => ha h.header.sought
    simp only [int32Bytes, wordBytes, List.cons_append, List.nil_append, List.cons.injEq] at heq
    exact ⟨heq.2.2.2.2.1.symm, heq.2.2.2.2.2.1.symm⟩

theorem finalFile_bytes_eq_iff (hm : m.Headed) (hs : m.Saveable)
    (hn : (headedFile f.opened).PadsTo n) (hk : (objectsFile m f.opened n).PadsTo k) :
    (finalFile m f n k).bytes = m.image ↔ Complete m f.opened n k :=
  finalFile_bytes_eq_iff_of (fun _ => hm) hs hn hk

theorem finalFile_bytes_eq_of_complete (hs : m.Saveable) (hn : (headedFile f.opened).PadsTo n)
    (hk : (objectsFile m f.opened n).PadsTo k) (hc : Complete m f.opened n k) :
    (finalFile m f n k).bytes = m.image :=
  (finalFile_bytes_eq_iff_of (fun ha => absurd hc.padded.1 ha) hs hn hk).mpr hc

end Crosstalk
