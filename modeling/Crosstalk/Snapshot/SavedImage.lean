import Crosstalk.Snapshot.Saved

/-!
# The image of a memory

`saveSnapshot` on any file system: the bytes of the file after the checked
calls, as far as these succeed, and the complete image that a save is to write.
-/

namespace Crosstalk

variable {m : ObjectMemory} {p n : Nat} {f g : File}

/-! ## Padding -/

/-- `n` words of padding, each with one write. -/
def padWords (n : Nat) : List (List UInt8) := (List.range n).flatMap fun _ => [wordBytes 0]

/-- The words of padding from `position` to the next page. -/
def pageRest (position : Nat) : Nat := ((position + 511) / 512 * 512 - position) / 2

/-- A call that answers without an error. -/
def File.Answers (f : File) : Prop := ∀ e, f.fault = some e → e.error = false

/-- Where `tell` fails, its -1 asks for no padding. -/
def File.PadsTo (f : File) (n : Nat) : Prop :=
  (f.Answers → n = pageRest f.position) ∧ (¬f.Answers → n = 0)

theorem File.exists_padsTo (f : File) : ∃ n, f.PadsTo n := by
  by_cases h : f.Answers
  · exact ⟨_, fun _ => rfl, fun hn => absurd h hn⟩
  · exact ⟨0, fun hy => absurd hy h, fun _ => rfl⟩

theorem File.answers_iff : f.Answers ↔ f.fault.all (!·.error) = true := by
  rw [File.Answers]
  cases f.fault with
  | none => simp
  | some e => simp

theorem saves_padToPage (hf : f.AtEnd) (hn : f.PadsTo n) :
    Saves m True padToPage f (f.called.Takes (padWords n)) () (f.called.append (padWords n)) := by
  refine ⟨fun _ h hm hfile => ?_, fun hn => absurd trivial hn⟩
  subst hfile
  have hpad : ((((h.file.tell.1 + 512 - 1).tdiv 512 * 512 - h.file.tell.1) / 2).toNat) = n := by
    by_cases ha : h.file.Answers
    · have htell : h.file.tell.1 = h.file.position := if_pos (File.answers_iff.mp ha)
      rw [htell, hn.1 ha, pageRest]
      have hdiv : ((h.file.position : Int) + 512 - 1).tdiv 512 =
          ((h.file.position + 511) / 512 : Nat) := by
        rw [Int.tdiv_eq_ediv_of_nonneg (by omega)]
        omega
      rw [hdiv]
      omega
    · have htell : h.file.tell.1 = -1 := if_neg fun hall => ha (File.answers_iff.mpr hall)
      rw [htell, hn.2 ha]
      rfl
  have hloop : Writes m (∀ i < n, True) (foldN n (fun _ _ => writeBytes (wordBytes 0)) ())
      (padWords n) () :=
    Writes.foldN (a := fun _ => ()) fun _ _ => Writes.writeBytes _
  rw [padToPage, wp_bind, wp_onFile]
  dsimp only
  rw [hpad]
  exact (hloop h.file.called hf).total (fun _ _ => trivial) { h with file := h.file.called } hm rfl

/-! ## The image -/

namespace ObjectMemory

/-- The last oop with an object, if there is any among the last `n`. -/
def lastUsedFrom (m : ObjectMemory) : Nat → Nat → Nat
  | 0, lastUsed => lastUsed
  | n + 1, lastUsed => m.lastUsedFrom n (if m.holdsObject (objectTableSize - 2 * (n + 1)) then
      objectTableSize - 2 * (n + 1) else lastUsed)

def lastUsed (m : ObjectMemory) : Nat := m.lastUsedFrom (objectTableSize / 2 - 1) nonPointer

def storedObjectTableLength (m : ObjectMemory) : Nat := m.lastUsed + 2

def objectsChunks (m : ObjectMemory) : List (List UInt8) :=
  (List.range ((m.storedObjectTableLength - 1) / 2)).flatMap fun i => m.objectChunks (2 * (i + 1))

def objectSpaceLength (m : ObjectMemory) : Nat :=
  m.wordsBefore ((m.storedObjectTableLength - 1) / 2)

def tableChunks (m : ObjectMemory) : List (List UInt8) :=
  (List.range ((m.storedObjectTableLength + 1) / 2)).flatMap fun i =>
    [m.savedEntry (2 * i) (m.wordsBefore (i - 1))]

/-- The image without the header: padded objects and the object table. -/
def imageBody (m : ObjectMemory) : List UInt8 :=
  wordBytes 0 ++ (padWords 251).flatten ++ m.objectsChunks.flatten ++
    (padWords (pageRest (512 + m.objectsChunks.flatten.length))).flatten ++ m.tableChunks.flatten

/-- The image of the memory. -/
def image (m : ObjectMemory) : List UInt8 :=
  int32Bytes m.objectSpaceLength ++ int32Bytes m.storedObjectTableLength ++ m.imageBody

/-- No assertion stops the save. -/
structure Saveable (m : ObjectMemory) : Prop where
  inside : ∀ i < (m.storedObjectTableLength - 1) / 2, m.SavedInside (2 * (i + 1))
  fits : ∀ i < (m.storedObjectTableLength + 1) / 2,
    AddressFits m (2 * i) (m.wordsBefore (i - 1))

end ObjectMemory

open ObjectMemory

theorem reads_lastUsedFrom {l : Nat} (hn : n ≤ 32766) :
    Reads m True (lastUsedFrom n l) (m.lastUsedFrom n l) := by
  refine reads_of_wp fun Q => ?_
  rw [true_and]
  induction n generalizing l with
  | zero => rw [Crosstalk.lastUsedFrom, wp_pure, ObjectMemory.lastUsedFrom]
  | succ n ih =>
      have hp : IsEntry (objectTableSize - 2 * (n + 1)) := by
        simp only [objectTableSize, segmentSize, IsEntry]
        omega
      rw [Crosstalk.lastUsedFrom, wp_bind, lastUsedRound, wp_bind, wp_hasObject, and_iff_right hp,
        ObjectMemory.lastUsedFrom]
      cases m.holdsObject (objectTableSize - 2 * (n + 1)) with
      | false => rw [if_neg Bool.false_ne_true, if_neg Bool.false_ne_true, wp_pure, ih (by omega)]
      | true => rw [if_pos rfl, if_pos rfl, wp_pure, ih (by omega)]

theorem writes_objects :
    Writes m (∀ i < (m.storedObjectTableLength - 1) / 2, m.SavedInside (2 * (i + 1)))
      (foldN ((m.storedObjectTableLength - 1) / 2) (fun i n => saveObject (2 * (i + 1)) n) 0)
      m.objectsChunks m.objectSpaceLength :=
  Writes.foldN (a := fun i => (m.wordsBefore i : Int)) fun i _ => by
    have hw := writes_saveObject (m := m) (p := 2 * (i + 1)) (s := m.wordsBefore i) (by omega)
    rwa [← Int.natCast_add] at hw

theorem writes_table :
    Writes m (∀ i < (m.storedObjectTableLength + 1) / 2,
        AddressFits m (2 * i) (m.wordsBefore (i - 1)))
      (foldN ((m.storedObjectTableLength + 1) / 2) (fun i a => saveEntry (2 * i) a) 0)
      m.tableChunks (m.wordsBefore ((m.storedObjectTableLength + 1) / 2 - 1)) :=
  Writes.foldN (a := fun i => m.wordsBefore (i - 1)) fun i _ => by
    have hw := writes_saveEntry (m := m) (p := 2 * i) (a := m.wordsBefore (i - 1)) (by omega)
    have hnext : m.wordsBefore (i - 1) + (if 2 * i < 2 then 0 else m.objectWords (2 * i)) =
        m.wordsBefore i := by
      cases i with
      | zero => rfl
      | succ i => rw [if_neg (by omega)]; rfl
    rwa [hnext] at hw

/-! ## The checked calls -/

/-- The empty file that `create_file` opens. -/
def File.opened (f : File) : File := { f.called with bytes := [], position := 0 }

/-- The files of a save that starts with the empty file `f`: at the two calls of
`tell`, and after the checked calls, with `n` and `k` words of padding. -/
def headedFile (f : File) : File := f.append [int32Bytes 0 ++ int32Bytes 0, wordBytes 0]

def objectsFile (m : ObjectMemory) (f : File) (n : Nat) : File :=
  (headedFile f).called.append (padWords n ++ m.objectsChunks)

def savedFile (m : ObjectMemory) (f : File) (n k : Nat) : File :=
  (objectsFile m f n).called.append (padWords k ++ m.tableChunks)

/-- The checked calls succeed. -/
structure Checked (m : ObjectMemory) (f : File) (n k : Nat) : Prop where
  header : f.Takes [int32Bytes 0 ++ int32Bytes 0, wordBytes 0]
  objects : (headedFile f).called.Takes (padWords n ++ m.objectsChunks)
  table : (objectsFile m f n).called.Takes (padWords k ++ m.tableChunks)

theorem File.AtEnd.called (h : f.AtEnd) : f.called.AtEnd := h

theorem saves_saveContents {k : Nat} (hf : f.AtEnd) (hn : (headedFile f).PadsTo n)
    (hk : (objectsFile m f n).PadsTo k) :
    Saves m m.Saveable (saveContents m.storedObjectTableLength) f (Checked m f n k)
      m.objectSpaceLength (savedFile m f n k) := by
  have hf1 : (headedFile f).AtEnd := hf.append _
  have hf1' : ((headedFile f).called.append (padWords n)).AtEnd := hf1.called.append _
  have hf2 : (objectsFile m f n).AtEnd := hf1.called.append _
  have hf2' : ((objectsFile m f n).called.append (padWords k)).AtEnd := hf2.called.append _
  -- the calls in their order, each from the file that the last one leaves
  have hzeros := Writes.writeBytes (m := m) (int32Bytes 0 ++ int32Bytes 0) f hf
  have hword := (Writes.writeBytes (m := m) (wordBytes 0) _ (hf.append _)).congr Iff.rfl Iff.rfl
    (show (f.append [int32Bytes 0 ++ int32Bytes 0]).append [wordBytes 0] = headedFile f from
      File.append_append _ _ _)
  have hpads := saves_padToPage (m := m) hf1 hn
  have hobjects := (writes_objects (m := m) _ hf1').congr Iff.rfl Iff.rfl
    (show ((headedFile f).called.append (padWords n)).append m.objectsChunks = objectsFile m f n from
      File.append_append _ _ _)
  have hpads' := saves_padToPage (m := m) hf2 hk
  have htable := (writes_table (m := m) _ hf2').congr Iff.rfl Iff.rfl
    (show ((objectsFile m f n).called.append (padWords k)).append m.tableChunks =
      savedFile m f n k from File.append_append _ _ _)
  have hend := (Writes.pure (m := m) (m.objectSpaceLength : Int) (savedFile m f n k)
    (hf2.called.append _)).congr Iff.rfl Iff.rfl (File.append_nil _)
  refine (hzeros.andThen <| hword.andThen <| hpads.andThen <| hobjects.andThen <|
    hpads'.andThen <| htable.andThen hend).congr ?_ ?_ rfl
  · exact ⟨fun h => ⟨h.2.2.2.1, h.2.2.2.2.2.1⟩, fun h =>
      ⟨trivial, trivial, trivial, h.1, trivial, h.2, trivial⟩⟩
  · constructor
    · rintro ⟨h1, h2, h3, h4, h5, h6, -⟩
      exact ⟨⟨h1.1, h2⟩, File.takes_append.mpr ⟨h3, h4⟩, File.takes_append.mpr ⟨h5, h6⟩⟩
    · rintro ⟨h1, h2, h3⟩
      exact ⟨⟨h1.1, trivial⟩, h1.2, (File.takes_append.mp h2).1, (File.takes_append.mp h2).2,
        (File.takes_append.mp h3).1, (File.takes_append.mp h3).2, trivial⟩

end Crosstalk
