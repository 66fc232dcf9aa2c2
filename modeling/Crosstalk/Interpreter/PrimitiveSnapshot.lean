import Crosstalk.Interpreter.Registers
import Crosstalk.Snapshot.Report

/-!
# The snapshot primitive

`primitiveSnapshot` answers nil to say that the image was written. It does not
look at the result of `saveSnapshot`.
-/

namespace Crosstalk

open ObjectMemory

/-- The pointer of the active context is stored in the active process. -/
def prepareSnapshot : IM Unit := do
  let schedulerPointer ← inMemory (fetchPointerOfObject valueIndex schedulerAssociationPointer)
  let activeProcess ← inMemory (fetchPointerOfObject activeProcessIndex schedulerPointer)
  let s ← get
  inMemory (storePointerOfObjectWithValue suspendedContextIndex activeProcess s.activeContext)
  storeContextRegisters
  garbageCollect

/-- The result is the object that is answered. -/
def primitiveSnapshot : IM Nat := do
  prepareSnapshot
  let _ ← onHost saveSnapshot
  pop 1
  push nilPointer
  return nilPointer

variable {m : ObjectMemory} {f : File} {n q l : Nat}

/-! ## Where the report is truthful -/

/-- The words of padding that `padToPage` writes. -/
def File.padding (f : File) : Nat :=
  if f.fault.all (!·.error) then pageRest f.position else 0

theorem File.padsTo_padding (f : File) : f.PadsTo f.padding :=
  ⟨fun h => if_pos (File.answers_iff.mp h), fun h => if_neg fun h' => h (File.answers_iff.mpr h')⟩

def firstPadding (f : File) : Nat := (headedFile f).padding

def secondPadding (m : ObjectMemory) (f : File) : Nat := (objectsFile m f (firstPadding f)).padding

/-- `saveSnapshot` answers true. -/
def Succeeded (m : ObjectMemory) (f : File) : Prop :=
  Reported m f (firstPadding f.opened) (secondPadding m f.opened)

/-- The calls that are not checked succeed, as far as they matter. -/
def UncheckedCalls (m : ObjectMemory) (f : File) : Prop :=
  Complete m f.opened (firstPadding f.opened) (secondPadding m f.opened)

theorem succeeded_iff {h : Host} :
    (∃ h', saveSnapshot h = some (true, h')) ↔ Succeeded h.memory h.file :=
  ⟨fun ⟨_, hrun⟩ => ((saveSnapshot_eq_true (File.padsTo_padding _) (File.padsTo_padding _)).mp
      hrun).1,
    fun hs => ⟨_, (saveSnapshot_eq_true (File.padsTo_padding _) (File.padsTo_padding _)).mpr
      ⟨hs, rfl⟩⟩⟩

/-- A save that reports success leaves the image in the file. -/
def FileTruthful (h : Host) : Prop :=
  ∀ h', saveSnapshot h = some (true, h') → h'.file.bytes = h.memory.image

/-- The primitive answers nil only when the save reports success. -/
def AnswerTruthful (s : Interpreter) : Prop :=
  ∀ answer s', primitiveSnapshot s = some (answer, s') → answer = nilPointer →
    ∃ s₁ h', prepareSnapshot s = some ((), s₁) ∧ saveSnapshot s₁.host = some (true, h')

theorem fileTruthful_of_uncheckedCalls {h : Host}
    (hc : Succeeded h.memory h.file → UncheckedCalls h.memory h.file) : FileTruthful h := by
  intro h' hrun
  obtain ⟨hs, rfl⟩ := (saveSnapshot_eq_true (File.padsTo_padding _) (File.padsTo_padding _)).mp hrun
  exact finalFile_bytes_eq_of_complete hs.saveable (File.padsTo_padding _) (File.padsTo_padding _)
    (hc hs)

theorem FileTruthful.uncheckedCalls {h : Host} (hm : h.memory.Headed) (ht : FileTruthful h)
    (hs : Succeeded h.memory h.file) : UncheckedCalls h.memory h.file := by
  have hrun := (saveSnapshot_eq_true (File.padsTo_padding _) (File.padsTo_padding _)).mpr
    ⟨hs, rfl⟩
  exact (finalFile_bytes_eq_iff hm hs.saveable (File.padsTo_padding _)
    (File.padsTo_padding _)).mp (ht _ hrun)

/-- Whatever the save reports, the answer is nil. -/
theorem primitiveSnapshot_answers (s : Interpreter) :
    Wlp primitiveSnapshot (fun answer _ => answer = nilPointer ∧
      ∃ s₁, prepareSnapshot s = some ((), s₁)) s := by
  rw [primitiveSnapshot, wlp_bind]
  intro _ s₁ hprepare
  rw [wlp_bind]
  intro _ s₂ _
  rw [wlp_bind]
  intro _ s₃ _
  rw [wlp_bind]
  intro _ s₄ _
  exact (wlp_pure _ _ _).mpr ⟨rfl, s₁, hprepare⟩

theorem answerTruthful_iff {s : Interpreter} : AnswerTruthful s ↔
    ∀ s₁ r, prepareSnapshot s = some ((), s₁) → primitiveSnapshot s = some r →
      Succeeded s₁.memory s₁.host.file := by
  constructor
  · intro ht s₁ r hprepare hrun
    obtain ⟨s₁', h', hprepare', hsave⟩ := ht r.1 r.2 hrun
      (primitiveSnapshot_answers s r.1 r.2 hrun).1
    rw [hprepare] at hprepare'
    obtain rfl : s₁ = s₁' := congrArg Prod.snd (Option.some.inj hprepare')
    exact succeeded_iff.mp ⟨h', hsave⟩
  · intro hs answer s' hrun _
    obtain ⟨-, s₁, hprepare⟩ := primitiveSnapshot_answers s answer s' hrun
    obtain ⟨h', hsave⟩ := succeeded_iff.mpr (hs s₁ (answer, s') hprepare hrun)
    exact ⟨s₁, h', hprepare, hsave⟩

/-- Where the file and the answer tell the truth: the calls that are not checked
succeed as well, and where the primitive returns, the save has succeeded. -/
def CallsSucceed (s : Interpreter) : Prop :=
  (Succeeded s.memory s.host.file → UncheckedCalls s.memory s.host.file) ∧
    ∀ s₁ r, prepareSnapshot s = some ((), s₁) → primitiveSnapshot s = some r →
      Succeeded s₁.memory s₁.host.file

/-- The snapshot primitive tells the truth where the calls on the file that it does not check
succeed, and, as long as no object has a size of zero words, only there: else the bytes do not
show that a padding is missing. -/
theorem snapshot_truthful (s : Interpreter) :
    (CallsSucceed s → FileTruthful s.host ∧ AnswerTruthful s) ∧
      (s.memory.Headed → (FileTruthful s.host ∧ AnswerTruthful s ↔ CallsSucceed s)) := by
  have hof : CallsSucceed s → FileTruthful s.host ∧ AnswerTruthful s := fun h =>
    ⟨fileTruthful_of_uncheckedCalls h.1, answerTruthful_iff.mpr h.2⟩
  exact ⟨hof, fun hm => ⟨fun h => ⟨h.1.uncheckedCalls hm, answerTruthful_iff.mp h.2⟩, hof⟩⟩

/-! ## A seek that fails -/

namespace ObjectMemory

theorem lastUsedFrom_of_none (hnone : ∀ p, objectTableSize - 2 * n ≤ p → ¬m.holdsObject p) :
    m.lastUsedFrom n l = l := by
  induction n generalizing l with
  | zero => rfl
  | succ n ih =>
      rw [lastUsedFrom, if_neg (hnone _ le_rfl)]
      exact ih fun p hp => hnone p (by omega)

/-- The memory with one object, at oop 2. -/
def oneObject : ObjectMemory := blank.place 2 256 0 [2, 12]

theorem oneObject_eq : oneObject =
    (((blank.setWord objectTableSegment 2 256).setWord objectTableSegment 3 0).setWord 0 0
      2).setWord 0 1 12 := rfl

theorem oneObject_word (w : Nat) :
    oneObject.word objectTableSegment w = if w = 2 then 256 else 0 := by
  rw [oneObject_eq, word_setWord, if_neg fun h => absurd h.1 (by decide), word_setWord,
    if_neg fun h => absurd h.1 (by decide), word_setWord]
  by_cases h3 : w = 3
  · subst h3
    rfl
  · rw [if_neg fun h => h3 h.2, word_setWord]
    by_cases h2 : w = 2
    · subst h2
      rfl
    · rw [if_neg fun h => h2 h.2, if_neg h2]
      rfl

theorem oneObject_holdsObject (p : Nat) : oneObject.holdsObject p = decide (p = 2) := by
  rw [holdsObject, entry, oneObject_word]
  by_cases h : p = 2
  · subst h
    rfl
  · rw [if_neg h, decide_eq_false h]
    rfl

theorem oneObject_chunkWord : oneObject.chunkWord 2 0 = 2 ∧ oneObject.chunkWord 2 1 = 12 := by
  have hseg : (oneObject.entry 2).segment = 0 := by
    rw [entry, oneObject_word]
    rfl
  have hloc : oneObject.location 2 = 0 := oneObject_word 3
  rw [chunkWord, chunkWord, hseg, hloc, oneObject_eq]
  exact ⟨rfl, rfl⟩

theorem oneObject_lastUsed : oneObject.lastUsed = 2 := by
  have hn : objectTableSize / 2 - 1 = 32765 + 1 := rfl
  have h2 : objectTableSize - 2 * (32765 + 1) = 2 := rfl
  have hobj : oneObject.holdsObject 2 = true := by
    rw [oneObject_holdsObject]
    rfl
  rw [lastUsed, hn, lastUsedFrom, h2, if_pos hobj]
  refine lastUsedFrom_of_none fun p hp => ?_
  rw [oneObject_holdsObject, decide_eq_true_iff]
  simp only [objectTableSize, segmentSize] at hp
  omega

theorem oneObject_length : oneObject.storedObjectTableLength = 4 := by
  rw [storedObjectTableLength, oneObject_lastUsed]

theorem oneObject_objectsChunks :
    oneObject.objectsChunks = [wordBytes 2 ++ wordBytes 12] := by
  have hobj : oneObject.holdsObject 2 = true := by
    rw [oneObject_holdsObject]
    rfl
  have hchunks : oneObject.objectsChunks = oneObject.objectChunks 2 ++ [] := by
    rw [objectsChunks, oneObject_length]
    rfl
  rw [hchunks, objectChunks, if_pos hobj, fieldChunks, oneObject_chunkWord.1,
    oneObject_chunkWord.2]
  rfl

theorem oneObject_saveable : oneObject.Saveable where
  inside i hi := by
    rw [oneObject_length] at hi
    obtain rfl : i = 0 := by omega
    refine ⟨by decide, fun _ => ?_⟩
    have hloc : oneObject.location 2 = 0 := oneObject_word 3
    show oneObject.location 2 + max 2 (oneObject.chunkWord 2 0) ≤ 65536
    rw [hloc, oneObject_chunkWord.1]
    decide
  fits i hi := by
    rw [oneObject_length] at hi
    have hcases : i = 0 ∨ i = 1 := by omega
    rcases hcases with rfl | rfl
    · exact ⟨by decide, fun _ _ => by decide⟩
    · exact ⟨by decide, fun _ _ => by decide⟩

theorem oneObject_headed : oneObject.Headed := by
  intro p hp
  rw [oneObject_holdsObject, decide_eq_true_iff] at hp
  subst hp
  rw [oneObject_chunkWord.1]
  decide

end ObjectMemory

/-- A host with this object and an empty file: every call from the `n`-th on
fails. -/
def failingHost (n : Nat) : Host where
  memory := oneObject
  file := ⟨[], 0, fun c => if c < n then none else some ⟨0, true⟩, 0⟩
  filesSnapshotIm := fun _ => 0
  filesSnapshotImLen := 0
  offset := 0

theorem length_padWords_chunks (n : Nat) : (padWords n).length = n := by
  rw [padWords, List.length_flatMap]
  simp

theorem failingHost_firstPadding (hn : 3 < n) :
    firstPadding (failingHost n).file.opened = 251 := by
  have hfault : (headedFile (failingHost n).file.opened).fault = none := if_pos hn
  have hpos : (headedFile (failingHost n).file.opened).position = 10 := rfl
  rw [firstPadding, File.padding, hfault, if_pos (show Option.all _ none = true from rfl), hpos]
  rfl

theorem failingHost_objectsFile (n : Nat) :
    (objectsFile oneObject (failingHost n).file.opened 251).position = 516 ∧
      (objectsFile oneObject (failingHost n).file.opened 251).calls = 256 := by
  constructor
  · show 0 + _ + (padWords 251 ++ oneObject.objectsChunks).flatten.length = _
    rw [oneObject_objectsChunks, List.flatten_append, List.length_append, length_padWords]
    rfl
  · show 0 + 1 + 2 + 1 + (padWords 251 ++ oneObject.objectsChunks).length = _
    rw [oneObject_objectsChunks, List.length_append, length_padWords_chunks]
    rfl

theorem File.called_calls (f : File) : f.called.calls = f.calls + 1 := rfl

theorem savedFile_calls (k : Nat) : (savedFile m f n k).calls =
    (objectsFile m f n).calls + 1 + (padWords k ++ m.tableChunks).length := rfl

theorem failingHost_savedFile_fault (q k : Nat) :
    (savedFile m (failingHost n).file.opened q k).fault =
      if (savedFile m (failingHost n).file.opened q k).calls < n then none else some ⟨0, true⟩ := rfl

theorem failingHost_objectsFile_fault (q : Nat) :
    (objectsFile m (failingHost n).file.opened q).fault =
      if (objectsFile m (failingHost n).file.opened q).calls < n then none else some ⟨0, true⟩ := rfl

theorem failingHost_secondPadding (hn : 256 < n) :
    secondPadding oneObject (failingHost n).file.opened = 254 := by
  have hfault : (objectsFile oneObject (failingHost n).file.opened 251).fault = none := by
    rw [failingHost_objectsFile_fault, (failingHost_objectsFile n).2, if_pos hn]
  rw [secondPadding, failingHost_firstPadding (by omega), File.padding, hfault,
    (failingHost_objectsFile n).1]
  rfl

/-- When only the last three calls fail, the save reports success. -/
theorem failingHost_succeeded : Succeeded oneObject (failingHost 513).file := by
  have hnone : ∀ c, c < 513 → (failingHost 513).file.faults c = none := fun c hc => if_pos hc
  rw [Succeeded, failingHost_firstPadding (by decide), failingHost_secondPadding (by decide)]
  refine ⟨fun e he => ?_, oneObject_saveable, ?_, ?_, ?_⟩
  · cases he
  · exact File.takes_of_no_faults fun c _ hc => hnone c (by
      have hc' : c < 1 + 2 := hc
      omega)
  · refine File.takes_of_no_faults fun c _ hc => hnone c ?_
    have hcalls : (headedFile (failingHost 513).file.opened).called.calls = 4 := rfl
    rw [hcalls, oneObject_objectsChunks, List.length_append, length_padWords_chunks,
      List.length_singleton] at hc
    omega
  · refine File.takes_of_no_faults fun c _ hc => hnone c ?_
    have hcalls : (objectsFile oneObject (failingHost 513).file.opened 251).called.calls = 257 := by
      rw [File.called_calls, (failingHost_objectsFile 513).2]
    have htable : oneObject.tableChunks.length = 2 := by
      rw [tableChunks, oneObject_length]
      rfl
    rw [hcalls, List.length_append, length_padWords_chunks, htable] at hc
    omega

/-- The header of the file is zero, then. -/
theorem not_fileTruthful_failingHost : ∃ h h', saveSnapshot h = some (true, h') ∧
    h'.file.bytes ≠ h.memory.image := by
  obtain ⟨h', hrun⟩ := (succeeded_iff (h := failingHost 513)).mpr failingHost_succeeded
  refine ⟨failingHost 513, h', hrun, fun heq => ?_⟩
  have ht : FileTruthful (failingHost 513) := by
    intro h'' hrun'
    rw [hrun] at hrun'
    obtain rfl := congrArg Prod.snd (Option.some.inj hrun')
    exact heq
  have hmemory : (failingHost 513).memory = oneObject := rfl
  have hcalls := ht.uncheckedCalls (by rw [hmemory]; exact oneObject_headed)
    (by rw [hmemory]; exact failingHost_succeeded)
  rw [hmemory] at hcalls
  have hfault : (savedFile oneObject (failingHost 513).file.opened 251 254).fault =
      some ⟨0, true⟩ := by
    have htable : oneObject.tableChunks.length = 2 := by
      rw [tableChunks, oneObject_length]
      rfl
    have hcall : ¬(savedFile oneObject (failingHost 513).file.opened 251 254).calls < 513 := by
      rw [savedFile_calls, (failingHost_objectsFile 513).2, List.length_append,
        length_padWords_chunks, htable]
      decide
    rw [failingHost_savedFile_fault, if_neg hcall]
  have hn : firstPadding (failingHost 513).file.opened = 251 := failingHost_firstPadding (by decide)
  have hk : secondPadding oneObject (failingHost 513).file.opened = 254 :=
    failingHost_secondPadding (by decide)
  have hsought := hcalls.header.sought
  rw [hn] at hsought
  have hsought' : (savedFile oneObject (failingHost 513).file.opened 251 254).Answers := by
    rw [← hk]
    exact hsought
  exact absurd (hsought' _ hfault) (by decide)

end Crosstalk
