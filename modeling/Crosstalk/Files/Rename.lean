import Crosstalk.Files.Handles
import Crosstalk.Interpreter.Blocks
import Crosstalk.Interpreter.PositiveIntegers
import Crosstalk.Interpreter.Strings

/-!
# Renaming a file

An open file is closed, renamed, and opened again under the name that it has then.
The PosixFile keeps the name and the handle in two of its fields, and the table of
handles has an entry of its own for the file.
-/

namespace Crosstalk

abbrev fileNameIndex : Nat := 1

/-! ## The file system -/

/-- A handle whose entry is no open file has no position. -/
def tell (fileHandle : Int) : FS Int := do
  check (0 ≤ fileHandle ∧ fileHandle < maxOpenFiles)
  let s ← get
  let fil := s.fdtofil fileHandle
  if fil ≠ noFil then
    match s.fil fil with
    | some f => return Int.bmod f.fptr.toNat (2 ^ 32)
    | none =>
        check False
        return -1
  else
    return -1

def seekTo (outcomes : Outcomes) (fileHandle position : Int) : FS Int := do
  check (0 ≤ fileHandle ∧ fileHandle < maxOpenFiles)
  let fil := (← get).fdtofil fileHandle
  if fil ≠ noFil then
    let fres ← fLseek outcomes fil (UInt32.ofInt position)
    if fres ≠ frOk then return -1 else return position
  else
    return -1

def renameFile (outcomes : Outcomes) (oldName newName : List UInt8) : FS Bool := do
  let s ← get
  return decide (outcomes.fRename (s.pathForFile oldName) (s.pathForFile newName) = frOk)

def deleteFile (outcomes : Outcomes) (fileName : List UInt8) : FS Bool := do
  return decide (outcomes.fUnlink ((← get).pathForFile fileName) = frOk)

/-! ## The primitive -/

structure FileMachine where
  interpreter : Interpreter
  fileSystem : FatFileSystem

def FileMachine.field (s : FileMachine) (p index : Nat) : Nat :=
  s.interpreter.memory.chunkWord p (headerSize + index)

abbrev PM := StateT FileMachine Option

def inInterpreter {α : Type} (x : IM α) : PM α := fun s =>
  match x s.interpreter with
  | none => none
  | some (a, i) => some (a, { s with interpreter := i })

def inFileSystem {α : Type} (x : FS α) : PM α := fun s =>
  match x s.fileSystem with
  | none => none
  | some (a, f) => some (a, { s with fileSystem := f })

def storeField (index objectPointer valuePointer : Nat) : PM Unit :=
  inInterpreter (inMemory (storePointerOfObjectWithValue index objectPointer valuePointer))

/-- The position of a file that is open, which is closed. -/
def closeForRename (outcomes : Outcomes) (descriptorObjectPointer : Nat) : PM Int :=
  if descriptorObjectPointer ≠ nilPointer then do
    let fd := Int.bmod (← inInterpreter (positive32BitValueOf descriptorObjectPointer)) (2 ^ 32)
    let oldPos ← inFileSystem (tell fd)
    let _ ← inFileSystem (closeFile outcomes fd)
    return oldPos
  else
    return 0

/-- The file is opened again, if it was open, and its descriptor updated. -/
def reopen (outcomes : Outcomes) (wasOpen : Bool) (file : Nat) (name : List UInt8)
    (oldPos : Int) : PM Unit :=
  if wasOpen then do
    let fd ← inFileSystem (openFile outcomes name)
    if fd ≠ -1 then
      storeField descriptorIndex file (← inInterpreter (positive32BitIntegerFor fd))
      let _ ← inFileSystem (seekTo outcomes fd oldPos)
    else
      storeField descriptorIndex file nilPointer
  else
    pure ()

def renamePosixFile (outcomes : Outcomes) (file newNameObjectPointer : Nat) : PM Unit := do
  let descriptorObjectPointer ←
    inInterpreter (inMemory (fetchPointerOfObject descriptorIndex file))
  let wasOpen := decide (descriptorObjectPointer ≠ nilPointer)
  let oldPos ← closeForRename outcomes descriptorObjectPointer
  let newName ← inInterpreter (stringFromObject newNameObjectPointer)
  let oldNameObjectPointer ← inInterpreter (inMemory (fetchPointerOfObject fileNameIndex file))
  let oldName ← inInterpreter (stringFromObject oldNameObjectPointer)
  if ← inFileSystem (renameFile outcomes oldName newName) then
    reopen outcomes wasOpen file newName oldPos
    storeField fileNameIndex file newNameObjectPointer
    inInterpreter (push truePointer)
  else
    reopen outcomes wasOpen file oldName oldPos
    inInterpreter (push falsePointer)

def createPosixFile (outcomes : Outcomes) (name : Nat) : PM Unit := do
  let s ← inInterpreter (stringFromObject name)
  let fd ← inFileSystem (createFile outcomes s)
  if fd ≠ -1 then
    inInterpreter (do push (← positive32BitIntegerFor fd))
  else
    inInterpreter (push nilPointer)

def deletePosixFile (outcomes : Outcomes) (name : Nat) : PM Unit := do
  let s ← inInterpreter (stringFromObject name)
  let deleted ← inFileSystem (deleteFile outcomes s)
  inInterpreter (push (if deleted then truePointer else falsePointer))

/-- `names` is what `enumerate_files` passes on. -/
def enumeratePosixFiles (names : List CString) : PM Unit := inInterpreter do
  let array ← instantiateClassWithPointers classArrayPointer names.length
  -- the array is pushed first, so that there is a reference to it
  push array
  forN names.length fun i => do
    let name ← stringObjectFor names[i]?
    inMemory (storePointerOfObjectWithValue i array name)

def isNilOrString (p : Nat) : IM Bool := do
  if p = nilPointer then
    return true
  else
    return decide ((← inMemory (fetchClassOf p)) = classStringPointer)

def primitivePosixDirectoryOperation (outcomes : Outcomes) (names : List CString) : PM Unit := do
  let arg2 ← inInterpreter popStack
  let arg1 ← inInterpreter popStack
  let code ← inInterpreter popInteger
  inInterpreter (pop 1)
  inInterpreter (success (decide (code ≥ 0 ∧ code ≤ 3)))
  let legal ← inInterpreter (isNilOrString arg1)
  inInterpreter (success legal)
  if (← get).interpreter.successFlag then
    match code with
    | 0 => createPosixFile outcomes arg1
    | 1 => deletePosixFile outcomes arg1
    | 2 => renamePosixFile outcomes arg2 arg1
    | 3 => enumeratePosixFiles names
    | _ => pure ()
  else
    inInterpreter (unPop 4)

/-! ## Rules -/

section Rules

variable {α : Type} {s : FileMachine} {Q : α → FileMachine → Prop}

theorem wp_inInterpreter {x : IM α} : Wp (inInterpreter x) Q s ↔
    Wp x (fun a i => Q a { s with interpreter := i }) s.interpreter := by
  constructor
  · rintro ⟨a, t, hx, hQ⟩
    rw [inInterpreter] at hx
    cases hrun : x s.interpreter with
    | none => simp [hrun] at hx
    | some r =>
      rw [hrun] at hx
      cases hx
      exact ⟨r.1, r.2, hrun, hQ⟩
  · rintro ⟨a, i, hx, hQ⟩
    exact ⟨a, _, by rw [inInterpreter, hx], hQ⟩

theorem wp_inFileSystem {x : FS α} : Wp (inFileSystem x) Q s ↔
    Wp x (fun a f => Q a { s with fileSystem := f }) s.fileSystem := by
  constructor
  · rintro ⟨a, t, hx, hQ⟩
    rw [inFileSystem] at hx
    cases hrun : x s.fileSystem with
    | none => simp [hrun] at hx
    | some r =>
      rw [hrun] at hx
      cases hx
      exact ⟨r.1, r.2, hrun, hQ⟩
  · rintro ⟨a, f, hx, hQ⟩
    exact ⟨a, _, by rw [inFileSystem, hx], hQ⟩

end Rules

namespace Rename

open ObjectMemory Handles

/-! ## Handles -/

/-- The handle `i` is that of the open file `fil` at `fp`. -/
structure OpenAt (f : FatFileSystem) (i fp : Nat) (fil : Fil) : Prop where
  lt : i < maxOpenFiles
  entry : f.fdtofil i = fp
  ne_noFil : fp ≠ noFil
  fil : f.fil fp = some fil

theorem OpenAt.inTable {f : FatFileSystem} {i fp : Nat} {fil : Fil} (h : OpenAt f i fp fil) :
    0 ≤ (i : Int) ∧ (i : Int) < maxOpenFiles :=
  ⟨Int.natCast_nonneg i, Int.ofNat_lt.mpr h.lt⟩

theorem ofInt_bmod (x : UInt32) : UInt32.ofInt (Int.bmod x.toNat (2 ^ 32)) = x := by
  apply UInt32.toNat.inj
  have hx := x.toNat_lt
  have hmod : Int.bmod x.toNat (2 ^ 32) % (2 ^ 32 : Nat) = x.toNat % (2 ^ 32 : Nat) :=
    Int.bmod_emod
  have hcast : (2 ^ 32 : Int) = (2 ^ 32 : Nat) := rfl
  rw [UInt32.ofInt, UInt32.toNat_ofNat', hcast, hmod]
  omega

section Files

variable {f : FatFileSystem} {i fp : Nat} {fil : Fil} {outcomes : Outcomes}

theorem wp_tell (h : OpenAt f i fp fil) :
    Wp (tell i) (fun pos t => pos = Int.bmod fil.fptr.toNat (2 ^ 32) ∧ t = f) f := by
  have hne : f.fdtofil i ≠ noFil := h.entry ▸ h.ne_noFil
  rw [tell, wp_bind, wp_check, and_iff_right h.inTable, wp_bind, wp_get, if_pos hne, h.entry, h.fil]
  exact (wp_pure _ _ _).mpr ⟨rfl, rfl⟩

/-- The file is at the position that `f_lseek` reaches. -/
theorem wp_seekTo (h : OpenAt f i fp fil) (position : Int) :
    Wp (seekTo outcomes i position) (fun _ t => t.fdtofil = f.fdtofil ∧
      OpenAt t i fp { fil with fptr := (outcomes.fLseek (UInt32.ofInt position)).2 }) f := by
  have hne : f.fdtofil i ≠ noFil := h.entry ▸ h.ne_noFil
  rw [seekTo, wp_bind, wp_check, and_iff_right h.inTable, wp_bind, wp_get, if_pos hne, h.entry,
    wp_bind, fLseek, wp_bind, wp_get, wp_bind, wp_modify, wp_pure, h.fil, Option.map_some]
  have hopen (moved : Fil) : OpenAt { f with fil := Function.update f.fil fp (some moved) } i fp
      moved := ⟨h.lt, h.entry, h.ne_noFil, Function.update_self _ _ _⟩
  rw [wp_ite, wp_pure, wp_pure]
  exact ⟨fun _ => ⟨rfl, hopen _⟩, fun _ => ⟨rfl, hopen _⟩⟩

/-- A free handle is given to the file `fil` at `fp`. -/
structure Gives (f t : FatFileSystem) (i fp : Nat) (fil : Fil) : Prop where
  free : f.fdtofil i = noFil
  table : t.fdtofil = Function.update f.fdtofil i fp
  isOpen : OpenAt t i fp fil

theorem wp_openFile {k : Nat} (hcurfd : f.curfd ≤ maxOpenFiles) (hk : k < maxOpenFiles)
    (hfree : f.fdtofil k = noFil) (name : List UInt8) :
    Wp (openFile outcomes name) (fun fd t => (fd = -1 ∧ t.fdtofil = f.fdtofil) ∨
      ∃ i fp : Nat, fd = i ∧ Gives f t i fp ⟨f.pathForFile name, faRead ||| faWrite, 0⟩) f := by
  refine (openFileWith_spec hcurfd _ outcomes name).mono ?_
  rintro fd t ⟨-, ⟨hresult, hsame, -⟩ | ⟨⟨hfp, -⟩, ht, hfil, hfd⟩⟩
  · exact .inl ⟨hresult, by rw [hsame]⟩
  · obtain ⟨-, hfull⟩ | ⟨i, rfl, hi, hfree'⟩ := hfd
    · exact absurd hfree (hfull k hk)
    · exact .inr ⟨i, outcomes.malloc, rfl, hfree', ht, hi, by rw [ht, Function.update_self], hfp,
        hfil⟩

end Files

/-! ## Opening again -/

/-- The descriptor `v` is nil, or a handle that was free of a file with the path. -/
def Reopened (outcomes : Outcomes) (path : List UInt8) (oldPos : Int) (f t : FatFileSystem)
    (v : Nat) : Prop :=
  (v = nilPointer ∧ t.fdtofil = f.fdtofil) ∨
    ∃ (i fp : Nat) (fil : Fil), v = integerObjectOf i ∧ Gives f t i fp fil ∧ fil.path = path ∧
      fil.fptr = (outcomes.fLseek (UInt32.ofInt oldPos)).2

theorem isIntegerValue_handle {i : Nat} (hi : i < maxOpenFiles) :
    isIntegerValue (i : Int) = true := by
  have hmax : maxOpenFiles = 64 := rfl
  rw [isIntegerValue_iff]
  omega

section Store

variable {m u : ObjectMemory} {L L' : Layout} {regs : Nat → Nat} {g : Nat → Nat → Nat}
  {s : Interpreter} {f : FatFileSystem} {outcomes : Outcomes} {a k file : Nat}

/-- What is needed for stores into the file `file`, which the context `a` refers to. -/
structure Writable (m : ObjectMemory) (L : Layout) (regs : Nat → Nat) (a k file : Nat) : Prop where
  anchor : PointerField m L a k
  root : 1 ≤ regs a
  field : PointerField m L file (headerSize + descriptorIndex)
  ne : file ≠ a
  nil : Allocated m L nilPointer ∧ 1 ≤ regs nilPointer

theorem Writable.wp_storeField (hw : Writable m L regs a k file)
    (h : Written m L regs g L' u) (hanchor : g a k = file) {j v : Nat} (hj : j ≤ descriptorIndex)
    (hv : v < 65536) (hpos : 0 < v) (hva : v % 2 = 0 → Allocated u L' v) :
    Wp (storeField j file v) (fun _ t => ∃ L'' u', t = ⟨s.withMemory u', f⟩ ∧
      Written m L regs (put g file (headerSize + j) v) L'' u') ⟨s.withMemory u, f⟩ := by
  have hfield : PointerField m L file (headerSize + (j : Int).toNat) := by
    rw [Int.toNat_natCast]
    exact hw.field.below (Nat.le_add_right 2 j) (Nat.add_le_add_left hj 2)
  rw [storeField, wp_inInterpreter, wp_inMemory]
  refine (h.wp_store hw.anchor hw.root (.inr hanchor) hfield (by omega) hv hpos hva).mono ?_
  rintro _ u' ⟨L'', hu'⟩
  exact ⟨L'', u', rfl, by rwa [Int.toNat_natCast] at hu'⟩

theorem Writable.wp_reopen (hw : Writable m L regs a k file) (h : Written m L regs g L' u)
    (hanchor : g a k = file) {i : Nat} (hcurfd : f.curfd ≤ maxOpenFiles) (hi : i < maxOpenFiles)
    (hfree : f.fdtofil i = noFil) (name : List UInt8) (oldPos : Int) :
    Wp (reopen outcomes true file name oldPos) (fun _ t => ∃ L'' u' f' v,
      t = ⟨s.withMemory u', f'⟩ ∧
      Written m L regs (put g file (headerSize + descriptorIndex) v) L'' u' ∧
      Reopened outcomes (f.pathForFile name) oldPos f f' v) ⟨s.withMemory u, f⟩ := by
  rw [reopen, if_pos rfl, wp_bind, wp_inFileSystem]
  refine (wp_openFile hcurfd hi hfree name).mono ?_
  rintro fd t (⟨rfl, hsame⟩ | ⟨j, fp, rfl, hgives⟩)
  · rw [if_neg (not_not.mpr rfl)]
    refine (hw.wp_storeField h hanchor le_rfl (by decide) (by decide)
      fun _ => h.root _ hw.nil.1 hw.nil.2).mono ?_
    rintro _ _ ⟨L'', u', rfl, hu'⟩
    exact ⟨L'', u', t, nilPointer, rfl, hu', .inl ⟨rfl, hsame⟩⟩
  · have hodd := integerObjectOf_odd j
    have hrun := (small_run (isIntegerValue_handle hgives.isOpen.lt) (s.withMemory u)).1
    rw [if_pos (by omega), wp_bind, wp_inInterpreter, wp_of_run hrun, wp_bind]
    refine (hw.wp_storeField h hanchor le_rfl (integerObjectOf_lt _) (by omega)
      (by omega)).mono ?_
    rintro _ _ ⟨L'', u', rfl, hu'⟩
    rw [wp_bind, wp_inFileSystem]
    refine (wp_seekTo hgives.isOpen oldPos).mono ?_
    rintro _ f' ⟨htable, hopen⟩
    rw [wp_pure]
    exact ⟨L'', u', f', _, rfl, hu', .inr ⟨j, fp, _, rfl,
      ⟨hgives.free, htable.trans hgives.table, hopen⟩, rfl, rfl⟩⟩

end Store

/-! ## The calls before -/

/-- The bytes of a String of the length `n`. -/
def stringBytes (m : ObjectMemory) (p n : Nat) : List UInt8 :=
  (List.range n).map fun k => UInt8.ofNat (m.byte (m.entry p).segment (m.firstByte p + k))

theorem wp_firstBytes_read {m : ObjectMemory} {p c n k : Nat} (h : IsByteObject m p c n)
    (hk : k ≤ n) : Wp (firstBytes p k) (fun bytes t => bytes = stringBytes m p k ∧ t = m) m := by
  induction k with
  | zero => exact (wp_pure _ _ _).mpr ⟨rfl, rfl⟩
  | succ k ih =>
    rw [firstBytes, wp_bind]
    refine (ih (by omega)).mono ?_
    rintro _ _ ⟨rfl, rfl⟩
    rw [wp_bind, h.wp_fetchByte (by omega), wp_pure, stringBytes, stringBytes, List.range_succ,
      List.map_append]
    exact ⟨rfl, rfl⟩

theorem stringFromObject_run {s : Interpreter} {p c n : Nat} (h : IsByteObject s.memory p c n) :
    stringFromObject p s = some (stringBytes s.memory p n, s) := by
  refine Wp.run_eq ?_
  rw [stringFromObject, wp_inMemory, wp_bind, h.wp_fetchByteLength, Int.toNat_natCast]
  refine (wp_firstBytes_read h le_rfl).mono ?_
  rintro _ _ ⟨rfl, rfl⟩
  exact ⟨rfl, rfl⟩

/-- The file with the descriptor `d` has been closed, if it was open. -/
def Closed (f t : FatFileSystem) (d : Nat) (oldPos : Int) : Prop :=
  (d = nilPointer ∧ t = f) ∨ ∃ (i fp : Nat) (fil : Fil), d = integerObjectOf i ∧
    OpenAt f i fp fil ∧ oldPos = Int.bmod fil.fptr.toNat (2 ^ 32) ∧
    t = { f with fdtofil := Function.update f.fdtofil i noFil, fil := t.fil }

/-- The descriptor of a file that is closed or open. -/
def IsDescriptor (f : FatFileSystem) (d : Nat) : Prop :=
  d = nilPointer ∨ ∃ (i fp : Nat) (fil : Fil), d = integerObjectOf i ∧ OpenAt f i fp fil

theorem wp_closeForRename {s : Interpreter} {f : FatFileSystem} {d : Nat}
    (h : IsDescriptor f d) (outcomes : Outcomes) : Wp (closeForRename outcomes d)
      (fun oldPos t => ∃ f', t = ⟨s, f'⟩ ∧ Closed f f' d oldPos) ⟨s, f⟩ := by
  obtain rfl | ⟨i, fp, fil, rfl, hopen⟩ := h
  · rw [closeForRename, if_neg (not_not.mpr rfl), wp_pure]
    exact ⟨f, rfl, .inl ⟨rfl, rfl⟩⟩
  · have hodd := integerObjectOf_odd i
    have hne : integerObjectOf i ≠ nilPointer := by
      intro heq
      rw [heq] at hodd
      exact absurd hodd (by decide)
    have hmax : maxOpenFiles = 64 := rfl
    have hlt := hopen.lt
    have hvalue : Int.bmod (((i : Int) % 2 ^ 32).toNat : Int) (2 ^ 32) = i := by
      rw [Int.bmod_def]
      omega
    rw [closeForRename, if_pos hne, wp_bind, wp_inInterpreter,
      wp_of_run (small_run (isIntegerValue_handle hlt) s).2.2, hvalue, wp_bind, wp_inFileSystem]
    refine (wp_tell hopen).mono fun pos t ⟨hpos, ht⟩ => ?_
    rw [wp_bind, wp_inFileSystem]
    refine (wp_closeFile outcomes _ hopen.inTable).mono fun _ f' hf' => ?_
    rw [wp_pure]
    rw [ht] at hf'
    exact ⟨f', rfl, .inr ⟨i, fp, fil, rfl, hopen, hpos, hf'⟩⟩

/-- The file with the descriptor `d` has been opened again, with the descriptor `v`, if it
was open. -/
def Resumed (outcomes : Outcomes) (path : List UInt8) (f t : FatFileSystem) (d v : Nat) : Prop :=
  (d = nilPointer ∧ v = nilPointer ∧ t = f) ∨ ∃ (i fp : Nat) (fil : Fil) (f₁ : FatFileSystem),
    d = integerObjectOf i ∧ OpenAt f i fp fil ∧
    f₁.fdtofil = Function.update f.fdtofil i noFil ∧
    Reopened outcomes path (Int.bmod fil.fptr.toNat (2 ^ 32)) f₁ t v

section Calls

variable {m u : ObjectMemory} {L L' : Layout} {regs : Nat → Nat} {g : Nat → Nat → Nat}
  {s : Interpreter} {f f₁ : FatFileSystem} {outcomes : Outcomes} {a k file : Nat} {oldPos : Int}

theorem Writable.wp_resume (hw : Writable m L regs a k file) (hm : Counted m L regs)
    (hanchor : m.chunkWord a k = file) (hcurfd : f.curfd ≤ maxOpenFiles)
    (hclosed : Closed f f₁ (m.chunkWord file (headerSize + descriptorIndex)) oldPos)
    (name : List UInt8) : Wp (reopen outcomes
      (decide (m.chunkWord file (headerSize + descriptorIndex) ≠ nilPointer)) file name oldPos)
      (fun _ t => ∃ L' u f' v, t = ⟨s.withMemory u, f'⟩ ∧
        Written m L regs (put m.chunkWord file (headerSize + descriptorIndex) v) L' u ∧
        Resumed outcomes (f.pathForFile name) f f'
          (m.chunkWord file (headerSize + descriptorIndex)) v) ⟨s.withMemory m, f₁⟩ := by
  obtain ⟨hnil, rfl⟩ | ⟨i, fp, fil, hd, hopen, hpos, hf₁⟩ := hclosed
  · rw [hnil, reopen, if_neg (by simp), wp_pure]
    refine ⟨L, m, f₁, nilPointer, rfl, ?_, .inl ⟨rfl, rfl, rfl⟩⟩
    have hput : put m.chunkWord file (headerSize + descriptorIndex) nilPointer = m.chunkWord := by
      funext p j
      rw [put]
      split
      · next hpj => rw [hpj.1, hpj.2, hnil]
      · rfl
    rw [hput]
    exact .refl hm
  · have hne : m.chunkWord file (headerSize + descriptorIndex) ≠ nilPointer := by
      have hodd := integerObjectOf_odd i
      intro heq
      rw [← hd, heq] at hodd
      exact absurd hodd (by decide)
    have htable : f₁.fdtofil = Function.update f.fdtofil i noFil := by rw [hf₁]
    have hpath : f₁.pathForFile name = f.pathForFile name := by
      rw [FatFileSystem.pathForFile, hf₁, FatFileSystem.pathForFile]
    have hcurfd' : f₁.curfd ≤ maxOpenFiles := by rwa [hf₁]
    rw [decide_eq_true hne]
    refine (hw.wp_reopen (.refl hm) hanchor hcurfd' hopen.lt
      (by rw [htable, Function.update_self]) name _).mono ?_
    rintro _ _ ⟨L', u, f', v, rfl, hu, hreopened⟩
    rw [hpath, hpos] at hreopened
    exact ⟨L', u, f', v, rfl, hu, .inr ⟨i, fp, fil, f₁, hd, hopen, htable, hreopened⟩⟩

theorem wp_push {n v : Nat} (h : Written m L regs g L' u) (hn : s.stackPointer = n)
    (hplace : PointerField m L s.activeContext (headerSize + (n + 1)))
    (hroot : 1 ≤ regs s.activeContext) (hv : v < 65536) (hpos : 0 < v)
    (hva : v % 2 = 0 → Allocated u L' v) :
    Wp (push v) (fun _ t => ∃ L'' u', t = { s.withMemory u' with stackPointer := n + 1 } ∧
      Written m L regs (put g s.activeContext (headerSize + (n + 1)) v) L'' u')
      (s.withMemory u) := by
  have hindex : ((n : Int) + 1).toNat = n + 1 := by omega
  rw [push, wp_bind, wp_modify, wp_bind, wp_get, wp_inMemory]
  have hstore := h.wp_store (f := (n : Int) + 1) hplace hroot (.inl rfl) (hindex.symm ▸ hplace)
    (by omega) hv hpos hva
  rw [hindex] at hstore
  show Wp (storePointerOfObjectWithValue (s.stackPointer + 1) s.activeContext v) _ u
  rw [hn]
  refine hstore.mono ?_
  rintro _ u' ⟨L'', hu'⟩
  exact ⟨L'', u', by rw [← hn]; rfl, hu'⟩

end Calls

/-! ## The rename -/

/-- A state in which the primitive is called to rename the PosixFile `file` to the String
`newName`: the counts are right, the four operands are on the stack, and the file is closed
or open. -/
structure Renaming (s : FileMachine) (L : Layout) (regs : Nat → Nat) (n file newName : Nat)
    (oldLength newLength : Nat) : Prop where
  counted : Counted s.interpreter.memory L regs
  root : 1 ≤ regs s.interpreter.activeContext
  stackPointer : s.interpreter.stackPointer = n
  frame : tempFrameStart + 3 ≤ n
  top : PointerField s.interpreter.memory L s.interpreter.activeContext (headerSize + n)
  arg2 : s.interpreter.memory.chunkWord s.interpreter.activeContext (headerSize + n) = file
  arg1 : s.interpreter.memory.chunkWord s.interpreter.activeContext (headerSize + (n - 1)) =
    newName
  code : s.interpreter.memory.chunkWord s.interpreter.activeContext (headerSize + (n - 2)) =
    integerObjectOf 2
  successFlag : s.interpreter.successFlag = true
  field : PointerField s.interpreter.memory L file (headerSize + descriptorIndex)
  ne_context : file ≠ s.interpreter.activeContext
  newString : IsByteObject s.interpreter.memory newName classStringPointer newLength
  oldString : IsByteObject s.interpreter.memory
    (s.interpreter.memory.chunkWord file (headerSize + fileNameIndex)) classStringPointer oldLength
  constants : ∀ c ∈ [nilPointer, truePointer, falsePointer],
    Allocated s.interpreter.memory L c ∧ 1 ≤ regs c
  curfd : s.fileSystem.curfd ≤ maxOpenFiles
  descriptor : IsDescriptor s.fileSystem
    (s.interpreter.memory.chunkWord file (headerSize + descriptorIndex))

def HandleInUse (f : FatFileSystem) (i : Nat) : Prop := f.fdtofil i ≠ noFil

/-- After the rename of `file`, which has succeeded or not, the object and the table of
handles tell the same. -/
structure Renamed (outcomes : Outcomes) (s t : FileMachine) (file newName : Nat)
    (path : List UInt8) (renamed : Bool) : Prop where
  alive : ∃ L, Allocated t.interpreter.memory L file
  name : t.field file fileNameIndex = if renamed then newName else s.field file fileNameIndex
  descriptor : t.field file descriptorIndex = nilPointer ∨ ∃ (i fp : Nat) (fil : Fil),
    t.field file descriptorIndex = integerObjectOf i ∧ OpenAt t.fileSystem i fp fil ∧
    fil.path = path ∧ ∀ (j fp' : Nat) (fil' : Fil),
      s.field file descriptorIndex = integerObjectOf j → OpenAt s.fileSystem j fp' fil' →
      outcomes.fLseek fil'.fptr = (frOk, fil'.fptr) → fil.fptr = fil'.fptr
  handles : ∀ i < maxOpenFiles, HandleInUse t.fileSystem i ↔
    t.field file descriptorIndex = integerObjectOf i ∨
      HandleInUse s.fileSystem i ∧ s.field file descriptorIndex ≠ integerObjectOf i
  answer : t.interpreter.stackPointer = s.interpreter.stackPointer - 3 ∧
    t.interpreter.stackTop = if renamed then truePointer else falsePointer
  successFlag : t.interpreter.successFlag = true

theorem integerObjectOf_inj {i j : Nat} (hi : i < maxOpenFiles) (hj : j < maxOpenFiles)
    (h : integerObjectOf i = integerObjectOf j) : i = j := by
  have hvalue := congrArg integerValueOf h
  rw [integerValueOf_integerObjectOf (isIntegerValue_handle hi),
    integerValueOf_integerObjectOf (isIntegerValue_handle hj)] at hvalue
  exact Int.ofNat_inj.mp hvalue

theorem integerObjectOf_ne_nil (i : Nat) : integerObjectOf i ≠ nilPointer := by
  have hodd := integerObjectOf_odd i
  intro heq
  rw [heq] at hodd
  exact absurd hodd (by decide)

section Handles

variable {outcomes : Outcomes} {path : List UInt8} {f t : FatFileSystem} {d v : Nat}

theorem OpenAt.unique {i j fp fp' : Nat} {fil fil' : Fil} (h : OpenAt f i fp fil)
    (h' : OpenAt f j fp' fil') (hij : integerObjectOf i = integerObjectOf j) : fil = fil' := by
  obtain rfl := integerObjectOf_inj h.lt h'.lt hij
  obtain rfl : fp = fp' := h.entry.symm.trans h'.entry
  exact Option.some.inj (h.fil.symm.trans h'.fil)

theorem Resumed.descriptor (h : Resumed outcomes path f t d v) : v = nilPointer ∨
    ∃ (i fp : Nat) (fil : Fil), v = integerObjectOf i ∧ OpenAt t i fp fil ∧ fil.path = path ∧
      ∀ (j fp' : Nat) (fil' : Fil), d = integerObjectOf j → OpenAt f j fp' fil' →
        outcomes.fLseek fil'.fptr = (frOk, fil'.fptr) → fil.fptr = fil'.fptr := by
  obtain ⟨-, hnil, -⟩ | ⟨j, fp, fil, f₁, hd, hopen, -, ⟨hnil, -⟩ | ⟨i, fp', fil', hv, hgives,
    hpath, hfptr⟩⟩ := h
  · exact .inl hnil
  · exact .inl hnil
  · refine .inr ⟨i, fp', fil', hv, hgives.isOpen, hpath, fun j' _ fil'' hd' hopen' hseek => ?_⟩
    obtain rfl := hopen.unique hopen' (hd.symm.trans hd')
    rw [hfptr, ofInt_bmod, hseek]

theorem Resumed.handles (h : Resumed outcomes path f t d v) {k : Nat} (hk : k < maxOpenFiles) :
    HandleInUse t k ↔ v = integerObjectOf k ∨ HandleInUse f k ∧ d ≠ integerObjectOf k := by
  obtain ⟨rfl, rfl, rfl⟩ | ⟨j, fp, fil, f₁, rfl, hopen, htable, hreopened⟩ := h
  · have hne := integerObjectOf_ne_nil k
    exact ⟨fun hin => .inr ⟨hin, hne.symm⟩, fun h => (h.resolve_left hne.symm).1⟩
  · have hclosed : HandleInUse f₁ k ↔ HandleInUse f k ∧ integerObjectOf j ≠ integerObjectOf k := by
      rw [HandleInUse, htable, HandleInUse]
      by_cases hjk : k = j
      · subst hjk
        simp
      · rw [Function.update_of_ne (by omega)]
        exact (and_iff_left fun heq => hjk (integerObjectOf_inj hopen.lt hk heq).symm).symm
    rw [← hclosed]
    obtain ⟨rfl, hsame⟩ | ⟨i, fp', fil', rfl, hgives, -, -⟩ := hreopened
    · rw [HandleInUse, hsame]
      exact (or_iff_right (integerObjectOf_ne_nil k).symm).symm
    · rw [HandleInUse, hgives.table, HandleInUse]
      by_cases hik : k = i
      · subst hik
        rw [Function.update_self]
        exact iff_of_true hgives.isOpen.ne_noFil (.inl rfl)
      · rw [Function.update_of_ne (by omega)]
        exact (or_iff_right fun heq => hik (integerObjectOf_inj hgives.isOpen.lt hk heq).symm).symm

end Handles

section Renames

variable {outcomes : Outcomes} {names : List CString} {s : FileMachine} {L : Layout}
  {regs : Nat → Nat} {n file newName oldLength newLength : Nat}

theorem success_run {s : Interpreter} (hs : s.successFlag = true) :
    success true s = some ((), s) := by
  cases s
  cases hs
  rfl

/-- The registers when `k` operands have been popped. -/
def popped (s : Interpreter) (k : Nat) : Interpreter :=
  { s with stackPointer := s.stackPointer - k }

theorem popped_zero (s : Interpreter) : popped s 0 = s := by
  have hzero : s.stackPointer - (0 : Nat) = s.stackPointer := by omega
  rw [popped, hzero]

theorem popped_succ (s : Interpreter) (k : Nat) :
    { popped s k with stackPointer := (popped s k).stackPointer - 1 } = popped s (k + 1) := by
  have hsucc : s.stackPointer - k - 1 = s.stackPointer - (k + 1 : Nat) := by omega
  rw [popped, hsucc, popped]

theorem isNilOrString_run {s : Interpreter} {p n : Nat}
    (h : IsByteObject s.memory p classStringPointer n) : isNilOrString p s = some (true, s) := by
  have hin := h.inside
  have hstop : heapSpaceStop = 65514 := rfl
  refine Wp.run_eq ?_
  rw [isNilOrString, wp_ite]
  refine ⟨fun _ => (wp_pure _ _ _).mpr ⟨rfl, rfl⟩, fun _ => ?_⟩
  rw [wp_bind, wp_inMemory, wp_fetchClassOf h.isEntry.1, and_iff_right ⟨h.isEntry, by omega⟩,
    wp_pure, h.fetchClass]
  exact ⟨rfl, rfl⟩

/-- The operand `v` is popped after `k` others. -/
theorem popStack_popped {s : Interpreter} {k v : Nat}
    (hfield : HasField s.memory s.activeContext (s.stackPointer - k))
    (hv : s.memory.chunkWord s.activeContext (headerSize + (s.stackPointer - k).toNat) = v) :
    popStack (popped s k) = some (v, popped s (k + 1)) :=
  Wp.run_eq ((wp_popStack (s := popped s k) hfield).mpr ⟨hv, popped_succ s k⟩)

theorem popInteger_popped {s : Interpreter} {k : Nat} {x : Int}
    (hfield : HasField s.memory s.activeContext (s.stackPointer - k))
    (hv : s.memory.chunkWord s.activeContext (headerSize + (s.stackPointer - k).toNat) =
      integerObjectOf x) (hx : isIntegerValue x = true) (hs : s.successFlag = true) :
    popInteger (popped s k) = some (x, popped s (k + 1)) := by
  refine Wp.run_eq ?_
  have hodd := integerObjectOf_odd x
  rw [popInteger, wp_bind, wp_of_run (popStack_popped hfield hv), wp_bind,
    decide_eq_true (show isIntegerObject (integerObjectOf x) from hodd),
    wp_of_run (success_run (s := popped s (k + 1)) hs), wp_bind, wp_get,
    if_pos (show (popped s (k + 1)).successFlag = true from hs), wp_pure]
  exact ⟨integerValueOf_integerObjectOf hx, rfl⟩

namespace Renaming

variable (h : Renaming s L regs n file newName oldLength newLength)

include h

theorem writable :
    Writable s.interpreter.memory L regs s.interpreter.activeContext (headerSize + n) file :=
  ⟨h.top, h.root, h.field, h.ne_context, h.constants _ List.mem_cons_self⟩

theorem hasField {k : Nat} (hk : k ≤ n) :
    HasField s.interpreter.memory s.interpreter.activeContext k := by
  have hfield : PointerField s.interpreter.memory L s.interpreter.activeContext
      (headerSize + (k : Int).toNat) :=
    h.top.below (Nat.le_add_right 2 _) (by omega)
  exact hfield.hasField h.counted.heap (Int.natCast_nonneg k)

/-- The primitive goes on to the rename. -/
theorem wp_primitive {Q : Unit → FileMachine → Prop} :
    Wp (primitivePosixDirectoryOperation outcomes names) Q s ↔
      Wp (renamePosixFile outcomes file newName) Q ⟨popped s.interpreter 4, s.fileSystem⟩ := by
  have hsp := h.stackPointer
  have hframe := h.frame
  have hplace (k : Nat) (hk : k ≤ 2) : HasField s.interpreter.memory s.interpreter.activeContext
      (s.interpreter.stackPointer - k) := by
    rw [hsp, show (n : Int) - k = ((n - k : Nat) : Int) by omega]
    exact h.hasField (by omega)
  have hindex (k : Nat) : (s.interpreter.stackPointer - k).toNat = n - k := by omega
  have harg2 : popStack (popped s.interpreter 0) = some (file, popped s.interpreter 1) :=
    popStack_popped (hplace 0 (by decide)) (by rw [hindex]; exact h.arg2)
  have harg1 : popStack (popped s.interpreter 1) = some (newName, popped s.interpreter 2) :=
    popStack_popped (hplace 1 (by decide)) (by rw [hindex]; exact h.arg1)
  have hcode : popInteger (popped s.interpreter 2) = some (2, popped s.interpreter 3) :=
    popInteger_popped (hplace 2 (by decide)) (by rw [hindex]; exact h.code) (by decide)
      h.successFlag
  have hpop : pop 1 (popped s.interpreter 3) = some ((), popped s.interpreter 4) :=
    congrArg (fun t => some ((), t)) (popped_succ s.interpreter 3)
  have hsuccess : success true (popped s.interpreter 4) = some ((), popped s.interpreter 4) :=
    success_run (s := popped s.interpreter 4) h.successFlag
  have hrange : success (decide ((2 : Int) ≥ 0 ∧ (2 : Int) ≤ 3)) (popped s.interpreter 4) =
      some ((), popped s.interpreter 4) := hsuccess
  have hlegal : isNilOrString newName (popped s.interpreter 4) =
      some (true, popped s.interpreter 4) := isNilOrString_run h.newString
  rw [popped_zero] at harg2
  rw [primitivePosixDirectoryOperation, wp_bind, wp_inInterpreter, wp_of_run harg2, wp_bind,
    wp_inInterpreter, wp_of_run harg1, wp_bind, wp_inInterpreter, wp_of_run hcode, wp_bind,
    wp_inInterpreter, wp_of_run hpop, wp_bind, wp_inInterpreter, wp_of_run hrange, wp_bind,
    wp_inInterpreter, wp_of_run hlegal, wp_bind, wp_inInterpreter, wp_of_run hsuccess, wp_bind,
    wp_get, if_pos (show (popped s.interpreter 4).successFlag = true from h.successFlag)]
  exact Iff.rfl

/-- The answer is pushed. -/
theorem wp_answer {L' : Layout} {u : ObjectMemory} {g : Nat → Nat → Nat} {f : FatFileSystem}
    {path : List UInt8} {v c : Nat} {renamed : Bool}
    (hu : Written s.interpreter.memory L regs g L' u)
    (hname : g file (headerSize + fileNameIndex) =
      if renamed then newName else s.field file fileNameIndex)
    (hdescriptor : g file (headerSize + descriptorIndex) = v)
    (hanchor : g s.interpreter.activeContext (headerSize + n) = file)
    (hresumed : Resumed outcomes path s.fileSystem f (s.field file descriptorIndex) v)
    (hc : c = if renamed then truePointer else falsePointer) :
    Wp (inInterpreter (push c)) (fun _ t => Renamed outcomes s t file newName path renamed)
      ⟨(popped s.interpreter 4).withMemory u, f⟩ := by
  have hframe := h.frame
  have hsp := h.stackPointer
  have hstart : tempFrameStart = 6 := rfl
  have hindex : headerSize + (n - 4 + 1) ≠ headerSize + n := by omega
  have hc' : c = truePointer ∨ c = falsePointer := by
    rw [hc]
    split
    · exact .inl rfl
    · exact .inr rfl
  have hconstant : c ∈ [nilPointer, truePointer, falsePointer] := by
    obtain rfl | rfl := hc' <;> decide
  have hcu := hu.root _ (h.constants c hconstant).1 (h.constants c hconstant).2
  rw [wp_inInterpreter]
  refine (wp_push (s := popped s.interpreter 4) (n := n - 4) hu ?_
    (h.top.below (Nat.le_add_right 2 _) (by omega)) h.root hcu.lt ?_ fun _ => hcu).mono ?_
  · show s.interpreter.stackPointer - (4 : Nat) = (n - 4 : Nat)
    omega
  · obtain rfl | rfl := hc' <;> decide
  · rintro _ t ⟨L'', u', rfl, hu'⟩
    have hother (j : Nat) : put g s.interpreter.activeContext (headerSize + (n - 4 + 1)) c file j =
        g file j := if_neg fun hall => h.ne_context hall.1
    have halive : Allocated u' L'' file := by
      refine hu'.anchored h.top h.root h.field.allocated.inUse.even (.inr ?_)
      exact (if_neg fun hall => hindex hall.2.symm).trans hanchor
    have hfield {j : Nat} (hj : j ≤ descriptorIndex) :
        u'.chunkWord file (headerSize + j) = g file (headerSize + j) := by
      rw [← hother]
      exact hu'.word file _ halive
        (h.field.below (Nat.le_add_right 2 j) (Nat.add_le_add_left hj 2)).lt_size
    have hv : u'.chunkWord file (headerSize + descriptorIndex) = v :=
      (hfield le_rfl).trans hdescriptor
    constructor
    · exact ⟨L'', halive⟩
    · exact (hfield (by decide)).trans hname
    · have hdescriptor' := hresumed.descriptor
      rw [← hv] at hdescriptor'
      exact hdescriptor'
    · intro i hi
      have hhandles := hresumed.handles hi
      rw [← hv] at hhandles
      exact hhandles
    · constructor
      · show ((n - 4 : Nat) : Int) + 1 = s.interpreter.stackPointer - 3
        omega
      · have hau := hu'.root _ h.top.allocated h.root
        have hplace := h.top.below (k := headerSize + (n - 4 + 1)) (Nat.le_add_right 2 _) (by omega)
        have hword := hu'.word s.interpreter.activeContext _ hau hplace.lt_size
        rw [put, if_pos ⟨rfl, rfl⟩, hc] at hword
        exact hword
    · exact h.successFlag

end Renaming

/-- The bytes of the two names. -/
def oldBytes (s : FileMachine) (file oldLength : Nat) : List UInt8 :=
  stringBytes s.interpreter.memory (s.field file fileNameIndex) oldLength

def newBytes (s : FileMachine) (newName newLength : Nat) : List UInt8 :=
  stringBytes s.interpreter.memory newName newLength

/-- What `rename_file` answers. -/
def succeeds (outcomes : Outcomes) (s : FileMachine) (oldName newName : List UInt8) : Bool :=
  decide (outcomes.fRename (s.fileSystem.pathForFile oldName)
    (s.fileSystem.pathForFile newName) = frOk)

theorem Closed.pathForFile {f t : FatFileSystem} {d : Nat} {oldPos : Int} (h : Closed f t d oldPos)
    (name : List UInt8) : t.pathForFile name = f.pathForFile name := by
  obtain ⟨-, rfl⟩ | ⟨i, fp, fil, -, -, -, ht⟩ := h
  · rfl
  · rw [FatFileSystem.pathForFile, ht, FatFileSystem.pathForFile]

theorem wp_renameFile {f : FatFileSystem} {oldName newName : List UInt8} :
    renameFile outcomes oldName newName f = some (decide (outcomes.fRename (f.pathForFile oldName)
      (f.pathForFile newName) = frOk), f) := rfl

/-- The rename of a PosixFile ends, whatever the calls on the file system answer. The object
and the table then tell the same about the file: its name, and whether and where it is open. -/
theorem renamed (h : Renaming s L regs n file newName oldLength newLength) (outcomes : Outcomes)
    (names : List CString) : Wp (primitivePosixDirectoryOperation outcomes names) (fun _ t =>
      Renamed outcomes s t file newName
        (s.fileSystem.pathForFile (if succeeds outcomes s (oldBytes s file oldLength)
          (newBytes s newName newLength) then newBytes s newName newLength
          else oldBytes s file oldLength))
        (succeeds outcomes s (oldBytes s file oldLength) (newBytes s newName newLength))) s := by
  have hfield {j : Nat} (hj : j ≤ descriptorIndex) : inMemory (fetchPointerOfObject j file)
      (popped s.interpreter 4) = some (s.field file j, popped s.interpreter 4) := by
    have hplace : PointerField s.interpreter.memory L file (headerSize + (j : Int).toNat) := by
      rw [Int.toNat_natCast]
      exact h.field.below (Nat.le_add_right 2 j) (Nat.add_le_add_left hj 2)
    refine Wp.run_eq ?_
    rw [wp_inMemory, fetchPointerOfObject_eq, wp_fetchWordOfObject]
    exact ⟨hplace.hasField h.counted.heap (Int.natCast_nonneg j), rfl, rfl⟩
  rw [h.wp_primitive, renamePosixFile, wp_bind, wp_inInterpreter, wp_of_run (hfield le_rfl),
    wp_bind]
  refine (wp_closeForRename h.descriptor outcomes).mono ?_
  rintro oldPos _ ⟨f₁, rfl, hclosed⟩
  have hnew : stringFromObject newName (popped s.interpreter 4) =
      some (newBytes s newName newLength, popped s.interpreter 4) :=
    stringFromObject_run h.newString
  have hold : stringFromObject (s.field file fileNameIndex) (popped s.interpreter 4) =
      some (oldBytes s file oldLength, popped s.interpreter 4) :=
    stringFromObject_run h.oldString
  rw [wp_bind, wp_inInterpreter, wp_of_run hnew, wp_bind, wp_inInterpreter,
    wp_of_run (hfield (by decide)), wp_bind, wp_inInterpreter, wp_of_run hold, wp_bind,
    wp_inFileSystem, wp_of_run wp_renameFile, hclosed.pathForFile, hclosed.pathForFile]
  change Wp (if succeeds outcomes s (oldBytes s file oldLength)
    (newBytes s newName newLength) = true then _ else _) _ _
  have hresume (name : List UInt8) : Wp (reopen outcomes
      (decide (s.field file descriptorIndex ≠ nilPointer)) file name oldPos) _
      ⟨(popped s.interpreter 4).withMemory s.interpreter.memory, f₁⟩ :=
    h.writable.wp_resume h.counted h.arg2 h.curfd hclosed name
  have hne := h.ne_context
  have hsource (v : Nat) : put s.interpreter.memory.chunkWord file (headerSize + descriptorIndex) v
      s.interpreter.activeContext (headerSize + n) = file :=
    (if_neg fun hall => hne hall.1.symm).trans h.arg2
  have hdescriptor (v : Nat) : put s.interpreter.memory.chunkWord file
      (headerSize + descriptorIndex) v file (headerSize + descriptorIndex) = v :=
    if_pos ⟨rfl, rfl⟩
  cases succeeds outcomes s (oldBytes s file oldLength) (newBytes s newName newLength) with
  | false =>
    rw [if_neg Bool.false_ne_true, wp_bind]
    refine (hresume (oldBytes s file oldLength)).mono ?_
    rintro _ _ ⟨L', u, f', v, rfl, hu, hresumed⟩
    exact h.wp_answer hu (if_neg fun hall => absurd hall.2 (by decide)) (hdescriptor v)
      (hsource v) hresumed rfl
  | true =>
    rw [if_pos rfl, wp_bind]
    refine (hresume (newBytes s newName newLength)).mono ?_
    rintro _ _ ⟨L', u, f', v, rfl, hu, hresumed⟩
    have hargument : put s.interpreter.memory.chunkWord file (headerSize + descriptorIndex) v
        s.interpreter.activeContext (headerSize + (n - 1)) = newName :=
      (if_neg fun hall => hne hall.1.symm).trans h.arg1
    have hstring : Allocated u L' newName :=
      hu.anchored (h.top.below (Nat.le_add_right 2 _) (Nat.add_le_add_left (Nat.sub_le n 1) 2))
        h.root h.newString.isEntry.1 (.inr hargument)
    rw [wp_bind]
    refine (h.writable.wp_storeField hu (hsource v) (by decide) hstring.lt
      (Nat.pos_of_ne_zero hstring.ne_zero) fun _ => hstring).mono ?_
    rintro _ _ ⟨L'', u', rfl, hu'⟩
    refine h.wp_answer hu' (if_pos ⟨rfl, rfl⟩) ?_ ?_ hresumed rfl
    · exact (if_neg fun hall => absurd hall.2 (by decide)).trans (hdescriptor v)
    · exact (if_neg fun hall => hne hall.1.symm).trans (hsource v)

end Renames

/-! ## An open file -/

/-- The objects of `blockMemory`, with two Strings, oops 12 and 16. The first is the name of
the file, oop 10; the context has the operands on its stack. -/
def fileWord (s w : Nat) : Nat :=
  if s = 1 ∧ w = 9 then 5 else if s = 1 ∧ w = 10 then 16 else if s = 1 ∧ w = 11 then 10
  else if s = 2 ∧ w = 3 then 12
  else if (s = 3 ∨ s = 5) ∧ w = 1 then 14
  else blockWord 3 s w

theorem fileWord_lt (s w : Nat) : fileWord s w < 65536 := by
  have hblock := blockWord_lt 3 s w
  unfold fileWord
  repeat' refine ite_lt_of (fun _ => ?_) fun _ => ?_
  all_goals omega

def fileMemory : ObjectMemory := ⟨⟨fileWord, fileWord_lt⟩, 0, 0, 32749⟩

section FileMemory

variable {p i : Nat}

theorem fileWord_above {s w : Nat} (hw : w = 0 ∨ 11 < w) : fileWord s w = blockWord 3 s w := by
  rw [fileWord, if_neg (by omega), if_neg (by omega), if_neg (by omega), if_neg (by omega),
    if_neg (by omega)]

theorem chunkWord_fileMemory (hp : IsOop p) (hle : p ≤ 34) :
    fileMemory.chunkWord p i = fileWord (p / 2 - 3) ((blockMemory 3).location p + i) := by
  rw [← (span_blockMemory (x := 3) hp hle).1]
  rfl

theorem allocated_fileMemory : Allocated fileMemory blockLayout p ↔ IsOop p ∧ p ≤ 34 :=
  allocated_blockMemory (x := 3)

theorem fileWord_cases (s w : Nat) : fileWord s w = blockWord 3 s w ∨
    (s = 1 ∨ s = 2) ∧ (fileWord s w = 5 ∨ fileWord s w = 16 ∨ fileWord s w = 10 ∨
      fileWord s w = 12) ∨ (s = 3 ∨ s = 5) ∧ fileWord s w = 14 := by
  unfold fileWord
  split
  · omega
  · split
    · omega
    · split
      · omega
      · split
        · omega
        · split
          · omega
          · exact .inl rfl

theorem size_fileMemory (hp : IsOop p) (hle : p ≤ 34) :
    fileMemory.chunkWord p 0 = (blockMemory 3).chunkWord p 0 := by
  have hplace := (span_blockMemory (x := 3) hp hle).2
  rw [chunkWord_fileMemory hp hle, chunkWord_blockMemory hp hle]
  unfold fileWord
  rw [if_neg (by omega), if_neg (by omega), if_neg (by omega), if_neg (by omega),
    if_neg (by omega)]

theorem last_fileMemory (hp : IsOop p) (hle : p ≤ 34) :
    fileMemory.last p = (blockMemory 3).last p := by
  have hpointer : (fileMemory.entry p).pointer = ((blockMemory 3).entry p).pointer := rfl
  rw [last, last, hpointer, size_fileMemory hp hle]
  by_cases h0 : ((blockMemory 3).entry p).pointer = 0
  · rw [if_pos h0, if_pos h0]
    rw [entry_blockMemory hp] at h0
    have h4 : p ≠ 4 := by rintro rfl; exact absurd h0 (by decide)
    have h8 : p ≠ 8 := by rintro rfl; exact absurd h0 (by decide)
    have h10 : p ≠ 10 := by rintro rfl; exact absurd h0 (by decide)
    have hclass := (filler_blockMemory (x := 3) hp hle h4 h8 h10).2.1
    have hblock := chunkWord_blockMemory (x := 3) (i := 1) hp hle
    have hcases := fileWord_cases (p / 2 - 3) ((blockMemory 3).location p + 1)
    have hcompiled : classCompiledMethod = 34 := rfl
    rw [← chunkWord_fileMemory hp hle, ← hblock, hclass] at hcases
    have heven := hp.1
    rw [hclass, if_neg (by omega), if_neg (by omega)]
  · rw [if_neg h0, if_neg h0]

theorem words_fileMemory (hp : IsOop p) (hle : p ≤ 34) :
    fileMemory.space p = blockExtent p ∧ fileMemory.last p ≤ fileMemory.chunkWord p 0 ∧
      ∀ i, IsPointer fileMemory p i → IsOop (fileMemory.chunkWord p i) ∧
        fileMemory.chunkWord p i ≤ 34 := by
  obtain ⟨hspace, hlast, hpointers⟩ := words_blockMemory (x := 3) (.inl rfl) hp hle
  refine ⟨?_, ?_, fun i hi => ?_⟩
  · rw [ObjectMemory.space, size_fileMemory hp hle]
    exact hspace
  · rw [last_fileMemory hp hle, size_fileMemory hp hle]
    exact hlast
  · obtain ⟨h1, hlt, heven⟩ := hi
    have hcases := fileWord_cases (p / 2 - 3) ((blockMemory 3).location p + i)
    rw [← chunkWord_fileMemory hp hle, ← chunkWord_blockMemory (x := 3) hp hle] at hcases
    rw [last_fileMemory hp hle] at hlt
    obtain hsame | ⟨-, hchanged⟩ | ⟨-, hchanged⟩ := hcases
    · rw [hsame] at heven ⊢
      exact hpointers i ⟨h1, hlt, heven⟩
    · rw [IsOop]
      omega
    · rw [IsOop]
      omega

theorem heap_fileMemory : Heap fileMemory blockLayout := by
  have hblock : Heap (blockMemory 3) blockLayout := heap_blockMemory (.inl rfl)
  refine ⟨hblock.tiled.congr (fun _ _ => rfl) (fun _ _ => rfl) fun _ _ => rfl,
    ⟨hblock.lists.pointers.congr fun _ _ => rfl, hblock.lists.mem_pointers, fun s k hs h2 h20 => ?_,
      fun _ _ _ hmem => absurd hmem List.not_mem_nil, fun _ _ _ _ hmem =>
      absurd hmem List.not_mem_nil⟩, fun _ _ _ hmem => absurd hmem List.not_mem_nil,
    fun p hp => ?_⟩
  · have hhead : fileMemory.chunkHead s k = fileWord s (65515 + k) := rfl
    rw [hhead, fileWord_above (.inr (by omega))]
    exact hblock.lists.chunks s k hs h2 h20
  · obtain ⟨hoop, hle⟩ := allocated_fileMemory.mp hp
    exact (words_fileMemory hoop hle).1.symm

theorem counted_fileMemory : Counted fileMemory blockLayout fun _ => 1 := by
  refine ⟨heap_fileMemory, fun p hp => ?_, fun p i hp hi => ?_, fun p hp hlt => ?_⟩
  · obtain ⟨hoop, hle⟩ := allocated_fileMemory.mp hp
    exact (words_fileMemory hoop hle).2.1
  · obtain ⟨hoop, hle⟩ := allocated_fileMemory.mp hp
    exact allocated_fileMemory.mpr ((words_fileMemory hoop hle).2.2 i hi)
  · obtain ⟨hoop, hle⟩ := allocated_fileMemory.mp hp
    have hcount := (count_blockMemory (x := 3) hoop hle).2
    exact absurd hlt (Nat.not_lt.mpr hcount.ge)

end FileMemory

/-- The file has the handle 0. -/
def fileState : FileMachine :=
  { interpreter := { beforeTime with
      host := { beforeTime.host with memory := fileMemory }
      activeContext := 8
      homeContext := 8
      stackPointer := 9
      successFlag := true }
    fileSystem := filled 1 }

theorem pointerField_fileMemory {p i : Nat} (hp : p = 8 ∨ p = 10) (h2 : 2 ≤ i) (hi : i < 65514) :
    PointerField fileMemory blockLayout p i := by
  have hsize : fileMemory.chunkWord p 0 = 65514 := by rcases hp with rfl | rfl <;> decide
  refine ⟨allocated_fileMemory.mpr ?_, ?_, h2, by rwa [hsize]⟩
  · rcases hp with rfl | rfl <;> decide
  · rcases hp with rfl | rfl <;> decide

theorem isByteObject_fileMemory {p : Nat} (hp : p = 12 ∨ p = 16) :
    IsByteObject fileMemory p classStringPointer 131026 := by
  rcases hp with rfl | rfl
  · exact ⟨by decide, by decide, by decide, by decide, by decide, by decide⟩
  · exact ⟨by decide, by decide, by decide, by decide, by decide, by decide⟩

theorem renaming_fileState :
    Renaming fileState blockLayout (fun _ => 1) 9 10 16 131026 131026 where
  counted := counted_fileMemory
  root := le_rfl
  stackPointer := rfl
  frame := by decide
  top := pointerField_fileMemory (.inl rfl) (by decide) (by decide)
  arg2 := (by decide : fileMemory.chunkWord 8 11 = 10)
  arg1 := (by decide : fileMemory.chunkWord 8 10 = 16)
  code := (by decide : fileMemory.chunkWord 8 9 = 5)
  successFlag := rfl
  field := pointerField_fileMemory (.inr rfl) (by decide) (by decide)
  ne_context := by decide
  newString := isByteObject_fileMemory (.inr rfl)
  oldString := by
    have hname : fileMemory.chunkWord 10 3 = 12 := by decide
    show IsByteObject fileMemory (fileMemory.chunkWord 10 3) _ _
    rw [hname]
    exact isByteObject_fileMemory (.inl rfl)
  constants c hc := by
    refine ⟨allocated_fileMemory.mpr ?_, le_rfl⟩
    simp only [List.mem_cons, List.not_mem_nil, or_false] at hc
    rcases hc with rfl | rfl | rfl <;> decide
  curfd := by decide
  descriptor := by
    have hword : fileMemory.chunkWord 10 10 = integerObjectOf 0 := by decide
    exact .inr ⟨0, 1, ⟨[0x2f], 3, 0⟩, hword, by decide, by decide, by decide, rfl⟩

/-- All calls succeed. -/
theorem renamed_fileState : Wp (primitivePosixDirectoryOperation (answers 2) []) (fun _ t =>
    Renamed (answers 2) fileState t 10 16
      (fileState.fileSystem.pathForFile (newBytes fileState 16 131026)) true) fileState :=
  renamed renaming_fileState (answers 2) []

end Rename

end Crosstalk
