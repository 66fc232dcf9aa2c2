import Crosstalk.Lib.Loop
import Mathlib.Logic.Function.Basic
import Mathlib.Data.List.Nodup

/-!
# Handles of open files

A handle is an index into a table of pointers to files of FatFs, of which the null
pointer marks a free slot. The search for a free slot goes on behind the last one
that was given out. What it answers when there is none goes into the store to the
table as well.
-/

namespace Crosstalk

/-! ## Files of FatFs -/

abbrev maxOpenFiles : Nat := 64
abbrev noFil : Nat := 0

/-- `FR_OK`. All other results are errors. -/
abbrev frOk : Nat := 0
abbrev frInvalidObject : Nat := 9

abbrev faRead : Nat := 1
abbrev faWrite : Nat := 2
abbrev faCreateAlways : Nat := 8

/-- An open file. -/
structure Fil where
  path : List UInt8
  flag : Nat
  fptr : UInt32

/-- What the allocator and FatFs answer during a call. `f_lseek` also leaves the file at a
position, which need not be the one that is asked for. -/
structure Outcomes where
  malloc : Nat
  fOpen : Nat
  fClose : Nat → Nat
  fRename : List UInt8 → List UInt8 → Nat
  fUnlink : List UInt8 → Nat
  fLseek : UInt32 → Nat × UInt32

/-- The words before and behind the table have indices outside of it. -/
structure FatFileSystem where
  rootDirectory : List UInt8
  fdtofil : Int → Nat
  curfd : Nat
  fil : Nat → Option Fil

abbrev FS := StateT FatFileSystem Option

/-- The bytes before the first zero. -/
def cStr (bytes : List UInt8) : List UInt8 := bytes.takeWhile fun b => b ≠ 0

def FatFileSystem.pathForFile (s : FatFileSystem) (name : List UInt8) : List UInt8 :=
  s.rootDirectory ++ [0x2f] ++ cStr name

def fOpen (outcomes : Outcomes) (fp : Nat) (path : List UInt8) (mode : Nat) : FS Nat :=
  if fp = noFil then
    return frInvalidObject
  else do
    if outcomes.fOpen = frOk then
      modify fun s => { s with fil := Function.update s.fil fp (some ⟨path, mode, 0⟩) }
    return outcomes.fOpen

/-- After an error the file stays open. -/
def fClose (outcomes : Outcomes) (fp : Nat) : FS Nat := do
  if outcomes.fClose fp = frOk then
    modify fun s => { s with fil := Function.update s.fil fp none }
  return outcomes.fClose fp

def fLseek (outcomes : Outcomes) (fp : Nat) (ofs : UInt32) : FS Nat := do
  let moved := (← get).fil fp |>.map fun f => { f with fptr := (outcomes.fLseek ofs).2 }
  modify fun s => { s with fil := Function.update s.fil fp moved }
  return (outcomes.fLseek ofs).1

def free (fp : Nat) : FS Unit := modify fun s => { s with fil := Function.update s.fil fp none }

/-! ## The table -/

def storeFil (fd : Int) (fp : Nat) : FS Unit :=
  modify fun s => { s with fdtofil := Function.update s.fdtofil fd fp }

/-- One round of a loop of `getfd`. -/
def getfdRound (limit : Nat) (_ : Unit) : FS (Unit ⊕ Option Nat) := do
  let s ← get
  if s.curfd < limit then
    modify fun s => { s with curfd := s.curfd + 1 }
    if s.fdtofil s.curfd = noFil then
      return .inr (some s.curfd)
    else
      return .inl ()
  else
    return .inr none

def getfd : FS Int := do
  let initialCurfd := (← get).curfd
  match ← iterate (getfdRound maxOpenFiles) () with
  | some fd => return fd
  | none =>
      modify fun s => { s with curfd := 0 }
      match ← iterate (getfdRound initialCurfd) () with
      | some fd => return fd
      | none => return -1

/-- `open_file` and `create_file` differ in the mode. -/
def openFileWith (mode : Nat) (outcomes : Outcomes) (name : List UInt8) : FS Int := do
  let path := (← get).pathForFile name
  let fres ← fOpen outcomes outcomes.malloc path mode
  if fres ≠ frOk then
    return -1
  else
    let fd ← getfd
    storeFil fd outcomes.malloc
    return fd

def openFile : Outcomes → List UInt8 → FS Int := openFileWith (faRead ||| faWrite)

def createFile : Outcomes → List UInt8 → FS Int :=
  openFileWith (faRead ||| faWrite ||| faCreateAlways)

/-- A read outside the table is undefined. -/
def closeFile (outcomes : Outcomes) (fileHandle : Int) : FS Int := do
  check (0 ≤ fileHandle ∧ fileHandle < maxOpenFiles)
  let fil := (← get).fdtofil fileHandle
  if fil ≠ noFil then
    let _ ← fClose outcomes fil
    free fil
    storeFil fileHandle noFil
    return 0
  else
    return -1

/-- One round of `shutdown`. -/
def shutdownSlot (outcomes : Outcomes) (ok : Bool) (i : Nat) : FS Bool := do
  let fil := (← get).fdtofil i
  if fil ≠ noFil then
    let fres ← fClose outcomes fil
    storeFil i noFil
    return ok && fres = frOk
  else
    return ok

def shutdownSlots (outcomes : Outcomes) : List Nat → Bool → FS Bool
  | [], ok => return ok
  | i :: slots, ok => do shutdownSlots outcomes slots (← shutdownSlot outcomes ok i)

def shutdown (outcomes : Outcomes) : FS Bool :=
  shutdownSlots outcomes (List.range maxOpenFiles) true

/-- The constructor clears the table. -/
def FatFileSystem.init (root : List UInt8) (fdtofil : Int → Nat) (fil : Nat → Option Fil) :
    FatFileSystem where
  rootDirectory := root
  fdtofil := fun i => if 0 ≤ i ∧ i < maxOpenFiles then noFil else fdtofil i
  curfd := 0
  fil := fil

namespace Handles

/-! ## What the functions do to the table -/

/-- The functions of FatFs leave the table alone. -/
theorem fOpen_spec (outcomes : Outcomes) (fp : Nat) (path : List UInt8) (mode : Nat)
    (s : FatFileSystem) : Wp (fOpen outcomes fp path mode) (fun fres t =>
      (fres = frOk ↔ fp ≠ noFil ∧ outcomes.fOpen = frOk) ∧ t = { s with fil := t.fil } ∧
        (fres = frOk → t.fil fp = some ⟨path, mode, 0⟩)) s := by
  rw [fOpen, wp_ite]
  refine ⟨fun h0 => ?_, fun hne => ?_⟩
  · rw [wp_pure]
    exact ⟨⟨fun h => absurd h (by decide), fun h => absurd h0 h.1⟩, rfl,
      fun h => absurd h (by decide)⟩
  · by_cases hok : outcomes.fOpen = frOk
    · simp [hok, hne]
    · simp [hok, hne]

theorem fClose_spec (outcomes : Outcomes) (fp : Nat) (s : FatFileSystem) :
    Wp (fClose outcomes fp) (fun _ t => t = { s with fil := t.fil }) s := by
  rw [fClose]
  by_cases hok : outcomes.fClose fp = frOk
  · simp [hok]
  · simp [hok]

/-- The search takes the first free slot from the cursor on, and puts the cursor
behind it. -/
theorem iterate_getfdRound (limit : Nat) (s : FatFileSystem) (hs : s.curfd ≤ limit) :
    Wp (iterate (getfdRound limit) ()) (fun found t => match found with
      | some fd => s.curfd ≤ fd ∧ fd < limit ∧ s.fdtofil fd = noFil ∧
          t = { s with curfd := fd + 1 }
      | none => (∀ i : Nat, s.curfd ≤ i → i < limit → s.fdtofil i ≠ noFil) ∧
          t = { s with curfd := limit }) s := by
  refine wp_iterate
    (fun _ t => s.curfd ≤ t.curfd ∧ t.curfd ≤ limit ∧ t = { s with curfd := t.curfd } ∧
      ∀ i : Nat, s.curfd ≤ i → i < t.curfd → s.fdtofil i ≠ noFil)
    (fun _ t => limit - t.curfd) ?_ ⟨Nat.le_refl _, hs, rfl, fun i hi hi' => by omega⟩
  rintro ⟨⟩ t ⟨hlow, hhigh, ht, htaken⟩
  have hfdtofil : t.fdtofil = s.fdtofil := by rw [ht]
  rw [getfdRound, wp_bind, wp_get, wp_ite]
  refine ⟨fun hlt => ?_, fun hge => ?_⟩
  · rw [wp_bind, wp_modify, wp_ite]
    refine ⟨fun hfree => ?_, fun hfull => ?_⟩
    · rw [wp_pure, loopPost_inr]
      exact ⟨hlow, hlt, hfdtofil ▸ hfree, by rw [ht]⟩
    · rw [wp_pure, loopPost_inl]
      refine ⟨⟨by dsimp only; omega, by dsimp only; omega, by rw [ht], fun i hi hi' => ?_⟩,
        by dsimp only; omega⟩
      obtain hlast | heq := Nat.lt_succ_iff_lt_or_eq.mp hi'
      · exact htaken i hi hlast
      · rw [heq, ← hfdtofil]
        exact hfull
  · obtain hcurfd : t.curfd = limit := by omega
    rw [wp_pure, loopPost_inr]
    exact ⟨fun i hi hi' => htaken i hi (by omega), by rw [ht, hcurfd]⟩

/-- A free slot, or -1 when there is none. -/
theorem getfd_spec {s : FatFileSystem} (hs : s.curfd ≤ maxOpenFiles) :
    Wp getfd (fun fd t => t = { s with curfd := t.curfd } ∧ t.curfd ≤ maxOpenFiles ∧
      ((fd = -1 ∧ ∀ i < maxOpenFiles, s.fdtofil i ≠ noFil) ∨
        ∃ i : Nat, fd = i ∧ i < maxOpenFiles ∧ s.fdtofil i = noFil)) s := by
  rw [getfd, wp_bind, wp_get, wp_bind]
  refine (iterate_getfdRound maxOpenFiles s hs).mono ?_
  rintro (_ | fd) t ht
  · obtain ⟨hbehind, rfl⟩ := ht
    dsimp only
    rw [wp_bind, wp_modify, wp_bind]
    refine (iterate_getfdRound s.curfd _ (Nat.zero_le _)).mono ?_
    rintro (_ | fd) u hu
    · obtain ⟨hbefore, rfl⟩ := hu
      refine (wp_pure _ _ _).mpr ⟨rfl, hs, .inl ⟨rfl, fun i hi => ?_⟩⟩
      obtain hlt | hge := Nat.lt_or_ge i s.curfd
      · exact hbefore i (Nat.zero_le i) hlt
      · exact hbehind i hge hi
    · obtain ⟨-, hlt, hfree, rfl⟩ := hu
      refine (wp_pure _ _ _).mpr ⟨rfl, ?_, .inr ⟨fd, rfl, by omega, hfree⟩⟩
      dsimp only
      omega
  · obtain ⟨-, hlt, hfree, rfl⟩ := ht
    exact (wp_pure _ _ _).mpr ⟨rfl, hlt, .inr ⟨fd, rfl, hlt, hfree⟩⟩

theorem openFileWith_spec {s : FatFileSystem} (hs : s.curfd ≤ maxOpenFiles) (mode : Nat)
    (outcomes : Outcomes) (name : List UInt8) :
    Wp (openFileWith mode outcomes name) (fun fd t => t.curfd ≤ maxOpenFiles ∧
      ((fd = -1 ∧ t = { s with fil := t.fil } ∧ ¬(outcomes.malloc ≠ noFil ∧ outcomes.fOpen = frOk)) ∨
        ((outcomes.malloc ≠ noFil ∧ outcomes.fOpen = frOk) ∧
          t.fdtofil = Function.update s.fdtofil fd outcomes.malloc ∧
          t.fil outcomes.malloc = some ⟨s.pathForFile name, mode, 0⟩ ∧
          ((fd = -1 ∧ ∀ i < maxOpenFiles, s.fdtofil i ≠ noFil) ∨
            ∃ i : Nat, fd = i ∧ i < maxOpenFiles ∧ s.fdtofil i = noFil)))) s := by
  rw [openFileWith, wp_bind, wp_get, wp_bind]
  refine (fOpen_spec outcomes outcomes.malloc _ mode s).mono ?_
  rintro fres t ⟨hfres, ht, hfil⟩
  have hfdtofil : t.fdtofil = s.fdtofil := by rw [ht]
  have hcurfd : t.curfd ≤ maxOpenFiles := by rwa [ht]
  rw [wp_ite]
  refine ⟨fun hfail => ?_, fun hok => ?_⟩
  · rw [wp_pure]
    exact ⟨hcurfd, .inl ⟨rfl, ht, fun h => hfail (hfres.mpr h)⟩⟩
  · rw [wp_bind]
    refine (getfd_spec hcurfd).mono ?_
    rintro fd u ⟨hu, hcurfd', hfd⟩
    rw [wp_bind, storeFil, wp_modify, wp_pure]
    rw [hfdtofil] at hfd
    refine ⟨hcurfd', .inr ⟨hfres.mp (not_not.mp hok), ?_, ?_, hfd⟩⟩
    · dsimp only
      rw [hu, ← hfdtofil]
    · dsimp only
      rw [hu]
      exact hfil (not_not.mp hok)

theorem wp_closeFile (outcomes : Outcomes) {fileHandle : Int} (s : FatFileSystem)
    (h : 0 ≤ fileHandle ∧ fileHandle < maxOpenFiles) :
    Wp (closeFile outcomes fileHandle) (fun _ t => t = { s with
      fdtofil := Function.update s.fdtofil fileHandle noFil, fil := t.fil }) s := by
  rw [closeFile, wp_bind, wp_check, and_iff_right h, wp_bind, wp_get, wp_ite]
  refine ⟨fun _ => ?_, fun hclosed => ?_⟩
  · rw [wp_bind]
    refine (fClose_spec outcomes _ s).mono ?_
    rintro _ t ht
    rw [wp_bind, free, wp_modify, wp_bind, storeFil, wp_modify, wp_pure, ht]
  · rw [wp_pure, ← not_not.mp hclosed, Function.update_eq_self]

theorem closeFile_spec (outcomes : Outcomes) (fileHandle : Int) (s : FatFileSystem) :
    Wlp (closeFile outcomes fileHandle) (fun _ t =>
      t.fdtofil = Function.update s.fdtofil fileHandle noFil ∧ t.curfd = s.curfd) s := by
  by_cases h : 0 ≤ fileHandle ∧ fileHandle < maxOpenFiles
  · refine (wp_closeFile outcomes s h).toWlp.mono fun _ t ht => ?_
    rw [ht]
    exact ⟨rfl, rfl⟩
  · rw [closeFile, wlp_bind, wlp_check]
    exact fun hin => absurd hin h

theorem shutdownSlot_spec (outcomes : Outcomes) (ok : Bool) (i : Nat) (s : FatFileSystem) :
    Wp (shutdownSlot outcomes ok i) (fun _ t =>
      t.fdtofil = Function.update s.fdtofil i noFil ∧ t.curfd = s.curfd) s := by
  rw [shutdownSlot, wp_bind, wp_get, wp_ite]
  refine ⟨fun _ => ?_, fun hclosed => ?_⟩
  · rw [wp_bind]
    refine (fClose_spec outcomes _ s).mono ?_
    rintro _ t ht
    rw [wp_bind, storeFil, wp_modify, wp_pure, ht]
    exact ⟨rfl, rfl⟩
  · rw [wp_pure, ← not_not.mp hclosed, Function.update_eq_self]
    exact ⟨rfl, rfl⟩

theorem shutdownSlots_spec (outcomes : Outcomes) (slots : List Nat) (ok : Bool)
    (s : FatFileSystem) : Wp (shutdownSlots outcomes slots ok) (fun _ t =>
      (∀ i ∈ slots, t.fdtofil i = noFil) ∧
        (∀ i, s.fdtofil i = noFil → t.fdtofil i = noFil) ∧ t.curfd = s.curfd) s := by
  induction slots generalizing ok s with
  | nil => exact (wp_pure _ _ _).mpr ⟨List.forall_mem_nil _, fun _ h => h, rfl⟩
  | cons i slots ih =>
    rw [shutdownSlots, wp_bind]
    refine (shutdownSlot_spec outcomes ok i s).mono ?_
    rintro ok' t ⟨hfdtofil, hcurfd⟩
    refine (ih ok' t).mono ?_
    rintro _ u ⟨hslots, hkept, hcurfd'⟩
    refine ⟨?_, fun j hj => hkept j ?_, hcurfd'.trans hcurfd⟩
    · rw [List.forall_mem_cons]
      exact ⟨hkept i (by rw [hfdtofil, Function.update_self]), hslots⟩
    · rw [hfdtofil]
      obtain rfl | hne := eq_or_ne j (i : Int)
      · exact Function.update_self _ _ _
      · rw [Function.update_of_ne hne, hj]

theorem shutdown_spec (outcomes : Outcomes) (s : FatFileSystem) :
    Wp (shutdown outcomes) (fun _ t =>
      (∀ i < maxOpenFiles, t.fdtofil i = noFil) ∧ t.curfd = s.curfd) s :=
  (shutdownSlots_spec outcomes _ true s).mono fun _ _ ⟨hslots, _, hcurfd⟩ =>
    ⟨fun i hi => hslots i (List.mem_range.mpr hi), hcurfd⟩

/-! ## Runs -/

inductive Call
  | openFile (name : List UInt8) (outcomes : Outcomes)
  | createFile (name : List UInt8) (outcomes : Outcomes)
  | closeFile (fileHandle : Int) (outcomes : Outcomes)
  | shutdown (outcomes : Outcomes)

def Call.code : Call → FS Int
  | .openFile name outcomes => Crosstalk.openFile outcomes name
  | .createFile name outcomes => Crosstalk.createFile outcomes name
  | .closeFile fileHandle outcomes => Crosstalk.closeFile outcomes fileHandle
  | .shutdown outcomes => do return if ← Crosstalk.shutdown outcomes then 1 else 0

/-- What a call that opens a file is answered. -/
def Call.opens : Call → Option Outcomes
  | .openFile _ outcomes => some outcomes
  | .createFile _ outcomes => some outcomes
  | _ => none

structure Step where
  call : Call
  before : FatFileSystem
  result : Int
  after : FatFileSystem

/-- The state after a history, of which the newest step comes first. -/
def stateAfter (s : FatFileSystem) : List Step → FatFileSystem
  | [] => s
  | x :: _ => x.after

/-- A run from the state `s`, newest first. -/
def IsRun (s : FatFileSystem) : List Step → Prop
  | [] => True
  | x :: h => IsRun s h ∧ x.before = stateAfter s h ∧
      x.call.code x.before = some (x.result, x.after)

/-- The files that are open after a history, with their handles. -/
def openFiles : List Step → List (Int × Nat)
  | [] => []
  | x :: h => match x.call with
    | .openFile _ outcomes | .createFile _ outcomes =>
        if 0 ≤ x.result then (x.result, outcomes.malloc) :: openFiles h else openFiles h
    | .closeFile fileHandle _ => (openFiles h).filter fun e => e.1 ≠ fileHandle
    | .shutdown _ => []

def handles (h : List Step) : List Int := (openFiles h).map fun e => e.1

/-- A property of each step and the history before it. -/
def AllSteps (P : Step → List Step → Prop) : List Step → Prop
  | [] => True
  | x :: h => P x h ∧ AllSteps P h

/-- There is a handle that is not in use. -/
def HasFree (h : List Step) : Prop := ∃ i : Int, 0 ≤ i ∧ i < maxOpenFiles ∧ i ∉ handles h

/-- A handle that is given out is an index of the table that was not in use; there is
one for a file that FatFs opens when one is free; when none is, the call answers -1 and
leaves the root directory, the table and the cursor as they were. -/
structure Step.GivesHandle (x : Step) (h : List Step) (outcomes : Outcomes) : Prop where
  valid : 0 ≤ x.result → x.result < maxOpenFiles ∧ x.result ∉ handles h
  found : outcomes.malloc ≠ noFil → outcomes.fOpen = frOk → HasFree h → 0 ≤ x.result
  full : ¬HasFree h → x.result = -1 ∧ x.after = { x.before with fil := x.after.fil }

/-- No two open files have one handle, and the entry of each is its own. -/
structure Step.HandlesOk (x : Step) (h : List Step) : Prop where
  gives : ∀ outcomes, x.call.opens = some outcomes → x.GivesHandle h outcomes
  nodup : (handles (x :: h)).Nodup
  entry : ∀ e ∈ openFiles (x :: h), x.after.fdtofil e.1 = e.2

/-- FatFs opens no file when all handles are in use. -/
def Step.Fits (x : Step) (h : List Step) : Prop :=
  ∀ outcomes, x.call.opens = some outcomes → outcomes.malloc ≠ noFil → outcomes.fOpen = frOk →
    HasFree h

/-- The table tells which files are open. -/
structure Inv (s : FatFileSystem) (files : List (Int × Nat)) : Prop where
  curfd : s.curfd ≤ maxOpenFiles
  nodup : (files.map fun e => e.1).Nodup
  entry : ∀ e ∈ files, 0 ≤ e.1 ∧ e.1 < maxOpenFiles ∧ e.2 ≠ noFil ∧ s.fdtofil e.1 = e.2
  used : ∀ i < maxOpenFiles, s.fdtofil i ≠ noFil → (i : Int) ∈ files.map fun e => e.1

namespace Inv

variable {s t : FatFileSystem} {files : List (Int × Nat)} {i : Nat} {fp : Nat}

/-- A free slot is the handle of no open file. -/
theorem notMem (h : Inv s files) (hfree : s.fdtofil i = noFil) :
    (i : Int) ∉ files.map fun e => e.1 := by
  intro hmem
  obtain ⟨e, he, heq⟩ := List.mem_map.mp hmem
  obtain ⟨-, -, hne, hentry⟩ := h.entry e he
  rw [heq, hfree] at hentry
  exact hne hentry.symm

theorem opened (h : Inv s files) (hi : i < maxOpenFiles) (hfree : s.fdtofil i = noFil)
    (hfp : fp ≠ noFil) (hcurfd : t.curfd ≤ maxOpenFiles)
    (ht : t.fdtofil = Function.update s.fdtofil i fp) : Inv t ((i, fp) :: files) where
  curfd := hcurfd
  nodup := List.nodup_cons.mpr ⟨h.notMem hfree, h.nodup⟩
  entry := by
    rw [List.forall_mem_cons]
    refine ⟨⟨Int.natCast_nonneg i, Int.ofNat_lt.mpr hi, hfp, ?_⟩, fun e he => ?_⟩
    · rw [ht, Function.update_self]
    · obtain ⟨hlow, hhigh, hne, hentry⟩ := h.entry e he
      have hother : e.1 ≠ i := by
        rintro heq
        rw [heq, hfree] at hentry
        exact hne hentry.symm
      exact ⟨hlow, hhigh, hne, by rw [ht, Function.update_of_ne hother, hentry]⟩
  used j hj hne := by
    obtain heq | hother := eq_or_ne (j : Int) i
    · exact List.mem_cons.mpr (.inl heq)
    · rw [ht, Function.update_of_ne hother] at hne
      exact List.mem_cons_of_mem _ (h.used j hj hne)

/-- The word before the table does not matter. -/
theorem outside (h : Inv s files) (hcurfd : t.curfd ≤ maxOpenFiles)
    (ht : t.fdtofil = Function.update s.fdtofil (-1) fp) : Inv t files where
  curfd := hcurfd
  nodup := h.nodup
  entry e he := by
    obtain ⟨hlow, hhigh, hne, hentry⟩ := h.entry e he
    exact ⟨hlow, hhigh, hne, by rw [ht, Function.update_of_ne (by omega), hentry]⟩
  used j hj hne := by
    rw [ht, Function.update_of_ne (by omega)] at hne
    exact h.used j hj hne

theorem unchanged (h : Inv s files) (hcurfd : t.curfd ≤ maxOpenFiles)
    (ht : t.fdtofil = s.fdtofil) : Inv t files :=
  ⟨hcurfd, h.nodup, ht ▸ h.entry, ht ▸ h.used⟩

theorem closed {fileHandle : Int} (h : Inv s files) (hcurfd : t.curfd = s.curfd)
    (ht : t.fdtofil = Function.update s.fdtofil fileHandle noFil) :
    Inv t (files.filter fun e => e.1 ≠ fileHandle) where
  curfd := hcurfd ▸ h.curfd
  nodup := h.nodup.sublist (List.filter_sublist.map _)
  entry e he := by
    obtain ⟨hmem, hother⟩ := List.mem_filter.mp he
    obtain ⟨hlow, hhigh, hne, hentry⟩ := h.entry e hmem
    exact ⟨hlow, hhigh, hne, by rw [ht, Function.update_of_ne (by simpa using hother), hentry]⟩
  used j hj hne := by
    rw [ht] at hne
    obtain heq | hother := eq_or_ne (j : Int) fileHandle
    · rw [heq, Function.update_self] at hne
      exact absurd rfl hne
    · rw [Function.update_of_ne hother] at hne
      obtain ⟨e, he, heq⟩ := List.mem_map.mp (h.used j hj hne)
      refine List.mem_map.mpr ⟨e, List.mem_filter.mpr ⟨he, ?_⟩, heq⟩
      simpa [heq] using hother

theorem shutdown (hs : s.curfd ≤ maxOpenFiles) (hcurfd : t.curfd = s.curfd)
    (ht : ∀ i < maxOpenFiles, t.fdtofil i = noFil) : Inv t [] where
  curfd := hcurfd ▸ hs
  nodup := List.nodup_nil
  entry := List.forall_mem_nil _
  used j hj hne := absurd (ht j hj) hne

end Inv

theorem hasFree_iff {s : FatFileSystem} {h : List Step} (hs : Inv s (openFiles h)) :
    HasFree h ↔ ∃ i < maxOpenFiles, s.fdtofil (i : Nat) = noFil := by
  constructor
  · rintro ⟨i, hlow, hhigh, hfree⟩
    lift i to Nat using hlow
    refine ⟨i, by omega, ?_⟩
    by_contra hne
    exact hfree (hs.used i (by omega) hne)
  · rintro ⟨i, hi, hfree⟩
    exact ⟨i, Int.natCast_nonneg i, by omega, hs.notMem hfree⟩

/-- An open or a create. -/
theorem gives_of_opens {x : Step} {h : List Step} {mode : Nat} {name : List UInt8}
    {outcomes : Outcomes} (hs : Inv x.before (openFiles h))
    (hfiles : openFiles (x :: h) = if 0 ≤ x.result then (x.result, outcomes.malloc) :: openFiles h
      else openFiles h)
    (hrun : openFileWith mode outcomes name x.before = some (x.result, x.after)) :
    Inv x.after (openFiles (x :: h)) ∧
      ((outcomes.malloc ≠ noFil → outcomes.fOpen = frOk → HasFree h) →
        x.GivesHandle h outcomes) := by
  obtain ⟨hcurfd, hcase⟩ := (openFileWith_spec hs.curfd mode outcomes name).toWlp _ _ hrun
  obtain ⟨hresult, hsame, hfail⟩ | ⟨⟨hfp, hok⟩, ht, -, hfd⟩ := hcase
  · rw [hfiles, if_neg (by omega)]
    refine ⟨hs.unchanged hcurfd (by rw [hsame]), fun _ => ?_⟩
    exact ⟨fun h0 => by omega, fun hm hf => absurd ⟨hm, hf⟩ hfail, fun _ => ⟨hresult, hsame⟩⟩
  · obtain ⟨hresult, hfull⟩ | ⟨i, hresult, hi, hfree⟩ := hfd
    · rw [hfiles, if_neg (by omega)]
      rw [hresult] at ht
      refine ⟨hs.outside hcurfd ht, fun hfits => ?_⟩
      obtain ⟨i, hi, h0⟩ := (hasFree_iff hs).mp (hfits hfp hok)
      exact absurd h0 (hfull i hi)
    · rw [hfiles, if_pos (by omega), hresult]
      rw [hresult] at ht
      refine ⟨hs.opened hi hfree hfp hcurfd ht, fun _ => ⟨fun _ => ?_, fun _ _ _ => by omega,
        fun hnone => absurd ((hasFree_iff hs).mpr ⟨i, hi, hfree⟩) hnone⟩⟩
      rw [hresult]
      exact ⟨by omega, hs.notMem hfree⟩

/-- What one call does. -/
theorem step_spec {x : Step} {h : List Step} (hs : Inv x.before (openFiles h))
    (hrun : x.call.code x.before = some (x.result, x.after)) :
    Inv x.after (openFiles (x :: h)) ∧ (x.Fits h →
      ∀ outcomes, x.call.opens = some outcomes → x.GivesHandle h outcomes) := by
  obtain ⟨call, before, result, after⟩ := x
  cases call with
  | openFile name outcomes =>
      refine (gives_of_opens hs rfl hrun).imp_right fun hgives hfits _ hopens => ?_
      cases hopens
      exact hgives (hfits outcomes rfl)
  | createFile name outcomes =>
      refine (gives_of_opens hs rfl hrun).imp_right fun hgives hfits _ hopens => ?_
      cases hopens
      exact hgives (hfits outcomes rfl)
  | closeFile fileHandle outcomes =>
      obtain ⟨ht, hcurfd⟩ := closeFile_spec outcomes fileHandle before result after hrun
      exact ⟨hs.closed hcurfd ht, fun _ _ hopens => by cases hopens⟩
  | shutdown outcomes =>
      have hspec : Wp (Call.code (.shutdown outcomes)) (fun _ t =>
          (∀ i < maxOpenFiles, t.fdtofil i = noFil) ∧ t.curfd = before.curfd) before := by
        rw [Call.code, wp_bind]
        exact (shutdown_spec outcomes before).mono fun _ _ ht => (wp_pure _ _ _).mpr ht
      obtain ⟨ht, hcurfd⟩ := hspec.toWlp result after hrun
      exact ⟨Inv.shutdown hs.curfd hcurfd ht, fun _ _ hopens => by cases hopens⟩

theorem inv_init (root : List UInt8) (fdtofil : Int → Nat) (fil : Nat → Option Fil) :
    Inv (FatFileSystem.init root fdtofil fil) [] where
  curfd := Nat.zero_le _
  nodup := List.nodup_nil
  entry := List.forall_mem_nil _
  used i hi hne := absurd (if_pos ⟨Int.natCast_nonneg i, Int.ofNat_lt.mpr hi⟩) hne

theorem inv_of_isRun {s : FatFileSystem} (hs : Inv s []) {run : List Step} (h : IsRun s run) :
    Inv (stateAfter s run) (openFiles run) := by
  induction run with
  | nil => exact hs
  | cons x run ih =>
    obtain ⟨hhistory, hbefore, hrun⟩ := h
    exact (step_spec (hbefore ▸ ih hhistory) hrun).1

/-- In a run from the start in which FatFs opens no file while all handles are in use, every
call gives out handles as it should: no two open files have the same one, and the entry of
each in the table is its own. -/
theorem handlesOk {root : List UInt8} {fdtofil : Int → Nat} {fil : Nat → Option Fil}
    {run : List Step} (h : IsRun (FatFileSystem.init root fdtofil fil) run)
    (hfits : AllSteps Step.Fits run) : AllSteps Step.HandlesOk run := by
  induction run with
  | nil => trivial
  | cons x run ih =>
    have hinv := inv_of_isRun (inv_init root fdtofil fil) h
    obtain ⟨hhistory, hbefore, hrun⟩ := h
    have hstep := step_spec (hbefore ▸ inv_of_isRun (inv_init root fdtofil fil) hhistory) hrun
    exact ⟨⟨hstep.2 hfits.1, hinv.nodup, fun e he => (hinv.entry e he).2.2.2⟩,
      ih hhistory hfits.2⟩

/-! ## All handles in use -/

/-- Memory is there, FatFs succeeds, and the new file is at `fp`. -/
def answers (fp : Nat) : Outcomes :=
  ⟨fp, frOk, fun _ => frOk, fun _ _ => frOk, fun _ => frOk, fun ofs => (frOk, ofs)⟩

/-- The first `n` handles are in use. -/
def filled (n : Nat) : FatFileSystem where
  rootDirectory := []
  fdtofil := fun i => if 0 ≤ i ∧ i < n then (i + 1).toNat else 0
  curfd := n
  fil := fun fp => if 0 < fp ∧ fp ≤ n then some ⟨[0x2f], 3, 0⟩ else none

def opening (n : Nat) : Step := ⟨.openFile [] (answers (n + 1)), filled n, n, filled (n + 1)⟩

def openings : Nat → List Step
  | 0 => []
  | n + 1 => opening n :: openings n

theorem filled_zero : filled 0 = FatFileSystem.init [] (fun _ => 0) (fun _ => none) := by
  simp only [filled, FatFileSystem.init, FatFileSystem.mk.injEq, true_and]
  constructor
  · funext i
    rw [if_neg (by omega), ite_self]
  · funext fp
    rw [if_neg (by omega)]

theorem fdtofil_filled_succ (n : Nat) :
    Function.update (filled n).fdtofil n (n + 1) = (filled (n + 1)).fdtofil := by
  funext i
  simp only [filled, Function.update_apply]
  grind

theorem fil_filled_succ (n : Nat) :
    Function.update (filled n).fil (n + 1) (some ⟨[0x2f], 3, 0⟩) = (filled (n + 1)).fil := by
  funext fp
  simp only [filled, Function.update_apply]
  grind

theorem fOpen_ok {outcomes : Outcomes} {fp mode : Nat} {path : List UInt8} {s : FatFileSystem}
    (hfp : fp ≠ noFil) (hok : outcomes.fOpen = frOk) : fOpen outcomes fp path mode s =
      some (frOk, { s with fil := Function.update s.fil fp (some ⟨path, mode, 0⟩) }) := by
  refine Wp.run_eq ?_
  rw [fOpen, if_neg hfp, if_pos hok, wp_bind, wp_modify, wp_pure]
  exact ⟨hok, rfl⟩

theorem getfd_free {s : FatFileSystem} (hlt : s.curfd < maxOpenFiles)
    (hfree : s.fdtofil s.curfd = noFil) :
    getfd s = some ((s.curfd : Int), { s with curfd := s.curfd + 1 }) := by
  have hround : getfdRound maxOpenFiles () s =
      some (.inr (some s.curfd), { s with curfd := s.curfd + 1 }) := by
    refine Wp.run_eq ?_
    rw [getfdRound, wp_bind, wp_get, if_pos hlt, wp_bind, wp_modify, if_pos hfree, wp_pure]
    exact ⟨rfl, rfl⟩
  refine Wp.run_eq ?_
  rw [getfd, wp_bind, wp_get, wp_bind, wp_of_run (iterate_inr hround), wp_pure]
  exact ⟨rfl, rfl⟩

theorem openFileWith_free {s : FatFileSystem} {mode : Nat} {outcomes : Outcomes}
    {name : List UInt8} (hfp : outcomes.malloc ≠ noFil) (hok : outcomes.fOpen = frOk)
    (hlt : s.curfd < maxOpenFiles) (hfree : s.fdtofil s.curfd = noFil) :
    openFileWith mode outcomes name s = some ((s.curfd : Int), { s with
      fil := Function.update s.fil outcomes.malloc (some ⟨s.pathForFile name, mode, 0⟩)
      fdtofil := Function.update s.fdtofil s.curfd outcomes.malloc
      curfd := s.curfd + 1 }) := by
  have hget := getfd_free (s := { s with
    fil := Function.update s.fil outcomes.malloc (some ⟨s.pathForFile name, mode, 0⟩) }) hlt hfree
  refine Wp.run_eq ?_
  rw [openFileWith, wp_bind, wp_get, wp_bind, wp_of_run (fOpen_ok hfp hok),
    if_neg (not_not.mpr rfl), wp_bind, wp_of_run hget, wp_bind, storeFil, wp_modify, wp_pure]
  exact ⟨rfl, rfl⟩

theorem openFile_filled {n : Nat} (hn : n < maxOpenFiles) :
    openFile (answers (n + 1)) [] (filled n) = some ((n : Int), filled (n + 1)) := by
  have hfree : (filled n).fdtofil n = noFil := if_neg (by omega)
  rw [openFile, openFileWith_free (Nat.succ_ne_zero n) rfl hn hfree]
  exact congrArg (fun t => some ((n : Int), t)) (congrArg₂ (FatFileSystem.mk [] · (n + 1) ·)
    (fdtofil_filled_succ n) (fil_filled_succ n))

theorem stateAfter_openings (n : Nat) :
    stateAfter (FatFileSystem.init [] (fun _ => 0) (fun _ => none)) (openings n) = filled n := by
  cases n with
  | zero => exact filled_zero.symm
  | succ n => rfl

theorem isRun_openings {n : Nat} (hn : n ≤ maxOpenFiles) :
    IsRun (FatFileSystem.init [] (fun _ => 0) (fun _ => none)) (openings n) := by
  induction n with
  | zero => trivial
  | succ n ih => exact ⟨ih (by omega), (stateAfter_openings n).symm, openFile_filled hn⟩

theorem mem_handles_openings {n : Nat} {i : Int} : i ∈ handles (openings n) ↔ 0 ≤ i ∧ i < n := by
  induction n with
  | zero =>
    constructor
    · exact fun h => absurd h List.not_mem_nil
    · omega
  | succ n ih =>
    have hfiles : openFiles (openings (n + 1)) = if (0 : Int) ≤ n then
        ((n : Int), n + 1) :: openFiles (openings n) else openFiles (openings n) := rfl
    rw [handles, hfiles, if_pos (Int.natCast_nonneg n), List.map_cons, List.mem_cons,
      ← handles, ih]
    omega

theorem fits_openings {n : Nat} (hn : n ≤ maxOpenFiles) : AllSteps Step.Fits (openings n) := by
  induction n with
  | zero => trivial
  | succ n ih =>
    refine ⟨fun _ _ _ _ => ⟨n, Int.natCast_nonneg n, Int.ofNat_lt.mpr hn, fun hmem => ?_⟩,
      ih (by omega)⟩
    have := mem_handles_openings.mp hmem
    omega

theorem filled_full {i : Nat} (hi : i < maxOpenFiles) : (filled maxOpenFiles).fdtofil i ≠ noFil := by
  have hin : 0 ≤ (i : Int) ∧ (i : Int) < maxOpenFiles := by omega
  rw [filled]
  dsimp only
  rw [if_pos hin]
  show ((i : Int) + 1).toNat ≠ 0
  omega

/-- When all handles are in use the first is closed, and the cursor turns round to find it. -/
theorem handlesOk_reopened : ∃ x y : Step, x.call = .closeFile 0 (answers 1) ∧
    y.call = .openFile [] (answers 65) ∧ y.before.curfd = maxOpenFiles ∧ y.result = 0 ∧
    AllSteps Step.HandlesOk (y :: x :: openings maxOpenFiles) := by
  have hfirst : (0 : Int) ≤ 0 ∧ (0 : Int) < maxOpenFiles := by decide
  obtain ⟨r, t, hclose, ht⟩ := wp_closeFile (answers 1) (filled maxOpenFiles) hfirst
  have hcurfd : t.curfd = maxOpenFiles := by rw [ht]; rfl
  have htable : t.fdtofil = Function.update (filled maxOpenFiles).fdtofil 0 noFil := by rw [ht]
  obtain ⟨fd, u, hopen, -, hcase⟩ :=
    openFileWith_spec (s := t) (Nat.le_of_eq hcurfd) (faRead ||| faWrite) (answers 65) []
  have hfd : fd = 0 := by
    obtain ⟨-, -, hfail⟩ | ⟨-, -, -, ⟨-, hfull⟩ | ⟨i, rfl, hi, hfree⟩⟩ := hcase
    · exact absurd ⟨by decide, rfl⟩ hfail
    · exact absurd (by rw [htable]; rfl) (hfull 0 (by decide))
    · by_contra hne
      rw [htable, Function.update_of_ne hne] at hfree
      exact filled_full hi hfree
  have hlast := isRun_openings (Nat.le_refl maxOpenFiles)
  have hrun : IsRun (FatFileSystem.init [] (fun _ => 0) (fun _ => none))
      (⟨.openFile [] (answers 65), t, fd, u⟩ ::
        ⟨.closeFile 0 (answers 1), filled maxOpenFiles, r, t⟩ :: openings maxOpenFiles) :=
    ⟨⟨hlast, (stateAfter_openings _).symm, hclose⟩, rfl, hopen⟩
  refine ⟨_, _, rfl, rfl, hcurfd, hfd, handlesOk hrun ⟨fun _ _ _ _ => ⟨0, Int.le_refl 0, by decide, ?_⟩,
    fun _ hopens => (by cases hopens), fits_openings (Nat.le_refl _)⟩⟩
  rw [handles, openFiles]
  simp

/-- The file that is opened after 64 others has its pointer stored before the table. -/
theorem not_handlesOk_full : ∃ x : Step, x.call = .openFile [] (answers 65) ∧
    IsRun (FatFileSystem.init [] (fun _ => 0) (fun _ => none)) (x :: openings maxOpenFiles) ∧
    x.result = -1 ∧ x.after.fdtofil (-1) = 65 ∧
    ¬AllSteps Step.HandlesOk (x :: openings maxOpenFiles) := by
  obtain ⟨fd, t, hrun, -, hcase⟩ :=
    openFileWith_spec (s := filled maxOpenFiles) (Nat.le_refl _) (faRead ||| faWrite)
      (answers 65) []
  obtain ⟨-, -, hfail⟩ | ⟨-, ht, -, ⟨rfl, -⟩ | ⟨i, -, hi, hfree⟩⟩ := hcase
  · exact absurd ⟨by decide, rfl⟩ hfail
  · have hword : t.fdtofil (-1) = 65 := by rw [ht, Function.update_self]; rfl
    refine ⟨⟨.openFile [] (answers 65), filled maxOpenFiles, -1, t⟩, rfl,
      ⟨isRun_openings (Nat.le_refl _), (stateAfter_openings _).symm, hrun⟩, rfl, hword,
      fun h => ?_⟩
    have hnone : ¬HasFree (openings maxOpenFiles) := fun ⟨i, hlow, hhigh, hfree⟩ =>
      hfree (mem_handles_openings.mpr ⟨hlow, hhigh⟩)
    obtain ⟨-, hsame⟩ := (h.1.gives _ rfl).full hnone
    have hbefore : (filled maxOpenFiles).fdtofil (-1) = 0 := by decide
    have hkept : t.fdtofil = (filled maxOpenFiles).fdtofil :=
      (congrArg FatFileSystem.fdtofil hsame :)
    rw [hkept, hbefore] at hword
    exact absurd hword (by decide)
  · exact absurd hfree (filled_full hi)

end Handles

end Crosstalk
