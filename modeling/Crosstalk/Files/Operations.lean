import Crosstalk.Files.Rename

/-!
# Operations on files

The primitive of the pages of a file. What it does to the file system and to the page
buffer is kept as a trace, with the results that it pushes. The calls of the file system
answer in different ways: a position, a number of bytes, a boolean, a handle or zero.
-/

namespace Crosstalk

/-! ## The file system -/

/-- What the calls of the file system answer. A read also fills the buffer. -/
structure FileCalls where
  seekTo : Int → Int → Int
  read : Int → Int × (Nat → UInt8)
  write : Int → (Nat → UInt8) → Int → Int
  truncateTo : Int → Int → Bool
  fileSize : Int → Int
  openFile : List UInt8 → Int
  closeFile : Int → Int

/-- What FatFs answers for an open file, too. -/
structure FatResults extends Outcomes where
  fRead : Nat × Int × (Nat → UInt8)
  fWrite : Nat × Int
  fTruncate : Nat
  fSize : Int

def FatFileSystem.inUse (s : FatFileSystem) (fd : Int) : Bool := decide (s.fdtofil fd ≠ noFil)

/-- `f_lseek` succeeds. -/
def FatResults.seeks (r : FatResults) (position : Int) : Bool :=
  decide ((r.fLseek (UInt32.ofInt position)).1 = frOk)

/-- The calls of `FatST80FileSystem`. -/
def FatFileSystem.calls (s : FatFileSystem) (r : FatResults) : FileCalls where
  seekTo fd position := if s.inUse fd ∧ r.seeks position then position else -1
  read fd := (if s.inUse fd ∧ r.fRead.1 = frOk then r.fRead.2.1 else -1, r.fRead.2.2)
  write fd _ _ := if s.inUse fd ∧ r.fWrite.1 = frOk then r.fWrite.2 else -1
  truncateTo fd length := s.inUse fd && r.seeks length && decide (r.fTruncate = frOk)
  fileSize fd := if s.inUse fd then r.fSize else -1
  openFile name := match openFile r.toOutcomes name s with
    | some (fd, _) => fd
    | none => -1
  closeFile fd := if s.inUse fd then 0 else -1

/-! ## The primitive -/

/-- A step of the primitive: a call of the file system, for a handle unless it opens a file,
that has succeeded or not; an access to the first bytes of the page buffer; a result. -/
inductive Event
  | call (handle : Option Int) (succeeded : Bool)
  | buffer (bytes : Nat)
  | answer (object : Nat)
  deriving DecidableEq

structure PageMachine where
  interpreter : Interpreter
  pageBuffer : Nat → UInt8
  trace : List Event

abbrev PageM := StateT PageMachine Option

def ofInterpreter {α : Type} (x : IM α) : PageM α := fun s =>
  match x s.interpreter with
  | none => none
  | some (a, i) => some (a, { s with interpreter := i })

def note (e : Event) : PageM Unit := modify fun s => { s with trace := s.trace ++ [e] }

def setBuffer (pageBuffer : Nat → UInt8) : PageM Unit := modify fun s => { s with pageBuffer }

def pushAnswer (object : Nat) : PageM Unit := do
  note (.answer object)
  ofInterpreter (push object)

def answerBool (b : Bool) : PageM Unit :=
  pushAnswer (if b then truePointer else falsePointer)

/-- The descriptor is not nil. -/
def requireOpen (file : Nat) : IM Unit := do
  let descriptor ← inMemory (fetchPointerOfObject descriptorIndex file)
  success (decide (descriptor ≠ nilPointer))

def handleOf (file : Nat) : IM Int := do
  let descriptor ← inMemory (fetchPointerOfObject descriptorIndex file)
  return Int.bmod (← positive32BitValueOf descriptor) (2 ^ 32)

def pageNumberOf (page : Nat) : IM Int := do
  let pageNumber ← fetchIntegerOfObject pageNumberIndex page
  check (pageNumber ≥ 1)
  return pageNumber

/-- For a file that is open, and a page. The operations answer whether the primitive returns
from within them. -/
def ifOpenWithPage (file page : Nat) (body : Int → PageM Bool) : PageM Bool := do
  ofInterpreter (requireOpen file)
  ofInterpreter (success (decide (page ≠ nilPointer)))
  if (← get).interpreter.successFlag then
    body (← ofInterpreter (handleOf file))
  else
    return false

/-- With the file at the position of the page, and the contents of the page. -/
def atPage (calls : FileCalls) (fd : Int) (page : Nat) (body : Nat → PageM Bool) :
    PageM Bool := do
  let pageNumber ← ofInterpreter (pageNumberOf page)
  let byteArray ← ofInterpreter (inMemory (fetchPointerOfObject pageInPageIndex page))
  let position := (pageNumber - 1) * pageSize
  let found := decide (calls.seekTo fd position = position)
  note (.call (some fd) found)
  if found then
    body byteArray
  else
    answerBool false
    return true

def readPosixPage (calls : FileCalls) (file page : Nat) : PageM Bool :=
  ifOpenWithPage file page fun fd => atPage calls fd page fun byteArray => do
    let bytesInPage := (calls.read fd).1
    let pageBuffer := (calls.read fd).2
    note (.buffer pageSize)
    setBuffer pageBuffer
    note (.call (some fd) (decide (0 ≤ bytesInPage)))
    note (.buffer bytesInPage.toNat)
    ofInterpreter (inMemory (storePage byteArray bytesInPage pageBuffer))
    ofInterpreter (storeIntegerOfObjectWithValue bytesInPageIndex page bytesInPage)
    answerBool true
    return false

def fillByte (byteArray i : Nat) : PageM Unit := do
  let byte ← ofInterpreter (inMemory (fetchByteOfObject i byteArray))
  setBuffer (Function.update (← get).pageBuffer i (UInt8.ofNat byte))

def fillBuffer (byteArray bytes : Nat) : PageM Unit := do
  note (.buffer bytes)
  forN bytes (fillByte byteArray)

/-- The number of bytes is passed on as an unsigned one. -/
def writePageBytes (calls : FileCalls) (fd : Int) (byteArray : Nat) (bytesInPage : Int) :
    PageM Bool := do
  fillBuffer byteArray bytesInPage.toNat
  note (.buffer (bytesInPage % 2 ^ 32).toNat)
  let written := decide (calls.write fd (← get).pageBuffer bytesInPage = bytesInPage)
  note (.call (some fd) written)
  answerBool written
  return false

def writePosixPage (calls : FileCalls) (file page : Nat) : PageM Bool :=
  ifOpenWithPage file page fun fd => atPage calls fd page fun byteArray => do
    writePageBytes calls fd byteArray (← ofInterpreter (fetchIntegerOfObject bytesInPageIndex page))

/-- The size that a page leaves the file. -/
def newSizeOf (page : Nat) : IM Int :=
  if page ≠ nilPointer then do
    let pageNumber ← pageNumberOf page
    let bytesInPage ← fetchIntegerOfObject bytesInPageIndex page
    return (pageNumber - 1) * pageSize + bytesInPage
  else
    return 0

/-- The boolean is taken for a number. -/
def truncatePosixFile (calls : FileCalls) (file page : Nat) : PageM Bool :=
  ifOpenWithPage file page fun fd => do
    let newSize ← ofInterpreter (newSizeOf page)
    let truncated := calls.truncateTo fd newSize
    note (.call (some fd) truncated)
    let result : Int := if truncated then 1 else 0
    answerBool (decide (result ≠ -1))
    return false

def sizeOfPosixFile (calls : FileCalls) (file : Nat) : PageM Bool := do
  ofInterpreter (requireOpen file)
  if (← get).interpreter.successFlag then
    let fd ← ofInterpreter (handleOf file)
    let size := calls.fileSize fd
    note (.call (some fd) (decide (0 ≤ size)))
    if size ≥ 0 then
      let sizePointer ← ofInterpreter (positive32BitIntegerFor size)
      pushAnswer sizePointer
      return false
    else
      pushAnswer nilPointer
      return false
  else
    return false

def openPosixFile (calls : FileCalls) (file name : Nat) : PageM Bool := do
  let nameClass ← ofInterpreter (inMemory (fetchClassOf name))
  ofInterpreter (success (decide (nameClass = classStringPointer)))
  if (← get).interpreter.successFlag then
    let fileName ← ofInterpreter (stringFromObject name)
    let fd := calls.openFile (cStr fileName)
    note (.call none (decide (fd ≠ -1)))
    if fd ≠ -1 then
      let descriptor ← ofInterpreter (positive32BitIntegerFor fd)
      ofInterpreter (inMemory (storePointerOfObjectWithValue descriptorIndex file descriptor))
      answerBool true
      return false
    else
      answerBool false
      return false
  else
    return false

def closePosixFile (calls : FileCalls) (file : Nat) : PageM Bool := do
  let fd ← ofInterpreter (handleOf file)
  let result := calls.closeFile fd
  note (.call (some fd) (decide (result ≠ -1)))
  ofInterpreter (inMemory (storePointerOfObjectWithValue descriptorIndex file nilPointer))
  answerBool (decide (result ≠ -1))
  return false

def posixFileOperation (calls : FileCalls) (code : Int) (file name page : Nat) : PageM Bool :=
  match code with
  | 0 => readPosixPage calls file page
  | 1 => writePosixPage calls file page
  | 2 => truncatePosixFile calls file page
  | 3 => sizeOfPosixFile calls file
  | 4 => openPosixFile calls file name
  | 5 => closePosixFile calls file
  | _ => return false

/-- The operands go back on the stack after a failure. -/
def endOperation (returned : Bool) : PageM Unit := do
  if ¬returned ∧ ¬(← get).interpreter.successFlag then
    ofInterpreter (unPop 4)

def primitivePosixFileOperation (calls : FileCalls) : PageM Unit := do
  let page ← ofInterpreter popStack
  let name ← ofInterpreter popStack
  let code ← ofInterpreter popInteger
  let file ← ofInterpreter popStack
  ofInterpreter (success (decide (code ≥ 0 ∧ code ≤ 6)))
  ofInterpreter (success (decide (file ≠ nilPointer)))
  if (← get).interpreter.successFlag then
    endOperation (← posixFileOperation calls code file name page)
  else
    endOperation false

/-- The field `index` of the object `p`. -/
def PageMachine.field (s : PageMachine) (p index : Nat) : Nat :=
  s.interpreter.memory.chunkWord p (headerSize + index)

namespace Operations

open ObjectMemory Rename

/-! ## What the claim asks for -/

def answers (trace : List Event) : List Nat :=
  trace.filterMap fun e => match e with
    | .answer object => some object
    | _ => none

/-- One result has been pushed in the place of the four operands. -/
def OneResult (s t : PageMachine) : Prop :=
  t.interpreter.successFlag = true ∧
    t.interpreter.stackPointer = s.interpreter.stackPointer - 3 ∧
    ∃ (v : Nat) (i : Interpreter), answers t.trace = [v] ∧
      i.stackPointer = s.interpreter.stackPointer - 4 ∧
      i.activeContext = s.interpreter.activeContext ∧ push v i = some ((), t.interpreter)

/-- The words of the active context up to the place of the result are those of `s`. -/
def KeepsBelow (s t : PageMachine) : Prop :=
  t.interpreter.activeContext = s.interpreter.activeContext ∧
    ∀ k : Nat, k + 4 ≤ s.interpreter.stackPointer →
      t.interpreter.memory.chunkWord s.interpreter.activeContext (headerSize + k) =
        s.interpreter.memory.chunkWord s.interpreter.activeContext (headerSize + k)

def Unchanged (s t : PageMachine) : Prop :=
  answers t.trace = [] ∧ t.interpreter = { s.interpreter with successFlag := false }

/-- The answer true is right, only the file of the PosixFile is used, the buffer is kept, and
so is the stack. -/
structure Outcome (s t : PageMachine) (file : Nat) : Prop where
  truthful : .answer truePointer ∈ t.trace →
    ∀ handle succeeded, .call handle succeeded ∈ t.trace → succeeded = true
  own : ∀ fd succeeded, .call (some fd) succeeded ∈ t.trace →
    isIntegerObject (s.field file descriptorIndex) ∧
      fd = integerValueOf (s.field file descriptorIndex)
  inBuffer : ∀ bytes, .buffer bytes ∈ t.trace → bytes ≤ pageSize
  stack : OneResult s t ∨ Unchanged s t

/-! ## Rules -/

section Rules

variable {α : Type} {s : PageMachine} {i : Interpreter} {p : Nat}

theorem wlp_ofInterpreter {x : IM α} {Q : α → PageMachine → Prop} : Wlp (ofInterpreter x) Q s ↔
    Wlp x (fun a i => Q a { s with interpreter := i }) s.interpreter := by
  constructor
  · intro h a i hx
    exact h a _ (by rw [ofInterpreter, hx])
  · intro h a t hx
    rw [ofInterpreter] at hx
    cases hrun : x s.interpreter with
    | none => simp [hrun] at hx
    | some r =>
      rw [hrun] at hx
      cases hx
      exact h r.1 r.2 hrun

/-- A program on the memory leaves the registers. -/
theorem wlp_registers (x : OM α) (i : Interpreter) :
    Wlp (inMemory x) (fun _ j => j = i.withMemory j.memory) i :=
  wlp_inMemory.mpr fun _ _ _ => rfl

theorem wlp_of_run {x : IM α} {Q : α → Interpreter → Prop} {a : α} {j : Interpreter}
    (h : x i = some (a, j)) (hQ : Q a j) : Wlp x Q i :=
  ((wp_of_run h).mpr hQ).toWlp

theorem wlp_fetchInteger {index : Nat} {Q : Int → Interpreter → Prop}
    (h : isIntegerObject (i.memory.chunkWord p (headerSize + index)) →
      Q (integerValueOf (i.memory.chunkWord p (headerSize + index))) i)
    (hfail : ¬isIntegerObject (i.memory.chunkWord p (headerSize + index)) →
      Q 0 { i with successFlag := false }) : Wlp (fetchIntegerOfObject index p) Q i := by
  rw [fetchIntegerOfObject, wlp_bind]
  refine wlp_fetchPointer ?_
  rw [wlp_ite]
  refine ⟨fun hint => (wlp_pure _ _ _).mpr (h hint), fun hnot => ?_⟩
  rw [primitiveFail, wlp_bind, wlp_modify, wlp_pure]
  exact hfail hnot

theorem wlp_requireOpen {Q : Unit → Interpreter → Prop}
    (h : ∀ b, b = decide (i.memory.chunkWord p (headerSize + descriptorIndex) ≠ nilPointer) →
      Q () { i with successFlag := i.successFlag && b }) : Wlp (requireOpen p) Q i := by
  rw [requireOpen, wlp_bind]
  refine wlp_fetchPointer ?_
  rw [success, wlp_modify]
  exact h _ rfl

theorem handle_eq (d : Nat) :
    Int.bmod (((integerValueOf d) % 2 ^ 32).toNat : Int) (2 ^ 32) = integerValueOf d := by
  have hrange := isIntegerValue_iff.mp (isIntegerValue_integerValueOf d)
  rw [Int.bmod_def]
  omega

theorem wlp_handleOf {Q : Int → Interpreter → Prop}
    (hint : isIntegerObject (i.memory.chunkWord p (headerSize + descriptorIndex)))
    (h : Q (integerValueOf (i.memory.chunkWord p (headerSize + descriptorIndex))) i) :
    Wlp (handleOf p) Q i := by
  rw [handleOf, wlp_bind]
  refine wlp_fetchPointer ?_
  rw [wlp_bind]
  refine wlp_of_run (positive32BitValueOf_smallInteger hint i) ?_
  rw [wlp_pure, handle_eq]
  exact h

/-- The assertion fails when the number is no SmallInteger. -/
theorem wlp_pageNumberOf {Q : Int → Interpreter → Prop}
    (h : Q (integerValueOf (i.memory.chunkWord p (headerSize + pageNumberIndex))) i) :
    Wlp (pageNumberOf p) Q i := by
  rw [pageNumberOf, wlp_bind]
  refine wlp_fetchInteger (fun _ => ?_) fun _ => ?_
  · rw [wlp_bind, wlp_check]
    exact fun _ => (wlp_pure _ _ _).mpr h
  · rw [wlp_bind, wlp_check]
    exact fun hassert => absurd hassert (by decide)

theorem wlp_push (v : Nat) (i : Interpreter) :
    Wlp (push v) (fun _ j => j.successFlag = i.successFlag ∧
      j.stackPointer = i.stackPointer + 1) i := by
  rw [push, wlp_bind, wlp_modify, wlp_bind, wlp_get]
  refine (wlp_registers _ _).mono fun _ j hj => ?_
  rw [hj]
  exact ⟨rfl, rfl⟩

end Rules

/-! ## The end of the primitive -/

/-- The result `v` has been pushed after the steps `es`. -/
structure Answered (s : PageMachine) (flag : Bool) (es : List Event) (v : Nat) (t : PageMachine) :
    Prop where
  trace : t.trace = es ++ [.answer v]
  pushed : ∃ i : Interpreter, i.stackPointer = s.interpreter.stackPointer - 4 ∧
    i.activeContext = s.interpreter.activeContext ∧ i.successFlag = flag ∧
    push v i = some ((), t.interpreter)

/-- A step that goes with the answer `v`, where `d` is the descriptor. -/
def Proper (d v : Nat) : Event → Prop
  | .call handle succeeded => (v = truePointer → succeeded = true) ∧
      ∀ fd, handle = some fd → isIntegerObject d ∧ fd = integerValueOf d
  | .buffer bytes => bytes ≤ pageSize
  | .answer _ => True

def Silent (es : List Event) : Prop := ∀ object, .answer object ∉ es

/-- The operation has failed before its first step, or pushed a result. In the end the
outcome is to be as claimed exactly when `P` holds. -/
def Ended (s : PageMachine) (file : Nat) (P : Prop) (returned : Bool) (t : PageMachine) : Prop :=
  (P ∧ returned = false ∧ t.trace = [] ∧
    t.interpreter = { popped s.interpreter 4 with successFlag := false }) ∨
  ∃ flag es v, Answered s flag es v t ∧ Silent es ∧ (returned = true → flag = true) ∧
    (P ↔ flag = true ∧ ∀ e ∈ es, Proper (s.field file descriptorIndex) v e)

section End

variable {s t : PageMachine} {file v : Nat} {es : List Event} {flag returned : Bool} {P : Prop}

theorem Silent.answers_eq (h : Silent es) : answers es = [] := by
  refine List.filterMap_eq_nil_iff.mpr fun e he => ?_
  cases e with
  | answer object => exact absurd he (h object)
  | _ => rfl

theorem Answered.answers_eq (h : Answered s flag es v t) (hes : Silent es) :
    answers t.trace = [v] := by
  rw [h.trace, answers, List.filterMap_append]
  exact congrArg (fun l => l ++ [v]) hes.answers_eq

theorem Answered.registers (h : Answered s flag es v t) : t.interpreter.successFlag = flag ∧
    t.interpreter.stackPointer = s.interpreter.stackPointer - 3 := by
  obtain ⟨i, hsp, -, hflag, hpush⟩ := h.pushed
  obtain ⟨hflag', hsp'⟩ := wlp_push v i () _ hpush
  exact ⟨hflag'.trans hflag, by omega⟩

theorem Answered.outcome_iff (h : Answered s true es v t) (hes : Silent es) :
    Outcome s t file ↔ ∀ e ∈ es, Proper (s.field file descriptorIndex) v e := by
  have hmem {e : Event} : e ∈ t.trace ↔ e ∈ es ∨ e = .answer v := by
    rw [h.trace, List.mem_append, List.mem_singleton]
  constructor
  · intro hout e he
    cases e with
    | call handle succeeded =>
      refine ⟨fun hv => hout.truthful (hmem.mpr (.inr (by rw [hv]))) handle succeeded
        (hmem.mpr (.inl he)), fun fd hfd => ?_⟩
      rw [hfd] at he
      exact hout.own fd succeeded (hmem.mpr (.inl he))
    | buffer bytes => exact hout.inBuffer bytes (hmem.mpr (.inl he))
    | answer object => trivial
  · intro hproper
    refine ⟨fun htrue handle succeeded hcall => ?_, fun fd succeeded hcall => ?_,
      fun bytes hbuffer => ?_, .inl ?_⟩
    · obtain hin | heq := hmem.mp htrue
      · exact absurd hin (hes _)
      · cases heq
        exact (hproper _ ((hmem.mp hcall).resolve_right (by simp))).1 rfl
    · exact (hproper _ ((hmem.mp hcall).resolve_right (by simp))).2 fd rfl
    · exact hproper _ ((hmem.mp hbuffer).resolve_right (by simp))
    · obtain ⟨i, hsp, hcontext, -, hpush⟩ := h.pushed
      exact ⟨h.registers.1, h.registers.2, v, i, h.answers_eq hes, hsp, hcontext, hpush⟩

/-- A result that is pushed after a failure is not taken back. -/
theorem Answered.not_outcome {u : PageMachine} (h : Answered s flag es v t) (hes : Silent es)
    (htrace : u.trace = t.trace) (hflag : u.interpreter.successFlag = false) :
    ¬Outcome s u file := by
  intro hout
  obtain ⟨htrue, -⟩ | ⟨hnone, -⟩ := hout.stack
  · rw [hflag] at htrue
    cases htrue
  · rw [htrace, h.answers_eq hes] at hnone
    cases hnone

theorem wlp_endOperation (h : Ended s file P returned t) :
    Wlp (endOperation returned) (fun _ u => Outcome s u file ↔ P) t := by
  rw [endOperation, wlp_bind, wlp_get, wlp_ite]
  obtain ⟨hP, hreturned, htrace, hi⟩ | ⟨flag, es, v, hanswered, hes, hflag, hP⟩ := h
  · refine ⟨fun _ => ?_, fun hnot => ?_⟩
    · rw [wlp_ofInterpreter, unPop, wlp_modify]
      refine iff_of_true ⟨fun h => ?_, fun fd succeeded h => ?_, fun bytes h => ?_, .inr ?_⟩ hP
      · exact absurd (htrace ▸ h) List.not_mem_nil
      · exact absurd (htrace ▸ h) List.not_mem_nil
      · exact absurd (htrace ▸ h) List.not_mem_nil
      · refine ⟨congrArg answers htrace, ?_⟩
        have hsp : s.interpreter.stackPointer - (4 : Nat) + (4 : Nat) =
            s.interpreter.stackPointer := by omega
        dsimp only
        rw [hi, popped]
        dsimp only
        rw [hsp]
    · rw [hreturned, hi] at hnot
      exact absurd ⟨Bool.false_ne_true, Bool.false_ne_true⟩ hnot
  · have hregisters := hanswered.registers.1
    cases flag with
    | true =>
      rw [hregisters]
      refine ⟨fun hboth => absurd rfl hboth.2, fun _ => ?_⟩
      rw [wlp_pure, hanswered.outcome_iff hes, hP]
      exact (and_iff_right rfl).symm
    | false =>
      have hnotP : ¬P := fun hp => Bool.false_ne_true (hP.mp hp).1
      refine ⟨fun _ => ?_, fun hnot => ?_⟩
      · rw [wlp_ofInterpreter, unPop, wlp_modify]
        exact iff_of_false (hanswered.not_outcome hes rfl hregisters) hnotP
      · rw [wlp_pure]
        exact iff_of_false (hanswered.not_outcome hes rfl hregisters) hnotP

end End

/-! ## The operations -/

/-- An operation is called: the operands have been popped, and the file is closed or open. -/
structure Started (s : PageMachine) (file : Nat) (c : PageMachine) : Prop where
  interpreter : c.interpreter = popped s.interpreter 4
  trace : c.trace = []
  successFlag : s.interpreter.successFlag = true
  descriptor : s.field file descriptorIndex = nilPointer ∨
    isIntegerObject (s.field file descriptorIndex)

section Operation

variable {s c : PageMachine} {file page name : Nat} {P : Prop} {calls : FileCalls}

theorem Started.flag (h : Started s file c) : c.interpreter.successFlag = true := by
  rw [h.interpreter]
  exact h.successFlag

theorem Started.registers (h : Started s file c) :
    c.interpreter.stackPointer = s.interpreter.stackPointer - 4 ∧
      c.interpreter.activeContext = s.interpreter.activeContext := by
  rw [h.interpreter]
  exact ⟨rfl, rfl⟩

theorem Started.passed (h : Started s file c) :
    { c with interpreter := { c.interpreter with successFlag := true } } = c := by
  obtain ⟨i, buffer, trace⟩ := c
  have hflag : i.successFlag = true := h.flag
  dsimp only
  rw [← hflag]

theorem Started.failed (h : Started s file c) (hP : P) : Ended s file P false
    { c with interpreter := { c.interpreter with successFlag := false } } :=
  .inl ⟨hP, rfl, h.trace, by rw [h.interpreter]⟩

theorem Started.field_eq (h : Started s file c) (p index : Nat) :
    c.interpreter.memory.chunkWord p (headerSize + index) = s.field p index := by
  rw [h.interpreter]
  rfl

theorem wlp_ifOpenWithPage (h : Started s file c) {body : Int → PageM Bool}
    (hclosed : s.field file descriptorIndex = nilPointer ∨ page = nilPointer → P)
    (hbody : isIntegerObject (s.field file descriptorIndex) → page ≠ nilPointer →
      Wlp (body (integerValueOf (s.field file descriptorIndex))) (Ended s file P) c) :
    Wlp (ifOpenWithPage file page body) (Ended s file P) c := by
  have hfield := h.field_eq file descriptorIndex
  rw [ifOpenWithPage, wlp_bind, wlp_ofInterpreter]
  refine wlp_requireOpen fun b hb => ?_
  rw [hfield] at hb
  rw [h.flag, Bool.true_and, wlp_bind, wlp_ofInterpreter, success, wlp_modify, wlp_bind, wlp_get,
    wlp_ite]
  dsimp only
  refine ⟨fun hboth => ?_, fun hnot => ?_⟩
  · rw [hboth, h.passed, wlp_bind, wlp_ofInterpreter]
    obtain ⟨hopen, hpage⟩ := Bool.and_eq_true_iff.mp hboth
    have hint := h.descriptor.resolve_left (of_decide_eq_true (hb ▸ hopen))
    refine wlp_handleOf (hfield.symm ▸ hint) ?_
    rw [hfield]
    exact hbody hint (of_decide_eq_true hpage)
  · rw [wlp_pure, Bool.eq_false_iff.mpr hnot]
    refine h.failed (hclosed ?_)
    by_contra hneither
    refine hnot (Bool.and_eq_true_iff.mpr ⟨?_, decide_eq_true fun heq => hneither (.inr heq)⟩)
    rw [hb]
    exact decide_eq_true fun heq => hneither (.inl heq)

/-- The position of a page in its file. -/
def pagePosition (s : PageMachine) (page : Nat) : Int :=
  (integerValueOf (s.field page pageNumberIndex) - 1) * pageSize

theorem wlp_pushAnswer {v : Nat} {returned : Bool}
    (hsp : c.interpreter.stackPointer = s.interpreter.stackPointer - 4)
    (hcontext : c.interpreter.activeContext = s.interpreter.activeContext)
    (hes : Silent c.trace) (hflag : returned = true → c.interpreter.successFlag = true)
    (hP : P ↔ c.interpreter.successFlag = true ∧
      ∀ e ∈ c.trace, Proper (s.field file descriptorIndex) v e) :
    Wlp (do pushAnswer v; return returned) (Ended s file P) c := by
  rw [wlp_bind, pushAnswer, wlp_bind, note, wlp_modify, wlp_ofInterpreter]
  intro _ i hpush
  rw [wlp_pure]
  exact .inr ⟨_, c.trace, v, ⟨rfl, c.interpreter, hsp, hcontext, rfl, hpush⟩, hes, hflag, hP⟩

theorem wlp_answerBool {b returned : Bool}
    (hsp : c.interpreter.stackPointer = s.interpreter.stackPointer - 4)
    (hcontext : c.interpreter.activeContext = s.interpreter.activeContext)
    (hes : Silent c.trace) (hflag : returned = true → c.interpreter.successFlag = true)
    (hP : P ↔ c.interpreter.successFlag = true ∧ ∀ e ∈ c.trace,
      Proper (s.field file descriptorIndex) (if b then truePointer else falsePointer) e) :
    Wlp (do answerBool b; return returned) (Ended s file P) c :=
  wlp_pushAnswer hsp hcontext hes hflag hP

/-- A call for the file of the descriptor `d`. -/
theorem proper_call {d v : Nat} (hint : isIntegerObject d) (succeeded : Bool) :
    Proper d v (.call (some (integerValueOf d)) succeeded) ↔ (v = truePointer → succeeded = true) :=
  and_iff_left fun _ hfd => ⟨hint, (Option.some.inj hfd).symm⟩

theorem proper_buffer {d v bytes : Nat} : Proper d v (.buffer bytes) ↔ bytes ≤ pageSize := Iff.rfl

theorem wlp_atPage (h : Started s file c) (hint : isIntegerObject (s.field file descriptorIndex))
    {body : Nat → PageM Bool}
    (hlost : calls.seekTo (integerValueOf (s.field file descriptorIndex)) (pagePosition s page) ≠
      pagePosition s page → P)
    (hbody : calls.seekTo (integerValueOf (s.field file descriptorIndex)) (pagePosition s page) =
      pagePosition s page → Wlp (body (s.field page pageInPageIndex)) (Ended s file P)
        { c with trace := [.call (some (integerValueOf (s.field file descriptorIndex))) true] }) :
    Wlp (atPage calls (integerValueOf (s.field file descriptorIndex)) page body)
      (Ended s file P) c := by
  rw [atPage, wlp_bind, wlp_ofInterpreter]
  refine wlp_pageNumberOf ?_
  rw [h.field_eq, wlp_bind, wlp_ofInterpreter]
  refine wlp_fetchPointer ?_
  rw [wlp_bind, note, wlp_modify, wlp_ite]
  dsimp only
  rw [h.trace, List.nil_append, Int.toNat_natCast, h.field_eq]
  have hposition : (integerValueOf (s.field page pageNumberIndex) - 1) * (pageSize : Int) =
      pagePosition s page := rfl
  rw [hposition]
  refine ⟨fun hfound => ?_, fun hnot => ?_⟩
  · rw [hfound]
    exact hbody (of_decide_eq_true hfound)
  · have hlost' := hlost fun heq => hnot (decide_eq_true heq)
    rw [Bool.eq_false_iff.mpr hnot]
    refine wlp_answerBool h.registers.1 h.registers.2 ?_ (fun _ => h.flag)
      (iff_of_true hlost' ⟨h.flag, ?_⟩)
    · exact fun object hin => absurd (List.mem_singleton.mp hin) (by simp)
    · intro e he
      rw [List.mem_singleton.mp he, proper_call hint]
      exact fun htrue => absurd htrue (by decide)

/-- The number of bytes that a page has. -/
def pageBytes (s : PageMachine) (page : Nat) : Int :=
  integerValueOf (s.field page bytesInPageIndex)

theorem wlp_storeInteger {i : Interpreter} {f x : Int} {p : Nat} :
    Wlp (storeIntegerOfObjectWithValue f p x) (fun _ j => j.stackPointer = i.stackPointer ∧
      j.activeContext = i.activeContext ∧
      (i.successFlag = true → (j.successFlag = true ↔ isIntegerValue x = true))) i := by
  rw [storeIntegerOfObjectWithValue, wlp_ite]
  refine ⟨fun hx => (wlp_registers _ _).mono fun _ j hj => ?_, fun hx => ?_⟩
  · rw [hj]
    exact ⟨rfl, rfl, fun hi => iff_of_true hi hx⟩
  · rw [wlp_bind, primitiveFail, wlp_bind, wlp_modify, wlp_pure, wlp_pure]
    exact ⟨rfl, rfl, fun _ => iff_of_false Bool.false_ne_true hx⟩

/-- A read of a page succeeds, within the buffer. -/
def ReadsPage (calls : FileCalls) (s : PageMachine) (file page : Nat) : Prop :=
  s.field file descriptorIndex ≠ nilPointer → page ≠ nilPointer →
    calls.seekTo (integerValueOf (s.field file descriptorIndex)) (pagePosition s page) =
      pagePosition s page →
    0 ≤ (calls.read (integerValueOf (s.field file descriptorIndex))).1 ∧
      (calls.read (integerValueOf (s.field file descriptorIndex))).1 ≤ pageSize

theorem not_nil_of_int {d : Nat} (h : isIntegerObject d) : d ≠ nilPointer := by
  rintro rfl
  exact absurd h (by decide)

theorem wlp_readPosixPage (h : Started s file c) :
    Wlp (readPosixPage calls file page) (Ended s file (ReadsPage calls s file page)) c := by
  rw [readPosixPage]
  refine wlp_ifOpenWithPage h (fun hclosed hopen hpage => ?_) fun hint hpage => ?_
  · exact absurd hclosed (not_or.mpr ⟨hopen, hpage⟩)
  refine wlp_atPage h hint (fun hlost _ _ hseek => absurd hseek hlost) fun hseek => ?_
  simp only [note, setBuffer, wlp_bind, wlp_modify, wlp_ofInterpreter]
  refine (wlp_registers _ _).mono fun _ i hi => ?_
  refine wlp_storeInteger.mono ?_
  rintro _ j ⟨hsp, hcontext, hflag⟩
  have hreads : ReadsPage calls s file page ↔
      0 ≤ (calls.read (integerValueOf (s.field file descriptorIndex))).1 ∧
        (calls.read (integerValueOf (s.field file descriptorIndex))).1 ≤ pageSize :=
    ⟨fun h => h (not_nil_of_int hint) hpage hseek, fun h _ _ _ => h⟩
  have hsmall : isIntegerValue (calls.read (integerValueOf (s.field file descriptorIndex))).1 =
      true ↔ _ := isIntegerValue_iff
  have hpageSize : pageSize = 512 := rfl
  rw [hi] at hsp hcontext hflag
  rw [← wlp_bind]
  refine wlp_answerBool (hsp.trans h.registers.1) (hcontext.trans h.registers.2) (by simp [Silent])
    (fun hreturned => absurd hreturned Bool.false_ne_true) ?_
  rw [hflag h.flag, hsmall, hreads]
  simp only [List.cons_append, List.nil_append, List.forall_mem_cons, proper_call hint,
    proper_buffer, decide_eq_true_eq]
  constructor
  · rintro ⟨hlow, hhigh⟩
    exact ⟨by omega, fun _ => trivial, le_rfl, fun _ => hlow, by omega, List.forall_mem_nil _⟩
  · rintro ⟨-, -, -, hcall, hbuffer, -⟩
    exact ⟨hcall rfl, by omega⟩

/-- The page has a number of bytes that the buffer has room for. -/
def WritesPage (calls : FileCalls) (s : PageMachine) (file page : Nat) : Prop :=
  s.field file descriptorIndex ≠ nilPointer → page ≠ nilPointer →
    calls.seekTo (integerValueOf (s.field file descriptorIndex)) (pagePosition s page) =
      pagePosition s page →
    isIntegerObject (s.field page bytesInPageIndex) ∧ 0 ≤ pageBytes s page ∧
      pageBytes s page ≤ pageSize

theorem wlp_fillBuffer (byteArray bytes : Nat) (c : PageMachine) :
    Wlp (fillBuffer byteArray bytes) (fun _ t =>
      t.interpreter = c.interpreter.withMemory t.interpreter.memory ∧
        t.trace = c.trace ++ [.buffer bytes]) c := by
  rw [fillBuffer, wlp_bind, note, wlp_modify]
  refine wlp_forN (fun _ (t : PageMachine) =>
    t.interpreter = c.interpreter.withMemory t.interpreter.memory ∧
      t.trace = c.trace ++ [.buffer bytes]) (fun i t _ ⟨hregisters, htrace⟩ => ?_) ⟨rfl, rfl⟩
  rw [fillByte, wlp_bind, wlp_ofInterpreter]
  refine (wlp_registers _ _).mono fun _ j hj => ?_
  rw [wlp_bind, wlp_get, setBuffer, wlp_modify]
  refine ⟨?_, htrace⟩
  dsimp only
  rw [hj, hregisters]
  rfl

theorem wlp_writePageBytes (hint : isIntegerObject (s.field file descriptorIndex))
    {i : Interpreter} {buffer : Nat → UInt8} {byteArray : Nat} {bytesInPage : Int}
    (hsp : i.stackPointer = s.interpreter.stackPointer - 4)
    (hcontext : i.activeContext = s.interpreter.activeContext)
    (hP : P ↔ i.successFlag = true ∧ bytesInPage.toNat ≤ pageSize ∧
      (bytesInPage % 2 ^ 32).toNat ≤ pageSize) :
    Wlp (writePageBytes calls (integerValueOf (s.field file descriptorIndex)) byteArray bytesInPage)
      (Ended s file P)
      ⟨i, buffer, [.call (some (integerValueOf (s.field file descriptorIndex))) true]⟩ := by
  rw [writePageBytes, wlp_bind]
  refine (wlp_fillBuffer _ _ _).mono ?_
  rintro _ t ⟨hregisters, htrace⟩
  simp only [note, wlp_bind, wlp_modify, wlp_get]
  rw [← wlp_bind]
  have hflag : t.interpreter.successFlag = i.successFlag := by rw [hregisters]; rfl
  have hsp' : t.interpreter.stackPointer = i.stackPointer := by rw [hregisters]; rfl
  have hcontext' : t.interpreter.activeContext = i.activeContext := by
    rw [hregisters]
    rfl
  refine wlp_answerBool (hsp'.trans hsp) (hcontext'.trans hcontext) ?_
    (fun hreturned => absurd hreturned Bool.false_ne_true) ?_
  · rw [htrace]
    simp [Silent]
  rw [hP, htrace]
  dsimp only
  rw [hflag]
  simp only [List.cons_append, List.nil_append, List.forall_mem_cons, proper_call hint,
    proper_buffer]
  refine and_congr_right fun _ => ?_
  constructor
  · rintro ⟨hfill, hwrite⟩
    refine ⟨fun _ => trivial, hfill, hwrite, fun htrue => ?_, List.forall_mem_nil _⟩
    by_contra hnot
    rw [if_neg hnot] at htrue
    exact absurd htrue (by decide)
  · rintro ⟨-, hfill, hwrite, -⟩
    exact ⟨hfill, hwrite⟩

/-- The buffer is kept where the number of bytes is that of bytes in it. -/
theorem fits_buffer {bytes : Int} (h : -16384 ≤ bytes ∧ bytes ≤ 16383) :
    0 ≤ bytes ∧ bytes ≤ pageSize ↔
      bytes.toNat ≤ pageSize ∧ (bytes % 2 ^ 32).toNat ≤ pageSize := by
  have hpageSize : pageSize = 512 := rfl
  rw [hpageSize]
  omega

theorem wlp_writePosixPage (h : Started s file c) :
    Wlp (writePosixPage calls file page) (Ended s file (WritesPage calls s file page)) c := by
  rw [writePosixPage]
  refine wlp_ifOpenWithPage h (fun hclosed hopen hpage => ?_) fun hint hpage => ?_
  · exact absurd hclosed (not_or.mpr ⟨hopen, hpage⟩)
  refine wlp_atPage h hint (fun hlost _ _ hseek => absurd hseek hlost) fun hseek => ?_
  have hwrites : WritesPage calls s file page ↔ isIntegerObject (s.field page bytesInPageIndex) ∧
      0 ≤ pageBytes s page ∧ pageBytes s page ≤ pageSize :=
    ⟨fun h => h (not_nil_of_int hint) hpage hseek, fun h _ _ _ => h⟩
  have hrange :=
    isIntegerValue_iff.mp (isIntegerValue_integerValueOf (s.field page bytesInPageIndex))
  rw [wlp_bind, wlp_ofInterpreter]
  refine wlp_fetchInteger (fun hbytes => ?_) fun hbytes => ?_
  · refine wlp_writePageBytes hint h.registers.1 h.registers.2 ?_
    rw [h.field_eq] at hbytes ⊢
    rw [hwrites, pageBytes, and_iff_right hbytes, and_iff_right h.flag]
    exact fits_buffer hrange
  · refine wlp_writePageBytes hint h.registers.1 h.registers.2 ?_
    rw [h.field_eq] at hbytes
    exact iff_of_false (fun hw => hbytes (hwrites.mp hw).1) fun hw => Bool.false_ne_true hw.1

/-- The page has a number of bytes, and the file is truncated. -/
def TruncatesFile (calls : FileCalls) (s : PageMachine) (file page : Nat) : Prop :=
  s.field file descriptorIndex ≠ nilPointer → page ≠ nilPointer →
    isIntegerObject (s.field page bytesInPageIndex) ∧
      calls.truncateTo (integerValueOf (s.field file descriptorIndex))
        (pagePosition s page + pageBytes s page) = true

theorem wlp_truncatePosixFile (h : Started s file c) :
    Wlp (truncatePosixFile calls file page) (Ended s file (TruncatesFile calls s file page)) c := by
  rw [truncatePosixFile]
  refine wlp_ifOpenWithPage h (fun hclosed hopen hpage => ?_) fun hint hpage => ?_
  · exact absurd hclosed (not_or.mpr ⟨hopen, hpage⟩)
  have htruncates : TruncatesFile calls s file page ↔ _ :=
    ⟨fun h => h (not_nil_of_int hint) hpage, fun h _ _ => h⟩
  rw [wlp_bind, wlp_ofInterpreter, newSizeOf, if_pos hpage, wlp_bind]
  refine wlp_pageNumberOf ?_
  rw [wlp_bind]
  have hanswer (truncated : Bool) : decide ((if truncated = true then (1 : Int) else 0) ≠ -1) =
      true := by cases truncated <;> rfl
  refine wlp_fetchInteger (fun hbytes => ?_) fun hbytes => ?_
  · rw [wlp_pure, wlp_bind, note, wlp_modify]
    refine wlp_answerBool h.registers.1 h.registers.2 ?_
      (fun hreturned => absurd hreturned Bool.false_ne_true) ?_
    · simp [Silent, h.trace]
    · rw [h.field_eq] at hbytes
      rw [htruncates, and_iff_right hbytes, and_iff_right h.flag, hanswer, h.trace]
      simp only [List.nil_append, List.forall_mem_cons, proper_call hint, h.field_eq]
      exact ⟨fun htrue => ⟨fun _ => htrue, List.forall_mem_nil _⟩, fun ⟨htrue, _⟩ => htrue rfl⟩
  · rw [wlp_pure, wlp_bind, note, wlp_modify]
    refine wlp_answerBool h.registers.1 h.registers.2 ?_
      (fun hreturned => absurd hreturned Bool.false_ne_true) ?_
    · simp [Silent, h.trace]
    · rw [h.field_eq] at hbytes
      exact iff_of_false (fun ht => hbytes (htruncates.mp ht).1) fun ht => Bool.false_ne_true ht.1

/-- The number is a SmallInteger, or there is room for its object, and the allocation
leaves the registers. -/
def Room (i : Interpreter) (x : Int) : Prop :=
  isIntegerValue x = true ∨ ∃ (p : Nat) (j : Interpreter),
    Allocates i classLargePositiveIntegerPointer 4 p j ∧ j = i.withMemory j.memory

theorem Room.registers {i : Interpreter} {x : Int} (h : Room i x) :
    Wlp (positive32BitIntegerFor x) (fun _ j => j = i.withMemory j.memory) i := by
  by_cases hx : isIntegerValue x = true
  · exact wlp_of_run (small_run hx i).1 rfl
  · obtain ⟨p, j, hallocates, hj⟩ := h.resolve_left hx
    rw [positive32BitIntegerFor, if_neg hx, wlp_bind]
    refine (wp_instantiateClassWithBytes hallocates (by decide)).toWlp.mono ?_
    rintro q _ ⟨-, t, rfl, -⟩
    rw [wlp_bind]
    refine (wlp_registers _ _).mono fun _ k hk => ?_
    rw [wlp_pure, hk, hj]
    rfl

theorem wlp_sizeOfPosixFile (h : Started s file c)
    (hroom : Room c.interpreter
      (calls.fileSize (integerValueOf (s.field file descriptorIndex)))) :
    Wlp (sizeOfPosixFile calls file) (Ended s file True) c := by
  rw [sizeOfPosixFile, wlp_bind, wlp_ofInterpreter]
  refine wlp_requireOpen fun b hb => ?_
  rw [h.field_eq] at hb
  rw [h.flag, Bool.true_and, wlp_bind, wlp_get, wlp_ite]
  dsimp only
  refine ⟨fun hopen => ?_, fun hclosed => ?_⟩
  · have hint := h.descriptor.resolve_left (of_decide_eq_true (hb ▸ hopen))
    rw [hopen, h.passed, wlp_bind, wlp_ofInterpreter]
    refine wlp_handleOf (by rwa [h.field_eq]) ?_
    rw [h.field_eq, wlp_bind, note, wlp_modify, wlp_ite, h.trace, List.nil_append]
    refine ⟨fun hsize => ?_, fun hsize => ?_⟩
    · rw [wlp_bind, wlp_ofInterpreter]
      refine hroom.registers.mono fun v j hj => ?_
      have hflag : j.successFlag = true := by rw [hj]; exact h.flag
      refine wlp_pushAnswer (by rw [hj]; exact h.registers.1) (by rw [hj]; exact h.registers.2)
        (by simp [Silent]) (fun _ => hflag) (iff_of_true trivial ⟨hflag, ?_⟩)
      simp only [List.forall_mem_cons, proper_call hint, decide_eq_true_eq]
      exact ⟨fun _ => hsize, List.forall_mem_nil _⟩
    · refine wlp_pushAnswer h.registers.1 h.registers.2 (by simp [Silent]) (fun _ => h.flag)
        (iff_of_true trivial ⟨h.flag, ?_⟩)
      simp only [List.forall_mem_cons, proper_call hint]
      exact ⟨fun hnil => absurd hnil (by decide), List.forall_mem_nil _⟩
  · rw [wlp_pure, Bool.eq_false_iff.mpr hclosed]
    exact h.failed trivial

theorem wlp_fetchClass {i : Interpreter} {p : Nat} {Q : Nat → Interpreter → Prop}
    (h : ∀ c, Q c i) : Wlp (inMemory (fetchClassOf p)) Q i := by
  rw [wlp_inMemory]
  by_cases hp : p % 2 = 0
  · intro c m hread
    have hw : Wp (fetchClassOf p) (fun c' t => c' = c ∧ t = m) i.memory :=
      ⟨c, m, hread, rfl, rfl⟩
    obtain ⟨-, -, rfl⟩ := (wp_fetchClassOf hp).mp hw
    exact h c
  · rw [fetchClassOf, if_pos (by omega), wlp_pure]
    exact h _

theorem wlp_openPosixFile (h : Started s file c)
    (hhandle : ∀ fileName, isIntegerValue (calls.openFile fileName) = true) :
    Wlp (openPosixFile calls file name) (Ended s file True) c := by
  rw [openPosixFile, wlp_bind, wlp_ofInterpreter]
  refine wlp_fetchClass fun nameClass => ?_
  rw [wlp_bind, wlp_ofInterpreter, success, wlp_modify, wlp_bind, wlp_get, wlp_ite]
  dsimp only
  rw [h.flag, Bool.true_and]
  refine ⟨fun hstring => ?_, fun hother => ?_⟩
  · rw [hstring, h.passed, wlp_bind, wlp_ofInterpreter, stringFromObject]
    refine (wlp_registers _ _).mono fun fileName i hi => ?_
    have hflag : i.successFlag = true := by rw [hi]; exact h.flag
    rw [wlp_bind, note, wlp_modify, wlp_ite, h.trace, List.nil_append]
    refine ⟨fun hopened => ?_, fun hfailed => ?_⟩
    · rw [wlp_bind, wlp_ofInterpreter]
      refine wlp_of_run (small_run (hhandle _) i).1 ?_
      rw [wlp_bind, wlp_ofInterpreter]
      refine (wlp_registers _ _).mono fun _ j hj => ?_
      rw [hj, hi]
      refine wlp_answerBool h.registers.1 h.registers.2 (by simp [Silent]) (fun _ => h.flag)
        (iff_of_true trivial ⟨h.flag, ?_⟩)
      simp [Proper, hopened]
    · refine wlp_answerBool (by rw [hi]; exact h.registers.1) (by rw [hi]; exact h.registers.2)
        (by simp [Silent]) (fun _ => hflag) (iff_of_true trivial ⟨hflag, ?_⟩)
      simp [Proper]
  · rw [wlp_pure, Bool.eq_false_iff.mpr hother]
    exact h.failed trivial

theorem wlp_positive32BitValueOf (p : Nat) (i : Interpreter) :
    Wlp (positive32BitValueOf p) (fun _ j => j.stackPointer = i.stackPointer ∧
      j.activeContext = i.activeContext) i := by
  rw [positive32BitValueOf, wlp_ite]
  refine ⟨fun _ => (wlp_pure _ _ _).mpr ⟨rfl, rfl⟩, fun _ => ?_⟩
  rw [wlp_bind]
  refine (wlp_registers _ _).mono fun _ j hj => ?_
  rw [wlp_ite]
  refine ⟨fun _ => ?_, fun _ => (wlp_registers _ _).mono fun _ k hk => ?_⟩
  · rw [wlp_bind, primitiveFail, wlp_bind, wlp_modify, wlp_pure, wlp_pure, hj]
    exact ⟨rfl, rfl⟩
  · rw [hk, hj]
    exact ⟨rfl, rfl⟩

/-- Without a descriptor, the file of another handle is closed. -/
theorem wlp_closePosixFile (h : Started s file c) : Wlp (closePosixFile calls file)
    (Ended s file (s.field file descriptorIndex ≠ nilPointer)) c := by
  rw [closePosixFile, wlp_bind, wlp_ofInterpreter]
  obtain hnil | hint := h.descriptor
  · rw [handleOf, wlp_bind]
    refine wlp_fetchPointer ?_
    rw [wlp_bind]
    refine (wlp_positive32BitValueOf _ _).mono fun v i ⟨hsp, hcontext⟩ => ?_
    rw [wlp_pure, wlp_bind, note, wlp_modify, wlp_bind, wlp_ofInterpreter]
    refine (wlp_registers _ _).mono fun _ j hj => ?_
    rw [hj]
    refine wlp_answerBool (hsp.trans h.registers.1) (hcontext.trans h.registers.2) ?_
      (fun hreturned => absurd hreturned Bool.false_ne_true)
      (iff_of_false (not_not.mpr hnil) fun hproper => ?_)
    · simp [Silent, h.trace]
    · have hcall := hproper.2 _ (List.mem_append_right _ List.mem_cons_self)
      exact not_nil_of_int (hcall.2 _ rfl).1 hnil
  · refine wlp_handleOf (by rwa [h.field_eq]) ?_
    rw [h.field_eq, wlp_bind, note, wlp_modify, wlp_bind, wlp_ofInterpreter]
    refine (wlp_registers _ _).mono fun _ j hj => ?_
    rw [hj, h.trace, List.nil_append]
    refine wlp_answerBool h.registers.1 h.registers.2 (by simp [Silent]) (fun _ => h.flag)
      (iff_of_true (not_nil_of_int hint) ⟨h.flag, ?_⟩)
    simp only [List.forall_mem_cons, proper_call hint]
    refine ⟨fun htrue => ?_, List.forall_mem_nil _⟩
    by_contra hnot
    rw [if_neg hnot] at htrue
    exact absurd htrue (by decide)

end Operation

/-! ## The primitive -/

/-- The operand that is popped after `k` others. -/
def stackOperand (i : Interpreter) (k : Nat) : Nat :=
  i.memory.chunkWord i.activeContext (headerSize + (i.stackPointer - k).toNat)

/-- The primitive is called for a PosixFile, closed or open, with the page and the code on the
stack. -/
structure Called (s : PageMachine) (code : Int) (file page : Nat) : Prop where
  successFlag : s.interpreter.successFlag = true
  trace : s.trace = []
  pageOperand : stackOperand s.interpreter 0 = page
  codeOperand : stackOperand s.interpreter 2 = integerObjectOf code
  low : 0 ≤ code
  high : code ≤ 5
  fileOperand : stackOperand s.interpreter 3 = file
  file_ne : file ≠ nilPointer
  descriptor : s.field file descriptorIndex = nilPointer ∨
    isIntegerObject (s.field file descriptorIndex)

/-- The operation does not come to where it goes wrong. -/
def Safe (calls : FileCalls) (s : PageMachine) (code : Int) (file page : Nat) : Prop :=
  match code with
  | 0 => ReadsPage calls s file page
  | 1 => WritesPage calls s file page
  | 2 => TruncatesFile calls s file page
  | 5 => s.field file descriptorIndex ≠ nilPointer
  | _ => True

section Primitive

variable {s : PageMachine} {calls : FileCalls} {code : Int} {file name page : Nat}

theorem wlp_popStack_popped {i : Interpreter} {k : Nat} {Q : Nat → Interpreter → Prop}
    (h : Q (stackOperand i k) (popped i (k + 1))) : Wlp popStack Q (popped i k) := by
  refine wlp_popStack ?_
  rw [popped_succ]
  exact h

theorem wlp_popInteger_popped {i : Interpreter} {k : Nat} {x : Int} {Q : Int → Interpreter → Prop}
    (hx : stackOperand i k = integerObjectOf x) (hsmall : isIntegerValue x = true)
    (hflag : i.successFlag = true) (h : Q x (popped i (k + 1))) :
    Wlp popInteger Q (popped i k) := by
  rw [popInteger, wlp_bind]
  refine wlp_popStack_popped ?_
  have hodd : isIntegerObject (integerObjectOf x) := integerObjectOf_odd x
  rw [hx, decide_eq_true hodd, wlp_bind]
  refine wlp_of_run (success_run (s := popped i (k + 1)) hflag) ?_
  rw [wlp_bind, wlp_get, if_pos (show (popped i (k + 1)).successFlag = true from hflag), wlp_pure,
    integerValueOf_integerObjectOf hsmall]
  exact h

theorem wlp_posixFileOperation {c : PageMachine} (h : Started s file c) (hlow : 0 ≤ code)
    (hhigh : code ≤ 5)
    (hhandle : code = 4 → ∀ fileName, isIntegerValue (calls.openFile fileName) = true)
    (hroom : code = 3 → Room c.interpreter
      (calls.fileSize (integerValueOf (s.field file descriptorIndex)))) :
    Wlp (posixFileOperation calls code file name page)
      (Ended s file (Safe calls s code file page)) c := by
  have hcode : code = 0 ∨ code = 1 ∨ code = 2 ∨ code = 3 ∨ code = 4 ∨ code = 5 := by omega
  rcases hcode with rfl | rfl | rfl | rfl | rfl | rfl
  · exact wlp_readPosixPage h
  · exact wlp_writePosixPage h
  · exact wlp_truncatePosixFile h
  · exact wlp_sizeOfPosixFile h (hroom rfl)
  · exact wlp_openPosixFile h (hhandle rfl)
  · exact wlp_closePosixFile h

/-- A run that ends has the outcome that is claimed exactly when it is safe. -/
theorem wlp_primitivePosixFileOperation (h : Called s code file page)
    (hhandle : code = 4 → ∀ fileName, isIntegerValue (calls.openFile fileName) = true)
    (hroom : code = 3 → Room (popped s.interpreter 4)
      (calls.fileSize (integerValueOf (s.field file descriptorIndex)))) :
    Wlp (primitivePosixFileOperation calls)
      (fun _ t => Outcome s t file ↔ Safe calls s code file page) s := by
  have hlow := h.low
  have hhigh := h.high
  have hsmall : isIntegerValue code = true := isIntegerValue_iff.mpr ⟨by omega, by omega⟩
  have hstart : s.interpreter = popped s.interpreter 0 := (popped_zero _).symm
  rw [primitivePosixFileOperation, wlp_bind, wlp_ofInterpreter, hstart]
  refine wlp_popStack_popped ?_
  rw [wlp_bind, wlp_ofInterpreter]
  refine wlp_popStack_popped ?_
  rw [wlp_bind, wlp_ofInterpreter]
  refine wlp_popInteger_popped h.codeOperand hsmall h.successFlag ?_
  rw [wlp_bind, wlp_ofInterpreter]
  refine wlp_popStack_popped ?_
  have hrange : decide (code ≥ 0 ∧ code ≤ 6) = true := decide_eq_true ⟨hlow, by omega⟩
  have hfile : decide (stackOperand s.interpreter 3 ≠ nilPointer) = true :=
    decide_eq_true (h.fileOperand ▸ h.file_ne)
  have hsuccess := success_run (s := popped s.interpreter 4) h.successFlag
  rw [wlp_bind, wlp_ofInterpreter, hrange]
  refine wlp_of_run hsuccess ?_
  rw [wlp_bind, wlp_ofInterpreter, hfile]
  refine wlp_of_run hsuccess ?_
  rw [wlp_bind, wlp_get, if_pos (show (popped s.interpreter 4).successFlag = true from
    h.successFlag), wlp_bind, h.fileOperand, h.pageOperand]
  have hstarted : Started s file ⟨popped s.interpreter 4, s.pageBuffer, s.trace⟩ :=
    ⟨rfl, h.trace, h.successFlag, h.descriptor⟩
  exact (wlp_posixFileOperation hstarted hlow hhigh hhandle hroom).mono fun _ _ hended =>
    wlp_endOperation hended

end Primitive

/-- The handles of the file system are small. -/
theorem isIntegerValue_openFile {f : FatFileSystem} (hcurfd : f.curfd ≤ maxOpenFiles)
    (r : FatResults) (name : List UInt8) :
    isIntegerValue ((f.calls r).openFile name) = true := by
  have hmax : maxOpenFiles = 64 := rfl
  obtain ⟨fd, t, hrun, -, hcase⟩ :=
    Handles.openFileWith_spec hcurfd (faRead ||| faWrite) r.toOutcomes name
  have hresult : (f.calls r).openFile name = fd := by
    show (match openFile r.toOutcomes name f with
      | some (fd, _) => fd
      | none => -1) = fd
    rw [openFile, hrun]
  rw [hresult, isIntegerValue_iff]
  obtain ⟨hfd, -⟩ | ⟨-, -, -, ⟨hfd, -⟩ | ⟨i, hfd, hi, -⟩⟩ := hcase
  · omega
  · omega
  · omega

end Operations

end Crosstalk
