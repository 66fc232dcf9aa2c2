import Crosstalk.Files.Operations

/-!
# Operations on files end

In a memory whose counts are right, an operation that does not come to where it goes wrong
ends. The bytes of a page go into an object without pointers.
-/

namespace Crosstalk

namespace ObjectMemory

/-! ## Bytes in a counted memory -/

section Bytes

variable {m m' : ObjectMemory} {L : Layout} {regs : Nat → Nat} {p q c k n j : Nat}
  {data : Nat → UInt8}

/-- An object of bytes, none of them a pointer, that is allocated. -/
structure BytesAt (m : ObjectMemory) (L : Layout) (p c k : Nat) : Prop where
  object : IsByteObject m p c k
  allocated : Allocated m L p
  pointer : (m.entry p).pointer = 0
  class_ne : c ≠ classCompiledMethod

theorem BytesAt.last_eq (h : BytesAt m L p c k) : m.last p = 2 := by
  rw [last, if_pos h.pointer, h.object.fetchClass, if_neg h.class_ne]

section Stored

variable (hm : Counted m L regs) (h : BytesAt m L p c k) (hn : n ≤ k)
  (hs : StoredBytes m p n data m')

include hs h

theorem BytesAt.entry_eq (q : Nat) : m'.entry q = m.entry q := by
  rw [entry, entry, hs.word h.object.heap.symm]

theorem BytesAt.location_eq (q : Nat) : m'.location q = m.location q := hs.word h.object.heap.symm

theorem BytesAt.allocated_iff : Allocated m' L q ↔ Allocated m L q := by
  rw [Allocated, Allocated, InUse, InUse, h.entry_eq hs]

include hm hn

/-- The words of the other objects, and the header of the object itself. -/
theorem BytesAt.chunkWord_eq (hq : InUse m q) (hj : j < L.extent q) (hne : q ≠ p ∨ j < 2) :
    m'.chunkWord q j = m.chunkWord q j := by
  have hextent := hm.heap.extent_allocated p h.allocated
  have hspace : m.chunkWord p 0 ≤ m.space p := size_le_space
  have hsize := h.object.size
  have hheader : headerSize = 2 := rfl
  rw [chunkWord, chunkWord, h.entry_eq hs, h.location_eq hs, word_eq_iff, hs, hs, firstByte]
  by_cases hseg : (m.entry q).segment = (m.entry p).segment
  · by_cases hqp : q = p
    · subst hqp
      rw [if_neg (by omega), if_neg (by omega)]
      exact ⟨rfl, rfl⟩
    · obtain hbefore | hbehind :=
        hm.heap.tiled.apart q p hq h.allocated.inUse hqp hseg
      · rw [if_neg (by omega), if_neg (by omega)]
        exact ⟨rfl, rfl⟩
      · rw [if_neg (by omega), if_neg (by omega)]
        exact ⟨rfl, rfl⟩
  · rw [if_neg fun hall => hseg hall.1, if_neg fun hall => hseg hall.1]
    exact ⟨rfl, rfl⟩

theorem BytesAt.heap : Heap m' L := by
  have htiled := hm.heap.tiled
  have hword {q j : Nat} (hq : InUse m q) (hj : j < 2) : m'.chunkWord q j = m.chunkWord q j :=
    h.chunkWord_eq hm hn hs hq (hj.trans_le (htiled.two_le q hq)) (.inr hj)
  refine hm.heap.congr (fun q _ => by rw [h.entry_eq hs]) (fun q _ => by rw [h.entry_eq hs])
    (fun q _ => by rw [h.entry_eq hs]) (fun q _ => h.location_eq hs q)
    (hs.word h.object.heap.symm) (fun s i _ => ?_) (fun q hq => hword hq (by decide))
    (fun s i q hq => hword (hm.heap.chunk_inUse hq) (by decide))
    fun s i q hq => by rw [h.entry_eq hs]; exact (hm.heap.lists.freeChunk s i q hq).count
  -- the heads of the lists are behind the objects
  have hinside := htiled.inside p h.allocated.inUse
  have hextent := hm.heap.extent_allocated p h.allocated
  have hspace : m.chunkWord p 0 ≤ m.space p := size_le_space
  have hsize := h.object.size
  have hheader : headerSize = 2 := rfl
  show m'.word s (65515 + i) = m.word s (65515 + i)
  rw [word_eq_iff, hs, hs, firstByte, if_neg (by omega), if_neg (by omega)]
  exact ⟨rfl, rfl⟩

theorem BytesAt.last_stored (hq : Allocated m L q) : m'.last q = m.last q := by
  have htwo := hm.heap.tiled.two_le q hq.inUse
  have hextent := hm.heap.extent_allocated q hq
  have hspace : m.chunkWord q 0 ≤ m.space q := size_le_space
  have hlast := hm.last_le q hq
  refine last_congr (by rw [h.entry_eq hs])
    (h.chunkWord_eq hm hn hs hq.inUse (by omega) (.inr (by decide)))
    (h.chunkWord_eq hm hn hs hq.inUse (by omega) (.inr (by decide))) fun h3 => ?_
  refine h.chunkWord_eq hm hn hs hq.inUse (by omega) (.inl ?_)
  rintro rfl
  rw [h.last_eq] at h3
  omega

/-- The words up to the last pointer. -/
theorem BytesAt.pointer_eq (hq : Allocated m L q) (hj : j < m.last q) :
    m'.chunkWord q j = m.chunkWord q j := by
  have hextent := hm.heap.extent_allocated q hq
  have hspace : m.chunkWord q 0 ≤ m.space q := size_le_space
  have hlast := hm.last_le q hq
  refine h.chunkWord_eq hm hn hs hq.inUse (by omega) ?_
  by_cases hqp : q = p
  · rw [hqp, h.last_eq] at hj
    exact .inr hj
  · exact .inl hqp

theorem BytesAt.isPointer_iff (hq : Allocated m L q) : IsPointer m' q j ↔ IsPointer m q j := by
  rw [IsPointer, IsPointer, h.last_stored hm hn hs hq]
  refine and_congr_right fun _ => and_congr_right fun hj => ?_
  rw [h.pointer_eq hm hn hs hq hj]

theorem BytesAt.counted : Counted m' L regs := by
  refine ⟨h.heap hm hn hs, fun q hq => ?_, fun q j hq hj => ?_, fun q hq hlt => ?_⟩
  · rw [h.allocated_iff hs] at hq
    have htwo := hm.heap.tiled.two_le q hq.inUse
    rw [h.last_stored hm hn hs hq, h.chunkWord_eq hm hn hs hq.inUse (by omega) (.inr (by decide))]
    exact hm.last_le q hq
  · rw [h.allocated_iff hs] at hq ⊢
    rw [h.isPointer_iff hm hn hs hq] at hj
    rw [h.pointer_eq hm hn hs hq hj.2.1]
    exact hm.pointer q j hq hj
  · rw [h.allocated_iff hs] at hq
    rw [h.entry_eq hs] at hlt ⊢
    rw [hm.count q hq hlt, references, references]
    congr 2
    ext x
    constructor
    · rintro ⟨hx, hpointer, hvalue⟩
      refine ⟨(h.allocated_iff hs).mpr hx, (h.isPointer_iff hm hn hs hx).mpr hpointer, ?_⟩
      rw [h.pointer_eq hm hn hs hx hpointer.2.1, hvalue]
    · rintro ⟨hx, hpointer, hvalue⟩
      have hx' := (h.allocated_iff hs).mp hx
      have hpointer' := (h.isPointer_iff hm hn hs hx').mp hpointer
      refine ⟨hx', hpointer', ?_⟩
      rw [← h.pointer_eq hm hn hs hx' hpointer'.2.1, hvalue]

theorem BytesAt.pointerField (hq : PointerField m L q j) : q ≠ p ∧ PointerField m' L q j := by
  have hne : q ≠ p := by
    rintro rfl
    exact hq.pointer h.pointer
  have htwo := hm.heap.tiled.two_le q hq.allocated.inUse
  refine ⟨hne, (h.allocated_iff hs).mpr hq.allocated, ?_, hq.two_le, ?_⟩
  · rw [h.entry_eq hs]
    exact hq.pointer
  · rw [h.chunkWord_eq hm hn hs hq.allocated.inUse (by omega) (.inl hne)]
    exact hq.lt_size

end Stored

end Bytes

end ObjectMemory

namespace Operations

open ObjectMemory Rename

/-! ## States in which operations end -/

/-- The stack of the active context, with four operands, and the constants. -/
structure Rooted (s : PageMachine) (m : ObjectMemory) (L : Layout) (regs : Nat → Nat) (n : Nat) :
    Prop where
  counted : Counted m L regs
  root : 1 ≤ regs s.interpreter.activeContext
  stackPointer : s.interpreter.stackPointer = n
  frame : tempFrameStart + 3 ≤ n
  top : PointerField m L s.interpreter.activeContext (headerSize + n)
  constants : ∀ c ∈ [nilPointer, truePointer, falsePointer], Allocated m L c ∧ 1 ≤ regs c

/-- A page with a number. -/
structure PageReady (s : PageMachine) (L : Layout) (page : Nat) : Prop where
  field : PointerField s.interpreter.memory L page (headerSize + bytesInPageIndex)
  number : isIntegerObject (s.field page pageNumberIndex)
  positive : 1 ≤ integerValueOf (s.field page pageNumberIndex)

/-- The memory is as the primitive relies on: the counts are right, the operands are objects
of their kinds, the contents of a page have its size, and a size is a SmallInteger. -/
structure Ready (calls : FileCalls) (s : PageMachine) (L : Layout) (regs : Nat → Nat) (n : Nat)
    (code : Int) (file page : Nat) : Prop where
  stack : Rooted s s.interpreter.memory L regs n
  field : PointerField s.interpreter.memory L file (headerSize + descriptorIndex)
  pageReady : code ≤ 2 → page ≠ nilPointer → PageReady s L page
  contents : code ≤ 1 → page ≠ nilPointer →
    ∃ c, BytesAt s.interpreter.memory L (s.field page pageInPageIndex) c pageSize
  name : code = 4 → ∃ c k,
    IsByteObject s.interpreter.memory (stackOperand s.interpreter 1) c k
  size : code = 3 →
    isIntegerValue (calls.fileSize (integerValueOf (s.field file descriptorIndex))) = true

/-- Neither the file nor the page is the active context itself. -/
def Apart (s : PageMachine) (file page : Nat) : Prop :=
  file ≠ s.interpreter.activeContext ∧ page ≠ s.interpreter.activeContext

/-- `g` has the words of the stack of `s` up to the place `n`. -/
def HoldsStack (s : PageMachine) (file page n : Nat) (g : Nat → Nat → Nat) : Prop :=
  Apart s file page → ∀ k : Nat, k ≤ n → g s.interpreter.activeContext (headerSize + k) =
    s.interpreter.memory.chunkWord s.interpreter.activeContext (headerSize + k)

/-- The run ends, and keeps the stack of `s` below the operands. -/
def Ends {α : Type} (s : PageMachine) (file page : Nat) (x : PageM α) (c : PageMachine) : Prop :=
  Wp x (fun _ t => Apart s file page → KeepsBelow s t) c

section Ends

variable {s c : PageMachine} {calls : FileCalls} {m u : ObjectMemory} {L L' : Layout}
  {regs : Nat → Nat} {g : Nat → Nat → Nat} {n v p j file page : Nat} {code : Int}

theorem wp_ofInterpreter {α : Type} {x : IM α} {Q : α → PageMachine → Prop} :
    Wp (ofInterpreter x) Q s ↔
      Wp x (fun a i => Q a { s with interpreter := i }) s.interpreter := by
  constructor
  · rintro ⟨a, t, hx, hQ⟩
    rw [ofInterpreter] at hx
    cases hrun : x s.interpreter with
    | none => simp [hrun] at hx
    | some r =>
      rw [hrun] at hx
      cases hx
      exact ⟨r.1, r.2, hrun, hQ⟩
  · rintro ⟨a, i, hx, hQ⟩
    exact ⟨a, _, by rw [ofInterpreter, hx], hQ⟩

theorem ends_endOperation (returned : Bool) (hc : Apart s file page → KeepsBelow s c) :
    Ends s file page (endOperation returned) c := by
  rw [Ends, endOperation, wp_bind, wp_get, wp_ite, wp_ofInterpreter, unPop, wp_modify, wp_pure]
  exact ⟨fun _ => hc, fun _ => hc⟩

/-- There is room on the stack for the result. -/
theorem Rooted.ends_pushAnswer (h : Rooted s m L regs n) (hu : Written m L regs g L' u)
    (hc : c.interpreter = (popped s.interpreter 4).withMemory u) (hv : v < 65536) (hpos : 0 < v)
    (hva : v % 2 = 0 → Allocated u L' v) (hg : HoldsStack s file page n g) :
    Ends s file page (pushAnswer v) c := by
  have hframe := h.frame
  have hsp := h.stackPointer
  have hstart : tempFrameStart = 6 := rfl
  rw [Ends, pushAnswer, wp_bind, note, wp_modify, wp_ofInterpreter]
  dsimp only
  rw [hc]
  refine (wp_push (s := popped s.interpreter 4) (n := n - 4) hu ?_
    (h.top.below (Nat.le_add_right 2 _) (by omega)) h.root hv hpos hva).mono ?_
  · show s.interpreter.stackPointer - (4 : Nat) = (n - 4 : Nat)
    omega
  · rintro _ _ ⟨L'', u', rfl, hu'⟩ hapart
    refine ⟨rfl, fun k hk => ?_⟩
    have hctx := hu'.root _ h.top.allocated h.root
    have hlt := h.top.lt_size
    show u'.chunkWord s.interpreter.activeContext (headerSize + k) = _
    rw [hu'.word _ _ hctx (by omega), ← hg hapart k (by omega)]
    exact if_neg fun hall => by
      have := hall.2
      omega

theorem Rooted.ends_constant (h : Rooted s m L regs n) (hu : Written m L regs g L' u)
    (hc : c.interpreter = (popped s.interpreter 4).withMemory u)
    (hv : v ∈ [nilPointer, truePointer, falsePointer]) (hg : HoldsStack s file page n g) :
    Ends s file page (pushAnswer v) c := by
  have hvu := hu.root v (h.constants v hv).1 (h.constants v hv).2
  exact h.ends_pushAnswer hu hc hvu.lt (Nat.pos_of_ne_zero hvu.ne_zero) (fun _ => hvu) hg

theorem Rooted.ends_answerBool (h : Rooted s m L regs n) (hu : Written m L regs g L' u)
    (hc : c.interpreter = (popped s.interpreter 4).withMemory u) (hg : HoldsStack s file page n g)
    (b returned : Bool) : Ends s file page (do answerBool b; return returned) c := by
  rw [Ends, wp_bind]
  refine (h.ends_constant hu hc ?_ hg).mono fun _ _ ht => (wp_pure _ _ _).mpr ht
  cases b <;> simp

/-- Nothing has been stored yet. -/
theorem Rooted.ends_answerBool_first (h : Rooted s s.interpreter.memory L regs n)
    (hc : c.interpreter = popped s.interpreter 4) (b returned : Bool) :
    Ends s file page (do answerBool b; return returned) c :=
  h.ends_answerBool (.refl h.counted) hc (fun _ _ _ => rfl) b returned

/-! ## Reading operands -/

section Reads

variable (hm : Counted s.interpreter.memory L regs)

include hm

theorem fetch_run (hp : PointerField s.interpreter.memory L p (headerSize + j)) :
    inMemory (fetchPointerOfObject j p) (popped s.interpreter 4) =
      some (s.field p j, popped s.interpreter 4) := by
  have hplace : PointerField s.interpreter.memory L p (headerSize + (j : Int).toNat) := by
    rwa [Int.toNat_natCast]
  refine Wp.run_eq ?_
  rw [wp_inMemory, fetchPointerOfObject_eq, wp_fetchWordOfObject]
  exact ⟨hplace.hasField hm.heap (Int.natCast_nonneg j), rfl, rfl⟩

theorem fetchInteger_run (hp : PointerField s.interpreter.memory L p (headerSize + j))
    (hint : isIntegerObject (s.field p j)) :
    fetchIntegerOfObject j p (popped s.interpreter 4) =
      some (integerValueOf (s.field p j), popped s.interpreter 4) := by
  rw [fetchIntegerOfObject, bind_of_run (fetch_run hm hp), if_pos hint]
  rfl

theorem pageNumberOf_run (hpage : PageReady s L page) :
    pageNumberOf page (popped s.interpreter 4) =
      some (integerValueOf (s.field page pageNumberIndex), popped s.interpreter 4) := by
  have hplace : PointerField s.interpreter.memory L page (headerSize + pageNumberIndex) :=
    hpage.field.below (by decide) (by decide)
  rw [pageNumberOf, bind_of_run (fetchInteger_run hm hplace hpage.number)]
  refine Wp.run_eq ?_
  rw [wp_bind, wp_check, wp_pure]
  exact ⟨hpage.positive, rfl, rfl⟩

theorem handleOf_run (hfile : PointerField s.interpreter.memory L file
      (headerSize + descriptorIndex)) (hint : isIntegerObject (s.field file descriptorIndex)) :
    handleOf file (popped s.interpreter 4) =
      some (integerValueOf (s.field file descriptorIndex), popped s.interpreter 4) := by
  rw [handleOf, bind_of_run (fetch_run hm hfile),
    bind_of_run (positive32BitValueOf_smallInteger hint _), handle_eq]
  rfl

end Reads

/-! ## The operations -/

theorem Ready.ends_ifOpenWithPage (h : Ready calls s L regs n code file page)
    (hc : Started s file c) {body : Int → PageM Bool}
    (hbody : isIntegerObject (s.field file descriptorIndex) → page ≠ nilPointer →
      Ends s file page (body (integerValueOf (s.field file descriptorIndex))) c) :
    Ends s file page (ifOpenWithPage file page body) c := by
  rw [Ends, ifOpenWithPage, wp_bind, wp_ofInterpreter, hc.interpreter, requireOpen, wp_bind,
    wp_of_run (fetch_run h.stack.counted h.field), success, wp_modify, wp_bind, wp_ofInterpreter,
    success, wp_modify, wp_bind, wp_get, wp_ite]
  have hflag : (popped s.interpreter 4).successFlag = true := hc.successFlag
  dsimp only
  rw [hflag, Bool.true_and]
  refine ⟨fun hboth => ?_, fun _ => (wp_pure _ _ _).mpr fun _ => ⟨rfl, fun _ _ => rfl⟩⟩
  obtain ⟨hopen, hpage⟩ := Bool.and_eq_true_iff.mp hboth
  have hint := hc.descriptor.resolve_left (of_decide_eq_true hopen)
  have hpassed := hc.passed
  rw [hc.interpreter] at hpassed
  rw [hboth, hpassed, wp_bind, wp_ofInterpreter, hc.interpreter,
    wp_of_run (handleOf_run h.stack.counted h.field hint)]
  rw [← hc.interpreter]
  exact hbody hint (of_decide_eq_true hpage)

theorem Ready.ends_atPage (h : Ready calls s L regs n code file page) (hcode : code ≤ 2)
    (hpage : page ≠ nilPointer) (hc : c.interpreter = popped s.interpreter 4) {fd : Int}
    {body : Nat → PageM Bool}
    (hbody : ∀ c' : PageMachine, c'.interpreter = popped s.interpreter 4 →
      calls.seekTo fd (pagePosition s page) = pagePosition s page →
      Ends s file page (body (s.field page pageInPageIndex)) c') :
    Ends s file page (atPage calls fd page body) c := by
  have hready := h.pageReady hcode hpage
  have hplace : PointerField s.interpreter.memory L page (headerSize + pageInPageIndex) :=
    hready.field.below (by decide) (by decide)
  rw [Ends, atPage, wp_bind, wp_ofInterpreter, hc,
    wp_of_run (pageNumberOf_run h.stack.counted hready), wp_bind, wp_ofInterpreter,
    wp_of_run (fetch_run h.stack.counted hplace), wp_bind, note, wp_modify, wp_ite]
  exact ⟨fun hfound => hbody _ rfl (of_decide_eq_true hfound),
    fun _ => h.stack.ends_answerBool_first rfl _ _⟩

theorem wp_storePage {a k : Nat} {cls : Nat} {bytes : Int} {data : Nat → UInt8}
    (h : IsByteObject m a cls k) (hbytes : bytes ≤ k) :
    Wp (storePage a bytes data) (fun _ => StoredBytes m a bytes.toNat data) m :=
  wp_forN (fun i t => StoredBytes m a i data t) (fun _ _ hi ht => h.wp_storeNext ht (by omega))
    (.refl m a data)

/-- The contents of a page are neither a context nor a constant with pointers. -/
theorem Rooted.stored {a cls k l : Nat} {data : Nat → UInt8} (h : Rooted s m L regs n)
    (hb : BytesAt m L a cls k) (hl : l ≤ k) (hs : StoredBytes m a l data u) :
    Rooted s u L regs n where
  counted := hb.counted h.counted hl hs
  root := h.root
  stackPointer := h.stackPointer
  frame := h.frame
  top := (hb.pointerField h.counted hl hs h.top).2
  constants v hv := ⟨(hb.allocated_iff hs).mpr (h.constants v hv).1, (h.constants v hv).2⟩

theorem Ready.ends_readPosixPage (h : Ready calls s L regs n 0 file page) (hc : Started s file c)
    (hoperand : stackOperand s.interpreter 0 = page) (hsafe : ReadsPage calls s file page) :
    Ends s file page (readPosixPage calls file page) c := by
  rw [readPosixPage]
  refine h.ends_ifOpenWithPage hc fun hint hpage => ?_
  refine h.ends_atPage (by decide) hpage hc.interpreter fun c' hc' hseek => ?_
  obtain ⟨hlow, hhigh⟩ := hsafe (not_nil_of_int hint) hpage hseek
  obtain ⟨cls, hcontents⟩ := h.contents (by decide) hpage
  have hready := h.pageReady (by decide) hpage
  have hpageSize : pageSize = 512 := rfl
  have hcount : (calls.read (integerValueOf (s.field file descriptorIndex))).1.toNat ≤
      pageSize := by omega
  have hsmall : isIntegerValue (calls.read (integerValueOf
      (s.field file descriptorIndex))).1 = true := isIntegerValue_iff.mpr ⟨by omega, by omega⟩
  simp only [Ends, note, setBuffer, wp_bind, wp_modify, wp_ofInterpreter]
  rw [hc', wp_inMemory]
  refine (wp_storePage hcontents.object hhigh).mono fun _ m₁ hs => ?_
  have hstack := h.stack.stored hcontents hcount hs
  obtain ⟨-, hfield⟩ := hcontents.pointerField h.stack.counted hcount hs hready.field
  obtain ⟨hne, -⟩ := hcontents.pointerField h.stack.counted hcount hs h.stack.top
  have htop := h.stack.top
  have hextent := h.stack.counted.heap.extent_allocated _ htop.allocated
  have hspace : s.interpreter.memory.chunkWord s.interpreter.activeContext 0 ≤
      s.interpreter.memory.space s.interpreter.activeContext := size_le_space
  have hsize := htop.lt_size
  have hkept (k : Nat) (hk : k ≤ n) : m₁.chunkWord s.interpreter.activeContext (headerSize + k) =
      s.interpreter.memory.chunkWord s.interpreter.activeContext (headerSize + k) :=
    hcontents.chunkWord_eq h.stack.counted hcount hs htop.allocated.inUse (by omega) (.inl hne)
  have hword : m₁.chunkWord s.interpreter.activeContext (headerSize + n) = page := by
    rw [hkept n le_rfl, ← hoperand, stackOperand, h.stack.stackPointer]
    congr 1
  have hodd := integerObjectOf_odd (calls.read (integerValueOf (s.field file descriptorIndex))).1
  rw [storeIntegerOfObjectWithValue, if_pos hsmall, wp_inMemory]
  refine ((Written.refl hstack.counted).wp_store (f := (bytesInPageIndex : Int)) hstack.top
    hstack.root (.inr hword) hfield (Int.natCast_nonneg _) (integerObjectOf_lt _) (by omega)
    (by omega)).mono ?_
  rintro _ u ⟨L', hu⟩
  rw [← wp_bind]
  refine hstack.ends_answerBool hu rfl (fun hapart k hk => ?_) true false
  rw [← hkept k hk]
  exact if_neg fun hall => hapart.2 hall.1.symm

/-- The end of a page read. In the objects that are left only the number of bytes of the page
and the place of the answer on the stack have changed. -/
theorem wp_finishPage {i : Interpreter} {k place : Nat} {bytesInPage : Int}
    (hm : Counted i.memory L regs) (hroot : 1 ≤ regs i.activeContext)
    (htop : PointerField i.memory L i.activeContext (headerSize + k))
    (hoperand : i.memory.chunkWord i.activeContext (headerSize + k) = page)
    (hpage : PointerField i.memory L page (headerSize + bytesInPageIndex))
    (hplace : i.stackPointer + 1 = place) (hle : place ≤ k)
    (htrue : Allocated i.memory L truePointer ∧ 1 ≤ regs truePointer)
    (hsmall : isIntegerValue bytesInPage = true) :
    Wp (finishPage page bytesInPage) (fun _ t => ∃ L', Written i.memory L regs
      (put (put i.memory.chunkWord page (headerSize + bytesInPageIndex)
        (integerObjectOf bytesInPage)) i.activeContext (headerSize + place) truePointer)
      L' t.memory) i := by
  have hodd := integerObjectOf_odd bytesInPage
  have hnat : (place : Int).toNat = place := Int.toNat_natCast _
  rw [finishPage, wp_bind, storeIntegerOfObjectWithValue, if_pos hsmall, wp_inMemory]
  refine ((Written.refl hm).wp_store (f := (bytesInPageIndex : Int)) htop hroot (.inr hoperand)
    hpage (Int.natCast_nonneg _) (integerObjectOf_lt _) (by omega) (by omega)).mono ?_
  rintro _ u ⟨L', hu⟩
  rw [push, wp_bind, wp_modify, wp_bind, wp_get, wp_inMemory]
  have hpushed : (i.withMemory u).stackPointer + 1 = place := hplace
  dsimp only
  rw [hpushed]
  have hslot : PointerField i.memory L i.activeContext (headerSize + (place : Int).toNat) := by
    rw [hnat]
    exact htop.below (Nat.le_add_right 2 _) (by omega)
  exact (hu.wp_store htop hroot (.inl rfl) hslot (Int.natCast_nonneg _) (by decide) (by decide)
    fun _ => hu.root _ htrue.1 htrue.2).mono fun _ _ ht => hnat ▸ ht

theorem wp_fillBuffer {a cls k bytes : Nat} (h : IsByteObject s.interpreter.memory a cls k)
    (hbytes : bytes ≤ k) (hc : c.interpreter = popped s.interpreter 4) :
    Wp (fillBuffer a bytes) (fun _ t => t.interpreter = popped s.interpreter 4) c := by
  rw [fillBuffer, wp_bind, note, wp_modify]
  refine wp_forN (fun _ (t : PageMachine) => t.interpreter = popped s.interpreter 4)
    (fun i t hi ht => ?_) hc
  rw [fillByte, wp_bind, wp_ofInterpreter, ht, wp_inMemory]
  refine (IsByteObject.wp_fetchByte (m := (popped s.interpreter 4).memory) h (by omega)).mpr ?_
  rw [wp_bind, wp_get, setBuffer, wp_modify]
  rfl

theorem Ready.ends_writePosixPage (h : Ready calls s L regs n 1 file page) (hc : Started s file c)
    (hsafe : WritesPage calls s file page) : Ends s file page (writePosixPage calls file page) c := by
  rw [writePosixPage]
  refine h.ends_ifOpenWithPage hc fun hint hpage => ?_
  refine h.ends_atPage (by decide) hpage hc.interpreter fun c' hc' hseek => ?_
  obtain ⟨hbytes, hlow, hhigh⟩ := hsafe (not_nil_of_int hint) hpage hseek
  obtain ⟨cls, hcontents⟩ := h.contents (by decide) hpage
  have hready := h.pageReady (by decide) hpage
  have hcount : (integerValueOf (s.field page bytesInPageIndex)).toNat ≤ pageSize :=
    Int.toNat_le.mpr hhigh
  rw [Ends, wp_bind, wp_ofInterpreter, hc',
    wp_of_run (fetchInteger_run h.stack.counted hready.field hbytes), writePageBytes, wp_bind]
  refine (wp_fillBuffer hcontents.object hcount rfl).mono fun _ t ht => ?_
  rw [wp_bind, note, wp_modify, wp_bind, wp_get, wp_bind, note, wp_modify]
  refine h.stack.ends_answerBool_first ?_ _ _
  exact ht

theorem Ready.ends_truncatePosixFile (h : Ready calls s L regs n 2 file page)
    (hc : Started s file c) (hsafe : TruncatesFile calls s file page) :
    Ends s file page (truncatePosixFile calls file page) c := by
  rw [truncatePosixFile]
  refine h.ends_ifOpenWithPage hc fun hint hpage => ?_
  obtain ⟨hbytes, -⟩ := hsafe (not_nil_of_int hint) hpage
  have hready := h.pageReady (by decide) hpage
  rw [Ends, wp_bind, wp_ofInterpreter, newSizeOf, if_pos hpage, wp_bind, hc.interpreter,
    wp_of_run (pageNumberOf_run h.stack.counted hready), wp_bind,
    wp_of_run (fetchInteger_run h.stack.counted hready.field hbytes), wp_pure, wp_bind, note,
    wp_modify]
  exact h.stack.ends_answerBool_first rfl _ _

theorem Ready.ends_sizeOfPosixFile (h : Ready calls s L regs n 3 file page)
    (hc : Started s file c) : Ends s file page (sizeOfPosixFile calls file) c := by
  rw [Ends, sizeOfPosixFile, wp_bind, wp_ofInterpreter, hc.interpreter, requireOpen, wp_bind,
    wp_of_run (fetch_run h.stack.counted h.field), success, wp_modify, wp_bind, wp_get, wp_ite]
  have hflag : (popped s.interpreter 4).successFlag = true := hc.successFlag
  dsimp only
  rw [hflag, Bool.true_and]
  refine ⟨fun hopen => ?_, fun _ => (wp_pure _ _ _).mpr fun _ => ⟨rfl, fun _ _ => rfl⟩⟩
  have hint := hc.descriptor.resolve_left (of_decide_eq_true hopen)
  have hpassed := hc.passed
  have hodd := integerObjectOf_odd (calls.fileSize (integerValueOf (s.field file descriptorIndex)))
  rw [hc.interpreter] at hpassed
  rw [hopen, hpassed, wp_bind, wp_ofInterpreter, hc.interpreter,
    wp_of_run (handleOf_run h.stack.counted h.field hint), wp_bind, note, wp_modify, wp_ite]
  refine ⟨fun _ => ?_, fun _ => ?_⟩
  · rw [wp_bind, wp_ofInterpreter, wp_of_run (small_run (h.size rfl) _).1, wp_bind]
    refine (h.stack.ends_pushAnswer (.refl h.stack.counted) rfl (integerObjectOf_lt _) (by omega)
      (by omega) fun _ _ _ => rfl).mono fun _ _ ht => (wp_pure _ _ _).mpr ht
  · rw [wp_bind]
    refine (h.stack.ends_constant (.refl h.stack.counted) rfl List.mem_cons_self
      fun _ _ _ => rfl).mono fun _ _ ht => (wp_pure _ _ _).mpr ht

/-- The PosixFile is on the stack while its descriptor is stored. -/
theorem Ready.wp_storeDescriptor (h : Ready calls s L regs n code file page)
    (hoperand : stackOperand s.interpreter 3 = file) (hv : v < 65536) (hpos : 0 < v)
    (hva : v % 2 = 0 → Allocated s.interpreter.memory L v) :
    Wp (inMemory (storePointerOfObjectWithValue descriptorIndex file v)) (fun _ i =>
      ∃ L' g u, i = (popped s.interpreter 4).withMemory u ∧
        Written s.interpreter.memory L regs g L' u ∧
        (Apart s file page → g s.interpreter.activeContext =
          s.interpreter.memory.chunkWord s.interpreter.activeContext)) (popped s.interpreter 4) := by
  have hframe := h.stack.frame
  have hplace : PointerField s.interpreter.memory L s.interpreter.activeContext
      (headerSize + (n - 3)) := h.stack.top.below (Nat.le_add_right 2 _) (by omega)
  have hword : s.interpreter.memory.chunkWord s.interpreter.activeContext
      (headerSize + (n - 3)) = file := by
    have hindex : (s.interpreter.stackPointer - (3 : Nat)).toNat = n - 3 := by
      rw [h.stack.stackPointer]
      omega
    rw [← hoperand, stackOperand, hindex]
  rw [wp_inMemory]
  refine ((Written.refl h.stack.counted).wp_store (f := (descriptorIndex : Int)) hplace
    h.stack.root (.inr hword) h.field (Int.natCast_nonneg _) hv hpos hva).mono ?_
  rintro _ u ⟨L', hu⟩
  exact ⟨L', _, u, rfl, hu, fun hapart => funext fun _ => if_neg fun hall => hapart.1 hall.1.symm⟩

theorem Ready.ends_openPosixFile {name : Nat} (h : Ready calls s L regs n 4 file page)
    (hc : Started s file c) (hoperand : stackOperand s.interpreter 3 = file)
    (hname : stackOperand s.interpreter 1 = name)
    (hhandle : ∀ fileName, isIntegerValue (calls.openFile fileName) = true) :
    Ends s file page (openPosixFile calls file name) c := by
  obtain ⟨cls, k, hobject⟩ := h.name rfl
  rw [hname] at hobject
  have hobject' : IsByteObject (popped s.interpreter 4).memory name cls k := hobject
  rw [Ends, openPosixFile, wp_bind, wp_ofInterpreter, hc.interpreter,
    wp_of_run (fetchClass_run hobject'), wp_bind, wp_ofInterpreter, success, wp_modify, wp_bind,
    wp_get, wp_ite]
  have hflag : (popped s.interpreter 4).successFlag = true := hc.successFlag
  dsimp only
  rw [hflag, Bool.true_and]
  refine ⟨fun hstring => ?_, fun _ => (wp_pure _ _ _).mpr fun _ => ⟨rfl, fun _ _ => rfl⟩⟩
  have hpassed := hc.passed
  rw [hc.interpreter] at hpassed
  have hcls : cls = classStringPointer := of_decide_eq_true hstring
  rw [hcls] at hobject'
  rw [hstring, hpassed, wp_bind, wp_ofInterpreter, hc.interpreter,
    wp_of_run (stringFromObject_run hobject'), wp_bind, note, wp_modify, wp_ite]
  refine ⟨fun _ => ?_, fun _ => h.stack.ends_answerBool_first rfl _ _⟩
  have hodd := integerObjectOf_odd
    (calls.openFile (cStr (stringBytes (popped s.interpreter 4).memory name k)))
  rw [wp_bind, wp_ofInterpreter, wp_of_run (small_run (hhandle _) _).1, wp_bind, wp_ofInterpreter]
  refine (h.wp_storeDescriptor hoperand (integerObjectOf_lt _) (by omega) (by omega)).mono ?_
  rintro _ _ ⟨L', g, u, rfl, hu, hg⟩
  exact h.stack.ends_answerBool hu rfl (fun hapart _ _ => congrFun (hg hapart) _) _ _

theorem Ready.ends_closePosixFile (h : Ready calls s L regs n 5 file page)
    (hc : Started s file c) (hoperand : stackOperand s.interpreter 3 = file)
    (hsafe : s.field file descriptorIndex ≠ nilPointer) : Ends s file page (closePosixFile calls file) c := by
  have hint := hc.descriptor.resolve_left hsafe
  rw [Ends, closePosixFile, wp_bind, wp_ofInterpreter, hc.interpreter,
    wp_of_run (handleOf_run h.stack.counted h.field hint), wp_bind, note, wp_modify, wp_bind,
    wp_ofInterpreter]
  refine (h.wp_storeDescriptor hoperand (by decide) (by decide)
    fun _ => (h.stack.constants _ List.mem_cons_self).1).mono ?_
  rintro _ _ ⟨L', g, u, rfl, hu, hg⟩
  exact h.stack.ends_answerBool hu rfl (fun hapart _ _ => congrFun (hg hapart) _) _ _

/-! ## The primitive -/

theorem Ready.ends_posixFileOperation {name : Nat} (h : Ready calls s L regs n code file page)
    (hcalled : Called s code file page) (hname : stackOperand s.interpreter 1 = name)
    (hc : Started s file c) (hsafe : Safe calls s code file page)
    (hhandle : code = 4 → ∀ fileName, isIntegerValue (calls.openFile fileName) = true) :
    Ends s file page (posixFileOperation calls code file name page) c := by
  have hlow := hcalled.low
  have hhigh := hcalled.high
  have hcode : code = 0 ∨ code = 1 ∨ code = 2 ∨ code = 3 ∨ code = 4 ∨ code = 5 := by omega
  rcases hcode with rfl | rfl | rfl | rfl | rfl | rfl
  · exact h.ends_readPosixPage hc hcalled.pageOperand hsafe
  · exact h.ends_writePosixPage hc hsafe
  · exact h.ends_truncatePosixFile hc hsafe
  · exact h.ends_sizeOfPosixFile hc
  · exact h.ends_openPosixFile hc hcalled.fileOperand hname (hhandle rfl)
  · exact h.ends_closePosixFile hc hcalled.fileOperand hsafe

theorem Rooted.hasField (h : Rooted s s.interpreter.memory L regs n) {k : Nat} (hk : k ≤ 3) :
    HasField s.interpreter.memory s.interpreter.activeContext (s.interpreter.stackPointer - k) := by
  have hframe := h.frame
  have hstart : tempFrameStart = 6 := rfl
  have hindex : (n : Int) - k = ((n - k : Nat) : Int) := by omega
  have hfield : PointerField s.interpreter.memory L s.interpreter.activeContext
      (headerSize + ((n - k : Nat) : Int).toNat) :=
    h.top.below (Nat.le_add_right 2 _) (by omega)
  rw [h.stackPointer, hindex]
  exact hfield.hasField h.counted.heap (Int.natCast_nonneg _)

theorem Ready.ends (h : Ready calls s L regs n code file page) (hcalled : Called s code file page)
    (hsafe : Safe calls s code file page)
    (hhandle : code = 4 → ∀ fileName, isIntegerValue (calls.openFile fileName) = true) :
    Ends s file page (primitivePosixFileOperation calls) s := by
  have hlow := hcalled.low
  have hhigh := hcalled.high
  have hsmall : isIntegerValue code = true := isIntegerValue_iff.mpr ⟨by omega, by omega⟩
  have hpage := popStack_popped (h.stack.hasField (by decide)) hcalled.pageOperand
  have hname := popStack_popped (h.stack.hasField (k := 1) (by decide)) rfl
  have hcode := popInteger_popped (h.stack.hasField (by decide)) hcalled.codeOperand hsmall
    hcalled.successFlag
  have hfile := popStack_popped (h.stack.hasField (by decide)) hcalled.fileOperand
  have hrange : decide (code ≥ 0 ∧ code ≤ 6) = true := decide_eq_true ⟨hlow, by omega⟩
  have hnotNil : decide (file ≠ nilPointer) = true := decide_eq_true hcalled.file_ne
  have hsuccess := success_run (s := popped s.interpreter 4) hcalled.successFlag
  rw [popped_zero] at hpage
  rw [Ends, primitivePosixFileOperation, wp_bind, wp_ofInterpreter, wp_of_run hpage, wp_bind,
    wp_ofInterpreter, wp_of_run hname, wp_bind, wp_ofInterpreter, wp_of_run hcode, wp_bind,
    wp_ofInterpreter, wp_of_run hfile, wp_bind, wp_ofInterpreter, hrange, wp_of_run hsuccess,
    wp_bind, wp_ofInterpreter, hnotNil, wp_of_run hsuccess, wp_bind, wp_get,
    if_pos (show (popped s.interpreter 4).successFlag = true from hcalled.successFlag), wp_bind]
  have hstarted : Started s file ⟨popped s.interpreter 4, s.pageBuffer, s.trace⟩ :=
    ⟨rfl, hcalled.trace, hcalled.successFlag, hcalled.descriptor⟩
  exact (h.ends_posixFileOperation hcalled rfl hstarted hsafe hhandle).mono fun returned _ ht =>
    ends_endOperation returned ht

end Ends

/-! ## Truncating an open file, and closing a closed one -/

/-- The file of `fileState`, which is its own page 1. -/
def truncating : PageMachine := ⟨fileState.interpreter, fun _ => 0, []⟩

/-- All calls succeed. -/
def results : FatResults where
  toOutcomes := Handles.answers 2
  fRead := (frOk, 512, fun _ => 0)
  fWrite := (frOk, 512)
  fTruncate := frOk
  fSize := 512

theorem called_truncating : Called truncating 2 10 10 where
  successFlag := rfl
  trace := rfl
  pageOperand := (by decide : fileMemory.chunkWord 8 11 = 10)
  codeOperand := (by decide : fileMemory.chunkWord 8 9 = integerObjectOf 2)
  low := by decide
  high := by decide
  fileOperand := (by decide : fileMemory.chunkWord 8 8 = 10)
  file_ne := by decide
  descriptor := .inr (by decide : fileMemory.chunkWord 10 10 % 2 = 1)

theorem ready_truncating (calls : FileCalls) :
    Ready calls truncating blockLayout (fun _ => 1) 9 2 10 10 where
  stack := ⟨counted_fileMemory, le_rfl, rfl, by decide, renaming_fileState.top,
    renaming_fileState.constants⟩
  field := renaming_fileState.field
  pageReady _ _ := ⟨pointerField_fileMemory (.inr rfl) (by decide) (by decide),
    (by decide : fileMemory.chunkWord 10 5 % 2 = 1),
    (by decide : 1 ≤ integerValueOf (fileMemory.chunkWord 10 5))⟩
  contents hcode := absurd hcode (by decide)
  name hcode := absurd hcode (by decide)
  size hcode := absurd hcode (by decide)

/-- A context with a PosixFile without a descriptor, the code 5, and nil twice on its stack. -/
def closing : PageMachine where
  interpreter := { beforeTime with
    host := { beforeTime.host with
      memory := ((ObjectMemory.blank.place nilPointer 32768 40 [2, 32]).place 8 256 0
        [12, 32, 1, 1, 1, 1, 1, 1, 10, 11, 2, 2]).place 10 512 20
          [11, 32, 1, 1, 1, 1, 1, 1, 1, 1, 2] }
    activeContext := 8
    homeContext := 8
    stackPointer := 9
    successFlag := true }
  pageBuffer := fun _ => 0
  trace := []

end Operations

end Crosstalk
