import Crosstalk.Interpreter.MethodLookup
import Crosstalk.Interpreter.Returns
import Crosstalk.ObjectMemory.Written

/-!
# Evaluating a block

`primitiveValue` takes the arguments of a block from the stack, `primitiveValueWithArgs`
takes them from an Array. Both move them with `transfer`, which leaves nil where they
have been.
-/

namespace Crosstalk

abbrev callerIndex : Nat := 0
abbrev blockArgumentCountIndex : Nat := 3
abbrev initialIPIndex : Nat := 4

/-! ## The primitives -/

def argumentCountOfBlock (blockPointer : Nat) : IM Int :=
  fetchIntegerOfObject blockArgumentCountIndex blockPointer

def storeStackPointerValueInContext (value : Int) (contextPointer : Nat) : IM Unit :=
  storeIntegerOfObjectWithValue stackPointerIndex contextPointer value

/-- The end of both primitives. -/
def enterBlock (argumentCount blockContext : Nat) : IM Unit := do
  let initialIP ← inMemory (fetchPointerOfObject initialIPIndex blockContext)
  inMemory (storePointerOfObjectWithValue instructionPointerIndex blockContext initialIP)
  storeStackPointerValueInContext argumentCount blockContext
  inMemory (storePointerOfObjectWithValue callerIndex blockContext (← get).activeContext)
  newActiveContext blockContext

def primitiveValue : IM Unit := do
  let argumentCount := (← get).argumentCount
  let blockContext ← Interpreter.stackValue argumentCount
  let blockArgumentCount ← argumentCountOfBlock blockContext
  success (decide ((argumentCount : Int) = blockArgumentCount))
  let s ← get
  if s.successFlag then
    inMemory (transfer argumentCount (s.stackPointer - argumentCount + 1) s.activeContext
      tempFrameStart blockContext)
    pop (argumentCount + 1)
    enterBlock argumentCount blockContext

def primitiveValueWithArgs : IM Unit := do
  let argumentArray ← popStack
  let blockContext ← popStack
  let blockArgumentCount ← argumentCountOfBlock blockContext
  let arrayClass ← inMemory (fetchClassOf argumentArray)
  success (decide (arrayClass = classArrayPointer))
  let arrayArgumentCount ← if (← get).successFlag then do
      let arrayArgumentCount ← inMemory (fetchWordLengthOf argumentArray)
      success (decide (arrayArgumentCount = blockArgumentCount))
      pure arrayArgumentCount
    else
      pure 0
  if (← get).successFlag then
    inMemory (transfer arrayArgumentCount.toNat 0 argumentArray tempFrameStart blockContext)
    enterBlock arrayArgumentCount.toNat blockContext
  else
    unPop 2

/-! ## Moving the arguments -/

open ObjectMemory

/-- The words when `n` fields of `src` from `q` on have been moved to the frame of `dst`. -/
def transferred (m : ObjectMemory) (n src q dst p j : Nat) : Nat :=
  if p = dst ∧ headerSize + tempFrameStart ≤ j ∧ j < headerSize + tempFrameStart + n then
    m.chunkWord src (q + (j - (headerSize + tempFrameStart)))
  else if p = src ∧ q ≤ j ∧ j < q + n then nilPointer
  else m.chunkWord p j

theorem transferred_zero (m : ObjectMemory) (src q dst : Nat) :
    transferred m 0 src q dst = m.chunkWord := by
  funext p j
  rw [transferred, if_neg (by omega), if_neg (by omega)]

section Transfer

variable {m u : ObjectMemory} {L L' : Layout} {regs : Nat → Nat} {a k n src q dst : Nat}

theorem transferred_succ (hq : src ≠ dst ∨ headerSize + tempFrameStart < q) (i : Nat) :
    put (put (transferred m i src q dst) dst (headerSize + tempFrameStart + i)
      (m.chunkWord src (q + i))) src (q + i) nilPointer = transferred m (i + 1) src q dst := by
  funext p j
  simp only [put, transferred]
  by_cases hsrc : p = src ∧ j = q + i
  · rw [if_pos hsrc, if_neg (by omega), if_pos (by omega)]
  · rw [if_neg hsrc]
    by_cases hdst : p = dst ∧ j = headerSize + tempFrameStart + i
    · rw [if_pos hdst, if_pos (by omega)]
      congr 1
      omega
    · rw [if_neg hdst]
      exact if_congr (by omega) rfl (if_congr (by omega) rfl rfl)

/-- What holds while the fields of `src` are moved: the two objects are `a`, or in fields of
`a` that are left as they are. -/
structure Moving (m : ObjectMemory) (L : Layout) (regs : Nat → Nat) (a n src q dst : Nat) :
    Prop where
  counted : Counted m L regs
  root : 1 ≤ regs a
  nil : Allocated m L nilPointer ∧ 1 ≤ regs nilPointer
  source : ∀ i < n, PointerField m L src (q + i)
  target : ∀ i < n, PointerField m L dst (headerSize + tempFrameStart + i)
  apart : src ≠ dst ∨ headerSize + tempFrameStart < q
  sourceHeld : ∃ k, PointerField m L a k ∧ ∀ i ≤ n, Anchored (transferred m i src q dst) a k src
  targetHeld : ∃ k, PointerField m L a k ∧ ∀ i ≤ n, Anchored (transferred m i src q dst) a k dst

/-- One argument is moved. -/
theorem Moving.wp_round (h : Moving m L regs a n src q dst) {i : Nat} (hi : i < n)
    {f : Int} (hfrom : q = headerSize + f.toNat) (hfrom0 : 0 ≤ f)
    (hu : Written m L regs (transferred m i src q dst) L' u) :
    Wp (do
      let oop ← fetchPointerOfObject (f + i) src
      storePointerOfObjectWithValue ((tempFrameStart : Int) + i) dst oop
      storePointerOfObjectWithValue (f + i) src nilPointer)
      (fun _ t => ∃ L'', Written m L regs (transferred m (i + 1) src q dst) L'' t) u := by
  obtain ⟨ks, hks, hsource⟩ := h.sourceHeld
  obtain ⟨kd, hkd, htarget⟩ := h.targetHeld
  have hsrc := h.source i hi
  have hdst := h.target i hi
  have hapart := h.apart
  have hplace : headerSize + (f + i).toNat = q + i := by omega
  have hplace' : headerSize + ((tempFrameStart : Int) + i).toNat =
      headerSize + tempFrameStart + i := by omega
  have hsrcu := hu.anchored hks h.root hsrc.allocated.inUse.even (hsource i (by omega))
  have hword : transferred m i src q dst src (q + i) = m.chunkWord src (q + i) := by
    rw [transferred, if_neg (by omega), if_neg (by omega)]
  have hvalue : m.chunkWord src (q + i) % 2 = 0 → Allocated u L' (m.chunkWord src (q + i)) :=
    fun heven => by
      have halive := hu.value hsrcu hsrc (by rwa [hword])
      rwa [hword] at halive
  have hlt : m.chunkWord src (q + i) < 65536 := m.word_lt _ _
  have hpos : 0 < m.chunkWord src (q + i) := by
    by_contra hzero
    have h0 : m.chunkWord src (q + i) = 0 := by omega
    exact (hvalue (by omega)).ne_zero h0
  rw [wp_bind, hu.wp_fetch hsrcu (hplace ▸ hsrc) (by omega), hplace, hword, wp_bind]
  refine (hu.wp_store hkd h.root (htarget i (by omega)) (hplace' ▸ hdst) (by omega)
    hlt hpos hvalue).mono fun _ t ⟨L₁, ht⟩ => ?_
  rw [hplace'] at ht
  have hanchor : Anchored (put (transferred m i src q dst) dst (headerSize + tempFrameStart + i)
      (m.chunkWord src (q + i))) a ks src := by
    by_cases hsame : a = dst ∧ ks = headerSize + tempFrameStart + i
    · refine (hsource (i + 1) (by omega)).imp id fun hnext => ?_
      refine Eq.trans ?_ hnext
      rw [put, if_pos hsame, transferred, if_pos (by omega)]
      congr 1
      omega
    · exact (hsource i (by omega)).put (.inr hsame)
  have hrun := ht.wp_store hks h.root hanchor (hplace ▸ hsrc) (by omega) (by decide) (by decide)
    fun _ => ht.root _ h.nil.1 h.nil.2
  rw [hplace, transferred_succ hapart] at hrun
  exact hrun

theorem Moving.wp_transfer (h : Moving m L regs a n src q dst) {f : Int}
    (hfrom : q = headerSize + f.toNat) (hfrom0 : 0 ≤ f) :
    Wp (transfer n f src tempFrameStart dst)
      (fun _ u => ∃ L', Written m L regs (transferred m n src q dst) L' u) m := by
  refine wp_forN (fun i u => ∃ L', Written m L regs (transferred m i src q dst) L' u)
    (fun i u hi ⟨L', hu⟩ => h.wp_round hi hfrom hfrom0 hu) ⟨L, ?_⟩
  rw [transferred_zero]
  exact .refl h.counted

end Transfer

/-! ## Entering the block -/

/-- The words when the block `blk` with `n` arguments has been entered from `a`, which goes on at
`ip` with the stack up to `sp`. -/
def entered (g : Nat → Nat → Nat) (a blk n : Nat) (ip sp : Int) : Nat → Nat → Nat :=
  put (put (put (put (put g blk (headerSize + instructionPointerIndex)
      (g blk (headerSize + initialIPIndex)))
    blk (headerSize + stackPointerIndex) (integerObjectOf n))
    blk (headerSize + callerIndex) a)
    a (headerSize + instructionPointerIndex) (integerObjectOf (ip + 1)))
    a (headerSize + stackPointerIndex) (integerObjectOf (sp - tempFrameStart + 1))

theorem contextIndices : headerSize = 2 ∧ tempFrameStart = 6 ∧ homeIndex = 5 ∧ receiverIndex = 5 ∧
    callerIndex = 0 ∧ instructionPointerIndex = 1 ∧ stackPointerIndex = 2 ∧ methodIndex = 3 ∧
    blockArgumentCountIndex = 3 ∧ initialIPIndex = 4 :=
  ⟨rfl, rfl, rfl, rfl, rfl, rfl, rfl, rfl, rfl, rfl⟩

section Enter

variable {m u : ObjectMemory} {L L' : Layout} {regs : Nat → Nat} {g : Nat → Nat → Nat}
  {s : Interpreter} {a blk c j k n p : Nat} {x : Int}

theorem wp_storeInteger (h : Written m L regs g L' u) (ha : PointerField m L a k)
    (hroot : 1 ≤ regs a) (hanchor : Anchored g a k c) (hc : PointerField m L c (headerSize + j))
    (hx : isIntegerValue x = true) :
    Wp (storeIntegerOfObjectWithValue j c x) (fun _ t => ∃ L'' u', t = s.withMemory u' ∧
      Written m L regs (put g c (headerSize + j) (integerObjectOf x)) L'' u')
      (s.withMemory u) := by
  have hodd := integerObjectOf_odd x
  rw [storeIntegerOfObjectWithValue, if_pos hx, wp_inMemory]
  refine (h.wp_store (f := j) ha hroot hanchor hc (by omega) (integerObjectOf_lt x) (by omega)
    (by omega)).mono ?_
  rintro _ u' ⟨L'', hu'⟩
  exact ⟨L'', u', rfl, hu'⟩

theorem wp_fetchField {Q : Nat → Interpreter → Prop} (h : Written m L regs g L' u)
    (hp : Allocated u L' p) (hj : PointerField m L p (headerSize + j)) (hs : s.memory = u) :
    Wp (inMemory (fetchPointerOfObject j p)) Q s ↔ Q (g p (headerSize + j)) s := by
  subst hs
  rw [wp_inMemory]
  exact h.wp_fetch hp hj (by omega)

theorem wp_fetchInteger {Q : Int → Interpreter → Prop} (h : Written m L regs g L' u)
    (hp : Allocated u L' p) (hj : PointerField m L p (headerSize + j))
    (hodd : g p (headerSize + j) % 2 = 1) (hs : s.memory = u) :
    Wp (fetchIntegerOfObject j p) Q s ↔ Q (integerValueOf (g p (headerSize + j))) s := by
  rw [fetchIntegerOfObject, wp_bind, wp_fetchField h hp hj hs, if_pos (by exact hodd), wp_pure]

/-- The registers of the block that is active. -/
theorem wp_fetchContextRegisters_block (h : Written m L regs g L' s.memory)
    (hblk : Allocated s.memory L' s.activeContext)
    (hfield : PointerField m L s.activeContext (headerSize + homeIndex))
    (harguments : g s.activeContext (headerSize + methodIndex) % 2 = 1)
    (hip : g s.activeContext (headerSize + instructionPointerIndex) % 2 = 1)
    (hsp : g s.activeContext (headerSize + stackPointerIndex) % 2 = 1)
    (heven : g s.activeContext (headerSize + homeIndex) % 2 = 0)
    (hhome : PointerField m L (g s.activeContext (headerSize + homeIndex))
      (headerSize + receiverIndex)) :
    Wp fetchContextRegisters (fun _ t => t = { s with
      homeContext := g s.activeContext (headerSize + homeIndex)
      receiver := g (g s.activeContext (headerSize + homeIndex)) (headerSize + receiverIndex)
      method := g (g s.activeContext (headerSize + homeIndex)) (headerSize + methodIndex)
      instructionPointer :=
        integerValueOf (g s.activeContext (headerSize + instructionPointerIndex)) - 1
      stackPointer := integerValueOf (g s.activeContext (headerSize + stackPointerIndex)) +
        tempFrameStart - 1 }) s := by
  have hhomeu := h.value hblk hfield heven
  have hbelow : ∀ j ≤ homeIndex, PointerField m L s.activeContext (headerSize + j) := fun j hj =>
    hfield.below (Nat.le_add_right 2 j) (Nat.add_le_add_left hj 2)
  rw [fetchContextRegisters, wp_bind, fetchHomeContext, wp_bind, wp_get, wp_bind, isBlockContext,
    wp_bind]
  refine (wp_fetchField h hblk (hbelow methodIndex (by decide)) (by rfl)).mpr ?_
  rw [wp_pure, if_pos (by rw [decide_eq_true_eq]; exact harguments)]
  refine (wp_fetchField h hblk hfield (by rfl)).mpr ?_
  rw [wp_bind, wp_modify, wp_bind]
  refine (wp_fetchField h hhomeu hhome (by rfl)).mpr ?_
  rw [wp_bind, wp_modify, wp_bind]
  refine (wp_fetchField h hhomeu (hhome.below (by decide) (by decide)) (by rfl)).mpr ?_
  rw [wp_bind, wp_modify, wp_bind, wp_get, wp_bind]
  refine (wp_fetchInteger h hblk (hbelow instructionPointerIndex (by decide)) hip (by rfl)).mpr ?_
  rw [wp_bind, wp_modify, wp_bind]
  refine (wp_fetchInteger h hblk (hbelow stackPointerIndex (by decide)) hsp (by rfl)).mpr ?_
  rw [wp_modify]

/-- The state in which the block is active, when its words are `g`. -/
def inBlock (s : Interpreter) (g : Nat → Nat → Nat) (blk : Nat) : Interpreter :=
  { s with
    activeContext := blk
    homeContext := g blk (headerSize + homeIndex)
    receiver := g (g blk (headerSize + homeIndex)) (headerSize + receiverIndex)
    method := g (g blk (headerSize + homeIndex)) (headerSize + methodIndex)
    instructionPointer := integerValueOf (g blk (headerSize + instructionPointerIndex)) - 1
    stackPointer := integerValueOf (g blk (headerSize + stackPointerIndex)) + tempFrameStart - 1 }

/-- The active context becomes the caller of the block, which holds it from then on. -/
theorem wp_newActiveContext (h : Written m L regs g L' u) (ha : PointerField m L s.activeContext k)
    (hk : headerSize + tempFrameStart ≤ k) (hroot : 1 ≤ regs s.activeContext)
    (hanchor : Anchored g s.activeContext k blk)
    (hfield : PointerField m L blk (headerSize + homeIndex))
    (hcaller : g blk (headerSize + callerIndex) = s.activeContext)
    (hip : isIntegerValue (s.instructionPointer + 1) = true)
    (hsp : isIntegerValue (s.stackPointer - tempFrameStart + 1) = true)
    {g' : Nat → Nat → Nat}
    (hg : g' = put (put g s.activeContext (headerSize + instructionPointerIndex)
      (integerObjectOf (s.instructionPointer + 1))) s.activeContext
      (headerSize + stackPointerIndex) (integerObjectOf (s.stackPointer - tempFrameStart + 1)))
    (harguments : g' blk (headerSize + methodIndex) % 2 = 1)
    (hip' : g' blk (headerSize + instructionPointerIndex) % 2 = 1)
    (hsp' : g' blk (headerSize + stackPointerIndex) % 2 = 1)
    (heven : g' blk (headerSize + homeIndex) % 2 = 0)
    (hhome : PointerField m L (g' blk (headerSize + homeIndex)) (headerSize + receiverIndex)) :
    Wp (newActiveContext blk) (fun _ t => ∃ L'' regs' u', t = inBlock (s.withMemory u') g' blk ∧
      Written m L regs' g' L'' u' ∧ 1 ≤ regs' blk) (s.withMemory u) := by
  have hindex := contextIndices
  have hblk := hfield.allocated.inUse.even
  rw [newActiveContext, wp_bind, storeContextRegisters, wp_bind, wp_get, wp_bind]
  refine (wp_storeInteger h ha hroot (.inl rfl) (ha.below (by omega) (by omega)) hip).mono ?_
  rintro _ t ⟨L₁, u₁, rfl, h₁⟩
  refine (wp_storeInteger h₁ ha hroot (.inl rfl) (ha.below (by omega) (by omega)) hsp).mono ?_
  rintro _ t ⟨L₂, u₂, rfl, h₂⟩
  rw [← hg] at h₂
  have ha₂ := h₂.root _ ha.allocated hroot
  have hanchor' : Anchored g' s.activeContext k blk := by
    rw [hg]
    exact (hanchor.put (.inr (by omega))).put (.inr (by omega))
  have hcaller' : g' blk (headerSize + callerIndex) = s.activeContext := by
    rw [hg, put, if_neg (by omega), put, if_neg (by omega), hcaller]
  have hblk₂ := h₂.anchored ha hroot hblk hanchor'
  rw [wp_bind, wp_get, wp_bind, wp_inMemory, decreaseReferencesTo, wp_bind]
  refine (h₂.wp_countDown ha₂ hroot (h₂.count_ne_one hblk₂ (hfield.below (by omega) (by omega))
    hcaller' ha₂ hroot)).mono ?_
  rintro _ u₃ ⟨L₃, h₃, hkept⟩
  have h₄ := h₃.countedUp (hkept _ hblk₂)
  rw [wp_pure, wp_bind, wp_modify, wp_bind, wp_inMemory, increaseReferencesTo, wp_countUp]
  refine ⟨fun _ => hfield.allocated.lt, ?_⟩
  have hfetch := wp_fetchContextRegisters_block
    (s := { s.withMemory (u₃.countedUp blk) with activeContext := blk }) h₄
    (allocated_countedUp.mpr (hkept _ hblk₂)) hfield harguments hip' hsp' heven hhome
  refine hfetch.mono fun _ t ht => ⟨L₃, _, u₃.countedUp blk, ht, h₄, ?_⟩
  rw [held, if_pos rfl]
  omega

theorem entered_above {ip sp : Int} (hj : headerSize + stackPointerIndex < j) :
    entered g a blk n ip sp p j = g p j := by
  have hindex := contextIndices
  simp only [entered, put]
  rw [if_neg (by omega), if_neg (by omega), if_neg (by omega), if_neg (by omega),
    if_neg (by omega)]

theorem entered_instructionPointer {ip sp : Int}
    (hodd : g blk (headerSize + initialIPIndex) % 2 = 1) :
    entered g a blk n ip sp blk (headerSize + instructionPointerIndex) % 2 = 1 := by
  have hindex := contextIndices
  simp only [entered, put]
  rw [if_neg (by omega)]
  split
  · exact integerObjectOf_odd _
  · rw [if_neg (by omega), if_neg (by omega), if_pos (by simp), hodd]

theorem entered_stackPointer {ip sp : Int} :
    entered g a blk n ip sp blk (headerSize + stackPointerIndex) % 2 = 1 := by
  have hindex := contextIndices
  simp only [entered, put]
  split
  · exact integerObjectOf_odd _
  · rw [if_neg (by omega), if_neg (by omega), if_pos (by simp)]
    exact integerObjectOf_odd _

theorem entered_caller {ip sp : Int} :
    entered g a blk n ip sp blk (headerSize + callerIndex) = a := by
  have hindex := contextIndices
  simp only [entered, put]
  rw [if_neg (by omega), if_neg (by omega), if_pos (by simp)]

/-- What `enterBlock` needs of the block, of its home context and of the registers. -/
structure Enterable (m : ObjectMemory) (L : Layout) (regs : Nat → Nat) (g : Nat → Nat → Nat)
    (k blk n : Nat) (s : Interpreter) : Prop where
  caller : PointerField m L s.activeContext k
  place : headerSize + tempFrameStart ≤ k
  root : 1 ≤ regs s.activeContext
  anchor : Anchored g s.activeContext k blk
  block : PointerField m L blk (headerSize + homeIndex)
  arguments : g blk (headerSize + blockArgumentCountIndex) % 2 = 1
  initialIP : g blk (headerSize + initialIPIndex) % 2 = 1
  homeEven : g blk (headerSize + homeIndex) % 2 = 0
  home : PointerField m L (g blk (headerSize + homeIndex)) (headerSize + receiverIndex)
  count : isIntegerValue n = true
  instructionPointer : isIntegerValue (s.instructionPointer + 1) = true
  stackPointer : isIntegerValue (s.stackPointer - tempFrameStart + 1) = true

theorem Enterable.wp_enterBlock (h : Enterable m L regs g k blk n s)
    (hu : Written m L regs g L' u) {g' : Nat → Nat → Nat}
    (hg : g' = entered g s.activeContext blk n s.instructionPointer s.stackPointer) :
    Wp (enterBlock n blk) (fun _ t => ∃ L'' regs' u', t = inBlock (s.withMemory u') g' blk ∧
      Written m L regs' g' L'' u' ∧ 1 ≤ regs' blk) (s.withMemory u) := by
  have hindex := contextIndices
  have hplace := h.place
  have heven := h.block.allocated.inUse.even
  have hblk := hu.anchored h.caller h.root heven h.anchor
  have hfield : ∀ j ≤ homeIndex, PointerField m L blk (headerSize + j) := fun j hj =>
    h.block.below (by omega) (by omega)
  have hinitial := hfield initialIPIndex (by decide)
  have hlt : g blk (headerSize + initialIPIndex) < 65536 := by
    rw [← hu.word blk _ hblk hinitial.lt_size]
    exact u.word_lt _ _
  have hodd := h.initialIP
  rw [enterBlock, wp_bind]
  refine (wp_fetchField hu hblk hinitial (by rfl)).mpr ?_
  rw [wp_bind, wp_inMemory]
  refine (hu.wp_store (f := instructionPointerIndex) h.caller h.root h.anchor
    (hfield instructionPointerIndex (by decide)) (by omega) hlt (by omega) (by omega)).mono
    fun _ u₁ ⟨L₁, h₁⟩ => ?_
  have hanchor₁ := h.anchor.put (i := headerSize + instructionPointerIndex) (c := blk)
    (v := g blk (headerSize + initialIPIndex)) (.inr (by omega))
  rw [wp_bind, storeStackPointerValueInContext]
  refine (wp_storeInteger (s := s) h₁ h.caller h.root hanchor₁
    (hfield stackPointerIndex (by decide)) h.count).mono fun _ t ⟨L₂, u₂, ht, h₂⟩ => ?_
  subst ht
  have hanchor₂ := hanchor₁.put (i := headerSize + stackPointerIndex) (c := blk)
    (v := integerObjectOf n) (.inr (by omega))
  rw [wp_bind, wp_get, wp_bind, wp_inMemory]
  refine (h₂.wp_store (f := callerIndex) h.caller h.root hanchor₂ (hfield callerIndex (by decide))
    (by omega) h.caller.allocated.lt (Nat.pos_of_ne_zero h.caller.allocated.ne_zero)
    fun _ => h₂.root _ h.caller.allocated h.root).mono fun _ u₃ ⟨L₃, h₃⟩ => ?_
  have hanchor₃ := hanchor₂.put (i := headerSize + callerIndex) (c := blk)
    (v := s.activeContext) (.inr (by omega))
  refine wp_newActiveContext (s := s) h₃ h.caller hplace h.root hanchor₃ h.block
    (by exact if_pos ⟨rfl, rfl⟩) h.instructionPointer h.stackPointer hg ?_ ?_ ?_ ?_ ?_
  · rw [hg, entered_above (by omega)]
    exact h.arguments
  · rw [hg]
    exact entered_instructionPointer hodd
  · rw [hg]
    exact entered_stackPointer
  · rw [hg, entered_above (by omega)]
    exact h.homeEven
  · rw [hg, entered_above (by omega)]
    exact h.home

end Enter

/-! ## The two primitives -/

def IsContext (m : ObjectMemory) (p : Nat) : Prop :=
  m.chunkWord p 1 = classMethodContextPointer ∨ m.chunkWord p 1 = classBlockContextPointer

/-- A state in which a block with `n` arguments is evaluated: the counts are right, where the
machine holds the active context and nil; the block is on the stack, in the field `place` of the
active context, with the operands above it. -/
structure Calling (s : Interpreter) (L : Layout) (regs : Nat → Nat) (blk place n : Nat) : Prop where
  counted : Counted s.memory L regs
  root : 1 ≤ regs s.activeContext
  nil : Allocated s.memory L nilPointer ∧ 1 ≤ regs nilPointer
  caller : PointerField s.memory L s.activeContext place
  callerContext : IsContext s.memory s.activeContext
  place_le : headerSize + tempFrameStart ≤ place
  receiver : s.memory.chunkWord s.activeContext place = blk
  block : PointerField s.memory L blk (headerSize + homeIndex)
  blockContext : s.memory.chunkWord blk 1 = classBlockContextPointer
  room : headerSize + tempFrameStart + n ≤ s.memory.chunkWord blk 0
  arguments : s.memory.chunkWord blk (headerSize + blockArgumentCountIndex) % 2 = 1 ∧
    integerValueOf (s.memory.chunkWord blk (headerSize + blockArgumentCountIndex)) = n
  initialIP : s.memory.chunkWord blk (headerSize + initialIPIndex) % 2 = 1
  homeEven : s.memory.chunkWord blk (headerSize + homeIndex) % 2 = 0
  home : PointerField s.memory L (s.memory.chunkWord blk (headerSize + homeIndex))
    (headerSize + receiverIndex)
  homeContext : IsContext s.memory (s.memory.chunkWord blk (headerSize + homeIndex))
  instructionPointer : isIntegerValue (s.instructionPointer + 1) = true
  stackPointer : isIntegerValue ((place : Int) - headerSize - tempFrameStart) = true
  successFlag : s.successFlag = true

/-- The arguments are on the stack. -/
structure CallingValue (s : Interpreter) (L : Layout) (regs : Nat → Nat) (blk place n : Nat) :
    Prop where
  calling : Calling s L regs blk place n
  argumentCount : s.argumentCount = n
  top : (headerSize : Int) + s.stackPointer = place + n
  top_lt : place + n < s.memory.chunkWord s.activeContext 0

/-- The arguments are in an Array on the stack. A block that is running already has its
arguments below the Array. -/
structure CallingWithArgs (s : Interpreter) (L : Layout) (regs : Nat → Nat)
    (blk place n array : Nat) : Prop where
  calling : Calling s L regs blk place n
  top : (headerSize : Int) + s.stackPointer = place + 1
  argument : PointerField s.memory L s.activeContext (place + 1)
  argument_eq : s.memory.chunkWord s.activeContext (place + 1) = array
  array_pointer : Allocated s.memory L array ∧ (s.memory.entry array).pointer ≠ 0
  array_size : s.memory.chunkWord array 0 = headerSize + n
  array_class : s.memory.chunkWord array 1 = classArrayPointer
  apart : s.activeContext = blk → headerSize + tempFrameStart + n ≤ place + 1

section Primitives

variable {s : Interpreter} {L L' : Layout} {regs : Nat → Nat} {blk place n array k src q : Nat}
  {u : ObjectMemory}

theorem transferred_low {m : ObjectMemory} {p j : Nat} (hj : j < headerSize + tempFrameStart)
    (hq : p = src → j < q) : transferred m n src q blk p j = m.chunkWord p j := by
  rw [transferred, if_neg (by omega), if_neg (by omega)]

/-- After the transfer the block can be entered. -/
theorem Calling.enterable (h : Calling s L regs blk place n)
    (hlow : ∀ j < headerSize + tempFrameStart, blk = src → j < q)
    (hanchor : Anchored (transferred s.memory n src q blk) s.activeContext k blk)
    (hk : PointerField s.memory L s.activeContext k) (hk8 : headerSize + tempFrameStart ≤ k)
    {t : Interpreter} (hactive : t.activeContext = s.activeContext)
    (hip : t.instructionPointer = s.instructionPointer)
    (hsp : t.stackPointer = (place : Int) - headerSize - 1) :
    Enterable s.memory L regs (transferred s.memory n src q blk) k blk n t := by
  have hindex := contextIndices
  have hword : ∀ j < headerSize + tempFrameStart,
      transferred s.memory n src q blk blk j = s.memory.chunkWord blk j := fun j hj =>
    transferred_low hj (hlow j hj)
  refine ⟨hactive ▸ hk, hk8, hactive ▸ h.root, hactive ▸ hanchor, h.block, ?_, ?_, ?_, ?_, ?_, ?_, ?_⟩
  · rw [hword _ (by omega)]
    exact h.arguments.1
  · rw [hword _ (by omega)]
    exact h.initialIP
  · rw [hword _ (by omega)]
    exact h.homeEven
  · rw [hword _ (by omega)]
    exact h.home
  · rw [← h.arguments.2]
    exact isIntegerValue_integerValueOf _
  · rw [hip]
    exact h.instructionPointer
  · rw [hsp, show (place : Int) - headerSize - 1 - tempFrameStart + 1 =
      place - headerSize - tempFrameStart by omega]
    exact h.stackPointer

theorem Calling.target (h : Calling s L regs blk place n) {i : Nat} (hi : i < n) :
    PointerField s.memory L blk (headerSize + tempFrameStart + i) := by
  have hindex := contextIndices
  have hroom := h.room
  exact ⟨h.block.allocated, h.block.pointer, by omega, by omega⟩

/-- What both primitives read of the block. -/
theorem Calling.wp_argumentCountOfBlock (h : Calling s L regs blk place n)
    {Q : Int → Interpreter → Prop} {t : Interpreter} (ht : t.memory = s.memory) :
    Wp (argumentCountOfBlock blk) Q t ↔ Q n t := by
  have hindex := contextIndices
  have hwritten : Written s.memory L regs s.memory.chunkWord L s.memory := .refl h.counted
  rw [argumentCountOfBlock, wp_fetchInteger hwritten h.block.allocated
    (h.block.below (by omega) (by omega)) h.arguments.1 ht, h.arguments.2]

theorem wp_success_true {Q : Unit → Interpreter → Prop} : Wp (success true) Q s ↔ Q () s := by
  rw [success, wp_modify, Bool.and_true]

/-- The end of both primitives, when the arguments have been moved. -/
theorem Calling.wp_enterBlock (h : Calling s L regs blk place n)
    (hlow : ∀ j < headerSize + tempFrameStart, blk = src → j < q)
    (hanchor : Anchored (transferred s.memory n src q blk) s.activeContext k blk)
    (hk : PointerField s.memory L s.activeContext k) (hk8 : headerSize + tempFrameStart ≤ k)
    (hu : Written s.memory L regs (transferred s.memory n src q blk) L' u) {x : Int}
    (hx : x = (place : Int) - headerSize - 1) :
    Wp (enterBlock n blk) (fun _ t => ∃ L'' regs' u', t = inBlock (s.withMemory u')
        (entered (transferred s.memory n src q blk) s.activeContext blk n
          s.instructionPointer ((place : Int) - headerSize - 1)) blk ∧
      Written s.memory L regs' (entered (transferred s.memory n src q blk)
        s.activeContext blk n s.instructionPointer ((place : Int) - headerSize - 1)) L'' u' ∧
      1 ≤ regs' blk) { s.withMemory u with stackPointer := x } := by
  subst hx
  exact (h.enterable hlow hanchor hk hk8
    (t := { s with stackPointer := (place : Int) - headerSize - 1 }) rfl rfl rfl).wp_enterBlock
    hu rfl

/-- The block holds its caller. -/
theorem Calling.left (h : Calling s L regs blk place n) {g : Nat → Nat → Nat} {ip sp : Int}
    {regs' : Nat → Nat}
    (hu : Written s.memory L regs' (entered g s.activeContext blk n ip sp) L' u)
    (hroot : 1 ≤ regs' blk) : Allocated u L' blk ∧ Allocated u L' s.activeContext := by
  have hindex := contextIndices
  have hblk := hu.root blk h.block.allocated hroot
  have hcaller := hu.value hblk (h.block.below (k := headerSize + callerIndex) (by omega)
    (by omega)) (by rw [entered_caller]; exact h.caller.allocated.inUse.even)
  rw [entered_caller] at hcaller
  exact ⟨hblk, hcaller⟩

namespace CallingValue

variable (h : CallingValue s L regs blk place n)

include h

theorem anchored (i : Nat) : Anchored (transferred s.memory i s.activeContext (place + 1) blk)
    s.activeContext place blk := by
  by_cases hsame : blk = s.activeContext
  · exact .inl hsame
  · refine .inr ?_
    rw [transferred, if_neg (by omega), if_neg (by omega), h.calling.receiver]

theorem moving : Moving s.memory L regs s.activeContext n s.activeContext (place + 1) blk := by
  have hindex := contextIndices
  have htop := h.top_lt
  have hplace := h.calling.place_le
  refine ⟨h.calling.counted, h.calling.root, h.calling.nil, fun i hi => ?_, fun i hi =>
    h.calling.target hi, .inr (by omega), ⟨place, h.calling.caller, fun _ _ => .inl rfl⟩,
    ⟨place, h.calling.caller, fun i _ => h.anchored i⟩⟩
  exact ⟨h.calling.caller.allocated, h.calling.caller.pointer, by omega, by omega⟩

theorem wp_primitiveValue :
    Wp primitiveValue (fun _ t => ∃ L'' regs' u', t = inBlock (s.withMemory u')
        (entered (transferred s.memory n s.activeContext (place + 1) blk) s.activeContext blk n
          s.instructionPointer ((place : Int) - headerSize - 1)) blk ∧
      Written s.memory L regs' (entered (transferred s.memory n s.activeContext (place + 1) blk)
        s.activeContext blk n s.instructionPointer ((place : Int) - headerSize - 1)) L'' u' ∧
      1 ≤ regs' blk) s := by
  have hindex := contextIndices
  have hplace := h.calling.place_le
  have htop := h.top
  have hwritten : Written s.memory L regs s.memory.chunkWord L s.memory := .refl h.calling.counted
  have hfield : (headerSize + (s.stackPointer - n).toNat) = place := by omega
  rw [primitiveValue, wp_bind, wp_get, h.argumentCount, wp_bind, Interpreter.stackValue, wp_bind,
    wp_get, wp_inMemory]
  refine (hwritten.wp_fetch h.calling.caller.allocated (hfield ▸ h.calling.caller)
    (by omega)).mpr ?_
  have hself : s.withMemory s.memory = s := rfl
  rw [hself, hfield, h.calling.receiver, wp_bind, h.calling.wp_argumentCountOfBlock rfl,
    decide_eq_true rfl, wp_bind, wp_success_true, wp_bind, wp_get, if_pos h.calling.successFlag,
    wp_bind, wp_inMemory]
  refine (h.moving.wp_transfer (f := s.stackPointer - n + 1) (by omega) (by omega)).mono ?_
  rintro _ u ⟨L', hu⟩
  rw [wp_bind, pop, wp_modify]
  refine h.calling.wp_enterBlock (fun j hj _ => by omega) (h.anchored n) h.calling.caller hplace
    hu ?_
  show s.stackPointer - ((n + 1 : Nat) : Int) = _
  omega

end CallingValue

namespace CallingWithArgs

variable (h : CallingWithArgs s L regs blk place n array)

include h

theorem array_ne {p : Nat} (hp : IsContext s.memory p) : array ≠ p := by
  rintro rfl
  have hclass := h.array_class
  rcases hp with hp | hp <;> rw [hp] at hclass <;> cases hclass

theorem array_ne_blk : array ≠ blk := h.array_ne (.inr h.calling.blockContext)

/-- The stack has the block and the Array. -/
theorem anchored {i : Nat} (hi : i ≤ n) :
    Anchored (transferred s.memory i array headerSize blk) s.activeContext place blk ∧
      Anchored (transferred s.memory i array headerSize blk) s.activeContext (place + 1) array := by
  have hne := h.array_ne h.calling.callerContext
  have hapart := h.apart
  refine ⟨?_, .inr ?_⟩
  · by_cases hsame : blk = s.activeContext
    · exact .inl hsame
    · refine .inr ?_
      rw [transferred, if_neg (by omega), if_neg (by omega), h.calling.receiver]
  · rw [transferred, if_neg (by omega), if_neg (by omega), h.argument_eq]

theorem moving : Moving s.memory L regs s.activeContext n array headerSize blk := by
  have hsize := h.array_size
  refine ⟨h.calling.counted, h.calling.root, h.calling.nil, fun i hi => ?_, fun i hi =>
    h.calling.target hi, .inl h.array_ne_blk, ⟨place + 1, h.argument, fun i hi =>
    (h.anchored hi).2⟩, ⟨place, h.calling.caller, fun i hi => (h.anchored hi).1⟩⟩
  exact ⟨h.array_pointer.1, h.array_pointer.2, Nat.le_add_right 2 i, by omega⟩

theorem wp_primitiveValueWithArgs :
    Wp primitiveValueWithArgs (fun _ t => ∃ L'' regs' u', t = inBlock (s.withMemory u')
        (entered (transferred s.memory n array headerSize blk) s.activeContext blk n
          s.instructionPointer ((place : Int) - headerSize - 1)) blk ∧
      Written s.memory L regs' (entered (transferred s.memory n array headerSize blk)
        s.activeContext blk n s.instructionPointer ((place : Int) - headerSize - 1)) L'' u' ∧
      1 ≤ regs' blk) s := by
  have hindex := contextIndices
  have hplace := h.calling.place_le
  have htop := h.top
  have hne := h.array_ne_blk
  have hwritten : Written s.memory L regs s.memory.chunkWord L s.memory := .refl h.calling.counted
  have hplace₁ : headerSize + s.stackPointer.toNat = place + 1 := by omega
  have hplace₂ : headerSize + (s.stackPointer - 1).toNat = place := by omega
  have hfield₁ : HasField s.memory s.activeContext s.stackPointer :=
    hwritten.hasField h.argument.allocated (by rw [hplace₁]; exact h.argument) (by omega)
  have hfield₂ : HasField s.memory s.activeContext (s.stackPointer - 1) :=
    hwritten.hasField h.argument.allocated (by rw [hplace₂]; exact h.calling.caller) (by omega)
  have hpop₁ : popStack s = some (array, { s with stackPointer := s.stackPointer - 1 }) := by
    refine Wp.run_eq ((wp_popStack hfield₁).mpr ⟨?_, rfl⟩)
    rw [Interpreter.stackTop, hplace₁]
    exact h.argument_eq
  have hpop₂ : popStack { s with stackPointer := s.stackPointer - 1 } =
      some (blk, { s with stackPointer := s.stackPointer - 1 - 1 }) := by
    refine Wp.run_eq ((wp_popStack hfield₂).mpr ⟨?_, rfl⟩)
    rw [Interpreter.stackTop, hplace₂]
    exact h.calling.receiver
  have hin := h.array_pointer.1.inUse
  have hword := h.calling.counted.heap.tiled.word_lt hin (i := 1)
    (h.calling.counted.heap.tiled.two_le array hin)
  have hcount : ((headerSize + n : Nat) : Int) - headerSize = n := by omega
  have hpopped : ∀ t : Interpreter, t = { s with stackPointer := s.stackPointer - 1 - 1 } →
      t.memory = s.memory ∧ t.successFlag = true ∧ t.withMemory t.memory = t := by
    rintro t rfl
    exact ⟨rfl, h.calling.successFlag, rfl⟩
  rw [primitiveValueWithArgs, wp_bind, wp_of_run hpop₁, wp_bind, wp_of_run hpop₂, wp_bind]
  generalize ht : { s with stackPointer := s.stackPointer - 1 - 1 } = t
  obtain ⟨hmemory, hflag, hself⟩ := hpopped t ht.symm
  rw [h.calling.wp_argumentCountOfBlock hmemory, wp_bind, wp_inMemory, hmemory,
    wp_fetchClassOf hin.even, and_iff_right ⟨hin.isEntry, by exact hword.trans (by decide)⟩,
    ← hmemory, hself, hmemory, h.array_class, wp_bind, decide_eq_true rfl, wp_success_true,
    wp_bind, wp_get, if_pos hflag, wp_bind, wp_inMemory, hmemory, wp_fetchWordLengthOf,
    and_iff_right ⟨hin.isEntry, by omega⟩, ← hmemory, hself, hmemory, h.array_size, hcount, wp_bind,
    decide_eq_true rfl, wp_success_true, wp_bind, wp_pure, wp_bind, wp_get, if_pos hflag,
    Int.toNat_natCast, wp_bind, wp_inMemory, hmemory]
  refine (h.moving.wp_transfer (f := 0) rfl le_rfl).mono ?_
  rintro _ u ⟨L', hu⟩
  subst ht
  refine h.calling.wp_enterBlock (fun j hj hsame => absurd hsame.symm hne)
    (h.anchored le_rfl).1 h.calling.caller hplace hu ?_
  show s.stackPointer - 1 - 1 = _
  omega

/-- The Array is left, with nil in its fields. -/
theorem array_left {L' : Layout} {regs' : Nat → Nat} {u : ObjectMemory}
    (hu : Written s.memory L regs' (entered (transferred s.memory n array headerSize blk)
      s.activeContext blk n s.instructionPointer ((place : Int) - headerSize - 1)) L' u)
    (hroot : 1 ≤ regs' blk) {j : Nat} (hj : j < n) :
    u.chunkWord array (headerSize + j) = nilPointer := by
  have hindex := contextIndices
  have hplace := h.calling.place_le
  have hcaller := (h.calling.left hu hroot).2
  have hgarray : entered (transferred s.memory n array headerSize blk) s.activeContext blk n
      s.instructionPointer ((place : Int) - headerSize - 1) s.activeContext (place + 1) = array := by
    rw [entered_above (by omega)]
    exact (h.anchored le_rfl).2.resolve_left (h.array_ne h.calling.callerContext)
  have harray := hu.value hcaller h.argument (by
    rw [hgarray]
    exact h.array_pointer.1.inUse.even)
  rw [hgarray] at harray
  have hne := h.array_ne_blk
  have hne' := h.array_ne h.calling.callerContext
  rw [hu.word array _ harray (by rw [h.array_size]; omega)]
  simp only [entered, put]
  rw [if_neg (by omega), if_neg (by omega), if_neg (by omega), if_neg (by omega),
    if_neg (by omega), transferred, if_neg (by omega), if_pos (by omega)]

end CallingWithArgs

end Primitives

/-! ## The two compared -/

/-- The registers of the context that is active. -/
structure SameRegisters (t t' : Interpreter) : Prop where
  activeContext : t.activeContext = t'.activeContext
  homeContext : t.homeContext = t'.homeContext
  receiver : t.receiver = t'.receiver
  method : t.method = t'.method
  instructionPointer : t.instructionPointer = t'.instructionPointer
  stackPointer : t.stackPointer = t'.stackPointer
  successFlag : t.successFlag = t'.successFlag

/-- The object `p` has the same fields in both, those of the context `a` below `place`. -/
def SameFields (m m' : ObjectMemory) (a place p : Nat) : Prop :=
  ∀ j < m.chunkWord p 0, (p = a → j < place) → m.chunkWord p j = m'.chunkWord p j

/-- The same evaluation of the block, once with the arguments on the stack and once with an
Array of them. -/
structure SameCall (s s' : Interpreter) (blk place n array : Nat) : Prop where
  activeContext : s.activeContext = s'.activeContext
  instructionPointer : s.instructionPointer = s'.instructionPointer
  fields : ∀ p, p = s.activeContext ∨ p = blk ∨
    p = s.memory.chunkWord blk (headerSize + homeIndex) →
      SameFields s.memory s'.memory s.activeContext place p
  arguments : ∀ j < n, s.memory.chunkWord s.activeContext (place + 1 + j) =
    s'.memory.chunkWord array (headerSize + j)

/-- The block has been entered with the same registers, the same block context and the same
stack of the caller, without the receiver and the operands. -/
structure EnteredAlike (a blk place : Nat) (t t' : Interpreter) : Prop where
  registers : SameRegisters t t'
  activeContext : t.activeContext = blk
  caller : SameFields t.memory t'.memory a place a
  block : SameFields t.memory t'.memory a place blk

/-- Both primitives enter the block alike, and the Array is as it was. -/
def Agree (s s' : Interpreter) (blk place n array : Nat) : Prop :=
  ∃ t t', primitiveValue s = some ((), t) ∧ primitiveValueWithArgs s' = some ((), t') ∧
    EnteredAlike s.activeContext blk place t t' ∧
    ∀ j < n, t'.memory.chunkWord array (headerSize + j) =
      s'.memory.chunkWord array (headerSize + j)

section Compared

variable {s s' : Interpreter} {L L' : Layout} {regs regs' : Nat → Nat} {blk place n array : Nat}

section Same

variable (h : CallingValue s L regs blk place n)
  (h' : CallingWithArgs s' L' regs' blk place n array) (hsame : SameCall s s' blk place n array)

include h h' hsame

omit h' in
theorem SameCall.home_eq : s.memory.chunkWord blk (headerSize + homeIndex) =
    s'.memory.chunkWord blk (headerSize + homeIndex) := by
  have hindex := contextIndices
  have hplace := h.calling.place_le
  exact hsame.fields blk (.inr (.inl rfl)) _ h.calling.block.lt_size fun _ => by omega

theorem SameCall.transferred_eq {p j : Nat} (hp : p = s.activeContext ∨ p = blk ∨
      p = s.memory.chunkWord blk (headerSize + homeIndex))
    (hj : j < s.memory.chunkWord p 0) (hlt : p = s.activeContext → j < place) :
    transferred s.memory n s.activeContext (place + 1) blk p j =
      transferred s'.memory n array headerSize blk p j := by
  have hcontext : IsContext s'.memory p := by
    rcases hp with rfl | rfl | rfl
    · rw [hsame.activeContext]
      exact h'.calling.callerContext
    · exact .inr h'.calling.blockContext
    · rw [hsame.home_eq h]
      exact h'.calling.homeContext
  have hne := h'.array_ne hcontext
  rw [transferred, transferred]
  by_cases harg : p = blk ∧ headerSize + tempFrameStart ≤ j ∧ j < headerSize + tempFrameStart + n
  · rw [if_pos harg, if_pos harg]
    exact hsame.arguments _ (by omega)
  · rw [if_neg harg, if_neg harg, if_neg (by omega), if_neg (by omega)]
    exact hsame.fields p hp j hj hlt

theorem SameCall.entered_eq {p j : Nat} (hp : p = s.activeContext ∨ p = blk ∨
      p = s.memory.chunkWord blk (headerSize + homeIndex))
    (hj : j < s.memory.chunkWord p 0) (hlt : p = s.activeContext → j < place) (sp : Int) :
    entered (transferred s.memory n s.activeContext (place + 1) blk) s.activeContext blk n
        s.instructionPointer sp p j =
      entered (transferred s'.memory n array headerSize blk) s'.activeContext blk n
        s'.instructionPointer sp p j := by
  have hindex := contextIndices
  have hplace := h.calling.place_le
  have hsize := h.calling.block.lt_size
  have hinitial := hsame.transferred_eq h h' (p := blk) (j := headerSize + initialIPIndex)
    (.inr (.inl rfl)) (by omega) fun _ => by omega
  rw [← hsame.activeContext, ← hsame.instructionPointer]
  simp only [entered, put]
  rw [hinitial, hsame.transferred_eq h h' hp hj hlt]

theorem SameCall.registers {sp : Int} {u u' : ObjectMemory} : SameRegisters
    (inBlock (s.withMemory u) (entered (transferred s.memory n s.activeContext (place + 1) blk)
      s.activeContext blk n s.instructionPointer sp) blk)
    (inBlock (s'.withMemory u') (entered (transferred s'.memory n array headerSize blk)
      s'.activeContext blk n s'.instructionPointer sp) blk) := by
  have hindex := contextIndices
  have hplace := h.calling.place_le
  have hsize := h.calling.block.lt_size
  have hhomeSize := h.calling.home.lt_size
  have hblk : ∀ j ≤ homeIndex, _ := fun j hj =>
    hsame.entered_eq h h' (p := blk) (j := headerSize + j) (.inr (.inl rfl)) (by omega)
      (fun _ => by omega) sp
  have hhome : entered (transferred s.memory n s.activeContext (place + 1) blk) s.activeContext
      blk n s.instructionPointer sp blk (headerSize + homeIndex) =
        s.memory.chunkWord blk (headerSize + homeIndex) := by
    rw [entered_above (by omega), transferred_low (by omega) fun _ => by omega]
  have hfield : ∀ j ≤ receiverIndex, _ := fun j hj =>
    hsame.entered_eq h h' (p := s.memory.chunkWord blk (headerSize + homeIndex))
      (j := headerSize + j) (.inr (.inr rfl)) (by omega) (fun _ => by omega) sp
  refine ⟨rfl, hblk homeIndex (by decide), ?_, ?_, ?_, ?_, ?_⟩
  · show entered _ _ _ _ _ _ (entered _ _ _ _ _ _ _ _) _ =
      entered _ _ _ _ _ _ (entered _ _ _ _ _ _ _ _) _
    rw [← hblk homeIndex (by decide), hhome]
    exact hfield receiverIndex (by decide)
  · show entered _ _ _ _ _ _ (entered _ _ _ _ _ _ _ _) _ =
      entered _ _ _ _ _ _ (entered _ _ _ _ _ _ _ _) _
    rw [← hblk homeIndex (by decide), hhome]
    exact hfield methodIndex (by decide)
  · exact congrArg (integerValueOf · - 1) (hblk instructionPointerIndex (by decide))
  · exact congrArg (integerValueOf · + (tempFrameStart : Int) - 1)
      (hblk stackPointerIndex (by decide))
  · exact h.calling.successFlag.trans h'.calling.successFlag.symm

/-- Whatever the arguments are, the block is entered alike, and the Array is left with nil in
its fields. -/
theorem SameCall.enteredAlike :
    ∃ t t', primitiveValue s = some ((), t) ∧ primitiveValueWithArgs s' = some ((), t') ∧
      EnteredAlike s.activeContext blk place t t' ∧
      ∀ j < n, t'.memory.chunkWord array (headerSize + j) = nilPointer := by
  obtain ⟨⟨⟩, t, hrun, L₁, regs₁, u, ht, hu, hroot⟩ := h.wp_primitiveValue
  obtain ⟨⟨⟩, t', hrun', L₂, regs₂, u', ht', hu', hroot'⟩ := h'.wp_primitiveValueWithArgs
  have hplace := h.calling.place_le
  have hleft := h.calling.left hu hroot
  have hleft' := h'.calling.left hu' hroot'
  rw [← hsame.activeContext] at hleft'
  have hfields : ∀ p, p = s.activeContext ∨ p = blk → Allocated u L₁ p → Allocated u' L₂ p →
      SameFields u u' s.activeContext place p := fun p hp hpu hpu' j hj hlt => by
    have hp' : p = s.activeContext ∨ p = blk ∨
      p = s.memory.chunkWord blk (headerSize + homeIndex) := hp.imp_right .inl
    have hpos : 0 < s.memory.chunkWord p 0 := by
      have hcaller := h.calling.caller.lt_size
      have hblock := h.calling.block.lt_size
      rcases hp with rfl | rfl <;> omega
    have hzero := hsame.fields p hp' 0 hpos fun _ => by
      have hindex := contextIndices
      omega
    rw [hu.word p 0 hpu hpos, hu.size] at hj
    rw [hu.word p j hpu hj, hu'.word p j hpu' (by omega), hsame.entered_eq h h' hp' hj hlt _]
  subst ht ht'
  exact ⟨_, _, hrun, hrun', ⟨hsame.registers h h', rfl, hfields _ (.inl rfl) hleft.2 hleft'.2,
    hfields _ (.inr rfl) hleft.1 hleft'.1⟩, fun j hj => h'.array_left hu' hroot' hj⟩

theorem SameCall.agree_nil (hagree : Agree s s' blk place n array) :
    ∀ j < n, s'.memory.chunkWord array (headerSize + j) = nilPointer := fun j hj => by
  obtain ⟨t₁, t₁', -, hrun₁', -, harray⟩ := hagree
  obtain ⟨t, t', -, hrun', -, hnil⟩ := hsame.enteredAlike h h'
  rw [hrun'] at hrun₁'
  cases hrun₁'
  rw [← harray j hj, hnil j hj]

theorem SameCall.agree (hnil : ∀ j < n, s'.memory.chunkWord array (headerSize + j) = nilPointer) :
    Agree s s' blk place n array := by
  obtain ⟨t, t', hrun, hrun', halike, harray⟩ := hsame.enteredAlike h h'
  exact ⟨t, t', hrun, hrun', halike, fun j hj => (harray j hj).trans (hnil j hj).symm⟩

end Same

/-- The call with the arguments on the stack and the one with the same arguments in an Array
enter the block alike, and the Array is as it was, exactly where all its elements are nil. -/
theorem agree_iff (h : CallingValue s L regs blk place n)
    (h' : CallingWithArgs s' L' regs' blk place n array) (hsame : SameCall s s' blk place n array) :
    Agree s s' blk place n array ↔
      ∀ j < n, s'.memory.chunkWord array (headerSize + j) = nilPointer :=
  ⟨hsame.agree_nil h h', hsame.agree h h'⟩

end Compared

/-! ## A block with one argument -/

/-- Oop 2 is nil, oop 4 an Array with the SmallInteger 1, oop 8 the active context, with the block
oop 10 and `x` on its stack. The other oops up to 34 fill the segments. -/
def blockWord (x s w : Nat) : Nat :=
  if s = 15 then
    if w = 65534 then 36
    else if w % 2 = 0 then
      if w = 4 then 32832 else if w = 8 then 32833 else if w = 10 then 32834
      else if w ≤ 34 then 32768 + (w / 2 - 3)
      else 32
    else if w = 5 then 2
    else if w = 7 then 5
    else if w ≤ 35 then 0
    else if w < 65533 then w + 1
    else 65535
  else if 65515 ≤ w then 65535
  else if s = 0 then
    if w = 0 then 2 else if w = 2 then 3 else if w = 3 then 16 else if w = 4 then 3
    else if w = 5 then 65510 else 1
  else if s = 1 then
    if w = 0 then 65514 else if w = 1 then 22 else if w = 8 then 10
    else if w = 9 then x % 65536 else 1
  else if s = 2 then
    if w = 0 then 65514 else if w = 1 then 24 else if w = 5 then 3 else if w = 7 then 8 else 1
  else if w = 0 then 65515
  else 1

theorem blockWord_lt (x s w : Nat) : blockWord x s w < 65536 := by
  have hx : x % 65536 < 65536 := Nat.mod_lt _ (by decide)
  unfold blockWord
  repeat' refine ite_lt_of (fun _ => ?_) fun _ => ?_
  all_goals omega

def blockMemory (x : Nat) : ObjectMemory := ⟨⟨blockWord x, blockWord_lt x⟩, 0, 0, 32749⟩

def blockExtent (p : Nat) : Nat :=
  if p = 2 then 2 else if p = 4 then 3 else if p = 6 then 65510 else 65515

def blockLayout : Layout where
  freePointers := List.range' 36 32749 2
  chunks _ _ := []
  extent := blockExtent

section BlockMemory

variable {x p i : Nat}

theorem entry_blockMemory (hp : IsOop p) : (blockMemory x).entry p =
    if p = 4 then ⟨128, 0, 1, 0, 0⟩ else if p = 8 then ⟨128, 0, 1, 0, 1⟩
    else if p = 10 then ⟨128, 0, 1, 0, 2⟩
    else if p ≤ 34 then ⟨128, 0, 0, 0, p / 2 - 3⟩ else ⟨0, 0, 0, 1, 0⟩ := by
  obtain ⟨heven, htwo, hle⟩ := hp
  show decodeEntry (blockWord x 15 p) = _
  rw [blockWord, if_pos rfl, if_neg (by omega), if_pos heven]
  have hfill : ∀ s < 15, decodeEntry (32768 + s) = ⟨128, 0, 0, 0, s⟩ := by decide
  by_cases h4 : p = 4
  · rw [if_pos h4, if_pos h4]
    rfl
  · rw [if_neg h4, if_neg h4]
    by_cases h8 : p = 8
    · rw [if_pos h8, if_pos h8]
      rfl
    · rw [if_neg h8, if_neg h8]
      by_cases h10 : p = 10
      · rw [if_pos h10, if_pos h10]
        rfl
      · rw [if_neg h10, if_neg h10]
        by_cases h34 : p ≤ 34
        · rw [if_pos h34, if_pos h34]
          exact hfill _ (by omega)
        · rw [if_neg h34, if_neg h34]
          rfl

theorem location_blockMemory (hp : IsOop p) : (blockMemory x).location p =
    if p = 4 then 2 else if p = 6 then 5 else if p ≤ 34 then 0
    else if p < 65532 then p + 2 else 65535 := by
  obtain ⟨heven, htwo, hle⟩ := hp
  show blockWord x 15 (p + 1) = _
  rw [blockWord, if_pos rfl, if_neg (by omega), if_neg (by omega)]
  exact if_congr (by omega) rfl (if_congr (by omega) rfl (if_congr (by omega) rfl
    (if_congr (by omega) rfl rfl)))

/-- Where the object `p` is. -/
theorem span_blockMemory (hp : IsOop p) (hle : p ≤ 34) :
    ((blockMemory x).entry p).segment = p / 2 - 3 ∧
      (p = 2 ∧ (blockMemory x).location p = 0 ∧ blockExtent p = 2 ∨
        p = 4 ∧ (blockMemory x).location p = 2 ∧ blockExtent p = 3 ∨
        p = 6 ∧ (blockMemory x).location p = 5 ∧ blockExtent p = 65510 ∨
        8 ≤ p ∧ (blockMemory x).location p = 0 ∧ blockExtent p = 65515) := by
  have heven := hp.1
  have htwo := hp.2.1
  rw [entry_blockMemory hp, location_blockMemory hp, if_pos hle, blockExtent, if_pos hle]
  refine ⟨?_, ?_⟩
  · split
    · next h4 => rw [h4]
    · split
      · next h8 => rw [h8]
      · split
        · next h10 => rw [h10]
        · rfl
  · by_cases h2 : p = 2
    · subst h2
      exact .inl ⟨rfl, rfl, rfl⟩
    · by_cases h4 : p = 4
      · subst h4
        exact .inr (.inl ⟨rfl, rfl, rfl⟩)
      · by_cases h6 : p = 6
        · subst h6
          exact .inr (.inr (.inl ⟨rfl, rfl, rfl⟩))
        · rw [if_neg h4, if_neg h6, if_neg h2, if_neg h4, if_neg h6]
          exact .inr (.inr (.inr ⟨by omega, rfl, rfl⟩))

theorem count_blockMemory (hp : IsOop p) (hle : p ≤ 34) :
    ((blockMemory x).entry p).free = 0 ∧ ((blockMemory x).entry p).count = 128 := by
  rw [entry_blockMemory hp, if_pos hle]
  split
  · exact ⟨rfl, rfl⟩
  · split
    · exact ⟨rfl, rfl⟩
    · split <;> exact ⟨rfl, rfl⟩

theorem inUse_blockMemory : InUse (blockMemory x) p ↔ IsOop p ∧ p ≤ 34 := by
  refine and_congr_right fun hp => ⟨fun hfree => ?_, fun hle => (count_blockMemory hp hle).1⟩
  by_contra hle
  rw [entry_blockMemory hp, if_neg (by omega), if_neg (by omega), if_neg (by omega), if_neg hle]
    at hfree
  cases hfree

theorem allocated_blockMemory :
    Allocated (blockMemory x) blockLayout p ↔ IsOop p ∧ p ≤ 34 :=
  ⟨fun h => inUse_blockMemory.mp h.1, fun h => ⟨inUse_blockMemory.mpr h, fun _ _ hmem =>
    absurd hmem List.not_mem_nil⟩⟩

theorem tiled_blockMemory : Tiled (blockMemory x) blockExtent := by
  have hspan : ∀ {p}, InUse (blockMemory x) p → IsOop p ∧ p ≤ 34 ∧ _ := fun {p} hp =>
    have hin := inUse_blockMemory.mp hp
    ⟨hin.1, hin.2, span_blockMemory (x := x) hin.1 hin.2⟩
  refine ⟨fun p hp => ?_, fun p hp => ?_, fun p hp => ?_, fun p q hp hq hne hseg => ?_,
    fun u w hu hw => ?_⟩
  · obtain ⟨-, hle, hsegment, -⟩ := hspan hp
    omega
  · obtain ⟨-, -, -, hplace⟩ := hspan hp
    omega
  · obtain ⟨-, -, -, hplace⟩ := hspan hp
    omega
  · obtain ⟨⟨hpe, -, -⟩, -, hps, hplace⟩ := hspan hp
    obtain ⟨⟨hqe, -, -⟩, -, hqs, hplace'⟩ := hspan hq
    omega
  · have hcover : ∀ p, IsOop p → p ≤ 34 → p / 2 - 3 = u → (blockMemory x).location p ≤ w →
        w < (blockMemory x).location p + blockExtent p → ∃ p, InUse (blockMemory x) p ∧
          ((blockMemory x).entry p).segment = u ∧ (blockMemory x).location p ≤ w ∧
          w < (blockMemory x).location p + blockExtent p := fun p hp hle hsegment hge hlt =>
      ⟨p, inUse_blockMemory.mpr ⟨hp, hle⟩, (span_blockMemory hp hle).1.trans hsegment, hge, hlt⟩
    by_cases h0 : u = 0
    · have h2 : IsOop 2 := ⟨rfl, le_rfl, by decide⟩
      have h4 : IsOop 4 := ⟨rfl, by decide, by decide⟩
      have h6 : IsOop 6 := ⟨rfl, by decide, by decide⟩
      have hplace₂ := (span_blockMemory (x := x) h2 (by decide)).2
      have hplace₄ := (span_blockMemory (x := x) h4 (by decide)).2
      have hplace₆ := (span_blockMemory (x := x) h6 (by decide)).2
      by_cases hw2 : w < 2
      · exact hcover 2 h2 (by decide) (by omega) (by omega) (by omega)
      · by_cases hw5 : w < 5
        · exact hcover 4 h4 (by decide) (by omega) (by omega) (by omega)
        · exact hcover 6 h6 (by decide) (by omega) (by omega) (by omega)
    · have hoop : IsOop (6 + 2 * u) := ⟨by omega, by omega, by omega⟩
      have hplace := (span_blockMemory (x := x) hoop (by omega)).2
      exact hcover (6 + 2 * u) hoop (by omega) (by omega) (by omega) (by omega)

theorem linked_blockMemory :
    Linked (blockMemory x).location nonPointer (blockMemory x).freeHead
      (List.range' 36 32749 2) := by
  have hsparse := linked_sparse (.inl rfl : (2 : Nat) = 2 ∨ (2 : Nat) = 4) (n := 32749) (p := 36) rfl
    le_rfl rfl
  have hhead : (blockMemory x).freeHead = 36 := rfl
  rw [if_neg (by omega)] at hsparse
  rw [hhead]
  refine hsparse.congr fun p hp => ?_
  obtain ⟨i, hi, rfl⟩ := List.mem_range'.mp hp
  have hoop : IsOop (36 + 2 * i) := ⟨by omega, by omega, by omega⟩
  rw [location_blockMemory hoop, location_sparse hoop, if_neg (show ¬36 + 2 * i = 4 by omega),
    if_neg (show ¬36 + 2 * i = 6 by omega), if_neg (show ¬36 + 2 * i ≤ 34 by omega),
    if_neg (show ¬36 + 2 * i = 2 by omega), if_neg (show ¬36 + 2 * i = 6 - 2 by omega),
    if_neg (show ¬36 + 2 * i = 6 by omega),
    if_neg (show ¬(6 ≤ 36 + 2 * i ∧ 36 + 2 * i ≤ 34) by omega)]

theorem chunkWord_blockMemory (hp : IsOop p) (hle : p ≤ 34) : (blockMemory x).chunkWord p i =
    blockWord x (p / 2 - 3) ((blockMemory x).location p + i) := by
  rw [← (span_blockMemory (x := x) hp hle).1]
  rfl

theorem chunkWord_caller (hi : i < 65514) : (blockMemory x).chunkWord 8 i =
    if i = 0 then 65514 else if i = 1 then 22 else if i = 8 then 10
    else if i = 9 then x % 65536 else 1 := by
  have hoop : IsOop 8 := ⟨rfl, by decide, by decide⟩
  have hplace := (span_blockMemory (x := x) hoop (by decide)).2
  have hlocation : (blockMemory x).location 8 = 0 := by omega
  rw [chunkWord_blockMemory hoop (by decide), hlocation, Nat.zero_add, blockWord,
    if_neg (by decide), if_neg (by omega), if_neg (by decide), if_pos rfl]

theorem chunkWord_block (hi : i < 65514) : (blockMemory x).chunkWord 10 i =
    if i = 0 then 65514 else if i = 1 then 24 else if i = 5 then 3 else if i = 7 then 8
    else 1 := by
  have hoop : IsOop 10 := ⟨rfl, by decide, by decide⟩
  have hplace := (span_blockMemory (x := x) hoop (by decide)).2
  have hlocation : (blockMemory x).location 10 = 0 := by omega
  rw [chunkWord_blockMemory hoop (by decide), hlocation, Nat.zero_add, blockWord,
    if_neg (by decide), if_neg (by omega), if_neg (by decide), if_neg (by decide), if_pos rfl]

/-- The other objects have no pointers. -/
theorem filler_blockMemory (hp : IsOop p) (hle : p ≤ 34) (h4 : p ≠ 4) (h8 : p ≠ 8) (h10 : p ≠ 10) :
    (blockMemory x).chunkWord p 0 = blockExtent p ∧ (blockMemory x).chunkWord p 1 = 1 ∧
      ((blockMemory x).entry p).pointer = 0 := by
  obtain ⟨hsegment, hplace⟩ := span_blockMemory (x := x) hp hle
  have heven := hp.1
  have hpointer : ((blockMemory x).entry p).pointer = 0 := by
    rw [entry_blockMemory hp, if_neg h4, if_neg h8, if_neg h10, if_pos hle]
  rw [chunkWord_blockMemory hp hle, chunkWord_blockMemory hp hle]
  rcases hplace with ⟨rfl, hlocation, hext⟩ | ⟨rfl, -⟩ | ⟨rfl, hlocation, hext⟩ |
    ⟨hge, hlocation, hext⟩
  · exact ⟨rfl, rfl, hpointer⟩
  · exact absurd rfl h4
  · exact ⟨rfl, rfl, hpointer⟩
  · rw [hlocation, hext]
    refine ⟨?_, ?_, hpointer⟩
    · rw [blockWord, if_neg (by omega), if_neg (by omega), if_neg (by omega), if_neg (by omega),
        if_neg (by omega), if_pos (by omega)]
    · rw [blockWord, if_neg (by omega), if_neg (by omega), if_neg (by omega), if_neg (by omega),
        if_neg (by omega), if_neg (by omega)]

/-- The sizes, and which words of the objects are pointers. -/
theorem words_blockMemory (hx : x = 3 ∨ x = 4) (hp : IsOop p) (hle : p ≤ 34) :
    (blockMemory x).space p = blockExtent p ∧ (blockMemory x).last p ≤ (blockMemory x).chunkWord p 0 ∧
      ∀ i, IsPointer (blockMemory x) p i → IsOop ((blockMemory x).chunkWord p i) ∧
        (blockMemory x).chunkWord p i ≤ 34 := by
  have hextent := (span_blockMemory (x := x) hp hle).2
  have hhuge : hugeSize = 256 := rfl
  by_cases h4 : p = 4
  · subst h4
    have hwords : (blockMemory x).chunkWord 4 0 = 3 ∧ (blockMemory x).chunkWord 4 1 = 16 ∧
        (blockMemory x).chunkWord 4 2 = 3 ∧ ((blockMemory x).entry 4).pointer = 1 := by
      rcases hx with rfl | rfl <;> decide
    obtain ⟨hsize, hclass, helement, hpointer⟩ := hwords
    have hlast : (blockMemory x).last 4 = 3 := by rw [last, if_neg (by omega), hsize]
    refine ⟨by rw [ObjectMemory.space, hsize, if_pos (.inl (by decide))]; omega, by omega, ?_⟩
    rintro i ⟨h1, hlt, heven⟩
    obtain rfl | rfl : i = 1 ∨ i = 2 := by omega
    · rw [hclass]
      decide
    · omega
  · by_cases h8 : p = 8
    · subst h8
      have hpointer : ((blockMemory x).entry 8).pointer = 1 := by
        rw [entry_blockMemory hp]
        rfl
      have hsize : (blockMemory x).chunkWord 8 0 = 65514 := chunkWord_caller (by decide)
      have hlast : (blockMemory x).last 8 = 65514 := by rw [last, if_neg (by omega), hsize]
      refine ⟨by rw [ObjectMemory.space, hsize, if_neg (by omega)]; omega, by omega, ?_⟩
      rintro i ⟨h1, hlt, heven⟩
      rw [chunkWord_caller (by omega)] at heven ⊢
      have hpointers : i = 1 ∨ i = 8 ∨ i = 9 := by
        by_contra hnone
        rw [if_neg (by omega), if_neg (by omega), if_neg (by omega), if_neg (by omega)] at heven
        omega
      rcases hx with rfl | rfl
      · rcases hpointers with rfl | rfl | rfl
        · decide
        · decide
        · exact absurd heven (by decide)
      · rcases hpointers with rfl | rfl | rfl <;> decide
    · by_cases h10 : p = 10
      · subst h10
        have hpointer : ((blockMemory x).entry 10).pointer = 1 := by
          rw [entry_blockMemory hp]
          rfl
        have hsize : (blockMemory x).chunkWord 10 0 = 65514 := chunkWord_block (by decide)
        have hlast : (blockMemory x).last 10 = 65514 := by rw [last, if_neg (by omega), hsize]
        refine ⟨by rw [ObjectMemory.space, hsize, if_neg (by omega)]; omega, by omega, ?_⟩
        rintro i ⟨h1, hlt, heven⟩
        rw [chunkWord_block (by omega)] at heven ⊢
        have hpointers : i = 1 ∨ i = 7 := by
          by_contra hnone
          by_cases h5 : i = 5
          · rw [if_neg (by omega), if_neg (by omega), if_pos h5] at heven
            omega
          · rw [if_neg (by omega), if_neg (by omega), if_neg h5, if_neg (by omega)] at heven
            omega
        rcases hpointers with rfl | rfl <;> decide
      · obtain ⟨hsize, hclass, hpointer⟩ := filler_blockMemory (x := x) hp hle h4 h8 h10
        have hlast : (blockMemory x).last p = 2 := by
          rw [last, if_pos hpointer, hclass, if_neg (by decide)]
        refine ⟨by rw [ObjectMemory.space, if_pos (.inr hpointer), hsize], by omega, ?_⟩
        rintro i ⟨h1, hlt, heven⟩
        obtain rfl : i = 1 := by omega
        omega

theorem heap_blockMemory (hx : x = 3 ∨ x = 4) : Heap (blockMemory x) blockLayout := by
  have hallocated : ∀ p, Allocated (blockMemory x) blockLayout p ↔ IsOop p ∧ p ≤ 34 := fun p =>
    allocated_blockMemory
  refine ⟨tiled_blockMemory, ⟨linked_blockMemory, fun p => ?_, fun s k hs h2 h20 => ?_,
    fun _ _ _ hmem => absurd hmem List.not_mem_nil, fun _ _ _ _ hmem =>
    absurd hmem List.not_mem_nil⟩, fun _ _ _ hmem => absurd hmem List.not_mem_nil, fun p hp =>
    (words_blockMemory hx ((hallocated p).mp hp).1 ((hallocated p).mp hp).2).1.symm⟩
  · show p ∈ List.range' 36 32749 2 ↔ _
    rw [List.mem_range']
    constructor
    · rintro ⟨i, hi, rfl⟩
      have hoop : IsOop (36 + 2 * i) := ⟨by omega, by omega, by omega⟩
      refine ⟨hoop, ?_⟩
      rw [entry_blockMemory hoop, if_neg (by omega), if_neg (by omega), if_neg (by omega),
        if_neg (by omega)]
    · rintro ⟨hoop, hfree⟩
      have hle : ¬p ≤ 34 := fun hle => by
        have h0 := (count_blockMemory (x := x) hoop hle).1
        omega
      obtain ⟨heven, htwo, hmax⟩ := hoop
      exact ⟨(p - 36) / 2, by omega, by omega⟩
  · have hhead : (blockMemory x).chunkHead s k = blockWord x s (65515 + k) := rfl
    rw [hhead, blockWord, if_neg (by omega), if_pos (by omega)]
    rfl

theorem counted_blockMemory (hx : x = 3 ∨ x = 4) :
    Counted (blockMemory x) blockLayout fun _ => 1 := by
  refine ⟨heap_blockMemory hx, fun p hp => ?_, fun p i hp hi => ?_, fun p hp hlt => ?_⟩
  · obtain ⟨hoop, hle⟩ := allocated_blockMemory.mp hp
    exact (words_blockMemory hx hoop hle).2.1
  · obtain ⟨hoop, hle⟩ := allocated_blockMemory.mp hp
    exact allocated_blockMemory.mpr ((words_blockMemory hx hoop hle).2.2 i hi)
  · obtain ⟨hoop, hle⟩ := allocated_blockMemory.mp hp
    have hcount := (count_blockMemory (x := x) hoop hle).2
    omega

theorem pointerField_caller (h2 : 2 ≤ i) (hi : i < 65514) :
    PointerField (blockMemory x) blockLayout 8 i := by
  refine ⟨allocated_blockMemory.mpr (by decide), ?_, h2, ?_⟩
  · rw [entry_blockMemory (by decide)]
    decide
  · rw [chunkWord_caller (by decide)]
    exact hi

theorem pointerField_block (h2 : 2 ≤ i) (hi : i < 65514) :
    PointerField (blockMemory x) blockLayout 10 i := by
  refine ⟨allocated_blockMemory.mpr (by decide), ?_, h2, ?_⟩
  · rw [entry_blockMemory (by decide)]
    decide
  · rw [chunkWord_block (by decide)]
    exact hi

end BlockMemory

/-- The block, and `x` above it on the stack. -/
def blockState (x : Nat) : Interpreter :=
  { beforeTime with
    host := { beforeTime.host with memory := blockMemory x }
    activeContext := 8
    homeContext := 8
    instructionPointer := 1
    stackPointer := 7
    argumentCount := 1
    successFlag := true }

theorem calling_blockState {x : Nat} (hx : x = 3 ∨ x = 4) :
    Calling (blockState x) blockLayout (fun _ => 1) 10 8 1 where
  counted := counted_blockMemory hx
  root := le_rfl
  nil := ⟨allocated_blockMemory.mpr (by decide), le_rfl⟩
  caller := pointerField_caller (by decide) (by decide)
  callerContext := .inl (chunkWord_caller (by decide))
  place_le := by decide
  receiver := chunkWord_caller (by decide)
  block := pointerField_block (by decide) (by decide)
  blockContext := chunkWord_block (by decide)
  room := by
    show _ ≤ (blockMemory x).chunkWord 10 0
    rw [chunkWord_block (by decide)]
    decide
  arguments := by
    show (blockMemory x).chunkWord 10 5 % 2 = 1 ∧ integerValueOf ((blockMemory x).chunkWord 10 5) = _
    rw [chunkWord_block (by decide)]
    decide
  initialIP := by
    show (blockMemory x).chunkWord 10 6 % 2 = 1
    rw [chunkWord_block (by decide)]
    decide
  homeEven := by
    show (blockMemory x).chunkWord 10 7 % 2 = 0
    rw [chunkWord_block (by decide)]
    decide
  home := by
    have hhome : (blockMemory x).chunkWord 10 7 = 8 := chunkWord_block (by decide)
    show PointerField (blockMemory x) blockLayout ((blockMemory x).chunkWord 10 7) 7
    rw [hhome]
    exact pointerField_caller (by decide) (by decide)
  homeContext := by
    have hhome : (blockMemory x).chunkWord 10 7 = 8 := chunkWord_block (by decide)
    show IsContext (blockMemory x) ((blockMemory x).chunkWord 10 7)
    rw [hhome]
    exact .inl (chunkWord_caller (by decide))
  instructionPointer := (by decide : isIntegerValue (1 + 1) = true)
  stackPointer := by decide
  successFlag := rfl

/-- The SmallInteger on the stack. -/
theorem callingValue_blockState :
    CallingValue (blockState 3) blockLayout (fun _ => 1) 10 8 1 where
  calling := calling_blockState (.inl rfl)
  argumentCount := rfl
  top := by decide
  top_lt := by
    show 8 + 1 < (blockMemory 3).chunkWord 8 0
    rw [chunkWord_caller (by decide)]
    decide

/-- The Array on the stack. -/
theorem callingWithArgs_blockState :
    CallingWithArgs (blockState 4) blockLayout (fun _ => 1) 10 8 1 4 where
  calling := calling_blockState (.inr rfl)
  top := by decide
  argument := pointerField_caller (by decide) (by decide)
  argument_eq := chunkWord_caller (by decide)
  array_pointer := ⟨allocated_blockMemory.mpr (by decide), by decide⟩
  array_size := by decide
  array_class := by decide
  apart h := absurd h (by decide)

theorem sameCall_blockState : SameCall (blockState 3) (blockState 4) 10 8 1 4 where
  activeContext := rfl
  instructionPointer := rfl
  fields p hp j hj hlt := by
    have hhome : (blockMemory 3).chunkWord 10 7 = 8 := chunkWord_block (by decide)
    have hp : p = 8 ∨ p = 10 := by
      rcases hp with hp | hp | hp
      · exact .inl hp
      · exact .inr hp
      · exact .inl (hp.trans hhome)
    have hj : j < (blockMemory 3).chunkWord p 0 := hj
    show (blockMemory 3).chunkWord p j = (blockMemory 4).chunkWord p j
    rcases hp with rfl | rfl
    · rw [chunkWord_caller (by decide)] at hj
      have hlow : j < 8 := hlt rfl
      have hj : j < 65514 := hj
      rw [chunkWord_caller hj, chunkWord_caller hj]
      simp only [if_neg (show ¬j = 9 by omega)]
    · rw [chunkWord_block (by decide)] at hj
      have hj : j < 65514 := hj
      rw [chunkWord_block hj, chunkWord_block hj]
  arguments j hj := by
    obtain rfl : j = 0 := by omega
    decide

/-- The block with the SmallInteger 1. -/
theorem agree_iff_blockState : Agree (blockState 3) (blockState 4) 10 8 1 4 ↔
    ∀ j < 1, (blockState 4).memory.chunkWord 4 (headerSize + j) = nilPointer :=
  agree_iff callingValue_blockState callingWithArgs_blockState sameCall_blockState

/-- The Array has nil where the SmallInteger was. -/
theorem not_agree_blockState : CallingValue (blockState 3) blockLayout (fun _ => 1) 10 8 1 ∧
    CallingWithArgs (blockState 4) blockLayout (fun _ => 1) 10 8 1 4 ∧
    SameCall (blockState 3) (blockState 4) 10 8 1 4 ∧
    ¬Agree (blockState 3) (blockState 4) 10 8 1 4 ∧
    (blockState 4).memory.chunkWord 4 2 = integerObjectOf 1 ∧
    ∃ t', primitiveValueWithArgs (blockState 4) = some ((), t') ∧
      t'.memory.chunkWord 4 2 = nilPointer := by
  have helement : (blockState 4).memory.chunkWord 4 2 = 3 := by decide
  have hsame := sameCall_blockState
  obtain ⟨t, t', -, hrun, -, hnil⟩ := hsame.enteredAlike callingValue_blockState
    callingWithArgs_blockState
  refine ⟨callingValue_blockState, callingWithArgs_blockState, hsame, fun hagree => ?_, helement, t',
    hrun, hnil 0 (by decide)⟩
  have h2 := hsame.agree_nil callingValue_blockState callingWithArgs_blockState hagree 0 (by decide)
  exact absurd (helement.symm.trans h2) (by decide)

end Crosstalk
