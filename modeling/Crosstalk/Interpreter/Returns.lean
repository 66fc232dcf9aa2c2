import Crosstalk.Interpreter.Arithmetic
import Crosstalk.Interpreter.Semaphores
import Crosstalk.ObjectMemory.StorePointer

/-!
# Returning to a dead context

A return to a context that has returned already sends `cannotReturn:` to the
active context, with the result as the argument. The result is popped from the
stack before; the receiver of the send is pushed over it.
-/

namespace Crosstalk

abbrev senderIndex : Nat := 0

/-! ## The bytecodes -/

def sender : IM Nat := do
  inMemory (fetchPointerOfObject senderIndex (← get).homeContext)

def caller : IM Nat := do
  inMemory (fetchPointerOfObject senderIndex (← get).activeContext)

def Interpreter.stackValue (offset : Nat) : IM Nat := do
  let s ← get
  inMemory (fetchPointerOfObject (s.stackPointer - offset) s.activeContext)

def nilContextFields : IM Unit := do
  let s ← get
  inMemory (storePointerOfObjectWithValue senderIndex s.activeContext nilPointer)
  inMemory (storePointerOfObjectWithValue instructionPointerIndex s.activeContext nilPointer)

def returnToActiveContext (aContext : Nat) : IM Unit := do
  inMemory (increaseReferencesTo aContext)
  nilContextFields
  inMemory (decreaseReferencesTo (← get).activeContext)
  modify fun s => { s with activeContext := aContext }
  fetchContextRegisters

/-- What is sent is run by `sendSelectorToClass`, the end of each of the sends below. -/
def sendSelectorArgumentCount (sendSelectorToClass : Nat → IM Unit) (selector count : Nat) :
    IM Unit := do
  modify fun s => { s with messageSelector := selector, argumentCount := count }
  let newReceiver ← Interpreter.stackValue count
  sendSelectorToClass (← inMemory (fetchClassOf newReceiver))

def cannotReturn (sendSelectorToClass : Nat → IM Unit) (resultPointer : Nat) : IM Unit := do
  push (← get).activeContext
  push resultPointer
  sendSelectorArgumentCount sendSelectorToClass cannotReturnSelector 1

def returnValueTo (sendSelectorToClass : Nat → IM Unit) (resultPointer contextPointer : Nat) :
    IM Unit := do
  if contextPointer = nilPointer then
    cannotReturn sendSelectorToClass resultPointer
  else
    let sendersIP ← inMemory (fetchPointerOfObject instructionPointerIndex contextPointer)
    if sendersIP = nilPointer then
      cannotReturn sendSelectorToClass resultPointer
    else
      inMemory (increaseReferencesTo resultPointer)
      returnToActiveContext contextPointer
      push resultPointer
      inMemory (decreaseReferencesTo resultPointer)

def returnBytecode (sendSelectorToClass : Nat → IM Unit) (currentBytecode : Nat) : IM Unit := do
  match currentBytecode with
  | 120 => returnValueTo sendSelectorToClass (← get).receiver (← sender)
  | 121 => returnValueTo sendSelectorToClass truePointer (← sender)
  | 122 => returnValueTo sendSelectorToClass falsePointer (← sender)
  | 123 => returnValueTo sendSelectorToClass nilPointer (← sender)
  | 124 => returnValueTo sendSelectorToClass (← popStack) (← sender)
  | 125 => returnValueTo sendSelectorToClass (← popStack) (← caller)
  | _ => pure ()

/-! ## Returns with a dead target -/

namespace Interpreter

/-- Whether the result is popped. -/
def Pops (b : Nat) : Prop := b = 124 ∨ b = 125

instance (b : Nat) : Decidable (Pops b) := inferInstanceAs (Decidable (_ ∨ _))

def result (s : Interpreter) (b : Nat) : Nat :=
  if Pops b then s.stackTop
  else if b = 120 then s.receiver
  else if b = 121 then truePointer
  else if b = 122 then falsePointer
  else nilPointer

/-- The state after the result has been popped, where it is. -/
def resultPopped (s : Interpreter) (b : Nat) : Interpreter :=
  if Pops b then { s with stackPointer := s.stackPointer - 1 } else s

def returnContext (s : Interpreter) (b : Nat) : Nat :=
  s.memory.chunkWord (if b = 125 then s.activeContext else s.homeContext) (headerSize + senderIndex)

/-- The place of the receiver of the send, that of the argument follows. -/
def receiverPlace (s : Interpreter) (b : Nat) : Nat :=
  headerSize + ((s.resultPopped b).stackPointer + 1).toNat

end Interpreter

open Interpreter ObjectMemory

/-- A state in which a return bytecode is run: the counts are right, where the machine
holds the active context and the constant that is returned; the home context is that of the active
context, the receiver the one of the home context; the result is on the stack, where it is
popped. -/
structure Returning (s : Interpreter) (L : Layout) (regs : Nat → Nat) (b : Nat) : Prop where
  counted : Counted s.memory L regs
  active : Allocated s.memory L s.activeContext ∧ 1 ≤ regs s.activeContext
  constant : ¬Pops b → b ≠ 120 → Allocated s.memory L (s.result b) ∧ 1 ≤ regs (s.result b)
  context : PointerField s.memory L s.activeContext (headerSize + homeIndex)
  home : s.homeContext = s.activeContext ∨
    s.homeContext = s.memory.chunkWord s.activeContext (headerSize + homeIndex)
  homeContext : PointerField s.memory L s.homeContext (headerSize + receiverIndex)
  receiver : s.receiver = s.memory.chunkWord s.homeContext (headerSize + receiverIndex)
  frame : (tempFrameStart : Int) ≤ (s.resultPopped b).stackPointer + 1
  operand : Pops b → HasField s.memory s.activeContext s.stackPointer
  bytecode : 120 ≤ b ∧ b ≤ 125

/-- The context to return to is nil or has nil as its instruction pointer. -/
def DeadTarget (s : Interpreter) (b : Nat) : Prop :=
  s.returnContext b = nilPointer ∨
    HasField s.memory (s.returnContext b) instructionPointerIndex ∧
    s.memory.chunkWord (s.returnContext b) (headerSize + instructionPointerIndex) = nilPointer

/-- The object `p` is allocated as before, with its class and its fields. The two places
of `c` from `i` on are those of the send. -/
structure Intact (m : ObjectMemory) (p c i : Nat) (u : ObjectMemory) : Prop where
  allocated : ∃ L, Heap u L ∧ Allocated u L p
  word : ∀ j < m.chunkWord p 0, ¬(p = c ∧ (j = i ∨ j = i + 1)) → u.chunkWord p j = m.chunkWord p j

/-- The return is the send of `cannotReturn:` to the active context with the result, which
stays the object that it was from the bytecode to the send. -/
def Delivers (s : Interpreter) (b : Nat) : Prop :=
  ∃ s₁ s₂, push s.activeContext (s.resultPopped b) = some ((), s₁) ∧
    push (s.result b) s₁ = some ((), s₂) ∧
    (∀ sendSelectorToClass : Nat → IM Unit, returnBytecode sendSelectorToClass b s =
      sendSelectorToClass (s.memory.chunkWord s.activeContext 1)
        { s₂ with messageSelector := cannotReturnSelector, argumentCount := 1 }) ∧
    s₂.activeContext = s.activeContext ∧ s₂.stackTop = s.result b ∧
    s₂.memory.chunkWord s.activeContext (s.receiverPlace b) = s.activeContext ∧
    s₂.stackPointer = (s.resultPopped b).stackPointer + 2 ∧
    (s.result b % 2 = 0 → Intact s.memory (s.result b) s.activeContext (s.receiverPlace b) s₁.memory ∧
      Intact s.memory (s.result b) s.activeContext (s.receiverPlace b) s₂.memory)

/-- The context has room for the receiver and the argument. -/
def HasRoom (s : Interpreter) (b : Nat) : Prop :=
  s.receiverPlace b + 1 < s.memory.chunkWord s.activeContext 0

instance (s : Interpreter) (b : Nat) : Decidable (HasRoom s b) := inferInstanceAs (Decidable (_ < _))

/-- The result is popped, and its place on the stack was the only reference to it. -/
def DropsResult (s : Interpreter) (b : Nat) : Prop :=
  Pops b ∧ s.stackTop % 2 = 0 ∧ s.stackTop ≠ s.activeContext ∧
    (s.memory.entry s.stackTop).count = 1

/-! ## Pushing -/

section Push

variable {s : Interpreter} {L : Layout} {regs : Nat → Nat} {v : Nat}

theorem push_stored (hm : Counted s.memory L regs) (h0 : 0 ≤ s.stackPointer + 1)
    (hc : PointerField s.memory L s.activeContext (headerSize + (s.stackPointer + 1).toNat))
    (hroot : 1 ≤ regs s.activeContext) (hv : v < 65536) (hpos : 0 < v)
    (hva : v % 2 = 0 → Allocated s.memory L v) : ∃ u L',
      push v s = some ((), { s.withMemory u with stackPointer := s.stackPointer + 1 }) ∧
        Stored s.memory L regs s.activeContext (headerSize + (s.stackPointer + 1).toNat) v L' u := by
  obtain ⟨⟨⟩, u, hrun, L', h⟩ := wp_storePointer hm hc hv rfl h0 (.inl hroot) hpos hva
  refine ⟨u, L', Wp.run_eq ?_, h⟩
  simp only [push, wp_bind, wp_modify, wp_get, wp_inMemory]
  exact (wp_of_run hrun).mpr ⟨trivial, rfl⟩

/-- A push that ends has found its place. -/
theorem hasField_of_push {s' : Interpreter} (h : push v s = some ((), s')) :
    HasField s.memory s.activeContext (s.stackPointer + 1) := by
  have hwp : Wp (push v) (fun _ _ => True) s := ⟨(), s', h, trivial⟩
  simp only [push, wp_bind, wp_modify, wp_get, wp_inMemory] at hwp
  exact hasField_of_store hwp

end Push

/-! ## The return -/

section Delivery

variable {s s₁ s₂ : Interpreter} {L L₁ : Layout} {regs : Nat → Nat} {b : Nat} {u : ObjectMemory}
  {send : Nat → IM Unit}

/-- The receiver of a send with one argument is the second object of the stack. -/
theorem sendSelectorArgumentCount_run {t : Interpreter} {selector p : Nat}
    (hfield : HasField t.memory t.activeContext (t.stackPointer - 1))
    (hword : t.memory.chunkWord t.activeContext (headerSize + (t.stackPointer - 1).toNat) = p)
    (hp : IsEntry p) (hl : t.memory.location p + 1 < 65536) :
    sendSelectorArgumentCount send selector 1 t = send (t.memory.chunkWord p 1)
      { t with messageSelector := selector, argumentCount := 1 } := by
  have hvalue : Interpreter.stackValue 1
      { t with messageSelector := selector, argumentCount := 1 } =
        some (p, { t with messageSelector := selector, argumentCount := 1 }) := by
    refine Wp.run_eq ?_
    rw [Interpreter.stackValue, wp_bind, wp_get, wp_inMemory, fetchPointerOfObject_eq,
      wp_fetchWordOfObject]
    exact ⟨hfield, hword, rfl⟩
  have hclass : inMemory (fetchClassOf p)
      { t with messageSelector := selector, argumentCount := 1 } =
        some (t.memory.chunkWord p 1, { t with messageSelector := selector, argumentCount := 1 }) := by
    refine Wp.run_eq ?_
    rw [wp_inMemory, wp_fetchClassOf hp.1]
    exact ⟨⟨hp, hl⟩, rfl, rfl⟩
  have hselector : (modify fun s => { s with messageSelector := selector, argumentCount := 1 } :
      IM Unit) t = some ((), { t with messageSelector := selector, argumentCount := 1 }) := rfl
  rw [sendSelectorArgumentCount, bind_of_run hselector, bind_of_run hvalue, bind_of_run hclass]

theorem memory_resultPopped (s : Interpreter) (b : Nat) : (s.resultPopped b).memory = s.memory := by
  rw [resultPopped]
  split <;> rfl

theorem activeContext_resultPopped (s : Interpreter) (b : Nat) :
    (s.resultPopped b).activeContext = s.activeContext := by
  rw [resultPopped]
  split <;> rfl

namespace Returning

variable (h : Returning s L regs b)

include h

theorem hasField {p k : Nat} (hp : PointerField s.memory L p (headerSize + k)) {j : Nat}
    (hj : j ≤ k) : HasField s.memory p j := by
  have hin := h.counted.heap.tiled.word_lt hp.allocated.inUse (hp.lt_extent h.counted.heap)
  have hlt := hp.lt_size
  exact ⟨hp.allocated.inUse.isEntry, by omega, by omega, by simp only [Int.toNat_natCast]; omega⟩

theorem eight_le : 8 ≤ s.receiverPlace b := by
  have hframe := h.frame
  have h6 : tempFrameStart = 6 := rfl
  have h2 : headerSize = 2 := rfl
  rw [receiverPlace]
  omega

/-- The bytecode goes on to `returnValue:to:` with its result. -/
theorem returnBytecode_eq : returnBytecode send b s =
    returnValueTo send (s.result b) (s.returnContext b) (s.resultPopped b) := by
  have hsender : ∀ t : Interpreter, t.memory = s.memory → t.homeContext = s.homeContext →
      sender t = some (s.memory.chunkWord s.homeContext (headerSize + senderIndex), t) :=
    fun t hm hh => by
      refine Wp.run_eq ?_
      rw [sender, wp_bind, wp_get, wp_inMemory, hm, hh, fetchPointerOfObject_eq,
        wp_fetchWordOfObject]
      exact ⟨h.hasField h.homeContext (Nat.zero_le _), rfl, by rw [← hm]; rfl⟩
  have hcaller : ∀ t : Interpreter, t.memory = s.memory → t.activeContext = s.activeContext →
      caller t = some (s.memory.chunkWord s.activeContext (headerSize + senderIndex), t) :=
    fun t hm hh => by
      refine Wp.run_eq ?_
      rw [caller, wp_bind, wp_get, wp_inMemory, hm, hh, fetchPointerOfObject_eq,
        wp_fetchWordOfObject]
      exact ⟨h.hasField h.context (Nat.zero_le _), rfl, by rw [← hm]; rfl⟩
  have hpop : Pops b → popStack s =
      some (s.stackTop, { s with stackPointer := s.stackPointer - 1 }) := fun hb =>
    Wp.run_eq ((wp_popStack (h.operand hb)).mpr ⟨rfl, rfl⟩)
  obtain ⟨hlo, hhi⟩ := h.bytecode
  obtain rfl | rfl | rfl | rfl | rfl | rfl : b = 120 ∨ b = 121 ∨ b = 122 ∨ b = 123 ∨ b = 124 ∨
    b = 125 := by omega
  · exact (bind_of_run (hsender s rfl rfl)).trans rfl
  · exact (bind_of_run (hsender s rfl rfl)).trans rfl
  · exact (bind_of_run (hsender s rfl rfl)).trans rfl
  · exact (bind_of_run (hsender s rfl rfl)).trans rfl
  · exact (bind_of_run (hpop (.inl rfl))).trans ((bind_of_run
      (hsender { s with stackPointer := s.stackPointer - 1 } rfl rfl)).trans rfl)
  · exact (bind_of_run (hpop (.inr rfl))).trans ((bind_of_run
      (hcaller { s with stackPointer := s.stackPointer - 1 } rfl rfl)).trans rfl)

theorem returnBytecode_dead (hdead : DeadTarget s b) :
    returnBytecode send b s = cannotReturn send (s.result b) (s.resultPopped b) := by
  rw [h.returnBytecode_eq, returnValueTo]
  rcases hdead with hnil | ⟨hfield, hnil⟩
  · rw [if_pos hnil]
  · split
    · rfl
    · have hfetch : inMemory (fetchPointerOfObject instructionPointerIndex (s.returnContext b))
          (s.resultPopped b) = some (nilPointer, s.resultPopped b) := by
        refine Wp.run_eq ?_
        rw [wp_inMemory, memory_resultPopped, fetchPointerOfObject_eq, wp_fetchWordOfObject]
        exact ⟨hfield, hnil, by rw [← memory_resultPopped s b]; rfl⟩
      rw [bind_of_run hfetch, if_pos rfl]

theorem pointerField {i : Nat} (h2 : 2 ≤ i) (hi : i < s.memory.chunkWord s.activeContext 0) :
    PointerField s.memory L s.activeContext i :=
  ⟨h.active.1, h.context.pointer, h2, hi⟩

theorem pointerField_stored {i j v : Nat}
    (h₁ : Stored s.memory L regs s.activeContext j v L₁ u) (h2 : 2 ≤ i)
    (hi : i < s.memory.chunkWord s.activeContext 0) (hj : 2 ≤ j) :
    PointerField u L₁ s.activeContext i :=
  h₁.pointerField hj (h₁.root _ h.active.1 h.active.2) (h.pointerField h2 hi)

theorem stackTop_eq (hb : Pops b) :
    s.stackTop = s.memory.chunkWord s.activeContext (s.receiverPlace b) ∧
      s.receiverPlace b < s.memory.chunkWord s.activeContext 0 := by
  have hplace : s.receiverPlace b = headerSize + s.stackPointer.toNat := by
    rw [receiverPlace, resultPopped, if_pos hb]
    exact congrArg (fun i : Int => headerSize + i.toNat) (by omega : s.stackPointer - 1 + 1 = _)
  have hlt := (h.operand hb).lt_size
  have h0 := (h.operand hb).nonneg
  exact ⟨by rw [hplace]; rfl, by omega⟩

theorem result_value : s.result b < 65536 ∧ 0 < s.result b ∧
    (s.result b % 2 = 0 → Allocated s.memory L (s.result b)) := by
  have hword : s.result b < 65536 ∧ (s.result b % 2 = 0 → Allocated s.memory L (s.result b)) := by
    by_cases hb : Pops b
    · obtain ⟨htop, hlt⟩ := h.stackTop_eq hb
      have h8 := h.eight_le
      rw [result, if_pos hb, htop]
      exact ⟨s.memory.word_lt _ _, (h.pointerField (by omega) hlt).value h.counted⟩
    · by_cases h120 : b = 120
      · rw [result, if_neg hb, if_pos h120, h.receiver]
        exact ⟨s.memory.word_lt _ _, h.homeContext.value h.counted⟩
      · have hconstant := (h.constant hb h120).1
        exact ⟨hconstant.lt, fun _ => hconstant⟩
  refine ⟨hword.1, ?_, hword.2⟩
  by_contra hzero
  have h0 : s.result b = 0 := by omega
  exact (hword.2 (by omega)).ne_zero h0

/-- The result is left when the receiver of the send has been pushed. -/
theorem result_left (hkeep : ¬DropsResult s b)
    (h₁ : Stored s.memory L regs s.activeContext (s.receiverPlace b) s.activeContext L₁ u)
    (heven : s.result b % 2 = 0) : Allocated u L₁ (s.result b) := by
  have h8 := h.eight_le
  have hallocated := h.result_value.2.2 heven
  by_cases hb : Pops b
  · have hresult : s.result b = s.stackTop := by rw [result, if_pos hb]
    rw [hresult] at heven hallocated ⊢
    refine h₁.spared ?_ _ hallocated
    rw [← (h.stackTop_eq hb).1]
    by_cases hactive : s.stackTop = s.activeContext
    · exact .inr (.inr hactive)
    · exact .inl fun h1 => hkeep ⟨hb, heven, hactive, h1⟩
  · by_cases h120 : b = 120
    · have hresult : s.result b = s.receiver := by rw [result, if_neg hb, if_pos h120]
      have hcu := h₁.root _ h.active.1 h.active.2
      have h7 : headerSize + homeIndex = 7 := rfl
      have h7' : headerSize + receiverIndex = 7 := rfl
      -- the home context is the active context or held by a field of it
      have hhome : Allocated u L₁ s.homeContext := by
        rcases h.home with hh | hh
        · rwa [hh]
        · have hfield := h₁.pointerField (by omega) hcu h.context
          have hword : u.chunkWord s.activeContext (headerSize + homeIndex) = s.homeContext := by
            rw [h₁.word _ _ hcu h.context.lt_size, if_neg (by omega), hh]
          rw [← hword]
          exact hfield.value h₁.counted (hword ▸ h.homeContext.allocated.inUse.even)
      have hfield := h₁.pointerField (by omega) hhome h.homeContext
      have hword : u.chunkWord s.homeContext (headerSize + receiverIndex) = s.receiver := by
        rw [h₁.word _ _ hhome h.homeContext.lt_size, if_neg (by omega), h.receiver]
      rw [hresult] at heven ⊢
      rw [← hword]
      exact hfield.value h₁.counted (hword ▸ heven)
    · exact h₁.root _ (h.constant hb h120).1 (h.constant hb h120).2

theorem place_next : headerSize + ((s.resultPopped b).stackPointer + 1 + 1).toNat =
    s.receiverPlace b + 1 := by
  have hframe := h.frame
  have h6 : tempFrameStart = 6 := rfl
  rw [receiverPlace]
  omega

/-- The receiver of the send is pushed. -/
theorem push_receiver (hlt : s.receiverPlace b < s.memory.chunkWord s.activeContext 0) :
    ∃ u L₁, push s.activeContext (s.resultPopped b) = some ((), { (s.resultPopped b).withMemory u with
        stackPointer := (s.resultPopped b).stackPointer + 1 }) ∧
      Stored s.memory L regs s.activeContext (s.receiverPlace b) s.activeContext L₁ u := by
  have hframe := h.frame
  have h6 : tempFrameStart = 6 := rfl
  have h8 := h.eight_le
  have heven := h.active.1.inUse.1.2.1
  have hcounted : Counted (s.resultPopped b).memory L regs := by
    rw [memory_resultPopped]
    exact h.counted
  have hpush := push_stored (v := s.activeContext) hcounted (by omega)
    (by
      rw [memory_resultPopped, activeContext_resultPopped]
      exact h.pointerField (by have : headerSize = 2 := rfl; omega) hlt)
    (by rw [activeContext_resultPopped]; exact h.active.2) h.active.1.lt (by omega)
    (by rw [memory_resultPopped]; exact fun _ => h.active.1)
  rw [memory_resultPopped, activeContext_resultPopped] at hpush
  exact hpush

/-- The argument is pushed. -/
theorem push_result (hroom : HasRoom s b)
    (h₁ : Stored s.memory L regs s.activeContext (s.receiverPlace b) s.activeContext L₁ u)
    (hleft : s.result b % 2 = 0 → Allocated u L₁ (s.result b)) : ∃ u₂ L₂,
    push (s.result b) { (s.resultPopped b).withMemory u with
        stackPointer := (s.resultPopped b).stackPointer + 1 } =
      some ((), { (s.resultPopped b).withMemory u₂ with
        stackPointer := (s.resultPopped b).stackPointer + 2 }) ∧
      Stored u L₁ regs s.activeContext (s.receiverPlace b + 1) (s.result b) L₂ u₂ := by
  have hframe := h.frame
  have h6 : tempFrameStart = 6 := rfl
  have h8 := h.eight_le
  have hfield := h.pointerField_stored h₁ (by omega) hroom (by omega)
  obtain ⟨hlt, hpos, -⟩ := h.result_value
  have hpush := push_stored (s := { (s.resultPopped b).withMemory u with
      stackPointer := (s.resultPopped b).stackPointer + 1 }) (v := s.result b) h₁.counted (by dsimp only; omega)
    (by
      show PointerField u L₁ (s.resultPopped b).activeContext _
      rw [activeContext_resultPopped, h.place_next]
      exact hfield)
    (by
      show 1 ≤ regs (s.resultPopped b).activeContext
      rw [activeContext_resultPopped]
      exact h.active.2) hlt hpos hleft
  obtain ⟨u₂, L₂, hrun, hstored⟩ := hpush
  have hstored : Stored u L₁ regs (s.resultPopped b).activeContext
      (headerSize + ((s.resultPopped b).stackPointer + 1 + 1).toNat) (s.result b) L₂ u₂ := hstored
  rw [activeContext_resultPopped, h.place_next] at hstored
  refine ⟨u₂, L₂, hrun.trans ?_, hstored⟩
  have hadd : (s.resultPopped b).stackPointer + 1 + 1 = (s.resultPopped b).stackPointer + 2 := by
    omega
  simp only [hadd]
  rfl

omit h in
theorem intact_first
    (h₁ : Stored s.memory L regs s.activeContext (s.receiverPlace b) s.activeContext L₁ u)
    (hleft : Allocated u L₁ (s.result b)) :
    Intact s.memory (s.result b) s.activeContext (s.receiverPlace b) u :=
  ⟨⟨L₁, h₁.counted.heap, hleft⟩, fun j hj hn => by
    rw [h₁.word _ j hleft hj, if_neg fun hall => hn ⟨hall.1, .inl hall.2⟩]⟩

theorem intact_second {L₂ : Layout} {u₂ : ObjectMemory} (hroom : HasRoom s b)
    (h₁ : Stored s.memory L regs s.activeContext (s.receiverPlace b) s.activeContext L₁ u)
    (h₂ : Stored u L₁ regs s.activeContext (s.receiverPlace b + 1) (s.result b) L₂ u₂)
    (heven : s.result b % 2 = 0) (hleft : Allocated u L₁ (s.result b)) :
    Intact s.memory (s.result b) s.activeContext (s.receiverPlace b) u₂ := by
  have h8 := h.eight_le
  have hfield := h.pointerField_stored h₁ (by omega) hroom (by omega)
  have hleft₂ := (h₂.value hfield h.active.2).2 heven
  refine ⟨⟨L₂, h₂.counted.heap, hleft₂⟩, fun j hj hn => ?_⟩
  have hsize : u.chunkWord (s.result b) 0 = s.memory.chunkWord (s.result b) 0 := by
    rw [h₁.word _ 0 hleft (by omega), if_neg (by omega)]
  rw [h₂.word _ j hleft₂ (by omega), if_neg fun hall => hn ⟨hall.1, .inr hall.2⟩,
    h₁.word _ j hleft hj, if_neg fun hall => hn ⟨hall.1, .inl hall.2⟩]

/-- The receiver and the argument are found on the stack. -/
theorem sent {L₂ : Layout} {u₂ : ObjectMemory} (hroom : HasRoom s b)
    (h₁ : Stored s.memory L regs s.activeContext (s.receiverPlace b) s.activeContext L₁ u)
    (h₂ : Stored u L₁ regs s.activeContext (s.receiverPlace b + 1) (s.result b) L₂ u₂) :
    u₂.chunkWord s.activeContext (s.receiverPlace b) = s.activeContext ∧
      u₂.chunkWord s.activeContext (s.receiverPlace b + 1) = s.result b ∧
      u₂.chunkWord s.activeContext 1 = s.memory.chunkWord s.activeContext 1 ∧
      PointerField u₂ L₂ s.activeContext (s.receiverPlace b) := by
  have h8 := h.eight_le
  have hroom' : s.receiverPlace b + 1 < s.memory.chunkWord s.activeContext 0 := hroom
  have hcu := h₁.root _ h.active.1 h.active.2
  have hcu₂ := h₂.root _ hcu h.active.2
  have hplace := h.pointerField_stored (i := s.receiverPlace b) h₁ (by omega) (by omega) (by omega)
  have hnext := h.pointerField_stored h₁ (by omega) hroom (by omega)
  have hlt := hplace.lt_size
  refine ⟨?_, (h₂.value hnext h.active.2).1, ?_, h₂.pointerField (by omega) hcu₂ hplace⟩
  · rw [h₂.word _ _ hcu₂ hlt, if_neg (by omega), h₁.word _ _ hcu (by omega), if_pos ⟨rfl, rfl⟩]
  · rw [h₂.word _ _ hcu₂ (by omega), if_neg (by omega), h₁.word _ _ hcu (by omega),
      if_neg (by omega)]

/-- The send, when both have been pushed. -/
theorem returnBytecode_sends {s₁ : Interpreter} {u₂ : ObjectMemory} (hdead : DeadTarget s b)
    (hfirst : push s.activeContext (s.resultPopped b) = some ((), s₁))
    (hsecond : push (s.result b) s₁ = some ((), { (s.resultPopped b).withMemory u₂ with
      stackPointer := (s.resultPopped b).stackPointer + 2 }))
    (hfield : HasField u₂ s.activeContext ((s.resultPopped b).stackPointer + 1))
    (hreceiver : u₂.chunkWord s.activeContext (s.receiverPlace b) = s.activeContext)
    (hclass : u₂.chunkWord s.activeContext 1 = s.memory.chunkWord s.activeContext 1) :
    returnBytecode send b s = send (s.memory.chunkWord s.activeContext 1)
      { (s.resultPopped b).withMemory u₂ with
        stackPointer := (s.resultPopped b).stackPointer + 2
        messageSelector := cannotReturnSelector
        argumentCount := 1 } := by
  have hget : (get : IM Interpreter) (s.resultPopped b) =
      some (s.resultPopped b, s.resultPopped b) := rfl
  have hsp : (s.resultPopped b).stackPointer + 2 - 1 = (s.resultPopped b).stackPointer + 1 := by
    omega
  have hactive := activeContext_resultPopped s b
  have hin := hfield.inside
  rw [h.returnBytecode_dead hdead, cannotReturn, bind_of_run hget, hactive, bind_of_run hfirst,
    bind_of_run hsecond, sendSelectorArgumentCount_run (p := s.activeContext)]
  · exact congrArg (fun c => send c _) hclass
  · show HasField u₂ (s.resultPopped b).activeContext ((s.resultPopped b).stackPointer + 2 - 1)
    rw [hactive, hsp]
    exact hfield
  · show u₂.chunkWord (s.resultPopped b).activeContext
      (headerSize + ((s.resultPopped b).stackPointer + 2 - 1).toNat) = s.activeContext
    rw [hactive, hsp]
    exact hreceiver
  · exact h.active.1.inUse.isEntry
  · show u₂.location s.activeContext + 1 < 65536
    have h2 : headerSize = 2 := rfl
    omega

theorem stackTop_pushed (u₂ : ObjectMemory) :
    Interpreter.stackTop { (s.resultPopped b).withMemory u₂ with
      stackPointer := (s.resultPopped b).stackPointer + 2 } =
        u₂.chunkWord s.activeContext (s.receiverPlace b + 1) := by
  have hframe := h.frame
  have h6 : tempFrameStart = 6 := rfl
  show u₂.chunkWord (s.resultPopped b).activeContext
    (headerSize + ((s.resultPopped b).stackPointer + 2).toNat) = _
  rw [activeContext_resultPopped]
  congr 1
  rw [receiverPlace]
  omega

/-- The result is delivered when there is room and the receiver does not free it. -/
theorem delivers (hdead : DeadTarget s b) (hroom : HasRoom s b) (hkeep : ¬DropsResult s b) :
    Delivers s b := by
  have hroom' : s.receiverPlace b + 1 < s.memory.chunkWord s.activeContext 0 := hroom
  have hframe := h.frame
  have h6 : tempFrameStart = 6 := rfl
  obtain ⟨u, L₁, hfirst, h₁⟩ := h.push_receiver (by omega)
  have hleft := h.result_left hkeep h₁
  obtain ⟨u₂, L₂, hsecond, h₂⟩ := h.push_result hroom h₁ hleft
  obtain ⟨hreceiver, hargument, hclass, hfield⟩ := h.sent hroom h₁ h₂
  refine ⟨_, _, hfirst, hsecond, fun send => ?_, activeContext_resultPopped s b,
    (h.stackTop_pushed u₂).trans hargument, hreceiver, rfl,
    fun heven => ⟨intact_first h₁ (hleft heven), h.intact_second hroom h₁ h₂ heven (hleft heven)⟩⟩
  exact h.returnBytecode_sends hdead hfirst hsecond
    (hfield.hasField h₂.counted.heap (by omega)) hreceiver hclass

/-- Where the place of the argument holds a SmallInteger, the send has an argument that is
on a free list. -/
theorem lost (hdead : DeadTarget s b) (hroom : HasRoom s b) (hdrops : DropsResult s b)
    (hfresh : s.memory.chunkWord s.activeContext (s.receiverPlace b + 1) % 2 = 1) :
    ∃ s₂ : Interpreter, (∀ send : Nat → IM Unit, returnBytecode send b s =
        send (s.memory.chunkWord s.activeContext 1) s₂) ∧
      s₂.stackTop = s.result b ∧
      ¬∃ L', Heap s₂.memory L' ∧ Allocated s₂.memory L' (s.result b) := by
  have hroom' : s.receiverPlace b + 1 < s.memory.chunkWord s.activeContext 0 := hroom
  have hframe := h.frame
  have h6 : tempFrameStart = 6 := rfl
  have h2 : headerSize = 2 := rfl
  have h8 := h.eight_le
  obtain ⟨hlt, hpos, -⟩ := h.result_value
  obtain ⟨u, L₁, hfirst, h₁⟩ := h.push_receiver (by omega)
  have hcu := h₁.root _ h.active.1 h.active.2
  have heven := hcu.inUse.even
  have hs := h₁.counted.heap.onHeap hcu.inUse
  have hnext := h.pointerField_stored h₁ (by omega) hroom (by omega)
  have hplace := h.pointerField_stored (i := s.receiverPlace b) h₁ (by omega) (by omega) (by omega)
  have hstore : ∀ j, ((u.countedUp (s.result b)).setChunkWord s.activeContext
      (s.receiverPlace b + 1) (s.result b)).chunkWord s.activeContext j =
        if j = s.receiverPlace b + 1 then s.result b else u.chunkWord s.activeContext j :=
    fun j => by
      rw [chunkWord_setChunkWord (by rw [entry_countedUp]; exact hs) hlt,
        chunkWord_countedUp heven hs]
      exact if_congr (by omega) rfl rfl
  have hkept : ∀ j < s.memory.chunkWord s.activeContext 0, j ≠ s.receiverPlace b →
      u.chunkWord s.activeContext j = s.memory.chunkWord s.activeContext j := fun j hj hne => by
    rw [h₁.word _ j hcu hj, if_neg fun hall => hne hall.2]
  have hfield : HasField u s.activeContext ((s.resultPopped b).stackPointer + 1 + 1) :=
    (h.place_next ▸ hnext).hasField h₁.counted.heap (by omega)
  have hfield' : HasField u s.activeContext ((s.resultPopped b).stackPointer + 1) :=
    hplace.hasField h₁.counted.heap (by omega)
  have hsecond : push (s.result b) { (s.resultPopped b).withMemory u with
        stackPointer := (s.resultPopped b).stackPointer + 1 } =
      some ((), { (s.resultPopped b).withMemory ((u.countedUp (s.result b)).setChunkWord
          s.activeContext (s.receiverPlace b + 1) (s.result b)) with
        stackPointer := (s.resultPopped b).stackPointer + 2 }) := by
    have hactive := activeContext_resultPopped s b
    have hadd : (s.resultPopped b).stackPointer + 1 + 1 = (s.resultPopped b).stackPointer + 2 := by
      omega
    refine Wp.run_eq ?_
    simp only [push, wp_bind, wp_modify, wp_get, wp_inMemory]
    show Wp (storePointerOfObjectWithValue ((s.resultPopped b).stackPointer + 1 + 1)
      (s.resultPopped b).activeContext (s.result b)) _ u
    rw [hactive, wp_storePointer_fresh hfield (by
      rw [h.place_next, chunkWord_countedUp heven hs, hkept _ hroom' (by omega)]
      exact hfresh) hpos hlt, h.place_next, hadd]
    exact ⟨trivial, rfl⟩
  have hlocation : ((u.countedUp (s.result b)).setChunkWord s.activeContext
      (s.receiverPlace b + 1) (s.result b)).location s.activeContext =
        u.location s.activeContext := by
    rw [location_setChunkWord (by rw [entry_countedUp]; exact hs), location_countedUp heven]
  refine ⟨_, fun send => h.returnBytecode_sends hdead hfirst hsecond ⟨hfield'.isEntry,
    hfield'.nonneg, ?_, by rw [hlocation]; exact hfield'.inside⟩ ?_ ?_, ?_, ?_⟩
  · rw [hstore 0, if_neg (by omega)]
    exact hfield'.lt_size
  · rw [hstore, if_neg (by omega)]
    exact (h₁.value (h.pointerField (by omega) (by omega)) h.active.2).1
  · rw [hstore 1, if_neg (by omega), hkept 1 (by omega) (by omega)]
  · refine (h.stackTop_pushed _).trans ?_
    rw [hstore, if_pos rfl]
  · rintro ⟨L', hheap, hallocated⟩
    obtain ⟨hb, hresult, hactive, hcount⟩ := hdrops
    have htop : s.result b = s.memory.chunkWord s.activeContext (s.receiverPlace b) := by
      rw [result, if_pos hb]
      exact (h.stackTop_eq hb).1
    rw [(h.stackTop_eq hb).1] at hresult hactive hcount
    have hfreed := h₁.freed hcount hresult hactive
    rw [← htop] at hfreed
    have htiled := h₁.counted.heap.tiled
    have hin := htiled.word_lt hcu.inUse (hnext.lt_extent h₁.counted.heap)
    have hheap : Heap ((u.countedUp (s.result b)).setChunkWord s.activeContext
      (s.receiverPlace b + 1) (s.result b)) L' := hheap
    refine h₁.counted.heap.not_allocated hfreed (fun hu => ?_) (fun s' k hs' => ?_)
      (fun s' k q hq => ?_) hheap hallocated
    · rwa [InUse, entry_setChunkWord (by rw [entry_countedUp]; exact hs), ← InUse,
        inUse_countedUp] at hu
    · rw [chunkHead_setChunkWord hlt (by rw [location_countedUp heven]; exact hin),
        chunkHead_countedUp (by omega)]
    · have hqu := h₁.counted.heap.chunk_inUse hq
      have htwo := htiled.two_le q hqu
      rw [htiled.countedUp.chunkWord_setChunkWord (inUse_countedUp.mpr hcu.inUse)
        (inUse_countedUp.mpr hqu) (hnext.lt_extent h₁.counted.heap) (by omega) hlt,
        if_neg (by omega), chunkWord_countedUp hqu.even (h₁.counted.heap.onHeap hqu)]

/-- A result that was delivered had room, and was not freed. -/
theorem of_delivers (hd : Delivers s b) : HasRoom s b ∧ ¬DropsResult s b := by
  obtain ⟨s₁, s₂, hfirst, hsecond, -, -, -, -, -, hintact⟩ := hd
  have h8 := h.eight_le
  have hfield := hasField_of_push hfirst
  rw [memory_resultPopped, activeContext_resultPopped] at hfield
  have hlt : s.receiverPlace b < s.memory.chunkWord s.activeContext 0 := by
    have := hfield.lt_size
    have := hfield.nonneg
    rw [receiverPlace]
    omega
  obtain ⟨u, L₁, hrun, h₁⟩ := h.push_receiver hlt
  rw [hrun] at hfirst
  cases hfirst
  have hcu := h₁.root _ h.active.1 h.active.2
  refine ⟨?_, fun ⟨hb, heven, hactive, hcount⟩ => ?_⟩
  · have hnext := hasField_of_push hsecond
    have hnext : HasField u (s.resultPopped b).activeContext
        ((s.resultPopped b).stackPointer + 1 + 1) := hnext
    have hlt' := hnext.lt_size
    have h0 := hnext.nonneg
    rw [activeContext_resultPopped, h₁.word _ 0 hcu (by omega), if_neg (by omega)] at hlt'
    have hframe := h.frame
    have h6 : tempFrameStart = 6 := rfl
    rw [HasRoom, receiverPlace]
    omega
  · have hresult : s.result b = s.stackTop := by rw [result, if_pos hb]
    rw [hresult] at hintact
    obtain ⟨⟨L', hheap, hallocated⟩, -⟩ := (hintact heven).1
    obtain ⟨htop, -⟩ := h.stackTop_eq hb
    rw [htop] at hcount heven hactive hallocated
    exact h₁.freed hcount heven hactive ((h₁.counted.heap.allocated_unique hheap).mpr hallocated)

end Returning

/-- A return to a dead context delivers the result unless the stack is full, or the place
from which the result is popped held the only reference to it. -/
theorem delivers_iff (h : Returning s L regs b) (hdead : DeadTarget s b) :
    Delivers s b ↔ HasRoom s b ∧ ¬DropsResult s b :=
  ⟨h.of_delivers, fun ⟨hroom, hkeep⟩ => h.delivers hdead hroom hkeep⟩

end Delivery

/-! ## A result with one reference -/

/-- Oop 2 is nil. Oop 8 is a context with the stack from word 8 on: the sender is nil, and
oop 6 is on top of the stack. Its other words are SmallIntegers. -/
def lastWord (s w : Nat) : Nat :=
  if s = 15 then
    if w = 2 then 32768 else if w = 6 then 256 else if w = 8 then 32833 else sparseWord 2 15 w
  else if w = 65535 then if s < 2 then 65535 else sparseWord 2 s w
  else if s = 1 then
    if w = 0 then 65514 else if w = 2 then 2 else if w = 8 then 6
    else if w < 65514 then 1 else sparseWord 2 s w
  else if s = 0 ∧ w = 1 then 1
  else sparseWord 2 s w

theorem lastWord_lt (s w : Nat) : lastWord s w < 65536 := by
  have hsparse := sparseWord_lt 2 s w
  have htable := sparseWord_lt 2 15 w
  unfold lastWord
  repeat' refine ite_lt_of (fun _ => ?_) fun _ => ?_
  all_goals omega

def lastReference : ObjectMemory := ⟨⟨lastWord, lastWord_lt⟩, 0, 0, 32748⟩

def lastReferenceLayout : Layout :=
  { sparseLayout 2 with chunks := fun s k => if s < 2 then [] else (sparseLayout 2).chunks s k }

section LastReference

variable {p i q k : Nat}

theorem entry_lastReference (p : Nat) : lastReference.entry p =
    if p = 2 then ⟨128, 0, 0, 0, 0⟩ else if p = 6 then ⟨1, 0, 0, 0, 0⟩
    else if p = 8 then ⟨128, 0, 1, 0, 1⟩ else (sparse 2).entry p := by
  show decodeEntry (lastWord 15 p) = _
  rw [lastWord, if_pos rfl]
  split
  · rfl
  · split
    · rfl
    · split <;> rfl

theorem entry_same (p : Nat) : (lastReference.entry p).free = ((sparse 2).entry p).free ∧
    (lastReference.entry p).segment = ((sparse 2).entry p).segment := by
  rw [entry_lastReference]
  split
  · next h => subst h; decide
  · split
    · next h => subst h; decide
    · split
      · next h => subst h; decide
      · exact ⟨rfl, rfl⟩

theorem location_lastReference (hp : p % 2 = 0) :
    lastReference.location p = (sparse 2).location p := by
  show lastWord 15 (p + 1) = sparseWord 2 15 (p + 1)
  rw [lastWord, if_pos rfl, if_neg (by omega), if_neg (by omega), if_neg (by omega)]

theorem inUse_lastReference : InUse lastReference p ↔ InUse (sparse 2) p := by
  rw [InUse, InUse, (entry_same p).1]

theorem mem_chunks_lastReference {s : Nat} (hp : p ∈ lastReferenceLayout.chunks s k) :
    2 ≤ s ∧ p ∈ (sparseLayout 2).chunks s k := by
  have hp : p ∈ if s < 2 then [] else (sparseLayout 2).chunks s k := hp
  split at hp
  · simp at hp
  · exact ⟨by omega, hp⟩

theorem allocated_lastReference :
    Allocated lastReference lastReferenceLayout p ↔ p = 2 ∨ p = 6 ∨ p = 8 := by
  rw [Allocated, inUse_lastReference, inUse_sparse]
  constructor
  · rintro ⟨⟨hoop, hcase⟩, hout⟩
    have heven := hoop.1
    by_contra hne
    refine hout (p / 2 - 3) 20 ?_
    show p ∈ if p / 2 - 3 < 2 then []
      else if p / 2 - 3 < 15 ∧ 20 = 20 then [6 + 2 * (p / 2 - 3)] else []
    rw [if_neg (by omega), if_pos ⟨by omega, rfl⟩, List.mem_singleton]
    omega
  · intro hp
    refine ⟨⟨⟨by omega, by omega, by omega⟩, by omega⟩, fun s k hmem => ?_⟩
    obtain ⟨h2, hmem⟩ := mem_chunks_lastReference hmem
    obtain ⟨hs, hk, hps⟩ := mem_chunks_sparse hmem
    omega

/-- Only the words of the three objects have changed. -/
theorem chunkWord_lastReference {s : Nat} (hp : p ∈ lastReferenceLayout.chunks s k) (hi : i < 2) :
    lastReference.entry p = (sparse 2).entry p ∧
      lastReference.chunkWord p i = (sparse 2).chunkWord p i := by
  obtain ⟨h2, hmem⟩ := mem_chunks_lastReference hp
  obtain ⟨hs, -, rfl⟩ := mem_chunks_sparse hmem
  have hentry : lastReference.entry (6 + 2 * s) = (sparse 2).entry (6 + 2 * s) := by
    rw [entry_lastReference, if_neg (by omega), if_neg (by omega), if_neg (by omega)]
  refine ⟨hentry, ?_⟩
  have hsegment : ((sparse 2).entry (6 + 2 * s)).segment = s := by
    rw [entry_sparse (o := 2) ⟨by omega, by omega, by omega⟩, if_neg (by omega), if_pos (by omega)]
    show (6 + 2 * s) / 2 - 3 = s
    omega
  have hlocation : (sparse 2).location (6 + 2 * s) = 0 := by
    rw [location_sparse (o := 2) ⟨by omega, by omega, by omega⟩]
    rw [if_neg (by omega), if_neg (by omega), if_neg (by omega), if_pos (by omega)]
  rw [chunkWord, chunkWord, hentry, location_lastReference (by omega), hsegment, hlocation]
  show lastWord s (0 + i) = sparseWord 2 s (0 + i)
  rw [lastWord, if_neg (by omega), if_neg (by omega), if_neg (by omega), if_neg (by omega)]

theorem space_lastReference (hp : p = 2 ∨ p = 6 ∨ p = 8) :
    lastReference.space p = lastReferenceLayout.extent p := by
  rcases hp with rfl | rfl | rfl <;> decide

theorem heap_lastReference : Heap lastReference lastReferenceLayout := by
  have hsparse : Heap (sparse 2) (sparseLayout 2) := heap_sparse (.inl rfl)
  refine ⟨hsparse.tiled.congr (fun p _ => (entry_same p).1) (fun p _ => (entry_same p).2)
    fun p hp => location_lastReference hp.1, ⟨?_, fun p => ?_, fun s k hs h2 h20 => ?_,
    fun s k p hp => ?_, fun s k k' p hp hp' => ?_⟩, fun s k p hp => ?_, fun p hp => ?_⟩
  · have hhead : lastReference.freeHead = (sparse 2).freeHead := by decide
    rw [hhead]
    exact hsparse.lists.pointers.congr fun p hp =>
      location_lastReference ((hsparse.lists.mem_pointers p).mp hp).1.1
  · rw [(entry_same p).1]
    exact hsparse.lists.mem_pointers p
  · have hhead : lastReference.chunkHead s k = lastWord s (65515 + k) := rfl
    have hlist : lastReferenceLayout.chunks s k =
        if s < 2 then [] else (sparseLayout 2).chunks s k := rfl
    by_cases hlow : s < 2
    · have hstop : lastWord s (65515 + k) = 65535 := by
        by_cases hk : k = 20
        · rw [lastWord, if_neg (by omega), if_pos (by omega), if_pos hlow]
        · have hfill : sparseWord 2 s (65515 + k) = 65535 := by
            rw [sparseWord, if_neg (by omega), if_neg (by omega), if_pos (by omega)]
          rw [lastWord, if_neg (by omega), if_neg (by omega)]
          split
          · rw [if_neg (by omega), if_neg (by omega), if_neg (by omega), if_neg (by omega), hfill]
          · rw [if_neg (by omega), hfill]
      rw [hhead, hstop, hlist, if_pos hlow]
      rfl
    · have hsame : lastWord s (65515 + k) = (sparse 2).chunkHead s k := by
        show _ = sparseWord 2 s (65515 + k)
        rw [lastWord, if_neg (by omega), if_neg hlow, if_neg (show ¬s = 1 by omega),
          if_neg (show ¬(s = 0 ∧ 65515 + k = 1) by omega)]
        exact ite_self _
      rw [hhead, hsame]
      refine ((hlist.trans (if_neg hlow)) ▸ hsparse.lists.chunks s k hs h2 h20).congr fun p hp => ?_
      exact (chunkWord_lastReference (hlist ▸ hp) (by decide)).2
  · have hfree := hsparse.lists.freeChunk s k p (mem_chunks_lastReference hp).2
    obtain ⟨hentry, hsize⟩ := chunkWord_lastReference (i := 0) hp (by decide)
    exact ⟨inUse_lastReference.mpr hfree.inUse, by rw [hentry]; exact hfree.segment,
      hfree.segment_lt, hfree.two_le, hfree.le_bigSize, fun hk => by rw [hsize]; exact hfree.size hk,
      by rw [hentry]; exact hfree.count⟩
  · exact hsparse.lists.unique s k k' p (mem_chunks_lastReference hp).2
      (mem_chunks_lastReference hp').2
  · rw [(chunkWord_lastReference hp (by decide)).2]
    exact hsparse.extent_chunk s k p (mem_chunks_lastReference hp).2
  · exact (space_lastReference (allocated_lastReference.mp hp)).symm

theorem chunkWord_context (hi : i < 65514) : lastReference.chunkWord 8 i =
    if i = 0 then 65514 else if i = 2 then 2 else if i = 8 then 6 else 1 := by
  have hplace : lastReference.chunkWord 8 i = lastWord 1 (0 + i) := rfl
  rw [hplace, lastWord, if_neg (by omega), if_neg (by omega), if_pos rfl, Nat.zero_add]
  exact if_congr Iff.rfl rfl (if_congr Iff.rfl rfl (if_congr Iff.rfl rfl (if_pos hi)))

/-- The sender and the top of the stack are the only pointers. -/
theorem isPointer_lastReference (hp : p = 2 ∨ p = 6 ∨ p = 8) (hi : IsPointer lastReference p i) :
    p = 8 ∧ (i = 2 ∧ lastReference.chunkWord p i = 2 ∨
      i = 8 ∧ lastReference.chunkWord p i = 6) := by
  obtain ⟨h1, hlt, heven⟩ := hi
  rcases hp with rfl | rfl | rfl
  · have hlast : lastReference.last 2 = 2 := by decide
    obtain rfl : i = 1 := by omega
    exact absurd heven (by decide)
  · have hlast : lastReference.last 6 = 2 := by decide
    obtain rfl : i = 1 := by omega
    exact absurd heven (by decide)
  · have hlast : lastReference.last 8 = 65514 := by decide
    rw [chunkWord_context (by omega), if_neg (by omega)] at heven ⊢
    refine ⟨rfl, ?_⟩
    split at heven
    · next h2 => exact .inl ⟨h2, by rw [if_pos h2]⟩
    · next h2 =>
        split at heven
        · next h8 => exact .inr ⟨h8, by rw [if_neg h2, if_pos h8]⟩
        · omega

/-- The machine has the active context. -/
def contextRegister (p : Nat) : Nat := if p = 8 then 1 else 0

theorem pointerField_lastReference (h2 : 2 ≤ i) (hi : i < 65514) :
    PointerField lastReference lastReferenceLayout 8 i :=
  ⟨allocated_lastReference.mpr (.inr (.inr rfl)), by decide, h2, hi⟩

theorem counted_lastReference : Counted lastReference lastReferenceLayout contextRegister := by
  refine ⟨heap_lastReference, fun p hp => ?_, fun p i hp hi => ?_, fun p hp hlt => ?_⟩
  · rcases allocated_lastReference.mp hp with rfl | rfl | rfl <;> decide
  · obtain ⟨-, ⟨-, hword⟩ | ⟨-, hword⟩⟩ := isPointer_lastReference (allocated_lastReference.mp hp) hi
    · rw [hword]
      exact allocated_lastReference.mpr (.inl rfl)
    · rw [hword]
      exact allocated_lastReference.mpr (.inr (.inl rfl))
  · rcases allocated_lastReference.mp hp with rfl | rfl | rfl
    · exact absurd hlt (by decide)
    · rw [(pointerField_lastReference (i := 8) (by decide) (by decide)).references_eq,
        references_empty fun v i hv hi hq => ?_]
      · decide
      · obtain ⟨rfl, ⟨rfl, hword⟩ | ⟨rfl, -⟩⟩ :=
          isPointer_lastReference (allocated_lastReference.mp hv.1) hi
        · rw [hword] at hq
          cases hq
        · exact hv.2 rfl
    · exact absurd hlt (by decide)

end LastReference

def lastReferenceState : Interpreter :=
  { beforeTime with
    host := { beforeTime.host with memory := lastReference }
    activeContext := 8
    homeContext := 8
    receiver := 1
    stackPointer := 6 }

theorem returning_lastReference :
    Returning lastReferenceState lastReferenceLayout contextRegister 124 where
  counted := counted_lastReference
  active := ⟨allocated_lastReference.mpr (.inr (.inr rfl)), le_rfl⟩
  constant h := absurd (.inl rfl) h
  context := pointerField_lastReference (by decide) (by decide)
  home := .inl rfl
  homeContext := pointerField_lastReference (by decide) (by decide)
  receiver := rfl
  frame := by decide
  operand _ := ⟨by decide, by decide, by decide, by decide⟩
  bytecode := by decide

theorem deadTarget_lastReference : DeadTarget lastReferenceState 124 := .inl rfl

/-- The top of the stack is returned to a dead sender. -/
theorem delivers_iff_lastReference : Delivers lastReferenceState 124 ↔
    HasRoom lastReferenceState 124 ∧ ¬DropsResult lastReferenceState 124 :=
  delivers_iff returning_lastReference deadTarget_lastReference

/-- The argument of the send has been freed. -/
theorem not_delivers_lastReference : Returning lastReferenceState lastReferenceLayout
      contextRegister 124 ∧ DeadTarget lastReferenceState 124 ∧ HasRoom lastReferenceState 124 ∧
    ¬Delivers lastReferenceState 124 ∧
    ∃ s₂ : Interpreter, (∀ send : Nat → IM Unit, returnBytecode send 124 lastReferenceState =
        send (lastReference.chunkWord 8 1) s₂) ∧
      s₂.stackTop = 6 ∧ ¬∃ L, Heap s₂.memory L ∧ Allocated s₂.memory L 6 :=
  have hdrops : DropsResult lastReferenceState 124 := ⟨.inl rfl, by decide, by decide, by decide⟩
  ⟨returning_lastReference, deadTarget_lastReference, by decide,
    fun h => (returning_lastReference.of_delivers h).2 hdrops,
    returning_lastReference.lost deadTarget_lastReference (by decide) hdrops (by decide)⟩

end Crosstalk
