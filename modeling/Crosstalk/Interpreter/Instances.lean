import Crosstalk.Interpreter.Arithmetic
import Crosstalk.Snapshot.Saved

/-!
# Enumerating the instances of a class

`primitiveSomeInstance` and `primitiveNextInstance` look through the object
table for the next object of a class. Both loops answer nil when there is none,
and nil is an object: its class has an instance that the primitives take for the
end.
-/

namespace Crosstalk

open ObjectMemory

/-! ## The code -/

/-- The loop `for (p = pointer; p <= ObjectTableSize-2; p += 2)`, with `n` rounds to go. -/
def firstInstance (isObject : Nat → OM Bool) (classPointer : Nat) : Nat → Nat → OM Nat
  | 0, _ => pure nilPointer
  | n + 1, pointer => do
      if ← isObject pointer then
        if (← fetchClassOf pointer) = classPointer then
          return pointer
        else
          firstInstance isObject classPointer n (pointer + 2)
      else
        firstInstance isObject classPointer n (pointer + 2)

/-- The rounds that start at `pointer`. -/
def roundsFrom (pointer : Nat) : Nat := (objectTableSize - pointer) / 2

/-- The test of `initialInstanceOf`, the same as that of `hasObject`. -/
def entryInUse (pointer : Nat) : OM Bool := do
  if (← freeBitOf pointer) = 0 then
    return (← countBitsOf pointer) ≠ 0
  else
    return false

def initialInstanceOf (classPointer : Nat) : OM Nat :=
  firstInstance entryInUse classPointer (roundsFrom 0) 0

def instanceAfter (objectPointer : Nat) : OM Nat := do
  let classPointer ← fetchClassOf objectPointer
  firstInstance hasObject classPointer (roundsFrom (objectPointer + 2)) (objectPointer + 2)

def primitiveSomeInstance : IM Unit := do
  let cls ← popStack
  let inst ← inMemory (initialInstanceOf cls)
  if inst = nilPointer then
    let _ ← primitiveFail
  else
    push inst

def primitiveNextInstance : IM Unit := do
  let object ← popStack
  let inst ← inMemory (instanceAfter object)
  if inst = nilPointer then
    let _ ← primitiveFail
  else
    push inst

/-! ## The instances -/

namespace ObjectMemory

/-- `p` is an object of the class. -/
def isInstance (m : ObjectMemory) (classPointer p : Nat) : Bool :=
  m.holdsObject p && m.chunkWord p 1 == classPointer

/-- The objects of the class, in the order of the object table. -/
def instances (m : ObjectMemory) (classPointer : Nat) : List Nat :=
  (List.range' 0 (roundsFrom 0) 2).filter (m.isInstance classPointer)

/-- `t` has the objects of `m`, with their classes, and each in its heap segment. -/
structure SameObjects (m t : ObjectMemory) : Prop where
  holdsObject : ∀ p, IsEntry p → p < objectTableSize → t.holdsObject p = m.holdsObject p
  fetchClass : ∀ p, IsEntry p → p < objectTableSize → m.holdsObject p →
    t.chunkWord p 1 = m.chunkWord p 1
  inside : ∀ p, IsEntry p → p < objectTableSize → m.holdsObject p → t.location p + 1 < 65536

variable {m t : ObjectMemory} {c p n : Nat}

theorem mem_instances : p ∈ m.instances c ↔
    (IsEntry p ∧ p < objectTableSize) ∧ m.holdsObject p ∧ m.chunkWord p 1 = c := by
  simp only [instances, List.mem_filter, List.mem_range', isInstance, Bool.and_eq_true, beq_iff_eq,
    roundsFrom, objectTableSize, segmentSize]
  refine and_congr_left fun _ => ⟨?_, fun h => ⟨p / 2, by omega, by omega⟩⟩
  rintro ⟨i, hi, rfl⟩
  omega

/-- What follows `p` among the instances is found behind it in the table. -/
theorem filter_range'_eq_append {P : Nat → Bool} {s : Nat} {before after : List Nat}
    (h : (List.range' s n 2).filter P = before ++ p :: after) :
    ∃ k < n, p = s + 2 * k ∧ P p ∧ (List.range' (p + 2) (n - (k + 1)) 2).filter P = after := by
  induction n generalizing s before with
  | zero => simp at h
  | succ n ih =>
      rw [List.range'_succ, List.filter_cons] at h
      by_cases hs : P s
      · rw [if_pos hs] at h
        cases before with
        | nil =>
            obtain ⟨rfl, rfl⟩ := List.cons.inj h
            exact ⟨0, by omega, by omega, hs, rfl⟩
        | cons q before =>
            obtain ⟨k, hk, hp, hP, ha⟩ := ih (List.cons.inj h).2
            exact ⟨k + 1, by omega, by omega, hP,
              by rwa [show n + 1 - (k + 1 + 1) = n - (k + 1) by omega]⟩
      · rw [if_neg hs] at h
        obtain ⟨k, hk, hp, hP, ha⟩ := ih h
        exact ⟨k + 1, by omega, by omega, hP,
          by rwa [show n + 1 - (k + 1 + 1) = n - (k + 1) by omega]⟩

/-! ## The loops -/

theorem wp_entryInUse {Q : Bool → ObjectMemory → Prop} :
    Wp (entryInUse p) Q m ↔ IsEntry p ∧ Q (m.holdsObject p) m := by
  rw [entryInUse, wp_bind, wp_freeBitOf, holdsObject]
  refine and_congr_right fun hp => ?_
  by_cases hf : (m.entry p).free = 0
  · rw [if_pos hf, wp_bind, wp_countBitsOf, wp_pure, and_iff_right hp]
    simp [hf]
  · rw [if_neg hf, wp_pure]
    simp [hf]

/-- The loop answers the first object of the class from `p` on. -/
theorem wp_firstInstance {isObject : Nat → OM Bool}
    (hobject : ∀ (p : Nat) (Q : Bool → ObjectMemory → Prop),
      Wp (isObject p) Q t ↔ IsEntry p ∧ Q (t.holdsObject p) t)
    (h : SameObjects m t) (hp : p % 2 = 0) (hn : p + 2 * n ≤ objectTableSize)
    {Q : Nat → ObjectMemory → Prop} : Wp (firstInstance isObject c n p) Q t ↔
      Q (((List.range' p n 2).find? (m.isInstance c)).getD nilPointer) t := by
  induction n generalizing p with
  | zero => rw [firstInstance, wp_pure]; rfl
  | succ n ih =>
      have hentry : IsEntry p ∧ p < objectTableSize := by
        simp only [objectTableSize, segmentSize] at hn ⊢
        omega
      have hnext := ih (p := p + 2) (by omega) (by omega)
      rw [firstInstance, wp_bind, hobject, and_iff_right hentry.1, List.range'_succ,
        List.find?_cons, h.holdsObject p hentry.1 hentry.2, isInstance]
      cases hlive : m.holdsObject p with
      | false => simpa using hnext
      | true =>
          rw [if_pos rfl, wp_bind, wp_fetchClassOf hp,
            and_iff_right ⟨hentry.1, h.inside p hentry.1 hentry.2 hlive⟩,
            h.fetchClass p hentry.1 hentry.2 hlive]
          by_cases hc : m.chunkWord p 1 = c
          · rw [if_pos hc, wp_pure]
            simp [hc]
          · rw [if_neg hc, hnext, beq_eq_false_iff_ne.2 hc]
            rfl

end ObjectMemory

/-! ## The primitives -/

/-- A primitive that answers `p`, or fails. -/
def answerOrFail : Option Nat → IM Unit
  | some p => push p
  | none => do let _ ← primitiveFail

def Interpreter.withoutTop (s : Interpreter) : Interpreter :=
  { s with stackPointer := s.stackPointer - 1 }

/-- Called with `argument` on the stack, while the heap has the objects of `m`, the
primitive answers `answer`, or fails if there is none. -/
def Answers (m : ObjectMemory) (primitive : IM Unit) (argument : Nat) (answer : Option Nat) :
    Prop :=
  ∀ s : Interpreter, SameObjects m s.memory →
    HasField s.memory s.activeContext s.stackPointer → s.stackTop = argument →
      primitive s = answerOrFail answer s.withoutTop

/-- The primitives go through the instances of the class, one after the other, and
fail at the end. -/
structure Enumerates (m : ObjectMemory) (cls : Nat) : Prop where
  some : Answers m primitiveSomeInstance cls (m.instances cls).head?
  next : ∀ before p after, m.instances cls = before ++ p :: after →
    Answers m primitiveNextInstance p after.head?

/-- What the primitives make of the next instance. -/
def unlessNil (inst : Option Nat) : Option Nat := inst.filter (· ≠ nilPointer)

variable {m : ObjectMemory} {cls p : Nat} {s : Interpreter}

theorem pop_look_answer {x : Nat → OM Nat} {inst : Option Nat}
    (hpop : HasField s.memory s.activeContext s.stackPointer)
    (hlook : ∀ Q : Nat → ObjectMemory → Prop,
      Q (inst.getD nilPointer) s.memory → Wp (x s.stackTop) Q s.memory) :
    (do
      let argument ← popStack
      let inst ← inMemory (x argument)
      if inst = nilPointer then
        let _ ← primitiveFail
      else
        push inst : IM Unit) s = answerOrFail (unlessNil inst) s.withoutTop := by
  have hp : popStack s = some (s.stackTop, s.withoutTop) :=
    Wp.run_eq ((wp_popStack hpop).2 ⟨rfl, rfl⟩)
  have hl : inMemory (x s.stackTop) s.withoutTop = some (inst.getD nilPointer, s.withoutTop) :=
    Wp.run_eq (wp_inMemory.2 (hlook _ ⟨rfl, rfl⟩))
  rw [bind_of_run hp, bind_of_run hl]
  cases inst with
  | none => rfl
  | some p =>
      by_cases h : p = nilPointer
      · subst h
        rfl
      · rw [Option.getD_some, if_neg h, unlessNil, Option.filter_some, if_pos (by simpa using h)]
        rfl

theorem answers_someInstance (m : ObjectMemory) (cls : Nat) :
    Answers m primitiveSomeInstance cls (unlessNil (m.instances cls).head?) := by
  rintro s hm hpop rfl
  refine pop_look_answer hpop fun Q hQ => ?_
  rw [initialInstanceOf, wp_firstInstance (fun _ _ => wp_entryInUse) hm rfl (by decide),
    ← List.head?_filter]
  exact hQ

theorem answers_nextInstance {before after : List Nat}
    (h : m.instances cls = before ++ p :: after) :
    Answers m primitiveNextInstance p (unlessNil after.head?) := by
  rintro s hm hpop rfl
  obtain ⟨k, hk, hp, hP, ha⟩ := filter_range'_eq_append h
  simp only [isInstance, Bool.and_eq_true, beq_iff_eq] at hP
  simp only [roundsFrom, objectTableSize, segmentSize] at hk ha
  have hentry : IsEntry s.stackTop ∧ s.stackTop < objectTableSize := by
    simp only [objectTableSize, segmentSize]
    omega
  refine pop_look_answer hpop fun Q hQ => ?_
  rw [instanceAfter, wp_bind, wp_fetchClassOf hentry.1.1,
    and_iff_right ⟨hentry.1, hm.inside _ hentry.1 hentry.2 hP.1⟩,
    hm.fetchClass _ hentry.1 hentry.2 hP.1, hP.2,
    wp_firstInstance (fun _ _ => wp_hasObject) hm (by omega)
      (by simp only [roundsFrom, objectTableSize, segmentSize]; omega), ← List.head?_filter]
  rw [show roundsFrom (s.stackTop + 2) = 65534 / 2 - (k + 1) by
    simp only [roundsFrom, objectTableSize, segmentSize]; omega]
  rw [show (65536 - 2 - 0) / 2 = 65534 / 2 from rfl] at ha
  rw [ha]
  exact hQ

theorem unlessNil_of_not_mem {l : List Nat} (h : nilPointer ∉ l) :
    unlessNil l.head? = l.head? := by
  cases l with
  | nil => rfl
  | cons p l =>
      have hp : p ≠ nilPointer := fun hp => h (hp ▸ List.mem_cons_self)
      rw [List.head?_cons, unlessNil, Option.filter_some, if_pos (by simpa using hp)]

theorem enumerates_of_not_mem (h : nilPointer ∉ m.instances cls) : Enumerates m cls where
  some := unlessNil_of_not_mem h ▸ answers_someInstance m cls
  next before p after heq := by
    have hafter : nilPointer ∉ after := fun hmem => h (by simp [heq, hmem])
    exact unlessNil_of_not_mem hafter ▸ answers_nextInstance heq

/-! ## The class of nil -/

namespace ObjectMemory

/-- The objects of `m` as headers only, all in one segment, and in another one a
context with `argument` on its stack. -/
def headersOf (m : ObjectMemory) (argument : Nat) : ObjectMemory where
  wordMemory := {
    memory segment w :=
      if segment = objectTableSegment then
        if w = freePointerList then 1
        else if w % 2 = 1 ∧ w < freePointerList then w - 1
        else if w % 2 = 0 ∧ m.holdsObject w then 256 else 0
      else if segment = 0 then m.chunkWord (w - 1) 1
      else if w = 0 then 3 else argument % 65536
    memory_lt segment w := by
      have := m.chunkWord_lt (w - 1) 1
      have := Nat.mod_lt argument (show 65536 > 0 by decide)
      have hlist : freePointerList = 65534 := rfl
      split_ifs <;> omega }
  currentSegment := 0
  freeWords := 0
  freeOops := 0

theorem word_headersOf (m : ObjectMemory) (argument segment w : Nat) :
    (m.headersOf argument).word segment w =
      if segment = objectTableSegment then
        if w = freePointerList then 1
        else if w % 2 = 1 ∧ w < freePointerList then w - 1
        else if w % 2 = 0 ∧ m.holdsObject w then 256 else 0
      else if segment = 0 then m.chunkWord (w - 1) 1
      else if w = 0 then 3 else argument % 65536 := rfl

theorem tableWord_headersOf (m : ObjectMemory) (argument : Nat) {w : Nat}
    (hlt : w < freePointerList) : (m.headersOf argument).word objectTableSegment w =
      if w % 2 = 1 then w - 1 else if m.holdsObject w then 256 else 0 := by
  rw [word_headersOf, if_pos rfl, if_neg hlt.ne]
  rcases Nat.mod_two_eq_zero_or_one w with h | h
  · simp [h]
  · rw [if_pos ⟨h, hlt⟩, if_pos h]

theorem sameObjects_headersOf (m : ObjectMemory) (argument : Nat) :
    SameObjects m (m.headersOf argument) := by
  have hentry : ∀ p, IsEntry p → p < objectTableSize → (m.headersOf argument).entry p =
      decodeEntry (if m.holdsObject p then 256 else 0) := by
    intro p hp hlt
    rw [entry, tableWord_headersOf m argument hlt, if_neg (by omega)]
  have hloc : ∀ p, IsEntry p → p < objectTableSize → (m.headersOf argument).location p = p := by
    intro p hp hlt
    have hlist : freePointerList = objectTableSize := rfl
    have htable : objectTableSize = 65534 := rfl
    rw [location, tableWord_headersOf m argument (by omega), if_pos (by omega), Nat.add_sub_cancel]
  refine ⟨fun p hp hlt => ?_, fun p hp hlt hlive => ?_, fun p hp hlt _ => ?_⟩
  · rw [holdsObject, hentry p hp hlt]
    cases m.holdsObject p <;> rfl
  · rw [chunkWord, hentry p hp hlt, hloc p hp hlt, hlive]
    rfl
  · rw [hloc p hp hlt]
    have htable : objectTableSize = 65534 := rfl
    omega

/-- The context has the entry behind the table. -/
theorem context_headersOf (m : ObjectMemory) (argument i : Nat) :
    (m.headersOf argument).location freePointerList = 0 ∧
      (m.headersOf argument).chunkWord freePointerList i =
        if i = 0 then 3 else argument % 65536 := by
  have hloc : (m.headersOf argument).location freePointerList = 0 := by
    rw [location, word_headersOf, if_pos rfl, if_neg (by decide), if_neg (by decide),
      if_neg (by simp)]
  have hsegment : ((m.headersOf argument).entry freePointerList).segment = 1 := by
    rw [entry, word_headersOf, if_pos rfl, if_pos rfl]
    rfl
  refine ⟨hloc, ?_⟩
  rw [chunkWord, hloc, hsegment, word_headersOf, if_neg (by decide), if_neg (by decide),
    Nat.zero_add]

end ObjectMemory

/-- An interpreter on it, with the context outside of the object table. -/
def callWith (m : ObjectMemory) (argument : Nat) : Interpreter :=
  { beforeTime with
    host := { beforeTime.host with memory := m.headersOf argument }
    activeContext := freePointerList
    stackPointer := 0
    successFlag := true }

theorem hasField_callWith (m : ObjectMemory) (argument : Nat) :
    HasField (callWith m argument).memory (callWith m argument).activeContext
      (callWith m argument).stackPointer := by
  obtain ⟨hloc, hsize⟩ := context_headersOf m argument 0
  refine ⟨(by decide : IsEntry freePointerList), le_rfl, ?_, ?_⟩
  · exact hsize ▸ (by decide : (0 : Int) + headerSize < (3 : Nat))
  · exact hloc ▸ (by decide : 0 + (headerSize + (0 : Int).toNat) < 65536)

theorem stackTop_callWith (m : ObjectMemory) {argument : Nat} (h : argument < 65536) :
    (callWith m argument).stackTop = argument :=
  (context_headersOf m argument 2).2.trans (Nat.mod_eq_of_lt h)

/-- Whatever `push` does to the heap, it leaves the flag alone. -/
theorem wlp_push_successFlag (p : Nat) (s : Interpreter) :
    Wlp (push p) (fun _ s' => s'.successFlag = s.successFlag) s := by
  rw [push, wlp_bind, wlp_modify, wlp_bind, wlp_get]
  intro _ s' hrun
  simp only [inMemory, onHost] at hrun
  split at hrun
  · cases hrun
  · cases hrun
    rfl

theorem answerOrFail_ne (p : Nat) {s : Interpreter} (hs : s.successFlag = true) :
    answerOrFail none s ≠ answerOrFail (some p) s := by
  intro heq
  have h := wlp_push_successFlag p s () { s with successFlag := false } heq.symm
  rw [hs] at h
  cases h

theorem not_mem_of_enumerates (h : Enumerates m cls) : nilPointer ∉ m.instances cls := by
  intro hmem
  have hne : ∀ primitive argument, argument < 65536 → Answers m primitive argument none →
      ¬Answers m primitive argument (some nilPointer) := by
    intro primitive argument hlt hnone hsome
    have hs := hnone (callWith m argument) (sameObjects_headersOf ..) (hasField_callWith ..)
      (stackTop_callWith m hlt)
    rw [hsome (callWith m argument) (sameObjects_headersOf ..) (hasField_callWith ..)
      (stackTop_callWith m hlt)] at hs
    exact answerOrFail_ne nilPointer rfl hs.symm
  obtain ⟨before, after, heq⟩ := List.append_of_mem hmem
  rcases List.eq_nil_or_concat before with rfl | ⟨before, p, rfl⟩
  · have hcls : cls < 65536 := by
      obtain ⟨-, -, hc⟩ := mem_instances.1 hmem
      rw [← hc]
      exact m.chunkWord_lt ..
    have h1 := answers_someInstance m cls
    have h2 := h.some
    rw [heq] at h1 h2
    exact hne _ _ hcls h1 h2
  · have heq' : m.instances cls = before ++ p :: nilPointer :: after := by simpa using heq
    have hp := (mem_instances.1 (heq' ▸ by simp : p ∈ m.instances cls)).1.1
    exact hne _ _ hp.2 (answers_nextInstance heq') (h.next _ _ _ heq')

/-- `someInstance` and then `nextInstance` give every instance of the class once, and fail after
the last one, exactly if nil is not an instance of the class. -/
theorem enumerates_iff (m : ObjectMemory) (cls : Nat) :
    Enumerates m cls ↔ nilPointer ∉ m.instances cls :=
  ⟨not_mem_of_enumerates, enumerates_of_not_mem⟩

/-- Nil, of class 4, and its class. -/
def nilAndClass : ObjectMemory :=
  (ObjectMemory.blank.place 2 256 100 [2, 4]).place 4 256 102 [2, 6]

/-- The class of nil has an instance, which the primitives do not find. -/
theorem not_enumerates_nilAndClass :
    nilPointer ∈ nilAndClass.instances 4 ∧ ¬Enumerates nilAndClass 4 := by
  have hmem : nilPointer ∈ nilAndClass.instances 4 := mem_instances.2 (by decide)
  exact ⟨hmem, fun h => not_mem_of_enumerates h hmem⟩

end Crosstalk
