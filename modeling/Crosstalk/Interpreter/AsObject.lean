import Crosstalk.Interpreter.Instances

/-!
# Objects as integers

`primitiveAsOop` answers the SmallInteger whose word is the oop of the receiver
with the tag bit set, `primitiveAsObject` the object whose oop is the word of the
receiver without the tag. It asks `hasObject`, which looks at the word it is
given: word 0 of the object table segment, which belongs to no object, and word
65534, the head of the list of free entries, are taken for entries too.
-/

namespace Crosstalk

open ObjectMemory

/-! ## The code -/

def primitiveAsOop : IM Unit := do
  let thisReceiver ← popStack
  success (decide (¬isIntegerObject thisReceiver))
  if (← get).successFlag then
    push (thisReceiver ||| 1)
  else
    unPop 1

def primitiveAsObject : IM Unit := do
  let thisReceiver ← popStack
  let newOop := thisReceiver &&& 0xFFFE
  success (← inMemory (hasObject newOop))
  if (← get).successFlag then
    push newOop
  else
    unPop 1

/-! ## What they answer -/

/-- A primitive that is called with an argument on the stack. -/
structure Called (s : Interpreter) : Prop where
  hasTop : HasField s.memory s.activeContext s.stackPointer
  success : s.successFlag = true

/-- The word of a SmallInteger without the tag. -/
def newOopOf (objectPointer : Nat) : Nat := objectPointer &&& 0xFFFE

/-- `p` is the oop of an object of the object table. -/
def IsObject (m : ObjectMemory) (p : Nat) : Prop :=
  (p % 2 = 0 ∧ 2 ≤ p ∧ p ≤ objectTableSize - 2) ∧ m.holdsObject p

instance (m : ObjectMemory) (p : Nat) : Decidable (IsObject m p) := by
  unfold IsObject; infer_instance

/-- The primitive answers the object of the table that the receiver stands for, and
fails, with the receiver still on the stack, if it stands for none. -/
def AsObjectSound (s : Interpreter) : Prop :=
  primitiveAsObject s =
    if IsObject s.memory (newOopOf s.stackTop) then push (newOopOf s.stackTop) s.withoutTop
    else some ((), { s with successFlag := false })

variable {s : Interpreter}

theorem newOopOf_le (p : Nat) : newOopOf p ≤ 65534 := Nat.and_le_right

theorem newOopOf_even (p : Nat) : newOopOf p % 2 = 0 := by
  rw [newOopOf, and_eq_double]
  omega

theorem newOopOf_or_one {x : Nat} (hx : x % 2 = 0) (hlt : x < 65536) :
    newOopOf (x ||| 1) = x := by
  have hdiv : (x ||| 1) / 2 = x / 2 := by
    rw [Nat.or_div_two]
    exact Nat.or_zero _
  rw [newOopOf, and_eq_double, hdiv]
  omega

theorem popStack_eq (h : Called s) : popStack s = some (s.stackTop, s.withoutTop) :=
  Wp.run_eq ((wp_popStack h.hasTop).2 ⟨rfl, rfl⟩)

/-- The end of a primitive that goes on only if all is well. -/
theorem ifSuccess_eq (hs : s.successFlag = true) (ok : Bool) (x y : IM Unit) :
    (do
      success ok
      if (← get).successFlag then x else y : IM Unit) s =
      if ok then x s else y { s with successFlag := false } := by
  have hrun : success ok s = some ((), { s with successFlag := ok }) := by
    show some ((), { s with successFlag := s.successFlag && ok }) = _
    rw [hs, Bool.true_and]
  rw [bind_of_run hrun]
  cases ok with
  | true =>
      have hsame : { s with successFlag := true } = s := by rw [← hs]
      rw [hsame, if_pos rfl]
      show (if s.successFlag = true then x else y) s = x s
      rw [if_pos hs]
  | false => rfl

theorem primitiveAsOop_eq (h : Called s) (hx : s.stackTop % 2 = 0) :
    primitiveAsOop s = push (s.stackTop ||| 1) s.withoutTop := by
  rw [primitiveAsOop, bind_of_run (popStack_eq h), ifSuccess_eq (s := s.withoutTop) h.success,
    if_pos]
  rw [decide_eq_true_iff, isIntegerObject]
  omega

theorem primitiveAsObject_eq (h : Called s) :
    primitiveAsObject s = if s.memory.holdsObject (newOopOf s.stackTop) then
      push (newOopOf s.stackTop) s.withoutTop
    else some ((), { s with successFlag := false }) := by
  have hlook : inMemory (hasObject (newOopOf s.stackTop)) s.withoutTop =
      some (s.memory.holdsObject (newOopOf s.stackTop), s.withoutTop) := by
    have := newOopOf_le s.stackTop
    exact Wp.run_eq (wp_inMemory.2 (wp_hasObject.2 ⟨⟨newOopOf_even _, by omega⟩, rfl, rfl⟩))
  rw [primitiveAsObject, bind_of_run (popStack_eq h)]
  show (inMemory (hasObject (newOopOf s.stackTop)) >>= _) s.withoutTop = _
  rw [bind_of_run hlook, ifSuccess_eq (s := s.withoutTop) h.success]
  refine if_congr Iff.rfl rfl ?_
  show some ((), { s with stackPointer := s.stackPointer - 1 + 1, successFlag := false }) = _
  rw [Int.sub_add_cancel]

/-- A failure is not an answer. -/
theorem failed_ne_push (h : Called s) (p : Nat) :
    some ((), { s with successFlag := false }) ≠ push p s.withoutTop := by
  intro heq
  have hflag := wlp_push_successFlag p s.withoutTop () _ heq.symm
  exact Bool.false_ne_true (hflag.trans h.success)

/-! ## Which receivers are safe -/

/-- The receiver does not stand for one of the two words that are no entries, or
what is there does not look like an object. -/
def NoFalseEntry (s : Interpreter) : Prop :=
  newOopOf s.stackTop = 0 ∨ newOopOf s.stackTop = freePointerList →
    s.memory.holdsObject (newOopOf s.stackTop) = false

theorem asObjectSound_iff (h : Called s) : AsObjectSound s ↔ NoFalseEntry s := by
  have heven := newOopOf_even s.stackTop
  have hle := newOopOf_le s.stackTop
  have hlist : freePointerList = 65534 := rfl
  have htable : objectTableSize = 65534 := rfl
  rw [AsObjectSound, primitiveAsObject_eq h, NoFalseEntry]
  by_cases hlive : s.memory.holdsObject (newOopOf s.stackTop) = true
  · rw [if_pos hlive]
    by_cases hin : 2 ≤ newOopOf s.stackTop ∧ newOopOf s.stackTop ≤ objectTableSize - 2
    · rw [if_pos ⟨⟨heven, hin⟩, hlive⟩]
      exact ⟨fun _ hout => by omega, fun _ => rfl⟩
    · rw [if_neg fun hobject => hin hobject.1.2, hlive]
      exact ⟨fun heq => absurd heq.symm (failed_ne_push h _),
        fun hno => absurd (hno (by omega)) Bool.true_eq_false.mp⟩
  · rw [if_neg hlive, if_neg fun hobject => hlive hobject.2]
    exact ⟨fun _ _ => Bool.eq_false_iff.2 hlive, fun _ => rfl⟩

/-- `primitiveAsOop` answers an integer for the object on the stack, from which
`primitiveAsObject` gets the object back. -/
def AsOopInverse (s : Interpreter) : Prop :=
  primitiveAsOop s = push (s.stackTop ||| 1) s.withoutTop ∧
    ∀ s', Called s' → s'.stackTop = s.stackTop ||| 1 → s'.memory.holdsObject s.stackTop →
      primitiveAsObject s' = push s.stackTop s'.withoutTop

theorem asOopInverse_of_isObject (h : Called s) (hx : IsObject s.memory s.stackTop) :
    AsOopInverse s := by
  obtain ⟨⟨heven, -, hle⟩, -⟩ := hx
  have htable : objectTableSize = 65534 := rfl
  refine ⟨primitiveAsOop_eq h heven, fun s' h' htop hlive => ?_⟩
  rw [primitiveAsObject_eq h', htop, newOopOf_or_one heven (by omega), if_pos hlive]

/-- `asObject` gives back every object that `asOop` has answered an integer for, and it answers
the object that a SmallInteger stands for, or fails, unless the integer names a false entry. -/
theorem asOop_asObject_iff (h : Called s) :
    (IsObject s.memory s.stackTop → AsOopInverse s) ∧
        (isIntegerObject s.stackTop → AsObjectSound s) ↔
      (isIntegerObject s.stackTop → NoFalseEntry s) := by
  rw [asObjectSound_iff h]
  exact and_iff_right (asOopInverse_of_isObject h)

/-! ## The head of the list of free entries -/

/-- A context with the SmallInteger `receiver` on its stack, and the list of free
entries with `head` as its head. -/
def withFreeList (receiver head : Nat) : Interpreter :=
  { beforeTime with
    host := { beforeTime.host with
      memory := (ObjectMemory.blank.place 4 256 100 [4, 0, receiver, 0]).setWord
        objectTableSegment freePointerList head }
    activeContext := 4
    stackPointer := 0
    successFlag := true }

theorem called_withFreeList :
    Called (withFreeList 5 260) ∧ Called (withFreeList 65535 260) := by
  constructor <;> exact ⟨⟨by decide, by decide, by decide, by decide⟩, rfl⟩

theorem asObject_five : (IsObject (withFreeList 5 260).memory (withFreeList 5 260).stackTop →
      AsOopInverse (withFreeList 5 260)) ∧
    (isIntegerObject (withFreeList 5 260).stackTop → AsObjectSound (withFreeList 5 260)) :=
  (asOop_asObject_iff called_withFreeList.1).mpr fun _ hfalse => by
    revert hfalse
    decide

/-- For -1 the head of the list is taken for an entry. -/
theorem not_asObjectSound_minusOne :
    Called (withFreeList 65535 260) ∧ isIntegerObject (withFreeList 65535 260).stackTop ∧
      ¬AsObjectSound (withFreeList 65535 260) := by
  refine ⟨called_withFreeList.2, by decide, fun hsound => ?_⟩
  have hno := (asObjectSound_iff called_withFreeList.2).1 hsound (.inr (by decide))
  exact absurd hno (by decide)

end Crosstalk
