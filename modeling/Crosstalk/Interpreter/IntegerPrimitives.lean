import Crosstalk.Interpreter.Arithmetic

/-!
# The primitives of SmallIntegers

The selectors of arithmetic have a bytecode each, which tries the primitive
before a message is sent, and a number by which a method names the primitive.
Both ways lead to the same functions. A primitive answers what its operator
means for the integers, or it fails and leaves the stack for the message.
-/

namespace Crosstalk

open ObjectMemory

/-! ## The code -/

/-- The end of a primitive whose result needs no test. -/
def answerPointer (object : Nat) : IM Unit := do
  if (← get).successFlag then
    push object
  else
    unPop 2

/-- A primitive that tests its result. -/
def computeIntegers (compute : Int → Int → Int) : IM Unit := do
  let integerArgument ← popInteger
  let integerReceiver ← popInteger
  answerInteger (pure (compute integerReceiver integerArgument)) isIntegerValue

/-- A primitive that pushes one of the pointers for two integers. -/
def answerIntegers (answer : Int → Int → Nat) : IM Unit := do
  let integerArgument ← popInteger
  let integerReceiver ← popInteger
  answerPointer (answer integerReceiver integerArgument)

def primitiveAdd : IM Unit := computeIntegers (· + ·)
def primitiveSubtract : IM Unit := computeIntegers (· - ·)
def primitiveMultiply : IM Unit := computeIntegers (· * ·)

def booleanPointer (b : Bool) : Nat := if b then truePointer else falsePointer

def primitiveLessThan : IM Unit := answerIntegers fun a b => booleanPointer (a < b)
def primitiveGreaterThan : IM Unit := answerIntegers fun a b => booleanPointer (a > b)
def primitiveLessOrEqual : IM Unit := answerIntegers fun a b => booleanPointer (a ≤ b)
def primitiveGreaterOrEqual : IM Unit := answerIntegers fun a b => booleanPointer (a ≥ b)
def primitiveEqual : IM Unit := answerIntegers fun a b => booleanPointer (a = b)
def primitiveNotEqual : IM Unit := answerIntegers fun a b => booleanPointer (a ≠ b)

/-- The operators of C on the 32 bits of an `int`. -/
def intBits (op : BitVec 32 → BitVec 32 → BitVec 32) (a b : Int) : Int :=
  (op (.ofInt 32 a) (.ofInt 32 b)).toInt

def primitiveBitAnd : IM Unit := answerIntegers fun a b => integerObjectOf (intBits (· &&& ·) a b)
def primitiveBitOr : IM Unit := answerIntegers fun a b => integerObjectOf (intBits (· ||| ·) a b)
def primitiveBitXor : IM Unit := answerIntegers fun a b => integerObjectOf (intBits (· ^^^ ·) a b)

/-- The two tests are of what `popInteger` has answered. -/
def primitiveMakePoint : IM Unit := do
  let integerArgument ← popInteger
  let integerReceiver ← popInteger
  success (isIntegerValue integerReceiver)
  success (isIntegerValue integerArgument)
  if (← get).successFlag then
    let pointResult ← instantiateClassWithPointers classPointPointer 2
    storeIntegerOfObjectWithValue 0 pointResult integerReceiver
    storeIntegerOfObjectWithValue 1 pointResult integerArgument
    push pointResult
  else
    unPop 2

def dispatchIntegerPrimitives : IM Unit := do
  match (← get).primitiveIndex with
  | 1 => primitiveAdd
  | 2 => primitiveSubtract
  | 3 => primitiveLessThan
  | 4 => primitiveGreaterThan
  | 5 => primitiveLessOrEqual
  | 6 => primitiveGreaterOrEqual
  | 7 => primitiveEqual
  | 8 => primitiveNotEqual
  | 9 => primitiveMultiply
  | 10 => primitiveDivide
  | 11 => primitiveMod
  | 12 => primitiveDiv
  | 13 => primitiveQuo
  | 14 => primitiveBitAnd
  | 15 => primitiveBitOr
  | 16 => primitiveBitXor
  | 17 => primitiveBitShift
  | 18 => primitiveMakePoint
  | _ => pure ()

def arithmeticSelectorPrimitive (currentBytecode : Nat) : IM Unit := do
  if (← get).successFlag then
    match currentBytecode with
    | 176 => primitiveAdd
    | 177 => primitiveSubtract
    | 178 => primitiveLessThan
    | 179 => primitiveGreaterThan
    | 180 => primitiveLessOrEqual
    | 181 => primitiveGreaterOrEqual
    | 182 => primitiveEqual
    | 183 => primitiveNotEqual
    | 184 => primitiveMultiply
    | 185 => primitiveDivide
    | 186 => primitiveMod
    | 187 => primitiveMakePoint
    | 188 => primitiveBitShift
    | 189 => primitiveDiv
    | 190 => primitiveBitAnd
    | 191 => primitiveBitOr
    | _ => pure ()

/-! ## What the operators mean -/

/-- The selectors whose primitives answer an integer or a boolean. -/
inductive Operator
  | add
  | subtract
  | lessThan
  | greaterThan
  | lessOrEqual
  | greaterOrEqual
  | equal
  | notEqual
  | multiply
  | divide
  | mod
  | div
  | quo
  | bitAnd
  | bitOr
  | bitXor
  | bitShift

inductive Answer
  | integer (v : Int)
  | boolean (b : Bool)

namespace Answer

/-- The object for an answer, where there is one that is no large integer. -/
def object : Answer → Option Nat
  | integer v => if isIntegerValue v then some (integerObjectOf v) else none
  | boolean b => some (booleanPointer b)

end Answer

/-- The operators of the 15 bits of a SmallInteger. -/
def smallBits (op : BitVec 15 → BitVec 15 → BitVec 15) (a b : Int) : Int :=
  (op (.ofInt 15 a) (.ofInt 15 b)).toInt

namespace Operator

/-- The number by which a method names the primitive. -/
def index : Operator → Nat
  | add => 1
  | subtract => 2
  | lessThan => 3
  | greaterThan => 4
  | lessOrEqual => 5
  | greaterOrEqual => 6
  | equal => 7
  | notEqual => 8
  | multiply => 9
  | divide => 10
  | mod => 11
  | div => 12
  | quo => 13
  | bitAnd => 14
  | bitOr => 15
  | bitXor => 16
  | bitShift => 17

/-- The bytecode of the selector. `quo:` and `bitXor:` are sent as messages. -/
def bytecode : Operator → Option Nat
  | add => some 176
  | subtract => some 177
  | lessThan => some 178
  | greaterThan => some 179
  | lessOrEqual => some 180
  | greaterOrEqual => some 181
  | equal => some 182
  | notEqual => some 183
  | multiply => some 184
  | divide => some 185
  | mod => some 186
  | bitShift => some 188
  | div => some 189
  | bitAnd => some 190
  | bitOr => some 191
  | quo => none
  | bitXor => none

/-- The answer for two integers. A division by 0 has none, and a division that is not exact
has no quotient. -/
def exact (a b : Int) : Operator → Option Answer
  | add => some (.integer (a + b))
  | subtract => some (.integer (a - b))
  | lessThan => some (.boolean (a < b))
  | greaterThan => some (.boolean (a > b))
  | lessOrEqual => some (.boolean (a ≤ b))
  | greaterOrEqual => some (.boolean (a ≥ b))
  | equal => some (.boolean (a = b))
  | notEqual => some (.boolean (a ≠ b))
  | multiply => some (.integer (a * b))
  | divide => if b ≠ 0 ∧ b ∣ a then some (.integer (a / b)) else none
  | mod => if b ≠ 0 then some (.integer (a.fmod b)) else none
  | div => if b ≠ 0 then some (.integer ⌊(a / b : ℚ)⌋) else none
  | quo => if b ≠ 0 then some (.integer (a.tdiv b)) else none
  | bitAnd => some (.integer (smallBits (· &&& ·) a b))
  | bitOr => some (.integer (smallBits (· ||| ·) a b))
  | bitXor => some (.integer (smallBits (· ^^^ ·) a b))
  | bitShift => some (.integer ⌊(a : ℚ) * 2 ^ b⌋)

/-- The object that is answered for two objects, and none where the message is sent. -/
def answerFor (op : Operator) (p q : Nat) : Option Nat :=
  if isIntegerObject p ∧ isIntegerObject q then
    (op.exact (integerValueOf p) (integerValueOf q)).bind Answer.object
  else none

/-- The function of the source. -/
def primitive : Operator → IM Unit
  | add => primitiveAdd
  | subtract => primitiveSubtract
  | lessThan => primitiveLessThan
  | greaterThan => primitiveGreaterThan
  | lessOrEqual => primitiveLessOrEqual
  | greaterOrEqual => primitiveGreaterOrEqual
  | equal => primitiveEqual
  | notEqual => primitiveNotEqual
  | multiply => primitiveMultiply
  | divide => primitiveDivide
  | mod => primitiveMod
  | div => primitiveDiv
  | quo => primitiveQuo
  | bitAnd => primitiveBitAnd
  | bitOr => primitiveBitOr
  | bitXor => primitiveBitXor
  | bitShift => primitiveBitShift

/-- The operands for which the primitive keeps to the meaning: `/` evaluates no remainder that
is undefined, and the quotient of `//` does not lie between -1 and 0. -/
def Regular (p q : Nat) : Operator → Prop
  | divide => ¬BadDivisor p q
  | div =>
      ¬(isIntegerObject p ∧ isIntegerObject q ∧ BelowZero (integerValueOf p) (integerValueOf q))
  | _ => True

end Operator

namespace Interpreter

/-- The state in which `v` has taken the place of the two operands, and is counted. -/
def replaced (s : Interpreter) (v : Nat) : Interpreter :=
  { s.withMemory ((s.memory.countedUp v).setChunkWord s.activeContext
      (headerSize + (s.stackPointer - 1).toNat) v) with
    stackPointer := s.stackPointer - 1 }

/-- The answer is on the stack, or the operands are and the flag is down. -/
def outcome (s : Interpreter) : Option Nat → Interpreter
  | some v => s.replaced v
  | none => s.failed

end Interpreter

/-! ## The ends of the primitives -/

section Ends

variable {s : Interpreter} {p q v : Nat} {a b r : Int} {Q : Unit → Interpreter → Prop}

theorem replaced_integer (s : Interpreter) (r : Int) :
    s.replaced (integerObjectOf r) = s.answered (integerObjectOf r) := by
  have hodd := integerObjectOf_odd r
  rw [Interpreter.replaced, Interpreter.answered, countedUp, if_neg (by omega)]

theorem outcome_integer (s : Interpreter) (r : Int) :
    s.outcome (Answer.integer r).object =
      if isIntegerValue r then s.answered (integerObjectOf r) else s.failed := by
  rw [Answer.object]
  split
  · exact replaced_integer s r
  · rfl

/-- The pointer is stored over the receiver, a SmallInteger that is not counted. -/
theorem wp_answerPointer (h : Operands s p q) (hs : s.successFlag = true) (hp : p % 2 = 1)
    (hpos : 0 < v) (hv : v < 65536) :
    Wp (answerPointer v) Q (s.popped true) ↔ Q () (s.replaced v) := by
  have hsp : s.stackPointer - 2 + 1 = s.stackPointer - 1 := by omega
  have hold : (s.memory.countedUp v).chunkWord s.activeContext
      (headerSize + (s.stackPointer - 1).toNat) % 2 = 1 := by
    rw [chunkWord_countedUp h.receiver.isEntry.1 h.inHeap, h.receiver_eq, hp]
  have hflag : (s.popped true).successFlag = true := rfl
  rw [answerPointer, wp_bind, wp_get, if_pos hflag, push, wp_bind, wp_modify, wp_bind, wp_get,
    wp_inMemory]
  change Wp (storePointerOfObjectWithValue (s.stackPointer - 2 + 1) s.activeContext v) _
    s.memory ↔ _
  rw [hsp, wp_storePointer_fresh h.receiver hold hpos hv]
  simp only [Interpreter.popped, Interpreter.replaced, Interpreter.withMemory, hsp, hs]

theorem wp_answerPointer_failed :
    Wp (answerPointer v) Q (s.popped false) ↔ Q () s.failed := by
  have hsp : s.stackPointer - 2 + 2 = s.stackPointer := by omega
  simp [answerPointer, Interpreter.popped, unPop, hsp, Interpreter.failed]

/-- The pops fail where an operand is no SmallInteger. -/
theorem wp_popOthers (h : Operands s p q) (hs : s.successFlag = true)
    (hothers : ¬(isIntegerObject p ∧ isIntegerObject q)) {k : Int → Int → IM Unit} :
    Wp (popInteger >>= fun b => popInteger >>= fun a => k b a) Q s ↔
      Wp (k (operand (decide (isIntegerObject q)) q) intMin) Q (s.popped false) := by
  have hfalse : (decide (isIntegerObject q) && decide (isIntegerObject p)) = false := by
    rw [← Bool.decide_and, decide_eq_false]
    exact fun hall => hothers hall.symm
  rw [wp_popOperands h hs, hfalse, operand_false]

/-- What two operands are answered, if they are SmallIntegers. -/
def ofIntegers (p q : Nat) (answer : Int → Int → Option Nat) : Option Nat :=
  if isIntegerObject p ∧ isIntegerObject q then answer (integerValueOf p) (integerValueOf q)
  else none

/-- A primitive with two integers runs to the outcome, if it does so for SmallIntegers and
ends without an answer behind pops that have failed. -/
theorem run_outcome {k : Int → Int → IM Unit} {answer : Int → Int → Option Nat}
    (h : Operands s p q) (hs : s.successFlag = true)
    (hintegers : isIntegerObject p → isIntegerObject q →
      Wp (k (integerValueOf q) (integerValueOf p))
        (fun u t => u = () ∧ t = s.outcome (answer (integerValueOf p) (integerValueOf q)))
        (s.popped true))
    (hothers : ¬(isIntegerObject p ∧ isIntegerObject q) →
      Wp (k (operand (decide (isIntegerObject q)) q) intMin)
        (fun u t => u = () ∧ t = s.failed) (s.popped false)) :
    (popInteger >>= fun b => popInteger >>= fun a => k b a) s =
      some ((), s.outcome (ofIntegers p q answer)) := by
  refine Wp.run_eq ?_
  rw [ofIntegers]
  split
  · next hall =>
      rw [wp_popSmallIntegers h hs hall.1 hall.2]
      exact hintegers hall.1 hall.2
  · next hall =>
      rw [wp_popOthers h hs hall]
      exact hothers hall

theorem computeIntegers_run (h : Operands s p q) (hs : s.successFlag = true)
    (compute : Int → Int → Int) : computeIntegers compute s =
      some ((), s.outcome (ofIntegers p q fun a b => (Answer.integer (compute a b)).object)) := by
  refine run_outcome h hs (fun hp _ => ?_) fun _ => ?_
  · rw [wp_answerInteger h hs hp rfl, outcome_integer]
    exact ⟨rfl, rfl⟩
  · rw [wp_answerInteger_failed]
    exact ⟨rfl, rfl⟩

theorem answerIntegers_run (h : Operands s p q) (hs : s.successFlag = true)
    {answer : Int → Int → Nat} (hanswer : ∀ a b, 0 < answer a b ∧ answer a b < 65536) :
    answerIntegers answer s = some ((), s.outcome (ofIntegers p q fun a b => answer a b)) := by
  refine run_outcome h hs (fun hp _ => ?_) fun _ => ?_
  · rw [wp_answerPointer h hs hp (hanswer _ _).1 (hanswer _ _).2]
    exact ⟨rfl, rfl⟩
  · rw [wp_answerPointer_failed]
    exact ⟨rfl, rfl⟩

theorem booleanPointer_bounds (b : Bool) : 0 < booleanPointer b ∧ booleanPointer b < 65536 := by
  cases b with
  | false => decide
  | true => decide

theorem integerObjectOf_bounds (v : Int) : 0 < integerObjectOf v ∧ integerObjectOf v < 65536 := by
  have hodd := integerObjectOf_odd v
  exact ⟨by omega, integerObjectOf_lt v⟩

/-- A primitive that tests the divisor before it divides. -/
theorem guarded_run (h : Operands s p q) (hs : s.successFlag = true)
    (compute : Int → Int → IM Int) {result : Int → Int → Int}
    (hcompute : isIntegerObject p → isIntegerObject q → integerValueOf q ≠ 0 →
      compute (integerValueOf p) (integerValueOf q) (s.popped true) =
        some (result (integerValueOf p) (integerValueOf q), s.popped true)) :
    (popInteger >>= fun b => popInteger >>= fun a => success (b ≠ 0) >>= fun _ =>
        answerInteger (compute a b) isIntegerValue) s =
      some ((), s.outcome (ofIntegers p q fun a b =>
        (if b ≠ 0 then some (Answer.integer (result a b)) else none).bind Answer.object)) := by
  refine run_outcome h hs (fun hp hq => ?_) fun _ => ?_
  · rw [wp_successThen, Bool.true_and]
    by_cases hb : integerValueOf q ≠ 0
    · rw [decide_eq_true hb, wp_answerInteger h hs hp (hcompute hp hq hb), if_pos hb,
        Option.bind_some, outcome_integer]
      exact ⟨rfl, rfl⟩
    · rw [decide_eq_false hb, wp_answerInteger_failed, if_neg hb]
      exact ⟨rfl, rfl⟩
  · rw [wp_successThen, Bool.false_and, wp_answerInteger_failed]
    exact ⟨rfl, rfl⟩

end Ends

/-! ## Bits -/

section Bits

variable {a b : Int} {p q : Nat}

/-- An `int` that is a SmallInteger has the 15 bits of it, and its sign in the others. -/
theorem ofInt_signExtend (ha : isIntegerValue a = true) :
    BitVec.ofInt 32 a = (BitVec.ofInt 15 a).signExtend 32 := by
  rw [isIntegerValue_iff] at ha
  rw [BitVec.signExtend, BitVec.toInt_ofInt, Int.bmod_eq_of_le (by omega) (by omega)]

theorem intBits_eq {op : BitVec 32 → BitVec 32 → BitVec 32}
    {op' : BitVec 15 → BitVec 15 → BitVec 15}
    (hop : ∀ x y, (op' x y).signExtend 32 = op (x.signExtend 32) (y.signExtend 32))
    (ha : isIntegerValue a = true) (hb : isIntegerValue b = true) :
    intBits op a b = smallBits op' a b := by
  rw [intBits, smallBits, ofInt_signExtend ha, ofInt_signExtend hb, ← hop,
    BitVec.toInt_signExtend_of_le (by decide)]

theorem isIntegerValue_smallBits (op : BitVec 15 → BitVec 15 → BitVec 15) (a b : Int) :
    isIntegerValue (smallBits op a b) = true := by
  have hlow := BitVec.le_toInt (op (.ofInt 15 a) (.ofInt 15 b))
  have hhigh := BitVec.toInt_lt (x := op (.ofInt 15 a) (.ofInt 15 b))
  rw [isIntegerValue_iff, smallBits]
  omega

theorem ofIntegers_congr {f g : Int → Int → Option Nat}
    (h : ∀ a b, isIntegerValue a = true → isIntegerValue b = true → f a b = g a b) :
    ofIntegers p q f = ofIntegers p q g := by
  rw [ofIntegers, ofIntegers, h _ _ (isIntegerValue_integerValueOf p)
    (isIntegerValue_integerValueOf q)]

/-- The three primitives need no test, since the bits of SmallIntegers are those of one. -/
theorem bits_run {s : Interpreter} (h : Operands s p q) (hs : s.successFlag = true)
    {op : BitVec 32 → BitVec 32 → BitVec 32} {op' : BitVec 15 → BitVec 15 → BitVec 15}
    (hop : ∀ x y, (op' x y).signExtend 32 = op (x.signExtend 32) (y.signExtend 32)) :
    answerIntegers (fun a b => integerObjectOf (intBits op a b)) s = some ((),
      s.outcome (ofIntegers p q fun a b => (Answer.integer (smallBits op' a b)).object)) := by
  rw [answerIntegers_run h hs fun _ _ => integerObjectOf_bounds _]
  refine congrArg (fun v => some ((), s.outcome v)) (ofIntegers_congr fun a b ha hb => ?_)
  rw [intBits_eq hop ha hb, Answer.object, if_pos (isIntegerValue_smallBits _ _ _)]

end Bits

/-! ## The primitives -/

section Primitives

variable {s : Interpreter} {p q : Nat}

theorem Operator.answerFor_eq (op : Operator) (p q : Nat) :
    op.answerFor p q = ofIntegers p q fun a b => (op.exact a b).bind Answer.object := rfl

theorem Operator.compute_outcome {op : Operator} {compute : Int → Int → Int}
    (h : Operands s p q) (hs : s.successFlag = true)
    (hexact : ∀ a b, op.exact a b = some (.integer (compute a b))) :
    computeIntegers compute s = some ((), s.outcome (op.answerFor p q)) := by
  rw [op.answerFor_eq, computeIntegers_run h hs]
  simp only [hexact, Option.bind_some]

theorem Operator.test_outcome {op : Operator} {test : Int → Int → Bool}
    (h : Operands s p q) (hs : s.successFlag = true)
    (hexact : ∀ a b, op.exact a b = some (.boolean (test a b))) :
    answerIntegers (fun a b => booleanPointer (test a b)) s =
      some ((), s.outcome (op.answerFor p q)) := by
  rw [op.answerFor_eq, answerIntegers_run h hs fun _ _ => booleanPointer_bounds _]
  simp only [hexact, Option.bind_some, Answer.object]

theorem Operator.bits_outcome {op : Operator} {f : BitVec 32 → BitVec 32 → BitVec 32}
    {g : BitVec 15 → BitVec 15 → BitVec 15} (h : Operands s p q) (hs : s.successFlag = true)
    (hexact : ∀ a b, op.exact a b = some (.integer (smallBits g a b)))
    (hf : ∀ x y, (g x y).signExtend 32 = f (x.signExtend 32) (y.signExtend 32)) :
    answerIntegers (fun a b => integerObjectOf (intBits f a b)) s =
      some ((), s.outcome (op.answerFor p q)) := by
  rw [op.answerFor_eq, bits_run h hs hf]
  simp only [hexact, Option.bind_some]

theorem primitiveMod_outcome (h : Operands s p q) (hs : s.successFlag = true) :
    primitiveMod s = some ((), s.outcome (Operator.mod.answerFor p q)) := by
  rw [primitiveMod, Operator.answerFor_eq]
  exact guarded_run h hs floorMod fun _ _ hb => floorMod_run (divisionDefined_integerValueOf hb)

theorem primitiveQuo_outcome (h : Operands s p q) (hs : s.successFlag = true) :
    primitiveQuo s = some ((), s.outcome (Operator.quo.answerFor p q)) := by
  rw [primitiveQuo, Operator.answerFor_eq]
  exact guarded_run h hs intDiv fun _ _ hb => intDiv_run (divisionDefined_integerValueOf hb)

theorem primitiveDiv_outcome (h : Operands s p q) (hs : s.successFlag = true)
    (hbelow : Operator.div.Regular p q) :
    primitiveDiv s = some ((), s.outcome (Operator.div.answerFor p q)) := by
  rw [primitiveDiv, Operator.answerFor_eq]
  refine guarded_run h hs floorDiv fun hp hq hb => ?_
  rw [floorDiv_run (divisionDefined_integerValueOf hb),
    correctedDiv_eq hb fun hlow => hbelow ⟨hp, hq, hlow⟩, floor_div]

theorem primitiveDivide_outcome (h : Operands s p q) (hs : s.successFlag = true)
    (hbad : Operator.divide.Regular p q) :
    primitiveDivide s = some ((), s.outcome (Operator.divide.answerFor p q)) := by
  by_cases hall : isIntegerObject p ∧ isIntegerObject q
  · obtain ⟨hp, hq⟩ := hall
    have hb : integerValueOf q ≠ 0 := fun h0 => hbad ⟨hq, .inl h0⟩
    have hdefined : DivisionDefined (integerValueOf p) (integerValueOf q) :=
      divisionDefined_integerValueOf hb
    refine Wp.run_eq ?_
    rw [primitiveDivide, wp_popSmallIntegers h hs hp hq, wp_successThen, decide_eq_true hb,
      Bool.true_and, wp_bind, wp_of_run (intMod_run hdefined), wp_successThen, Bool.true_and,
      Operator.answerFor, if_pos ⟨hp, hq⟩, Operator.exact]
    by_cases hdvd : integerValueOf q ∣ integerValueOf p
    · rw [decide_eq_true (Int.tmod_eq_zero_of_dvd hdvd),
        wp_answerInteger h hs hp (intDiv_run hdefined), Int.tdiv_eq_ediv_of_dvd hdvd]
      refine ⟨rfl, ?_⟩
      rw [if_pos (c := integerValueOf q ≠ 0 ∧ _) ⟨hb, hdvd⟩, Option.bind_some, outcome_integer]
    · rw [decide_eq_false fun h0 => hdvd (Int.dvd_of_tmod_eq_zero h0), wp_answerInteger_failed,
        if_neg fun hboth => hdvd hboth.2]
      exact ⟨rfl, rfl⟩
  · rw [Operator.answerFor, if_neg hall]
    refine divisions_fail h hs hbad ?_ primitiveDivide (List.mem_cons_self ..)
    rw [← or_assoc, ← not_and_or]
    exact .inl hall

theorem primitiveBitShift_outcome (h : Operands s p q) (hs : s.successFlag = true) :
    primitiveBitShift s = some ((), s.outcome (Operator.bitShift.answerFor p q)) := by
  rw [primitiveBitShift, Operator.answerFor_eq]
  refine run_outcome h hs (fun hp _ => ?_) fun _ => ?_
  · obtain ⟨htest, hvalue⟩ := shiftInteger_exact (n := integerValueOf q)
      (isIntegerValue_integerValueOf p)
    rw [wp_answerInteger h hs hp rfl, htest, Operator.exact, Option.bind_some, outcome_integer]
    refine ⟨rfl, ?_⟩
    split
    · next hv => rw [hvalue hv]
    · rfl
  · rw [wp_answerInteger_failed]
    exact ⟨rfl, rfl⟩

/-- Each primitive answers what its operator means, or it leaves the operands. -/
theorem Operator.primitive_run (op : Operator) (h : Operands s p q) (hs : s.successFlag = true)
    (hop : op.Regular p q) : op.primitive s = some ((), s.outcome (op.answerFor p q)) := by
  cases op with
  | add => exact compute_outcome h hs fun _ _ => rfl
  | subtract => exact compute_outcome h hs fun _ _ => rfl
  | multiply => exact compute_outcome h hs fun _ _ => rfl
  | lessThan => exact test_outcome h hs fun _ _ => rfl
  | greaterThan => exact test_outcome h hs fun _ _ => rfl
  | lessOrEqual => exact test_outcome h hs fun _ _ => rfl
  | greaterOrEqual => exact test_outcome h hs fun _ _ => rfl
  | equal => exact test_outcome h hs fun _ _ => rfl
  | notEqual => exact test_outcome h hs fun _ _ => rfl
  | divide => exact primitiveDivide_outcome h hs hop
  | mod => exact primitiveMod_outcome h hs
  | div => exact primitiveDiv_outcome h hs hop
  | quo => exact primitiveQuo_outcome h hs
  | bitAnd => exact bits_outcome h hs (fun _ _ => rfl) fun _ _ => BitVec.signExtend_and
  | bitOr => exact bits_outcome h hs (fun _ _ => rfl) fun _ _ => BitVec.signExtend_or
  | bitXor => exact bits_outcome h hs (fun _ _ => rfl) fun _ _ => BitVec.signExtend_xor
  | bitShift => exact primitiveBitShift_outcome h hs

/-- The number and the bytecode of an operator lead to one function. -/
theorem Operator.dispatch_eq (op : Operator) (hindex : s.primitiveIndex = op.index) :
    dispatchIntegerPrimitives s = op.primitive s := by
  rw [dispatchIntegerPrimitives, bind_of_run (x := get) (a := s) (t := s) rfl, hindex]
  cases op <;> rfl

theorem Operator.selector_eq (op : Operator) {c : Nat} (hc : op.bytecode = some c)
    (hs : s.successFlag = true) : arithmeticSelectorPrimitive c s = op.primitive s := by
  unfold arithmeticSelectorPrimitive
  rw [bind_of_run (x := get) (a := s) (t := s) rfl, if_pos hs]
  cases op <;> cases hc <;> rfl

/-- Each operator, by the number of its primitive and by its bytecode, pushes the exact result
for the two operands, or sets the flag and leaves them on the stack for the message. -/
theorem Operator.exact_or_failed (op : Operator) (h : Operands s p q) (hs : s.successFlag = true)
    (hop : op.Regular p q) :
    (s.primitiveIndex = op.index →
      dispatchIntegerPrimitives s = some ((), s.outcome (op.answerFor p q))) ∧
    ∀ c, op.bytecode = some c →
      arithmeticSelectorPrimitive c s = some ((), s.outcome (op.answerFor p q)) := by
  refine ⟨fun hindex => ?_, fun c hc => ?_⟩
  · rw [op.dispatch_eq hindex, op.primitive_run h hs hop]
  · rw [op.selector_eq hc hs, op.primitive_run h hs hop]

end Primitives

/-- 3 < 5, by the bytecode and by the number. -/
theorem exact_or_failed_three :
    ((operandContext 7 11).primitiveIndex = Operator.lessThan.index →
      dispatchIntegerPrimitives (operandContext 7 11) =
        some ((), (operandContext 7 11).outcome (Operator.lessThan.answerFor 7 11))) ∧
    ∀ c, Operator.lessThan.bytecode = some c →
      arithmeticSelectorPrimitive c (operandContext 7 11) =
        some ((), (operandContext 7 11).outcome (Operator.lessThan.answerFor 7 11)) :=
  Operator.exact_or_failed .lessThan (operands_operandContext (by decide) (by decide)) rfl trivial

end Crosstalk
