import Crosstalk.Interpreter.ByteStores
import Crosstalk.Interpreter.Collection
import Mathlib.Data.Rat.Floor

/-!
# Integer primitives

The division and shift primitives on SmallIntegers. A `/` or `%` of C that is
undefined halts the machine. Every check of a primitive only sets the success
flag, so that the code behind a check that fails still runs.
-/

namespace Crosstalk

/-! ## Integers of C -/

def intMin : Int := -2147483648

/-- Whether `/` and `%` are defined. -/
def DivisionDefined (a b : Int) : Prop := b ≠ 0 ∧ ¬(a = intMin ∧ b = -1)

instance (a b : Int) : Decidable (DivisionDefined a b) := inferInstanceAs (Decidable (_ ∧ _))

def intDiv (a b : Int) : IM Int := do
  check (DivisionDefined a b)
  return a.tdiv b

def intMod (a b : Int) : IM Int := do
  check (DivisionDefined a b)
  return a.tmod b

/-- The `<<` of an `int` of 32 bits. -/
def intShiftLeft (a : Int) (n : Nat) : Int := Int.bmod (a * 2 ^ n) 4294967296

/-- The arithmetic `>>`. -/
def intShiftRight (a : Int) (n : Nat) : Int := a >>> n

/-! ## Operands and results -/

def popInteger : IM Int := do
  let integerPointer ← popStack
  success (isIntegerObject integerPointer)
  if (← get).successFlag then
    return integerValueOf integerPointer
  else
    return intMin

def pushInteger (integerValue : Int) : IM Unit := push (integerObjectOf integerValue)

/-- Set `integerResult`, which is 0 before, and test it. -/
def computeInteger (compute : IM Int) (test : Int → Bool) : IM Int := do
  if (← get).successFlag then
    let integerResult ← compute
    success (test integerResult)
    return integerResult
  else
    return 0

/-- The part behind the checks of the operands. -/
def answerInteger (compute : IM Int) (test : Int → Bool) : IM Unit := do
  let integerResult ← computeInteger compute test
  if (← get).successFlag then
    pushInteger integerResult
  else
    unPop 2

/-! ## The primitives -/

/-- The remainder of C has the sign of the receiver. -/
def floorMod (integerReceiver integerArgument : Int) : IM Int := do
  let integerResult ← intMod integerReceiver integerArgument
  if integerArgument < 0 then
    if integerResult > 0 then
      return integerResult + integerArgument
    else
      return integerResult
  else
    if integerResult < 0 then
      return integerResult + integerArgument
    else
      return integerResult

def primitiveMod : IM Unit := do
  let integerArgument ← popInteger
  let integerReceiver ← popInteger
  success (integerArgument ≠ 0)
  answerInteger (floorMod integerReceiver integerArgument) isIntegerValue

/-- The quotient of C is rounded towards 0. -/
def floorDiv (integerReceiver integerArgument : Int) : IM Int := do
  let integerResult ← intDiv integerReceiver integerArgument
  if (← intMod integerReceiver integerArgument) ≠ 0 then
    if integerResult < 0 then
      return integerResult - 1
    else
      return integerResult
  else
    return integerResult

def primitiveDiv : IM Unit := do
  let integerArgument ← popInteger
  let integerReceiver ← popInteger
  success (integerArgument ≠ 0)
  answerInteger (floorDiv integerReceiver integerArgument) isIntegerValue

def primitiveQuo : IM Unit := do
  let integerArgument ← popInteger
  let integerReceiver ← popInteger
  success (integerArgument ≠ 0)
  answerInteger (intDiv integerReceiver integerArgument) isIntegerValue

/-- The remainder is evaluated whether or not the checks have failed. -/
def primitiveDivide : IM Unit := do
  let integerArgument ← popInteger
  let integerReceiver ← popInteger
  success (integerArgument ≠ 0)
  success ((← intMod integerReceiver integerArgument) = 0)
  answerInteger (intDiv integerReceiver integerArgument) isIntegerValue

def shiftInteger (integerReceiver integerArgument : Int) : Int :=
  if integerArgument > 0 then
    if integerArgument < 32 then intShiftLeft integerReceiver integerArgument.toNat else 0
  else if integerArgument < 0 then
    if integerArgument > -31 then intShiftRight integerReceiver (-integerArgument).toNat
    else intShiftRight integerReceiver 31
  else integerReceiver

/-- A shift to the left by 16 or more loses bits. -/
def primitiveBitShift : IM Unit := do
  let integerArgument ← popInteger
  let integerReceiver ← popInteger
  answerInteger (pure (shiftInteger integerReceiver integerArgument)) fun integerResult =>
    isIntegerValue integerResult && (integerArgument < 16 || integerReceiver = 0)

/-! ## SmallIntegers -/

/-- The tag bit is cleared. -/
theorem and_eq_double (p : Nat) : p &&& 0xFFFE = 2 * (p / 2 % 32768) := by
  have hdiv : (p &&& 0xFFFE) / 2 = p / 2 % 32768 := by
    rw [Nat.and_div_two]
    exact Nat.and_two_pow_sub_one_eq_mod (p / 2) 15
  have hmod : ¬(p &&& 0xFFFE) % 2 = 1 := by
    rw [Nat.and_mod_two_eq_one]
    exact fun h => absurd h.2 (by decide)
  omega

theorem integerValueOf_eq (p : Nat) :
    integerValueOf p = if p / 2 % 32768 < 16384 then (p / 2 % 32768 : Int)
      else p / 2 % 32768 - 32768 := by
  have hbmod : Int.bmod (2 * (p / 2 % 32768) : Nat) 65536 =
      2 * if p / 2 % 32768 < 16384 then (p / 2 % 32768 : Int) else p / 2 % 32768 - 32768 := by
    rw [Int.bmod_def]
    push_cast
    split <;> split <;> omega
  unfold integerValueOf
  rw [and_eq_double, hbmod]
  exact Int.mul_tdiv_cancel_left _ (by decide)

theorem isIntegerValue_iff {v : Int} : isIntegerValue v = true ↔ -16384 ≤ v ∧ v ≤ 16383 := by
  simp [isIntegerValue]

theorem isIntegerValue_integerValueOf (p : Nat) : isIntegerValue (integerValueOf p) = true := by
  rw [isIntegerValue_iff, integerValueOf_eq]
  split <;> omega

theorem integerValueOf_integerObjectOf {v : Int} (hv : isIntegerValue v = true) :
    integerValueOf (integerObjectOf v) = v := by
  rw [isIntegerValue_iff] at hv
  rw [integerValueOf_eq, integerObjectOf]
  split <;> omega

/-! ## The stack -/

/-- The receiver `p` and the argument `q` on top of the stack of an active context. -/
structure Operands (s : Interpreter) (p q : Nat) : Prop where
  argument : HasField s.memory s.activeContext s.stackPointer
  receiver : HasField s.memory s.activeContext (s.stackPointer - 1)
  argument_eq : s.stackTop = q
  receiver_eq :
    s.memory.chunkWord s.activeContext (headerSize + (s.stackPointer - 1).toNat) = p
  inHeap : (s.memory.entry s.activeContext).segment ≠ objectTableSegment

namespace Interpreter

/-- The state in which `v` has taken the place of the two operands. -/
def answered (s : Interpreter) (v : Nat) : Interpreter :=
  { s.withMemory (s.memory.setChunkWord s.activeContext
      (headerSize + (s.stackPointer - 1).toNat) v) with
    stackPointer := s.stackPointer - 1 }

/-- The state in which the operands are left on the stack. -/
def failed (s : Interpreter) : Interpreter := { s with successFlag := false }

def popped (s : Interpreter) (ok : Bool) : Interpreter :=
  { s with stackPointer := s.stackPointer - 2, successFlag := ok }

end Interpreter

section Rules

variable {s : Interpreter} {p q : Nat} {Q : Unit → Interpreter → Prop}

theorem Operands.stackTop_answered (h : Operands s p q) (v : Int) :
    (s.answered (integerObjectOf v)).stackTop = integerObjectOf v := by
  rw [Interpreter.stackTop]
  exact (ObjectMemory.chunkWord_setChunkWord h.inHeap (integerObjectOf_lt v)).trans
    (if_pos ⟨rfl, rfl⟩)

theorem wp_popStack {Q : Nat → Interpreter → Prop}
    (h : HasField s.memory s.activeContext s.stackPointer) :
    Wp popStack Q s ↔ Q s.stackTop { s with stackPointer := s.stackPointer - 1 } := by
  simp only [popStack, wp_bind, wp_get, wp_inMemory, fetchPointerOfObject_eq,
    wp_fetchWordOfObject, pop, wp_modify, wp_pure]
  exact and_iff_right h

/-- What `popInteger` answers for `p`. -/
def operand (ok : Bool) (p : Nat) : Int := if ok then integerValueOf p else intMin

theorem operand_true (p : Nat) : operand true p = integerValueOf p := by
  rw [operand, if_pos rfl]

theorem operand_false (p : Nat) : operand false p = intMin := by
  rw [operand, if_neg Bool.false_ne_true]

theorem wp_popInteger {Q : Int → Interpreter → Prop}
    (h : HasField s.memory s.activeContext s.stackPointer) :
    Wp popInteger Q s ↔
      Q (operand (s.successFlag && decide (isIntegerObject s.stackTop)) s.stackTop)
        { s with
          stackPointer := s.stackPointer - 1
          successFlag := s.successFlag && decide (isIntegerObject s.stackTop) } := by
  simp only [popInteger, wp_bind, wp_popStack h, success, wp_modify, wp_get, wp_ite, wp_pure]
  cases s.successFlag && decide (isIntegerObject s.stackTop) with
  | false => simp [operand]
  | true => simp [operand]

/-- The start of every primitive with two integers. -/
theorem wp_popOperands (h : Operands s p q) (hs : s.successFlag = true)
    {k : Int → Int → IM Unit} :
    Wp (popInteger >>= fun b => popInteger >>= fun a => k b a) Q s ↔
      Wp (k (operand (decide (isIntegerObject q)) q)
          (operand (decide (isIntegerObject q) && decide (isIntegerObject p)) p)) Q
        (s.popped (decide (isIntegerObject q) && decide (isIntegerObject p))) := by
  rw [wp_bind, wp_popInteger h.argument, wp_bind, wp_popInteger h.receiver]
  have htop : ∀ ok : Bool,
      Interpreter.stackTop { s with stackPointer := s.stackPointer - 1, successFlag := ok } = p :=
    fun _ => h.receiver_eq
  have hsp : s.stackPointer - 1 - 1 = s.stackPointer - 2 := by omega
  simp only [htop, h.argument_eq, hs, Bool.true_and, hsp]
  rfl

/-- The result is stored over the receiver, a SmallInteger that is not counted. -/
theorem wp_pushInteger (h : Operands s p q) (hs : s.successFlag = true) (hp : p % 2 = 1) (r : Int) :
    Wp (pushInteger r) Q (s.popped true) ↔ Q () (s.answered (integerObjectOf r)) := by
  have hsp : s.stackPointer - 2 + 1 = s.stackPointer - 1 := by omega
  have hstore : storePointerOfObjectWithValue (s.stackPointer - 1) s.activeContext
      (integerObjectOf r) s.memory = some ((), s.memory.setChunkWord s.activeContext
        (headerSize + (s.stackPointer - 1).toNat) (integerObjectOf r)) :=
    (ObjectMemory.wp_storePointer_integer h.receiver (by rw [h.receiver_eq, hp])
      (integerObjectOf_odd r) (integerObjectOf_lt r) ⟨rfl, rfl⟩).run_eq
  rw [pushInteger, push, wp_bind, wp_modify, wp_bind, wp_get, wp_inMemory]
  change Wp (storePointerOfObjectWithValue (s.stackPointer - 2 + 1) s.activeContext _) _ s.memory ↔ _
  rw [hsp, wp_of_run hstore]
  simp only [Interpreter.popped, Interpreter.answered, Interpreter.withMemory, hsp, hs]

/-- A primitive that computes `r` from two SmallIntegers. -/
theorem wp_answerInteger (h : Operands s p q) (hs : s.successFlag = true) (hp : p % 2 = 1)
    {compute : IM Int} {test : Int → Bool} {r : Int}
    (hcompute : compute (s.popped true) = some (r, s.popped true)) :
    Wp (answerInteger compute test) Q (s.popped true) ↔
      Q () (if test r then s.answered (integerObjectOf r) else s.failed) := by
  have hsp : s.stackPointer - 2 + 2 = s.stackPointer := by omega
  have hflag : (s.popped true).successFlag = true := rfl
  have hset : ∀ ok : Bool, { s.popped true with successFlag := ok } = s.popped ok := fun _ => rfl
  rw [answerInteger, computeInteger, wp_bind, wp_bind, wp_get, if_pos hflag, wp_bind,
    wp_of_run hcompute, success, wp_bind, wp_modify, wp_pure, wp_bind, wp_get, hflag,
    Bool.true_and, hset]
  cases test r with
  | true =>
      rw [if_pos hflag, if_pos rfl]
      exact wp_pushInteger h hs hp r
  | false =>
      have hflag' : ¬(s.popped false).successFlag = true := Bool.false_ne_true
      rw [if_neg hflag', if_neg Bool.false_ne_true, unPop, wp_modify]
      simp only [Interpreter.popped, Interpreter.failed, hsp, Nat.cast_ofNat]

theorem wp_answerInteger_failed {compute : IM Int} {test : Int → Bool} :
    Wp (answerInteger compute test) Q (s.popped false) ↔ Q () s.failed := by
  have hsp : s.stackPointer - 2 + 2 = s.stackPointer := by omega
  simp [answerInteger, computeInteger, Interpreter.popped, unPop, hsp, Interpreter.failed]

end Rules

/-! ## Floored division -/

section Floor

variable {a b : Int}

theorem floor_div (a b : Int) : ⌊(a / b : ℚ)⌋ = a.fdiv b := by
  obtain ⟨n, rfl | rfl⟩ := b.eq_nat_or_neg
  · rw [Int.cast_natCast, Rat.floor_intCast_div_natCast, Int.fdiv_eq_ediv_of_nonneg _ (by omega)]
  · rw [← Int.neg_fdiv_neg, Int.neg_neg, Int.fdiv_eq_ediv_of_nonneg _ (by omega),
      ← Rat.floor_intCast_div_natCast, Int.cast_neg, Int.cast_neg, Int.cast_natCast, neg_div,
      div_neg]

/-- The remainder of C with the correction of `primitiveMod`. -/
theorem fmod_eq_corrected (a b : Int) :
    a.fmod b = if b < 0 then if a.tmod b > 0 then a.tmod b + b else a.tmod b
      else if a.tmod b < 0 then a.tmod b + b else a.tmod b := by
  have hsign := Int.sign_tmod a b
  rw [Int.fmod_eq_tmod]
  by_cases hdvd : b ∣ a
  · have h0 : a.tmod b = 0 := Int.tmod_eq_zero_of_dvd hdvd
    rw [if_pos hdvd, h0]
    simp
  · rw [if_neg hdvd] at hsign ⊢
    have ha : a ≠ 0 := fun h => hdvd (h ▸ Int.dvd_zero b)
    rcases lt_or_gt_of_ne ha with ha | ha
    · rw [Int.sign_eq_neg_one_of_neg ha, Int.sign_eq_neg_one_iff_neg] at hsign
      split_ifs <;> omega
    · rw [Int.sign_eq_one_of_pos ha, Int.sign_eq_one_iff_pos] at hsign
      split_ifs <;> omega

/-- The quotient lies strictly between -1 and 0. -/
def BelowZero (a b : Int) : Prop := a * b < 0 ∧ a.natAbs < b.natAbs

instance (a b : Int) : Decidable (BelowZero a b) := inferInstanceAs (Decidable (_ ∧ _))

def correctedDiv (a b : Int) : Int :=
  if a.tmod b ≠ 0 then if a.tdiv b < 0 then a.tdiv b - 1 else a.tdiv b else a.tdiv b

/-- The quotient of C with the correction of `primitiveDiv`. -/
theorem correctedDiv_eq (hb : b ≠ 0) (h : ¬BelowZero a b) : correctedDiv a b = a.fdiv b := by
  rw [correctedDiv, Int.fdiv_eq_tdiv]
  by_cases hdvd : b ∣ a
  · rw [if_pos hdvd, if_neg (by rw [Int.tmod_eq_zero_of_dvd hdvd]; decide), Int.sub_zero]
  · have ha : a ≠ 0 := fun h => hdvd (h ▸ Int.dvd_zero b)
    have hsmall : a.natAbs < b.natAbs → 0 ≤ a * b := fun hlt => by
      by_contra hn
      exact h ⟨by omega, hlt⟩
    have hsign := Int.sign_tdiv a b
    rw [if_neg hdvd, if_pos fun h0 => hdvd (Int.dvd_of_tmod_eq_zero h0)]
    rcases lt_or_gt_of_ne ha with ha | ha <;> rcases lt_or_gt_of_ne hb with hb | hb
    · have hpos : 0 ≤ a.tdiv b := Int.tdiv_nonneg_of_nonpos_of_nonpos (by omega) (by omega)
      rw [if_neg (by omega), if_neg (by omega), if_neg (by omega),
        Int.sign_eq_neg_one_of_neg hb, Int.add_right_neg, Int.sub_zero]
    · have hmul : a * b < 0 := Int.mul_neg_of_neg_of_pos ha hb
      rw [if_neg fun hlt => absurd (hsmall hlt) (by omega), Int.sign_eq_neg_one_of_neg ha,
        Int.sign_eq_one_of_pos hb, Int.mul_one, Int.sign_eq_neg_one_iff_neg] at hsign
      rw [if_pos hsign, if_neg (by omega), if_pos (by omega), Int.sign_eq_one_of_pos hb]
    · have hmul : a * b < 0 := Int.mul_neg_of_pos_of_neg ha hb
      rw [if_neg fun hlt => absurd (hsmall hlt) (by omega), Int.sign_eq_one_of_pos ha,
        Int.sign_eq_neg_one_of_neg hb, Int.one_mul, Int.sign_eq_neg_one_iff_neg] at hsign
      rw [if_pos hsign, if_pos (by omega), if_neg (by omega)]
    · have hpos : 0 ≤ a.tdiv b := Int.tdiv_nonneg (by omega) (by omega)
      rw [if_neg (by omega), if_pos (by omega), if_pos (by omega), Int.sub_zero]

theorem BelowZero.correctedDiv_eq (h : BelowZero a b) : correctedDiv a b = 0 := by
  have h0 : a.tdiv b = 0 := by
    have hsign := Int.sign_tdiv a b
    rwa [if_pos h.2, Int.sign_eq_zero_iff_zero] at hsign
  rw [correctedDiv, h0]
  simp

theorem BelowZero.fdiv_eq (h : BelowZero a b) : a.fdiv b = -1 := by
  have h0 : a.tdiv b = 0 := by
    have hsign := Int.sign_tdiv a b
    rwa [if_pos h.2, Int.sign_eq_zero_iff_zero] at hsign
  have hdvd : ¬b ∣ a := fun hdvd => by
    have := Int.natAbs_dvd_natAbs.mpr hdvd
    have := Nat.le_of_dvd (Int.natAbs_pos.mpr fun ha => by have := h.1; simp [ha] at this) this
    have := h.2
    omega
  rw [Int.fdiv_eq_tdiv, if_neg hdvd, h0]
  rcases lt_trichotomy a 0 with ha | rfl | ha
  · have hb : 0 < b := by
      by_contra hb
      exact absurd h.1 (by nlinarith)
    rw [if_neg (by omega), if_pos hb.le, Int.sign_eq_one_of_pos hb]
    rfl
  · exact absurd (Int.dvd_zero b) hdvd
  · rw [if_pos (by omega), if_neg fun hb => absurd h.1 (by nlinarith)]
    rfl

end Floor

/-! ## Runs on SmallIntegers -/

section Runs

variable {s t : Interpreter} {p q : Nat} {a b : Int} {Q : Unit → Interpreter → Prop}

theorem intDiv_run (h : DivisionDefined a b) : intDiv a b t = some (a.tdiv b, t) := by
  rw [intDiv]
  refine Wp.run_eq ?_
  rw [wp_bind, wp_check, wp_pure]
  exact ⟨h, rfl, rfl⟩

theorem intMod_run (h : DivisionDefined a b) : intMod a b t = some (a.tmod b, t) := by
  rw [intMod]
  refine Wp.run_eq ?_
  rw [wp_bind, wp_check, wp_pure]
  exact ⟨h, rfl, rfl⟩

theorem floorMod_run (h : DivisionDefined a b) : floorMod a b t = some (a.fmod b, t) := by
  rw [floorMod]
  refine Wp.run_eq ?_
  rw [wp_bind, wp_of_run (intMod_run h), fmod_eq_corrected]
  split_ifs <;> exact (wp_pure _ _ _).mpr ⟨rfl, rfl⟩

theorem floorDiv_run (h : DivisionDefined a b) :
    floorDiv a b t = some (correctedDiv a b, t) := by
  rw [floorDiv]
  refine Wp.run_eq ?_
  rw [wp_bind, wp_of_run (intDiv_run h), wp_bind, wp_of_run (intMod_run h), correctedDiv]
  split_ifs <;> exact (wp_pure _ _ _).mpr ⟨rfl, rfl⟩

theorem wp_successThen {c ok : Bool} {x : IM Unit} :
    Wp (success c >>= fun _ => x) Q (s.popped ok) ↔ Wp x Q (s.popped (ok && c)) := by
  rw [wp_bind, success, wp_modify]
  rfl

theorem wp_popSmallIntegers (h : Operands s p q) (hs : s.successFlag = true) (hp : p % 2 = 1)
    (hq : q % 2 = 1) {k : Int → Int → IM Unit} :
    Wp (popInteger >>= fun b => popInteger >>= fun a => k b a) Q s ↔
      Wp (k (integerValueOf q) (integerValueOf p)) Q (s.popped true) := by
  rw [wp_popOperands h hs, decide_eq_true hq, decide_eq_true hp]
  simp only [operand, Bool.and_self, if_true]

theorem divisionDefined_integerValueOf (hb : b ≠ 0) : DivisionDefined (integerValueOf p) b := by
  have hp := isIntegerValue_iff.mp (isIntegerValue_integerValueOf p)
  refine ⟨hb, fun h => ?_⟩
  have hmin : integerValueOf p = -2147483648 := h.1
  omega

theorem isIntegerValue_fmod (hb : b ≠ 0) (hv : isIntegerValue b = true) :
    isIntegerValue (a.fmod b) = true := by
  rw [isIntegerValue_iff] at hv ⊢
  rcases lt_or_gt_of_ne hb with hneg | hpos
  · have h1 := Int.fmod_nonneg_of_pos (-a) (b := -b) (by omega)
    have h2 := Int.fmod_lt_of_pos (-a) (b := -b) (by omega)
    have h3 : (-a).fmod (-b) = -a.fmod b := Int.neg_fmod_neg a b
    omega
  · have h1 := Int.fmod_nonneg_of_pos a hpos
    have h2 := Int.fmod_lt_of_pos a hpos
    omega

theorem sign_fmod (hb : b ≠ 0) : a.fmod b = 0 ∨ (a.fmod b).sign = b.sign := by
  rw [or_iff_not_imp_left]
  intro h0
  rcases lt_or_gt_of_ne hb with hneg | hpos
  · have h1 := Int.fmod_nonneg_of_pos (-a) (b := -b) (by omega)
    have h3 : (-a).fmod (-b) = -a.fmod b := Int.neg_fmod_neg a b
    rw [Int.sign_eq_neg_one_of_neg hneg, Int.sign_eq_neg_one_of_neg (by omega)]
  · have h1 := Int.fmod_nonneg_of_pos a hpos
    rw [Int.sign_eq_one_of_pos hpos, Int.sign_eq_one_of_pos (by omega)]

theorem primitiveMod_run (h : Operands s p q) (hs : s.successFlag = true) (hp : p % 2 = 1)
    (hq : q % 2 = 1) (hb : integerValueOf q ≠ 0) : primitiveMod s =
      some ((), s.answered (integerObjectOf ((integerValueOf p).fmod (integerValueOf q)))) := by
  rw [primitiveMod]
  refine Wp.run_eq ?_
  rw [wp_popSmallIntegers h hs hp hq, wp_successThen, decide_eq_true hb, Bool.true_and,
    wp_answerInteger h hs hp (floorMod_run (divisionDefined_integerValueOf hb)),
    if_pos (isIntegerValue_fmod hb (isIntegerValue_integerValueOf q))]
  exact ⟨rfl, rfl⟩

theorem primitiveDiv_run (h : Operands s p q) (hs : s.successFlag = true) (hp : p % 2 = 1)
    (hq : q % 2 = 1) (hb : integerValueOf q ≠ 0) : primitiveDiv s =
      some ((), if isIntegerValue (correctedDiv (integerValueOf p) (integerValueOf q)) then
          s.answered (integerObjectOf (correctedDiv (integerValueOf p) (integerValueOf q)))
        else s.failed) := by
  rw [primitiveDiv]
  refine Wp.run_eq ?_
  rw [wp_popSmallIntegers h hs hp hq, wp_successThen, decide_eq_true hb, Bool.true_and,
    wp_answerInteger h hs hp (floorDiv_run (divisionDefined_integerValueOf hb))]
  exact ⟨rfl, rfl⟩

end Runs

/-! ## Floored division of the primitives -/

/-- `primitiveMod` and `primitiveDiv` of the receiver `p` by the argument `q` are the
floored remainder and quotient, and agree with each other. -/
structure FlooredDivision (s : Interpreter) (p q : Nat) : Prop where
  mod : primitiveMod s = some ((), s.answered (integerObjectOf
    (integerValueOf p - integerValueOf q * ⌊(integerValueOf p / integerValueOf q : ℚ)⌋)))
  div : primitiveDiv s = some ((),
    if isIntegerValue ⌊(integerValueOf p / integerValueOf q : ℚ)⌋ then
      s.answered (integerObjectOf ⌊(integerValueOf p / integerValueOf q : ℚ)⌋)
    else s.failed)
  identity : ∀ s₁ s₂, primitiveDiv s = some ((), s₁) → s₁.successFlag = true →
    primitiveMod s = some ((), s₂) → s₂.successFlag = true →
    integerValueOf s₁.stackTop * integerValueOf q + integerValueOf s₂.stackTop = integerValueOf p
  sign : ∀ s₂, primitiveMod s = some ((), s₂) → s₂.successFlag = true →
    integerValueOf s₂.stackTop = 0 ∨
      (integerValueOf s₂.stackTop).sign = (integerValueOf q).sign

section FlooredDivision

variable {s : Interpreter} {p q : Nat}

theorem FlooredDivision.of_not_belowZero (h : Operands s p q) (hs : s.successFlag = true)
    (hp : p % 2 = 1) (hq : q % 2 = 1) (hb : integerValueOf q ≠ 0)
    (hbelow : ¬BelowZero (integerValueOf p) (integerValueOf q)) : FlooredDivision s p q := by
  have hmod := primitiveMod_run h hs hp hq hb
  have hdiv := primitiveDiv_run h hs hp hq hb
  rw [correctedDiv_eq hb hbelow] at hdiv
  have hmodTop : integerValueOf (s.answered (integerObjectOf
      ((integerValueOf p).fmod (integerValueOf q)))).stackTop =
      (integerValueOf p).fmod (integerValueOf q) := by
    rw [h.stackTop_answered, integerValueOf_integerObjectOf
      (isIntegerValue_fmod hb (isIntegerValue_integerValueOf q))]
  refine ⟨?_, ?_, fun s₁ s₂ h₁ hok₁ h₂ hok₂ => ?_, fun s₂ h₂ hok₂ => ?_⟩
  · rw [floor_div, ← Int.fmod_def, hmod]
  · rw [floor_div, hdiv]
  · rw [hmod] at h₂
    cases h₂
    rw [hdiv] at h₁
    obtain rfl : _ = s₁ := congrArg Prod.snd (Option.some.inj h₁)
    cases hv : isIntegerValue ((integerValueOf p).fdiv (integerValueOf q)) with
    | false =>
        rw [hv] at hok₁
        cases hok₁
    | true =>
        rw [if_pos rfl, h.stackTop_answered, integerValueOf_integerObjectOf hv, hmodTop]
        exact Int.fdiv_mul_add_fmod _ _
  · rw [hmod] at h₂
    cases h₂
    simp only [hmodTop]
    exact sign_fmod hb

theorem BelowZero.not_flooredDivision (hbelow : BelowZero (integerValueOf p) (integerValueOf q))
    (h : Operands s p q) (hs : s.successFlag = true) (hp : p % 2 = 1) (hq : q % 2 = 1)
    (hb : integerValueOf q ≠ 0) : ¬FlooredDivision s p q := fun hfloor => by
  have hdiv := primitiveDiv_run h hs hp hq hb
  rw [hfloor.div, floor_div, hbelow.fdiv_eq, hbelow.correctedDiv_eq] at hdiv
  have htop : (s.answered (integerObjectOf (-1))).stackTop =
      (s.answered (integerObjectOf 0)).stackTop :=
    congrArg Interpreter.stackTop (congrArg Prod.snd (Option.some.inj hdiv))
  rw [h.stackTop_answered, h.stackTop_answered] at htop
  exact absurd htop (by decide)

/-- The division of SmallIntegers is floored except where the exact quotient lies
strictly between -1 and 0. -/
theorem flooredDivision_iff (h : Operands s p q) (hs : s.successFlag = true)
    (hp : isIntegerObject p) (hq : isIntegerObject q) (hb : integerValueOf q ≠ 0) :
    FlooredDivision s p q ↔ ¬BelowZero (integerValueOf p) (integerValueOf q) :=
  ⟨fun hfloor hbelow => hbelow.not_flooredDivision h hs hp hq hb hfloor,
    FlooredDivision.of_not_belowZero h hs hp hq hb⟩

end FlooredDivision

/-- A context with the operands `p` and `q` on its stack. -/
def operandContext (p q : Nat) : Interpreter :=
  { beforeTime with
    host := { beforeTime.host with memory := ObjectMemory.blank.place 4 256 0 [4, 22, p, q] }
    stackPointer := 1 }

theorem memory_operandContext (p q : Nat) : (operandContext p q).memory =
    (((((ObjectMemory.blank.setWord 15 4 256).setWord 15 5 0).setWord 0 0 4).setWord 0 1 22).setWord
      0 2 p).setWord 0 3 q := rfl

theorem operands_operandContext {p q : Nat} (hp : p < 65536) (hq : q < 65536) :
    Operands (operandContext p q) p q := by
  have hentry : (operandContext p q).memory.entry 4 = decodeEntry 256 := by
    simp [memory_operandContext, ObjectMemory.entry, ObjectMemory.word_setWord]
  have hlocation : (operandContext p q).memory.location 4 = 0 := by
    simp [memory_operandContext, ObjectMemory.location, ObjectMemory.word_setWord]
  have hsegment : (decodeEntry 256).segment = 0 := by decide
  have hword (i : Nat) : (operandContext p q).memory.chunkWord 4 i =
      (operandContext p q).memory.word 0 i := by
    rw [ObjectMemory.chunkWord, hentry, hlocation, hsegment, Nat.zero_add]
  have hsize : (operandContext p q).memory.chunkWord 4 0 = 4 := by
    rw [hword]
    simp [memory_operandContext, ObjectMemory.word_setWord]
  have hcontext : (operandContext p q).activeContext = 4 := rfl
  have hstack : (operandContext p q).stackPointer = 1 := rfl
  refine ⟨?_, ?_, ?_, ?_, ?_⟩
  · rw [hcontext, hstack]
    exact ⟨by decide, by decide, by rw [hsize]; decide, by rw [hlocation]; decide⟩
  · rw [hcontext, hstack]
    exact ⟨by decide, by decide, by rw [hsize]; decide, by rw [hlocation]; decide⟩
  · rw [Interpreter.stackTop, hcontext, hstack, hword]
    simp [memory_operandContext, ObjectMemory.word_setWord, Nat.mod_eq_of_lt hq]
  · rw [hcontext, hstack, hword]
    simp [memory_operandContext, ObjectMemory.word_setWord, Nat.mod_eq_of_lt hp]
  · rw [hcontext, hentry]
    decide

theorem flooredDivision_minus_seven : FlooredDivision (operandContext 65523 5) 65523 5 :=
  (flooredDivision_iff (operands_operandContext (by decide) (by decide)) rfl rfl rfl (by decide)).mpr
    (by decide)

/-- -1 // 2 is 0. -/
theorem not_flooredDivision_minus_one : ¬∀ (s : Interpreter) (p q : Nat), Operands s p q →
    s.successFlag = true → isIntegerObject p → isIntegerObject q → integerValueOf q ≠ 0 →
    FlooredDivision s p q := fun h =>
  BelowZero.not_flooredDivision (by decide) (operands_operandContext (by decide) (by decide))
    rfl rfl rfl (by decide) (h (operandContext 65535 5) 65535 5
      (operands_operandContext (by decide) (by decide)) rfl rfl rfl (by decide))

/-! ## Divisions that are undefined -/

section Divisions

variable {s : Interpreter} {p q : Nat} {Q : Unit → Interpreter → Prop}

def divisions : List (IM Unit) := [primitiveDivide, primitiveMod, primitiveDiv, primitiveQuo]

/-- No division of the four primitives is undefined, which would halt the machine, and
each fails where an operand is no SmallInteger or the divisor is 0. -/
structure DividesSafely (s : Interpreter) (p q : Nat) : Prop where
  ends : ∀ primitive ∈ divisions, ∃ s', primitive s = some ((), s')
  fails : ¬isIntegerObject p ∨ ¬isIntegerObject q ∨ integerValueOf q = 0 →
    ∀ primitive ∈ divisions, primitive s = some ((), s.failed)

/-- The argument is a divisor for which a remainder can be undefined. -/
def BadDivisor (p q : Nat) : Prop :=
  isIntegerObject q ∧ (integerValueOf q = 0 ∨ integerValueOf q = -1 ∧ ¬isIntegerObject p)

instance (p q : Nat) : Decidable (BadDivisor p q) := inferInstanceAs (Decidable (_ ∧ _))

/-- `popInteger` answers `intMin` for the receiver also where only the argument is no
SmallInteger. -/
theorem divisionDefined_operands (h : ¬BadDivisor p q) :
    DivisionDefined (operand (decide (isIntegerObject q) && decide (isIntegerObject p)) p)
      (operand (decide (isIntegerObject q)) q) := by
  by_cases hq : isIntegerObject q
  · have hb : integerValueOf q ≠ 0 := fun h0 => h ⟨hq, .inl h0⟩
    rw [decide_eq_true hq]
    by_cases hp : isIntegerObject p
    · rw [decide_eq_true hp, Bool.and_self, operand_true, operand_true]
      exact divisionDefined_integerValueOf hb
    · rw [operand_true]
      exact ⟨hb, fun h1 => h ⟨hq, .inr ⟨h1.2, hp⟩⟩⟩
  · rw [decide_eq_false hq, Bool.false_and, operand_false, operand_false]
    exact ⟨by decide, by decide⟩

theorem not_divisionDefined_operands (h : BadDivisor p q) :
    ¬DivisionDefined (operand (decide (isIntegerObject q) && decide (isIntegerObject p)) p)
      (operand (decide (isIntegerObject q)) q) := by
  obtain ⟨hq, h0 | ⟨h1, hp⟩⟩ := h
  · rw [decide_eq_true hq, operand_true]
    exact fun h => h.1 h0
  · rw [decide_eq_true hq, decide_eq_false hp, Bool.and_false, operand_true, operand_false]
    exact fun h => h.2 ⟨rfl, h1⟩

/-- The primitives that test the divisor before they divide. -/
theorem wp_guarded (h : Operands s p q) (hs : s.successFlag = true) (compute : Int → Int → IM Int) :
    Wp (popInteger >>= fun b => popInteger >>= fun a => success (b ≠ 0) >>= fun _ =>
        answerInteger (compute a b) isIntegerValue) Q s ↔
      Wp (answerInteger (compute
          (operand (decide (isIntegerObject q) && decide (isIntegerObject p)) p)
          (operand (decide (isIntegerObject q)) q)) isIntegerValue) Q
        (s.popped (decide (isIntegerObject q) && decide (isIntegerObject p) &&
          decide (operand (decide (isIntegerObject q)) q ≠ 0))) := by
  rw [wp_popOperands h hs, wp_successThen]

theorem wp_primitiveDivide (h : Operands s p q) (hs : s.successFlag = true) :
    Wp primitiveDivide Q s ↔
      DivisionDefined (operand (decide (isIntegerObject q) && decide (isIntegerObject p)) p)
        (operand (decide (isIntegerObject q)) q) ∧
      Wp (answerInteger (intDiv
          (operand (decide (isIntegerObject q) && decide (isIntegerObject p)) p)
          (operand (decide (isIntegerObject q)) q)) isIntegerValue) Q
        (s.popped (decide (isIntegerObject q) && decide (isIntegerObject p) &&
          decide (operand (decide (isIntegerObject q)) q ≠ 0) &&
          decide ((operand (decide (isIntegerObject q) && decide (isIntegerObject p)) p).tmod
            (operand (decide (isIntegerObject q)) q) = 0))) := by
  rw [primitiveDivide, wp_popOperands h hs, wp_successThen, wp_bind, intMod, wp_bind, wp_check,
    wp_pure, wp_successThen]

theorem checks_fail (h : ¬isIntegerObject p ∨ ¬isIntegerObject q ∨ integerValueOf q = 0) :
    (decide (isIntegerObject q) && decide (isIntegerObject p) &&
      decide (operand (decide (isIntegerObject q)) q ≠ 0)) = false := by
  rcases h with hp | hq | h0
  · rw [decide_eq_false hp, Bool.and_false, Bool.false_and]
  · rw [decide_eq_false hq, Bool.false_and, Bool.false_and]
  · by_cases hq : isIntegerObject q
    · rw [decide_eq_true hq, operand_true, h0]
      exact Bool.and_false _
    · rw [decide_eq_false hq, Bool.false_and, Bool.false_and]

theorem divisions_fail (h : Operands s p q) (hs : s.successFlag = true) (hsafe : ¬BadDivisor p q)
    (hfail : ¬isIntegerObject p ∨ ¬isIntegerObject q ∨ integerValueOf q = 0) :
    ∀ primitive ∈ divisions, primitive s = some ((), s.failed) := by
  have hguarded (compute : Int → Int → IM Int) :
      Wp (popInteger >>= fun b => popInteger >>= fun a => success (b ≠ 0) >>= fun _ =>
        answerInteger (compute a b) isIntegerValue) (fun u t => u = () ∧ t = s.failed) s := by
    rw [wp_guarded h hs, checks_fail hfail, wp_answerInteger_failed]
    exact ⟨rfl, rfl⟩
  simp only [divisions, List.forall_mem_cons]
  refine ⟨Wp.run_eq ?_, (hguarded floorMod).run_eq, (hguarded floorDiv).run_eq,
    (hguarded intDiv).run_eq, List.forall_mem_nil _⟩
  rw [wp_primitiveDivide h hs, checks_fail hfail, Bool.false_and, wp_answerInteger_failed]
  exact ⟨divisionDefined_operands hsafe, rfl, rfl⟩

theorem divisions_end (h : Operands s p q) (hs : s.successFlag = true) (hp : p % 2 = 1)
    (hq : q % 2 = 1) (hb : integerValueOf q ≠ 0) :
    ∀ primitive ∈ divisions, ∃ s', primitive s = some ((), s') := by
  have hdefined : DivisionDefined (integerValueOf p) (integerValueOf q) :=
    divisionDefined_integerValueOf hb
  have hguarded (compute : Int → Int → IM Int) {r : Int}
      (hcompute : compute (integerValueOf p) (integerValueOf q) (s.popped true) =
        some (r, s.popped true)) :
      Wp (popInteger >>= fun b => popInteger >>= fun a => success (b ≠ 0) >>= fun _ =>
        answerInteger (compute a b) isIntegerValue) (fun _ _ => True) s := by
    rw [wp_popSmallIntegers h hs hp hq, wp_successThen, decide_eq_true hb, Bool.true_and,
      wp_answerInteger h hs hp hcompute]
    trivial
  have hends {x : IM Unit} (hx : Wp x (fun _ _ => True) s) : ∃ s', x s = some ((), s') := by
    obtain ⟨_, s', hrun, -⟩ := hx
    exact ⟨s', hrun⟩
  simp only [divisions, List.forall_mem_cons]
  refine ⟨hends ?_, hends (hguarded floorMod (floorMod_run hdefined)),
    hends (hguarded floorDiv (floorDiv_run hdefined)),
    hends (hguarded intDiv (intDiv_run hdefined)), List.forall_mem_nil _⟩
  rw [primitiveDivide, wp_popSmallIntegers h hs hp hq, wp_successThen, decide_eq_true hb,
    Bool.true_and, wp_bind, wp_of_run (intMod_run hdefined), wp_successThen, Bool.true_and]
  cases decide ((integerValueOf p).tmod (integerValueOf q) = 0) with
  | false => exact wp_answerInteger_failed.mpr trivial
  | true => exact (wp_answerInteger h hs hp (intDiv_run hdefined)).mpr trivial

theorem BadDivisor.not_dividesSafely (hbad : BadDivisor p q) (h : Operands s p q)
    (hs : s.successFlag = true) : ¬DividesSafely s p q := fun hsafe => by
  obtain ⟨s', hrun⟩ := hsafe.ends primitiveDivide (List.mem_cons_self ..)
  have hwp : Wp primitiveDivide (fun _ _ => True) s := (wp_of_run hrun).mpr trivial
  rw [wp_primitiveDivide h hs] at hwp
  exact not_divisionDefined_operands hbad hwp.1

/-- The divisions are safe except for the remainder that `primitiveDivide` evaluates
behind a check that has failed. -/
theorem dividesSafely_iff (h : Operands s p q) (hs : s.successFlag = true) :
    DividesSafely s p q ↔ ¬BadDivisor p q := by
  refine ⟨fun hsafe hbad => hbad.not_dividesSafely h hs hsafe, fun hgood => ⟨?_, ?_⟩⟩
  · by_cases hfail : ¬isIntegerObject p ∨ ¬isIntegerObject q ∨ integerValueOf q = 0
    · exact fun primitive hmem => ⟨_, divisions_fail h hs hgood hfail primitive hmem⟩
    · rw [not_or, not_or, not_not, not_not] at hfail
      exact divisions_end h hs hfail.1 hfail.2.1 hfail.2.2
  · exact divisions_fail h hs hgood

end Divisions

theorem dividesSafely_seven : DividesSafely (operandContext 15 5) 15 5 :=
  (dividesSafely_iff (operands_operandContext (by decide) (by decide)) rfl).mpr (by decide)

/-- 7 / 0 evaluates a remainder by 0. -/
theorem not_dividesSafely_zero : ¬∀ (s : Interpreter) (p q : Nat), Operands s p q →
    s.successFlag = true → DividesSafely s p q := fun h =>
  BadDivisor.not_dividesSafely (by decide) (operands_operandContext (by decide) (by decide)) rfl
    (h (operandContext 15 1) 15 1 (operands_operandContext (by decide) (by decide)) rfl)

/-! ## Shifts -/

section Shifts

variable {s : Interpreter} {p q : Nat}

theorem primitiveBitShift_run (h : Operands s p q) (hs : s.successFlag = true) (hp : p % 2 = 1)
    (hq : q % 2 = 1) : primitiveBitShift s = some ((),
      if isIntegerValue (shiftInteger (integerValueOf p) (integerValueOf q)) &&
          (decide (integerValueOf q < 16) || decide (integerValueOf p = 0)) then
        s.answered (integerObjectOf (shiftInteger (integerValueOf p) (integerValueOf q)))
      else s.failed) := by
  rw [primitiveBitShift]
  refine Wp.run_eq ?_
  rw [wp_popSmallIntegers h hs hp hq, wp_answerInteger h hs hp (r := shiftInteger (integerValueOf p)
    (integerValueOf q)) rfl]
  exact ⟨rfl, rfl⟩

theorem floor_shiftLeft (a : Int) (k : Nat) : ⌊(a : ℚ) * 2 ^ (k : ℤ)⌋ = a * 2 ^ k := by
  have hcast : (a : ℚ) * 2 ^ (k : ℤ) = ((a * 2 ^ k : ℤ) : ℚ) := by
    rw [zpow_natCast]
    push_cast
    rfl
  rw [hcast, Int.floor_intCast]

theorem floor_shiftRight (a : Int) (k : Nat) : ⌊(a : ℚ) * 2 ^ (-k : ℤ)⌋ = a / 2 ^ k := by
  have hcast : (a : ℚ) * 2 ^ (-k : ℤ) = (a : ℚ) / ((2 ^ k : ℕ) : ℚ) := by
    rw [zpow_neg, zpow_natCast, div_eq_mul_inv]
    push_cast
    rfl
  rw [hcast, Rat.floor_intCast_div_natCast]
  push_cast
  rfl

/-- Shifts to the left by less than 16 lose no bit of the 32. -/
theorem intShiftLeft_eq {a : Int} {k : Nat} (ha : isIntegerValue a = true) (hk : k < 16) :
    intShiftLeft a k = a * 2 ^ k := by
  rw [isIntegerValue_iff] at ha
  have hpow : (2 : Int) ^ k ≤ 2 ^ 15 := pow_le_pow_right₀ (by decide) (by omega)
  have hpos : (0 : Int) < 2 ^ k := by positivity
  have hbound : -536870912 ≤ a * 2 ^ k ∧ a * 2 ^ k ≤ 536870912 := by
    constructor <;> nlinarith
  rw [intShiftLeft, Int.bmod_def]
  push_cast
  split <;> omega

/-- Shifts to the left by 16 or more leave no SmallInteger but 0. -/
theorem isIntegerValue_mul_pow {a : Int} {k : Nat} (hk : 16 ≤ k) :
    isIntegerValue (a * 2 ^ k) = decide (a = 0) := by
  have hpow : (2 : Int) ^ 16 ≤ 2 ^ k := pow_le_pow_right₀ (by decide) hk
  rcases lt_trichotomy a 0 with ha | rfl | ha
  · rw [decide_eq_false (by omega), Bool.eq_false_iff, ne_eq, isIntegerValue_iff]
    intro h
    have h1 := h.1
    nlinarith
  · rw [Int.zero_mul]
    rfl
  · rw [decide_eq_false (by omega), Bool.eq_false_iff, ne_eq, isIntegerValue_iff]
    intro h
    have h2 := h.2
    nlinarith

theorem shiftInteger_left {a : Int} {k : Nat} (ha : isIntegerValue a = true) (hk : k < 16) :
    shiftInteger a k = a * 2 ^ k := by
  rw [shiftInteger]
  split
  · rw [if_pos (by omega), Int.toNat_natCast, intShiftLeft_eq ha hk]
  · obtain rfl : k = 0 := by omega
    simp

theorem shiftInteger_zero {k : Nat} (hk : 0 < k) : shiftInteger 0 k = 0 := by
  rw [shiftInteger, if_pos (by omega), intShiftLeft, Int.zero_mul]
  split <;> rfl

/-- From 31 on the bits of a SmallInteger are all shifted out. -/
theorem shiftInteger_right {a : Int} {k : Nat} (ha : isIntegerValue a = true) :
    shiftInteger a (-k) = a / 2 ^ k := by
  rw [isIntegerValue_iff] at ha
  rw [shiftInteger, if_neg (by omega)]
  split
  · split
    · rw [intShiftRight, Int.neg_neg, Int.toNat_natCast, Int.shiftRight_eq_div_pow]
      push_cast
      rfl
    · have hpow : (2 : Int) ^ 31 ≤ 2 ^ k := pow_le_pow_right₀ (by decide) (by omega)
      rw [intShiftRight, Int.shiftRight_eq_div_pow]
      rcases lt_or_ge a 0 with hneg | hpos
      · rw [Int.ediv_eq_neg_one_of_neg_of_le hneg (by omega),
          Int.ediv_eq_neg_one_of_neg_of_le hneg (by omega)]
      · rw [Int.ediv_eq_zero_of_lt hpos (by omega), Int.ediv_eq_zero_of_lt hpos (by omega)]
  · obtain rfl : k = 0 := by omega
    simp

/-- A shift is accepted where the exact result is a SmallInteger, and is exact there. -/
theorem shiftInteger_exact {a n : Int} (ha : isIntegerValue a = true) :
    (isIntegerValue (shiftInteger a n) && (decide (n < 16) || decide (a = 0))) =
        isIntegerValue ⌊(a : ℚ) * 2 ^ n⌋ ∧
      (isIntegerValue ⌊(a : ℚ) * 2 ^ n⌋ = true → shiftInteger a n = ⌊(a : ℚ) * 2 ^ n⌋) := by
  obtain ⟨k, rfl | rfl⟩ := n.eq_nat_or_neg
  · rw [floor_shiftLeft]
    by_cases hk : k < 16
    · rw [shiftInteger_left ha hk, decide_eq_true (by omega), Bool.true_or, Bool.and_true]
      exact ⟨rfl, fun _ => rfl⟩
    · rw [decide_eq_false (by omega), Bool.false_or, isIntegerValue_mul_pow (by omega),
        decide_eq_true_eq]
      by_cases h0 : a = 0
      · subst h0
        rw [shiftInteger_zero (by omega), Int.zero_mul]
        exact ⟨rfl, fun _ => rfl⟩
      · exact ⟨by rw [decide_eq_false h0, Bool.and_false], fun h => absurd h h0⟩
  · rw [floor_shiftRight, shiftInteger_right ha, decide_eq_true (by omega), Bool.true_or,
      Bool.and_true]
    exact ⟨rfl, fun _ => rfl⟩

/-- The shift of SmallIntegers answers the floor of the product with the power of two, in
either direction, and fails exactly where that is no SmallInteger. -/
theorem primitiveBitShift_exact (h : Operands s p q) (hs : s.successFlag = true)
    (hp : isIntegerObject p) (hq : isIntegerObject q) : primitiveBitShift s = some ((),
      if isIntegerValue ⌊(integerValueOf p : ℚ) * 2 ^ integerValueOf q⌋ then
        s.answered (integerObjectOf ⌊(integerValueOf p : ℚ) * 2 ^ integerValueOf q⌋)
      else s.failed) := by
  obtain ⟨htest, hvalue⟩ := shiftInteger_exact (n := integerValueOf q)
    (isIntegerValue_integerValueOf p)
  rw [primitiveBitShift_run h hs hp hq, htest]
  split
  · next hv => rw [hvalue hv]
  · rfl

end Shifts

theorem primitiveBitShift_minus_three : primitiveBitShift (operandContext 65531 65535) = some ((),
    if isIntegerValue ⌊(integerValueOf 65531 : ℚ) * 2 ^ integerValueOf 65535⌋ then
      (operandContext 65531 65535).answered
        (integerObjectOf ⌊(integerValueOf 65531 : ℚ) * 2 ^ integerValueOf 65535⌋)
    else (operandContext 65531 65535).failed) :=
  primitiveBitShift_exact (operands_operandContext (by decide) (by decide)) rfl rfl rfl

end Crosstalk
