import Crosstalk.Interpreter.Arithmetic
import Crosstalk.Interpreter.ByteObjects
import Mathlib.Data.Nat.Digits.Lemmas
import Mathlib.Tactic.Ring

/-!
# Positive integers of 16 and 32 bits

The integers that pass between the interpreter and the program are SmallIntegers
or LargePositiveIntegers. `positive16BitIntegerFor` makes two bytes of a number
that is no SmallInteger, `positive32BitIntegerFor` four, and takes the 32-bit
pattern for an `int`. The two `ValueOf` take SmallIntegers as they come, negative
ones as well.
-/

namespace Crosstalk

open ObjectMemory

/-! ## The code -/

/-- Byte `k` of an `int`, the low one first. -/
def byteOfInt (anInteger : Int) (k : Nat) : Nat := (anInteger / 2 ^ (8 * k) % 256).toNat

def lowByteOf (anInteger : Int) : Nat := byteOfInt anInteger 0
def highByteOf (anInteger : Int) : Nat := byteOfInt anInteger 1

def positive16BitIntegerFor (integerValue : Int) : IM Nat := do
  if integerValue < 0 then
    return (← primitiveFail).toNat
  else if isIntegerValue integerValue then
    return integerObjectOf integerValue
  else
    let newLargeInteger ← instantiateClassWithBytes classLargePositiveIntegerPointer 2
    inMemory do
      storeByteOfObjectWithValue 0 newLargeInteger (lowByteOf integerValue)
      storeByteOfObjectWithValue 1 newLargeInteger (highByteOf integerValue)
    return newLargeInteger

def positive32BitIntegerFor (integerValue : Int) : IM Nat := do
  if isIntegerValue integerValue then
    return integerObjectOf integerValue
  else
    let newLargeInteger ← instantiateClassWithBytes classLargePositiveIntegerPointer 4
    inMemory do
      storeByteOfObjectWithValue 0 newLargeInteger (lowByteOf integerValue)
      storeByteOfObjectWithValue 1 newLargeInteger (highByteOf integerValue)
      storeByteOfObjectWithValue 2 newLargeInteger (byteOfInt integerValue 2)
      storeByteOfObjectWithValue 3 newLargeInteger (byteOfInt integerValue 3)
    return newLargeInteger

/-! ## What an integer object denotes -/

/-- Byte `k` of the object `p`. -/
def digit (m : ObjectMemory) (p k : Nat) : Nat := m.byte (m.entry p).segment (m.firstByte p + k)

/-- The number with the bytes `f 0`, ..., `f (n - 1)`. -/
def ofBytes (f : Nat → Nat) (n : Nat) : Nat := Nat.ofDigits 256 ((List.range n).map f)

/-- `p` is a SmallInteger or a LargePositiveInteger of any length, and denotes `x`. -/
def Denotes (m : ObjectMemory) (p : Nat) (x : Int) : Prop :=
  isIntegerObject p ∧ p < 65536 ∧ x = integerValueOf p ∨
    ∃ n, IsByteObject m p classLargePositiveIntegerPointer n ∧ x = ofBytes (digit m p) n

/-- The 32 bits of `v` as an `int`. -/
def intOfPattern (v : Nat) : Int := Int.bmod v (2 ^ 32)

/-! ## The properties of the codecs -/

variable {i j j' : Interpreter} {m m' : ObjectMemory} {p q n v k l : Nat} {f : Nat → Nat}

/-- `x` makes an object from which `y` gets the number `v`. -/
def Restores {α : Type} (x : IM Nat) (y : Nat → IM α) (v : α) (i : Interpreter) : Prop :=
  Wp x (fun p i' => y p i' = some (v, i')) i

/-- Both codecs of a number of 16 bits restore it. -/
def Restores16 (i : Interpreter) (v : Nat) : Prop :=
  Restores (positive16BitIntegerFor v) positive16BitValueOf (v : Int) i ∧
    Restores (positive32BitIntegerFor v) positive16BitValueOf (v : Int) i

/-- A number of 32 bits is denoted by its object, and restored. -/
def Restores32 (i : Interpreter) (v : Nat) : Prop :=
  Wp (positive32BitIntegerFor (intOfPattern v)) (fun p i' => Denotes i'.memory p v) i ∧
    Restores (positive32BitIntegerFor (intOfPattern v)) positive32BitValueOf v i

/-- `y` fails for `p`, or gets from it the number that it denotes. -/
def Faithful {α : Type} (y : Nat → IM α) (toInt : α → Int) (i : Interpreter) (p : Nat) : Prop :=
  Wp (y p) (fun r i' => i'.successFlag = false ∨ Denotes i.memory p (toInt r) ∧ 0 ≤ toInt r) i

/-! ## Reading -/

theorem digit_lt (m : ObjectMemory) (p k : Nat) : digit m p k < 256 := by
  rw [digit, byte]
  exact field_lt _ _ 8

theorem not_isIntegerObject {c : Nat} (h : IsByteObject m p c n) : ¬isIntegerObject p := by
  have := h.isEntry.1
  rw [isIntegerObject]
  omega

/-- Where a codec has failed. It answers 0. -/
def Interpreter.rejected (i : Interpreter) : Interpreter := { i with successFlag := false }

section Reads

variable {c : Nat} (h : IsByteObject i.memory p c n)

include h

theorem fetchClass_run : inMemory (fetchClassOf p) i = some (c, i) := by
  have hin := h.inside
  have hstop : heapSpaceStop = 65514 := rfl
  refine Wp.run_eq ?_
  rw [wp_inMemory, wp_fetchClassOf h.isEntry.1, h.fetchClass]
  exact ⟨⟨h.isEntry, by omega⟩, rfl, rfl⟩

theorem fetchByteLength_run : inMemory (fetchByteLengthOf p) i = some ((n : Int), i) := by
  refine Wp.run_eq ?_
  rw [wp_inMemory, h.wp_fetchByteLength]
  exact ⟨rfl, rfl⟩

theorem fetchByte_run (hk : k < n) :
    inMemory (fetchByteOfObject k p) i = some (digit i.memory p k, i) := by
  refine Wp.run_eq ?_
  rw [wp_inMemory, h.wp_fetchByte hk]
  exact ⟨rfl, rfl⟩

end Reads

theorem positive16BitValueOf_smallInteger (hp : isIntegerObject p) (i : Interpreter) :
    positive16BitValueOf p i = some (integerValueOf p, i) := by
  rw [positive16BitValueOf, if_pos hp]
  rfl

theorem positive16BitValueOf_bytes {c : Nat} (h : IsByteObject i.memory p c n) :
    positive16BitValueOf p i =
      if c = classLargePositiveIntegerPointer ∧ n = 2 then
        some ((ofBytes (digit i.memory p) 2 : Int), i)
      else some (0, i.rejected) := by
  rw [positive16BitValueOf, if_neg (not_isIntegerObject h), bind_of_run (fetchClass_run h)]
  by_cases hc : c = classLargePositiveIntegerPointer
  · rw [if_neg (not_not.2 hc), bind_of_run (fetchByteLength_run h)]
    by_cases hn : n = 2
    · subst hn
      rw [if_neg (by decide), if_pos ⟨hc, rfl⟩, bind_of_run (fetchByte_run h (by decide)),
        bind_of_run (fetchByte_run h (by decide))]
      show some (_, i) = some (_, i)
      simp only [ofBytes, List.range_succ, List.range_zero, List.nil_append, List.cons_append,
        List.map_cons, List.map_nil, Nat.ofDigits_cons, Nat.ofDigits_nil]
      push_cast
      ring_nf
    · rw [if_pos (by omega), if_neg fun hboth => hn hboth.2]
      rfl
  · rw [if_pos hc, if_neg fun hboth => hc hboth.1]
    rfl

theorem positive32BitValueOf_smallInteger (hp : isIntegerObject p) (i : Interpreter) :
    positive32BitValueOf p i = some ((integerValueOf p % 2 ^ 32).toNat, i) := by
  rw [positive32BitValueOf, if_pos hp]
  rfl

theorem wp_shiftedByte {c : Nat} (h : IsByteObject m p c n) {Q : Nat → ObjectMemory → Prop} :
    Wp (shiftedByte p n l) Q m ↔ Q (if l < n then digit m p l <<< (8 * l) else 0) m := by
  rw [shiftedByte]
  by_cases hl : l < n
  · rw [if_pos (by omega), if_pos hl, wp_bind, h.wp_fetchByte hl, wp_pure]
    rfl
  · rw [if_neg (by omega), if_neg hl, wp_pure]

theorem or_shiftLeft {a b l : Nat} (ha : a < 2 ^ l) : a ||| b <<< l = a + b * 2 ^ l := by
  rw [Nat.or_comm, ← Nat.shiftLeft_add_eq_or_of_lt ha, Nat.shiftLeft_eq, Nat.add_comm]

theorem ofBytes_succ (f : Nat → Nat) (n : Nat) :
    ofBytes f (n + 1) = ofBytes f n + f n * 2 ^ (8 * n) := by
  rw [ofBytes, List.range_succ, List.map_append, Nat.ofDigits_append, List.map_singleton,
    Nat.ofDigits_singleton, List.length_map, List.length_range, ofBytes, Nat.pow_mul, Nat.mul_comm]

theorem ofBytes_lt (hf : ∀ l, f l < 256) (n : Nat) : ofBytes f n < 2 ^ (8 * n) := by
  induction n with
  | zero => simp [ofBytes]
  | succ n ih =>
      have h := Nat.mul_le_mul_right (2 ^ (8 * n)) (Nat.le_sub_one_of_lt (hf n))
      have hpow : 2 ^ (8 * (n + 1)) = 256 * 2 ^ (8 * n) := by rw [Nat.mul_add, Nat.pow_add]; ring
      rw [ofBytes_succ, hpow]
      omega

theorem ofBytes_or (hf : ∀ l, f l < 256) (n : Nat) :
    ofBytes f n ||| f n <<< (8 * n) = ofBytes f (n + 1) := by
  rw [or_shiftLeft (ofBytes_lt hf n), ofBytes_succ]

/-- The bytes of a number of up to four bytes, each at its place. -/
theorem or_digits (hf : ∀ l, f l < 256) (n : Nat) :
    f 0 ||| (if 1 < n then f 1 <<< (8 * 1) else 0) ||| (if 2 < n then f 2 <<< (8 * 2) else 0) |||
      (if 3 < n then f 3 <<< (8 * 3) else 0) = ofBytes f (min (max n 1) 4) := by
  have h1 : f 0 = ofBytes f 1 := by rw [ofBytes_succ]; simp [ofBytes]
  have hn : n ≤ 1 ∨ n = 2 ∨ n = 3 ∨ 4 ≤ n := by omega
  rcases hn with hn | rfl | rfl | hn
  · rw [show min (max n 1) 4 = 1 by omega, if_neg (by omega), if_neg (by omega), if_neg (by omega),
      Nat.or_zero, Nat.or_zero, Nat.or_zero, h1]
  · simp [h1, ofBytes_or hf]
  · simp [h1, ofBytes_or hf]
  · rw [show min (max n 1) 4 = 4 by omega, if_pos (by omega), if_pos (by omega), if_pos (by omega),
      h1, ofBytes_or hf, ofBytes_or hf, ofBytes_or hf]

/-- The first four bytes, of which the first is always read. -/
theorem positive32BitValueOf_bytes {c : Nat} (h : IsByteObject i.memory p c n) :
    positive32BitValueOf p i =
      if c = classLargePositiveIntegerPointer then
        some (ofBytes (digit i.memory p) (min (max n 1) 4), i)
      else some (0, i.rejected) := by
  have hin := h.inside
  have hstop : heapSpaceStop = 65514 := rfl
  rw [positive32BitValueOf, if_neg (not_isIntegerObject h), bind_of_run (fetchClass_run h)]
  by_cases hc : c = classLargePositiveIntegerPointer
  · rw [if_neg (not_not.2 hc), if_pos hc]
    refine Wp.run_eq ?_
    rw [wp_inMemory]
    simp only [wp_bind, h.wp_fetchByteLength, wp_fetchByteOfObject, wp_shiftedByte h, wp_pure]
    exact ⟨⟨h.isEntry, by omega⟩, or_digits (digit_lt _ _) n, rfl⟩
  · rw [if_pos hc, if_neg hc]
    rfl

/-! ## Writing -/

theorem byteOfInt_lt (x : Int) (k : Nat) : byteOfInt x k < 256 := by
  rw [byteOfInt]
  omega

/-- The bytes of `x` for the store. -/
def dataOf (x : Int) (k : Nat) : UInt8 := UInt8.ofNat (byteOfInt x k)

theorem dataOf_toNat (x : Int) (k : Nat) : (dataOf x k).toNat = byteOfInt x k := by
  rw [dataOf, UInt8.toNat_ofNat']
  exact Nat.mod_eq_of_lt (byteOfInt_lt x k)

theorem ofBytes_congr {g : Nat → Nat} (h : ∀ l < n, f l = g l) : ofBytes f n = ofBytes g n := by
  rw [ofBytes, ofBytes]
  congr 1
  exact List.map_congr_left fun l hl => h l (List.mem_range.1 hl)

theorem ofBytes_byteOfInt_two (x : Int) : (ofBytes (byteOfInt x) 2 : Int) = x % 65536 := by
  simp only [ofBytes_succ, byteOfInt]
  simp [ofBytes]
  omega

theorem ofBytes_byteOfInt_four (x : Int) : (ofBytes (byteOfInt x) 4 : Int) = x % 2 ^ 32 := by
  simp only [ofBytes_succ, byteOfInt]
  simp [ofBytes]
  omega

/-- The object has been made of the low bytes of `x`. -/
structure MadeOf (m : ObjectMemory) (p n : Nat) (x : Int) : Prop where
  isByteObject : IsByteObject m p classLargePositiveIntegerPointer n
  value : ofBytes (digit m p) n = ofBytes (byteOfInt x) n

theorem StoredBytes.madeOf {x : Int} (h : IsByteObject m p classLargePositiveIntegerPointer n)
    (hs : StoredBytes m p n (dataOf x) m') : MadeOf m' p n x where
  isByteObject := h.of_storedBytes hs
  value := ofBytes_congr fun l hl => by
    rw [digit, h.byte_of_storedBytes hs hl, dataOf_toNat]

theorem wp_storeDigit {x : Int} (h : IsByteObject m p classLargePositiveIntegerPointer n)
    (hs : StoredBytes m p k (dataOf x) m') (hk : k < n) :
    Wp (storeByteOfObjectWithValue k p (byteOfInt x k))
      (fun _ => StoredBytes m p (k + 1) (dataOf x)) m' := by
  have hnext := h.wp_storeNext hs hk
  rwa [dataOf_toNat] at hnext

theorem wp_positive16BitIntegerFor {x : Int} (h0 : 0 ≤ x) (hx : isIntegerValue x = false)
    (h : Allocates i classLargePositiveIntegerPointer 3 p j) :
    Wp (positive16BitIntegerFor x) (fun q i' => MadeOf i'.memory q 2 x) i := by
  rw [positive16BitIntegerFor, if_neg (by omega), if_neg (by simp [hx]), wp_bind]
  refine (wp_instantiateClassWithBytes h (by decide)).mono ?_
  rintro p _ ⟨rfl, t, rfl, hobject⟩
  rw [wp_bind, wp_inMemory, wp_bind]
  refine (wp_storeDigit hobject (StoredBytes.refl t p (dataOf x)) (by decide)).mono
    fun _ t₁ h₁ => ?_
  refine (wp_storeDigit hobject h₁ (by decide)).mono fun _ t₂ h₂ => ?_
  rw [wp_pure]
  exact StoredBytes.madeOf hobject h₂

theorem wp_positive32BitIntegerFor {x : Int} (hx : isIntegerValue x = false)
    (h : Allocates i classLargePositiveIntegerPointer 4 p j) :
    Wp (positive32BitIntegerFor x) (fun q i' => MadeOf i'.memory q 4 x) i := by
  rw [positive32BitIntegerFor, if_neg (by simp [hx]), wp_bind]
  refine (wp_instantiateClassWithBytes h (by decide)).mono ?_
  rintro p _ ⟨rfl, t, rfl, hobject⟩
  rw [wp_bind, wp_inMemory, wp_bind]
  refine (wp_storeDigit hobject (StoredBytes.refl t p (dataOf x)) (by decide)).mono
    fun _ t₁ h₁ => ?_
  rw [wp_bind]
  refine (wp_storeDigit hobject h₁ (by decide)).mono fun _ t₂ h₂ => ?_
  rw [wp_bind]
  refine (wp_storeDigit hobject h₂ (by decide)).mono fun _ t₃ h₃ => ?_
  refine (wp_storeDigit hobject h₃ (by decide)).mono fun _ t₄ h₄ => ?_
  rw [wp_pure]
  exact StoredBytes.madeOf hobject h₄

/-! ## 16 bits -/

/-- A SmallInteger is made of a small number, and read as it is. -/
theorem small_run {x : Int} (hx : isIntegerValue x = true) (i : Interpreter) :
    positive32BitIntegerFor x i = some (integerObjectOf x, i) ∧
      positive16BitValueOf (integerObjectOf x) i = some (x, i) ∧
      positive32BitValueOf (integerObjectOf x) i = some ((x % 2 ^ 32).toNat, i) := by
  rw [positive32BitIntegerFor, if_pos hx,
    positive16BitValueOf_smallInteger (integerObjectOf_odd x),
    positive32BitValueOf_smallInteger (integerObjectOf_odd x), integerValueOf_integerObjectOf hx]
  exact ⟨rfl, rfl, rfl⟩

theorem isIntegerValue_eq_false {x : Int} (hx : ¬(-16384 ≤ x ∧ x ≤ 16383)) :
    isIntegerValue x = false := by
  rwa [Bool.eq_false_iff, ne_eq, isIntegerValue_iff]

/-- A number of 16 bits comes back from its own object in any case. -/
theorem restores_positive16BitIntegerFor
    (h2 : Allocates i classLargePositiveIntegerPointer 3 p j) (hv : v < 65536) :
    Restores (positive16BitIntegerFor v) positive16BitValueOf (v : Int) i := by
  by_cases hsmall : v < 16384
  · have hint : isIntegerValue v = true := isIntegerValue_iff.2 (by omega)
    rw [Restores, positive16BitIntegerFor, if_neg (by omega), if_pos hint, wp_pure]
    exact (small_run hint i).2.1
  · have hint : isIntegerValue v = false := isIntegerValue_eq_false (by omega)
    refine (wp_positive16BitIntegerFor (by omega) hint h2).mono fun q i' hmade => ?_
    rw [positive16BitValueOf_bytes hmade.isByteObject, if_pos ⟨rfl, rfl⟩, hmade.value,
      ofBytes_byteOfInt_two, Int.emod_eq_of_lt (by omega) (by omega)]

theorem restores16_iff (h2 : Allocates i classLargePositiveIntegerPointer 3 p j)
    (h4 : Allocates i classLargePositiveIntegerPointer 4 q j') (hv : v < 65536) :
    Restores16 i v ↔ v < 16384 := by
  rw [Restores16, and_iff_right (restores_positive16BitIntegerFor h2 hv)]
  by_cases hsmall : v < 16384
  · obtain ⟨hfor, hvalue, -⟩ := small_run (isIntegerValue_iff.2 (by omega : _ ∧ (v : Int) ≤ _)) i
    exact iff_of_true ((wp_of_run hfor).2 hvalue) hsmall
  · have hint : isIntegerValue v = false := isIntegerValue_eq_false (by omega)
    refine iff_of_false (fun hr => ?_) hsmall
    -- four bytes are not accepted
    obtain ⟨q, i', -, hvalue, hmade⟩ := hr.and_wlp (wp_positive32BitIntegerFor hint h4).toWlp
    rw [positive16BitValueOf_bytes hmade.isByteObject, if_neg (by decide)] at hvalue
    have hzero : (0 : Int) = v := congrArg Prod.fst (Option.some.inj hvalue)
    omega

theorem faithful16_iff (hs : i.successFlag = true)
    (hp : isIntegerObject p ∧ p < 65536 ∨ ∃ c n, IsByteObject i.memory p c n) :
    Faithful positive16BitValueOf (fun x => x) i p ↔ (isIntegerObject p → 0 ≤ integerValueOf p) := by
  rcases hp with ⟨hodd, hlt⟩ | ⟨c, n, hbytes⟩
  · have hdenotes : Denotes i.memory p (integerValueOf p) := .inl ⟨hodd, hlt, rfl⟩
    rw [Faithful, wp_of_run (positive16BitValueOf_smallInteger hodd i), hs]
    constructor
    · rintro (hfalse | ⟨-, hnonneg⟩) -
      · cases hfalse
      · exact hnonneg
    · exact fun h => .inr ⟨hdenotes, h hodd⟩
  · refine iff_of_true ?_ fun hodd => absurd hodd (not_isIntegerObject hbytes)
    have hrun := positive16BitValueOf_bytes hbytes
    by_cases hc : c = classLargePositiveIntegerPointer ∧ n = 2
    · rw [if_pos hc] at hrun
      obtain ⟨rfl, rfl⟩ := hc
      exact (wp_of_run hrun).2 (.inr ⟨.inr ⟨2, hbytes, rfl⟩, Int.natCast_nonneg _⟩)
    · rw [if_neg hc] at hrun
      exact (wp_of_run hrun).2 (.inl rfl)

/-! ## 32 bits -/

theorem bmod_pattern {l : Nat} (hl : l < 4294967296) :
    Int.bmod l 4294967296 = if l < 2147483648 then (l : Int) else l - 4294967296 := by
  rw [Int.bmod_def]
  split <;> split <;> omega

theorem pattern_emod {l : Nat} (hl : l < 4294967296) :
    Int.bmod l 4294967296 % 4294967296 = l := by
  rw [bmod_pattern hl]
  split <;> omega

theorem intOfPattern_emod (hv : v < 2 ^ 32) : intOfPattern v % 2 ^ 32 = v := pattern_emod hv

theorem isIntegerValue_pattern {l : Nat} (hl : l < 4294967296) :
    isIntegerValue (Int.bmod l 4294967296) = true ↔ l < 16384 ∨ 4294950912 ≤ l := by
  rw [isIntegerValue_iff, bmod_pattern hl]
  split <;> omega

theorem pattern_eq_iff {l : Nat} (hl : l < 4294967296) :
    (l : Int) = Int.bmod l 4294967296 ↔ l < 2147483648 := by
  rw [bmod_pattern hl]
  split <;> omega

/-- A SmallInteger denotes its value only. -/
theorem denotes_integerObjectOf {x y : Int} (hx : isIntegerValue x = true) :
    Denotes m (integerObjectOf x) y ↔ y = x := by
  constructor
  · rintro (⟨-, -, hy⟩ | ⟨n, hbytes, -⟩)
    · exact hy.trans (integerValueOf_integerObjectOf hx)
    · exact absurd (integerObjectOf_odd x) (not_isIntegerObject hbytes)
  · rintro rfl
    exact .inl ⟨integerObjectOf_odd y, integerObjectOf_lt y,
      (integerValueOf_integerObjectOf hx).symm⟩

theorem restores32_iff (h4 : Allocates i classLargePositiveIntegerPointer 4 p j)
    (hv : v < 2 ^ 32) : Restores32 i v ↔ v < 2 ^ 32 - 16384 := by
  have hmod := intOfPattern_emod hv
  have hrange : isIntegerValue (intOfPattern v) = true ↔ _ := isIntegerValue_pattern hv
  have heq : (v : Int) = intOfPattern v ↔ _ := pattern_eq_iff hv
  by_cases hint : isIntegerValue (intOfPattern v) = true
  · obtain ⟨hfor, -, hvalue⟩ := small_run hint i
    rw [Restores32, Restores, wp_of_run hfor, wp_of_run hfor, denotes_integerObjectOf hint, hvalue,
      hmod, Int.toNat_natCast, and_iff_left rfl, heq]
    have := hrange.1 hint
    omega
  · have hsmall : v < 2 ^ 32 - 16384 := by
      rw [hrange] at hint
      omega
    have hmade := wp_positive32BitIntegerFor (Bool.eq_false_iff.2 hint) h4
    have hvalue : (ofBytes (byteOfInt (intOfPattern v)) 4 : Int) = v :=
      (ofBytes_byteOfInt_four _).trans hmod
    refine iff_of_true ⟨hmade.mono fun q i' hq => ?_, hmade.mono fun q i' hq => ?_⟩ hsmall
    · exact .inr ⟨4, hq.isByteObject, by rw [hq.value, hvalue]⟩
    · rw [positive32BitValueOf_bytes hq.isByteObject, if_pos rfl]
      show some (ofBytes (digit i'.memory q) 4, i') = _
      rw [hq.value, Int.ofNat_inj.1 hvalue]

theorem ofBytes_mono (f : Nat → Nat) : Monotone (ofBytes f) :=
  monotone_nat_of_le_succ fun n => by
    rw [ofBytes_succ]
    exact Nat.le_add_right _ _

/-- The bytes from `k` on add nothing just when they are 0. -/
theorem ofBytes_eq_iff (hk : k ≤ n) :
    ofBytes f n = ofBytes f k ↔ ∀ l, k ≤ l → l < n → f l = 0 := by
  induction n, hk using Nat.le_induction with
  | base => exact iff_of_true rfl fun l hkl hlk => absurd hkl (by omega)
  | succ n hk ih =>
      have hle := ofBytes_mono f hk
      have hpow : 0 < 2 ^ (8 * n) := Nat.two_pow_pos _
      rw [ofBytes_succ]
      constructor
      · intro heq l hkl hl
        have hn : f n * 2 ^ (8 * n) = 0 := by omega
        rcases Nat.lt_succ_iff_lt_or_eq.1 hl with hl | rfl
        · exact ih.1 (by omega) l hkl hl
        · exact (Nat.mul_eq_zero.1 hn).resolve_right (by omega)
      · intro hzero
        rw [ih.2 fun l hkl hl => hzero l hkl (by omega), hzero n hk (by omega), Nat.zero_mul,
          Nat.add_zero]

/-- Two lengths of one object are the same. -/
theorem IsByteObject.length_unique {c c' : Nat} (h : IsByteObject m p c n)
    (h' : IsByteObject m p c' l) : n = l := by
  have hsize := h.size.symm.trans h'.size
  have hodd := h.odd.symm.trans h'.odd
  omega

/-- The number has no bit above the lowest 32, and a first byte to read. -/
def Fits32 (m : ObjectMemory) (p : Nat) : Prop :=
  (isIntegerObject p → 0 ≤ integerValueOf p) ∧
    ∀ n, IsByteObject m p classLargePositiveIntegerPointer n →
      (n = 0 → digit m p 0 = 0) ∧ ∀ k, 4 ≤ k → k < n → digit m p k = 0

theorem ofBytes_read_iff (f : Nat → Nat) (n : Nat) :
    ofBytes f (min (max n 1) 4) = ofBytes f n ↔
      (n = 0 → f 0 = 0) ∧ ∀ k, 4 ≤ k → k < n → f k = 0 := by
  have hn : n = 0 ∨ (1 ≤ n ∧ n ≤ 4) ∨ 4 < n := by omega
  rcases hn with rfl | ⟨h1, h4⟩ | h4
  · simp [ofBytes]
  · rw [show min (max n 1) 4 = n by omega]
    exact iff_of_true rfl ⟨fun h => absurd h (by omega), fun k hk hkn => absurd hkn (by omega)⟩
  · rw [show min (max n 1) 4 = 4 by omega, eq_comm, ofBytes_eq_iff h4.le]
    exact (and_iff_right fun h => absurd h (by omega)).symm

theorem denotes_bytes {x : Int} (h : IsByteObject m p classLargePositiveIntegerPointer n) :
    Denotes m p x ↔ x = ofBytes (digit m p) n := by
  constructor
  · rintro (⟨hodd, -⟩ | ⟨l, hl, hx⟩)
    · exact absurd hodd (not_isIntegerObject h)
    · rwa [h.length_unique hl]
  · exact fun hx => .inr ⟨n, h, hx⟩

theorem toNat_emod_eq_iff {x : Int} (hx : -16384 ≤ x ∧ x ≤ 16383) :
    ((x % 4294967296).toNat : Int) = x ↔ 0 ≤ x := by
  omega

theorem faithful32_iff (hs : i.successFlag = true)
    (hp : isIntegerObject p ∧ p < 65536 ∨ ∃ c n, IsByteObject i.memory p c n) :
    Faithful positive32BitValueOf (fun x => x) i p ↔ Fits32 i.memory p := by
  rcases hp with ⟨hodd, hlt⟩ | ⟨c, n, hbytes⟩
  · have hrange := isIntegerValue_iff.1 (isIntegerValue_integerValueOf p)
    rw [Faithful, wp_of_run (positive32BitValueOf_smallInteger hodd i), hs]
    have hfits : Fits32 i.memory p ↔ 0 ≤ integerValueOf p :=
      ⟨fun h => h.1 hodd, fun h => ⟨fun _ => h, fun n hn =>
        absurd hodd (not_isIntegerObject hn)⟩⟩
    rw [hfits, ← toNat_emod_eq_iff hrange]
    constructor
    · rintro (hfalse | ⟨⟨-, -, hx⟩ | ⟨n, hn, -⟩, -⟩)
      · cases hfalse
      · exact hx
      · exact absurd hodd (not_isIntegerObject hn)
    · exact fun hx => .inr ⟨.inl ⟨hodd, hlt, hx⟩, Int.natCast_nonneg _⟩
  · have hnotodd := not_isIntegerObject hbytes
    have hrun := positive32BitValueOf_bytes hbytes
    by_cases hc : c = classLargePositiveIntegerPointer
    · subst hc
      rw [if_pos rfl] at hrun
      rw [Faithful, wp_of_run hrun, hs, denotes_bytes hbytes, Int.natCast_inj, ofBytes_read_iff]
      constructor
      · rintro (hfalse | ⟨hdigits, -⟩)
        · cases hfalse
        · refine ⟨fun hodd => absurd hodd hnotodd, fun l hl => ?_⟩
          rwa [← hbytes.length_unique hl]
      · exact fun h => .inr ⟨h.2 n hbytes, Int.natCast_nonneg _⟩
    · rw [if_neg hc] at hrun
      refine iff_of_true ((wp_of_run hrun).2 (.inl rfl)) ⟨fun hodd => absurd hodd hnotodd, ?_⟩
      exact fun l hl => absurd (hbytes.fetchClass.symm.trans hl.fetchClass) hc

/-- For each codec the numbers that it gives back as they were, and the objects, SmallIntegers
or objects of bytes, from which it reads the value that they denote or fails as it should. -/
theorem positiveIntegers_iff (hs : i.successFlag = true)
    (h2 : Allocates i classLargePositiveIntegerPointer 3 p j)
    (h4 : Allocates i classLargePositiveIntegerPointer 4 q j') :
    (∀ v < 65536, Restores16 i v ↔ v < 16384) ∧
      (∀ v < 2 ^ 32, Restores32 i v ↔ v < 2 ^ 32 - 16384) ∧
      ∀ r, (isIntegerObject r ∧ r < 65536 ∨ ∃ c n, IsByteObject i.memory r c n) →
        (Faithful positive16BitValueOf (fun x => x) i r ↔
            (isIntegerObject r → 0 ≤ integerValueOf r)) ∧
          (Faithful positive32BitValueOf (fun x => x) i r ↔ Fits32 i.memory r) :=
  ⟨fun _ hv => restores16_iff h2 h4 hv, fun _ hv => restores32_iff h4 hv,
    fun _ hr => ⟨faithful16_iff hs hr, faithful32_iff hs hr⟩⟩

/-! ## A memory with room for one object of each kind -/

/-- A free chunk of three words and one of four, and the class of the integers. -/
def twoChunks : Interpreter :=
  { beforeTime with
    successFlag := true
    host := { beforeTime.host with
      memory := { ((((ObjectMemory.blank.place 100 0 200 [3, nonPointer]).place
          102 0 210 [4, nonPointer]).place classLargePositiveIntegerPointer 256 300 [2, 0]).setWord
          0 (firstFreeChunkList + 3) 100).setWord 0 (firstFreeChunkList + 4) 102 with
        freeWords := 100 } } }

theorem allocates_three :
    ∃ j, Allocates twoChunks classLargePositiveIntegerPointer 3 100 j :=
  ⟨_, rfl, by decide, by decide, by decide⟩

theorem allocates_four :
    ∃ j, Allocates twoChunks classLargePositiveIntegerPointer 4 102 j :=
  ⟨_, rfl, by decide, by decide, by decide⟩

/-- The numbers on both sides of the SmallInteger limit, and the SmallInteger -1. -/
theorem positiveIntegers_twoChunks :
    Restores16 twoChunks 16383 ∧ Restores32 twoChunks 16384 ∧
      ¬Faithful positive16BitValueOf (fun x => x) twoChunks 65535 := by
  obtain ⟨j, h2⟩ := allocates_three
  obtain ⟨j', h4⟩ := allocates_four
  have h := positiveIntegers_iff rfl h2 h4
  refine ⟨(h.1 16383 (by decide)).2 (by decide), (h.2.1 16384 (by decide)).2 (by decide), ?_⟩
  exact fun hr => absurd ((h.2.2 65535 (.inl (by decide))).1.1 hr) (by decide)

/-- 20000 in four bytes is not accepted for 16 bits; the pattern of -1 makes the
SmallInteger -1, and both codecs take that for a positive number. -/
theorem not_positiveIntegers_twoChunks :
    ¬Restores16 twoChunks 20000 ∧ ¬Restores32 twoChunks 4294967295 ∧
      ¬Faithful positive16BitValueOf (fun x => x) twoChunks 65535 ∧
      ¬Faithful positive32BitValueOf (fun x => x) twoChunks 65535 := by
  obtain ⟨j, h2⟩ := allocates_three
  obtain ⟨j', h4⟩ := allocates_four
  refine ⟨fun h => ?_, fun h => ?_, fun h => ?_, fun h => ?_⟩
  · exact absurd ((restores16_iff h2 h4 (by decide)).1 h) (by decide)
  · exact absurd ((restores32_iff h4 (by decide)).1 h) (by decide)
  · exact absurd ((faithful16_iff rfl (.inl (by decide))).1 h) (by decide)
  · exact absurd (((faithful32_iff rfl (.inl (by decide))).1 h).1) (by decide)

end Crosstalk
