import Mathlib.Data.Nat.Bitwise

/-!
# Bit fields of 16-bit words

`field x k n` is the `n`-bit field of `x` whose least significant bit is bit
`k`; `putField x k n v` stores `v` there. Reading a field after a store sees
the stored value in the same field and the old one in a disjoint field.
-/

namespace Crosstalk

/-- The mask of an `n`-bit field at bit 0. -/
def fieldMask (n : Nat) : Nat := (1 <<< n) - 1

def field (x k n : Nat) : Nat := (x >>> k) &&& fieldMask n

def putField (x k n v : Nat) : Nat :=
  (x &&& (65535 ^^^ (fieldMask n <<< k))) ||| (v <<< k)

theorem testBit_fieldMask (n i : Nat) : (fieldMask n).testBit i = decide (i < n) := by
  rw [fieldMask, Nat.one_shiftLeft, Nat.testBit_two_pow_sub_one]

theorem testBit_field (x k n i : Nat) :
    (field x k n).testBit i = (x.testBit (k + i) && decide (i < n)) := by
  rw [field, Nat.testBit_and, Nat.testBit_shiftRight, testBit_fieldMask]

theorem testBit_allOnes (i : Nat) : (65535 : Nat).testBit i = decide (i < 16) :=
  Nat.testBit_two_pow_sub_one 16 i

theorem testBit_eq_false_of_lt {v n i : Nat} (hv : v < 2 ^ n) (hi : n ≤ i) :
    v.testBit i = false :=
  Nat.testBit_lt_two_pow (Nat.lt_of_lt_of_le hv (Nat.pow_le_pow_right (by omega) hi))

theorem testBit_putField (x k n v i : Nat) :
    (putField x k n v).testBit i =
      ((x.testBit i && (decide (i < 16) ^^ (decide (k ≤ i) && decide (i - k < n))))
        || (decide (k ≤ i) && v.testBit (i - k))) := by
  simp only [putField, Nat.testBit_or, Nat.testBit_and, Nat.testBit_xor, testBit_allOnes,
    Nat.testBit_shiftLeft, testBit_fieldMask, ge_iff_le]

theorem field_lt (x k n : Nat) : field x k n < 2 ^ n := by
  have h : field x k n ≤ fieldMask n := Nat.and_le_right
  have hpos := Nat.two_pow_pos n
  rw [fieldMask, Nat.one_shiftLeft] at h
  omega

/-- The assertion that a value fits its field. -/
theorem and_fieldMask_eq_self {v n : Nat} : v &&& fieldMask n = v ↔ v < 2 ^ n := by
  rw [fieldMask, Nat.one_shiftLeft, Nat.and_two_pow_sub_one_eq_mod]
  exact ⟨fun h => h ▸ Nat.mod_lt _ (Nat.two_pow_pos n), Nat.mod_eq_of_lt⟩

@[simp] theorem field_zero (k n : Nat) : field 0 k n = 0 := by simp [field]

theorem field_putField_same {x k n v : Nat} (hv : v < 2 ^ n) (h16 : k + n ≤ 16) :
    field (putField x k n v) k n = v := by
  refine Nat.eq_of_testBit_eq fun i => ?_
  rw [testBit_field, testBit_putField]
  by_cases hi : i < n
  · have hlt : k + i < 16 := by omega
    simp [hi, hlt]
  · simp [hi, testBit_eq_false_of_lt hv (Nat.le_of_not_lt hi)]

theorem field_putField_disjoint {x k n v k' n' : Nat} (hv : v < 2 ^ n)
    (hd : k' + n' ≤ k ∨ k + n ≤ k') (h16 : k' + n' ≤ 16) :
    field (putField x k n v) k' n' = field x k' n' := by
  refine Nat.eq_of_testBit_eq fun i => ?_
  rw [testBit_field, testBit_field, testBit_putField]
  by_cases hi : i < n'
  · have hlt : k' + i < 16 := by omega
    rcases hd with hd | hd
    · have hk : ¬ k ≤ k' + i := by omega
      simp [hi, hlt, hk]
    · have hk : ¬ k' + i - k < n := by omega
      simp [hi, hlt, hk, testBit_eq_false_of_lt hv (Nat.le_of_not_lt hk)]
  · simp [hi]

/-- Storing the value a field already has changes nothing. -/
theorem putField_field {x k n : Nat} (hx : x < 65536) :
    putField x k n (field x k n) = x := by
  refine Nat.eq_of_testBit_eq fun i => ?_
  rw [testBit_putField, testBit_field]
  by_cases hi : i < 16
  · by_cases hk : k ≤ i
    · have : k + (i - k) = i := by omega
      by_cases hn : i - k < n <;> simp [hi, hk, hn, this]
    · simp [hi, hk]
  · have : x.testBit i = false := testBit_eq_false_of_lt (n := 16) hx (Nat.le_of_not_lt hi)
    by_cases hk : k ≤ i
    · have hki : k + (i - k) = i := by omega
      simp [hi, this, hki]
    · simp [this, hk]

/-- The last store counts. -/
theorem putField_putField {x k n v w : Nat} (hv : v < 2 ^ n) (h16 : k + n ≤ 16) :
    putField (putField x k n v) k n w = putField x k n w := by
  refine Nat.eq_of_testBit_eq fun i => ?_
  rw [testBit_putField, testBit_putField, testBit_putField]
  by_cases hk : k ≤ i
  · by_cases hn : i - k < n
    · have hi : i < 16 := by omega
      simp [hi, hk, hn]
    · simp [hk, hn, testBit_eq_false_of_lt hv (Nat.le_of_not_lt hn)]
  · simp [hk]

theorem putField_lt {x k n v : Nat} (hx : x < 65536) (hv : v < 2 ^ n) (h16 : k + n ≤ 16) :
    putField x k n v < 65536 := by
  refine Nat.lt_pow_two_of_testBit (n := 16) _ fun i hi => ?_
  rw [testBit_putField, testBit_eq_false_of_lt (n := 16) hx hi,
    testBit_eq_false_of_lt (i := i - k) hv (by omega)]
  simp

end Crosstalk
