import Crosstalk.BitBlt.Copy
import Mathlib.Tactic.IntervalCases

/-!
# The bits of the copied words

What the masks, the combination rules, the rotation and the masked store of
the copy loop do to each bit of a word.
-/

namespace Crosstalk

namespace BitBlt

/-! ## Masks -/

theorem testBit_bitInvert {x i : Nat} (hi : i < 16) :
    (bitInvert x).testBit i = !x.testBit i := by
  simp [bitInvert, allOnes, Nat.testBit_xor, testBit_allOnes, hi]

theorem rightMask_eq {n : Nat} (hn : n ≤ 16) : rightMask n = fieldMask n := by
  have h : ∀ n ≤ 16, rightMask n = fieldMask n := by decide
  exact h n hn

theorem testBit_rightMask {n i : Nat} (hn : n ≤ 16) :
    (rightMask n).testBit i = decide (i < n) := by
  rw [rightMask_eq hn, testBit_fieldMask]

/-! ## The combination rules -/

/-- The combination rules on a source and a destination pixel. -/
def combine (combinationRule : Int) (s d : Bool) : Bool :=
  match combinationRule with
  | 0 => false
  | 1 => s && d
  | 2 => s && !d
  | 3 => s
  | 4 => !s && d
  | 5 => d
  | 6 => s ^^ d
  | 7 => s || d
  | 8 => !s && !d
  | 9 => !s ^^ d
  | 10 => !d
  | 11 => s || !d
  | 12 => !s
  | 13 => !s || d
  | 14 => !s || !d
  | _ => true

/-- Combining two words combines their bits. -/
theorem mergeWith_eq {rule : Int} (h0 : 0 ≤ rule) (h15 : rule ≤ 15) {s d : Nat}
    (hs : s < 65536) (hd : d < 65536) :
    ∃ r, mergeWith rule s d = pure r ∧ r < 65536 ∧
      ∀ i < 16, r.testBit i = combine rule (s.testBit i) (d.testBit i) := by
  have hsi : ∀ i, 16 ≤ i → s.testBit i = false := fun i => testBit_eq_false_of_lt hs
  have hdi : ∀ i, 16 ≤ i → d.testBit i = false := fun i => testBit_eq_false_of_lt hd
  interval_cases rule <;>
    refine ⟨_, rfl, Nat.lt_pow_two_of_testBit (n := 16) _ fun i hi => ?_, fun i hi => ?_⟩ <;>
    simp [combine, bitInvert, Nat.testBit_and, Nat.testBit_or, Nat.testBit_xor,
      testBit_allOnes, *]

/-! ## The rotation -/

/-- Where bit `i` of a word rotated to the left by `skew` comes from. -/
def rotatedFrom (skew i : Nat) : Nat := if skew ≤ i then i - skew else i + 16 - skew

theorem testBit_rotate {x skew i : Nat} (hx : x < 65536) (hskew : skew < 16) (hi : i < 16) :
    (rotate x skew).testBit i = x.testBit (rotatedFrom skew i) := by
  rw [rotate, show (65536 : Nat) = 2 ^ 16 from rfl, Nat.testBit_mod_two_pow,
    Nat.testBit_or, Nat.testBit_shiftLeft, Nat.testBit_shiftRight, rotatedFrom]
  split
  · next h =>
      have hhigh : x.testBit (16 - skew + i) = false := testBit_eq_false_of_lt (n := 16) hx (by omega)
      simp [h, hi, hhigh]
  · next h =>
      rw [show 16 - skew + i = i + 16 - skew by omega]
      simp [h, hi]

/-! ## Masked words -/

/-- The bits of `x` under the mask and those of `y` outside it. -/
def blend (mask x y : Nat) : Nat := (mask &&& x) ||| (bitInvert mask &&& y)

theorem blend_lt {mask x y : Nat} (hx : x < 65536) (hy : y < 65536) :
    blend mask x y < 65536 :=
  Nat.or_lt_two_pow (n := 16) (Nat.and_lt_two_pow _ hx) (Nat.and_lt_two_pow _ hy)

theorem testBit_blend {mask x y i : Nat} (hi : i < 16) :
    (blend mask x y).testBit i = if mask.testBit i then x.testBit i else y.testBit i := by
  rw [blend, Nat.testBit_or, Nat.testBit_and, Nat.testBit_and, testBit_bitInvert hi]
  cases mask.testBit i <;> simp

/-- Two words with the same 16 bits are the same. -/
theorem eq_of_testBit_eq {x y : Nat} (hx : x < 65536) (hy : y < 65536)
    (h : ∀ i < 16, x.testBit i = y.testBit i) : x = y := by
  refine Nat.eq_of_testBit_eq fun i => ?_
  rcases Nat.lt_or_ge i 16 with hi | hi
  · exact h i hi
  · rw [testBit_eq_false_of_lt hx hi, testBit_eq_false_of_lt hy hi]

end BitBlt

end Crosstalk
