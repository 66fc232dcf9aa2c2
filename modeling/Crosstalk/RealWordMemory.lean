import Crosstalk.Lib.BitField

/-!
# The segmented word memory

`RealWordMemory` is sixteen segments of 65536 words of sixteen bits. The type
carries the width of its words: a value that does not fit cannot be stored.
Accesses outside the segments do not exist in the program (they halt it, see
`ObjectMemory.Entry`), so that the array is total here.
-/

namespace Crosstalk

abbrev segmentCount : Nat := 16

/-- In words. -/
abbrev segmentSize : Nat := 65536

structure RealWordMemory where
  memory : Nat → Nat → Nat
  memory_lt : ∀ s w, memory s w < 65536

namespace RealWordMemory

/-- `memory[s][w] = value`, the assignment to a `uint16_t`. -/
def put (m : RealWordMemory) (s w value : Nat) : RealWordMemory where
  memory s' w' := if s' = s ∧ w' = w then value % 65536 else m.memory s' w'
  memory_lt s' w' := by
    split
    · exact Nat.mod_lt _ (by decide)
    · exact m.memory_lt s' w'

theorem memory_put (m : RealWordMemory) (s w value s' w' : Nat) :
    (m.put s w value).memory s' w' =
      if s' = s ∧ w' = w then value % 65536 else m.memory s' w' := rfl

@[ext] theorem ext {m m' : RealWordMemory}
    (h : ∀ s w, m.memory s w = m'.memory s w) : m = m' := by
  cases m; cases m'
  congr
  exact funext fun s => funext fun w => h s w

end RealWordMemory

end Crosstalk
