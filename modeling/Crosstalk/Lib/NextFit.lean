/-!
# Next fit

Items go into bins of one capacity in their order: into the bin in use or, where
they do not fit, into the next one. A bin that has been left is not used again.
-/

namespace Crosstalk

/-- The bin in use and how much of it is. -/
structure Bin where
  bin : Nat
  used : Nat
  deriving DecidableEq

namespace Bin

variable {capacity size : Nat} {sizes sizes' : List Nat} {b : Bin}

def put (capacity : Nat) (b : Bin) (size : Nat) : Bin :=
  if b.used + size ≤ capacity then ⟨b.bin, b.used + size⟩ else ⟨b.bin + 1, size⟩

def putAll (capacity : Nat) (b : Bin) (sizes : List Nat) : Bin := sizes.foldl (put capacity) b

theorem put_fits (h : b.used + size ≤ capacity) : put capacity b size = ⟨b.bin, b.used + size⟩ :=
  if_pos h

theorem put_next (h : ¬b.used + size ≤ capacity) : put capacity b size = ⟨b.bin + 1, size⟩ :=
  if_neg h

theorem putAll_append : putAll capacity b (sizes ++ sizes') =
    putAll capacity (putAll capacity b sizes) sizes' := List.foldl_append

/-- No bin is used again. -/
theorem bin_le_put : b.bin ≤ (put capacity b size).bin := by
  rw [put]
  split
  · exact Nat.le_refl _
  · exact Nat.le_succ _

end Bin

end Crosstalk
