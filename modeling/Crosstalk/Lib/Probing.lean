import Mathlib.Order.Basic
import Mathlib.Tactic.Common

/-!
# Linear probing

The slots of an open-addressing table, probed cyclically from a home slot. A
slot that is `empty` ends the search. `Passed` is what a search knows after its
first probes, `Hit` is where it is to stop with a result.
-/

namespace Crosstalk

variable {α : Type} {slot : Nat → α} {empty key : α} {capacity home n i j : Nat}

/-- The slot of probe `i`. -/
def probed (capacity home i : Nat) : Nat := (home + i) % capacity

theorem probed_lt (h : 0 < capacity) : probed capacity home i < capacity := Nat.mod_lt _ h

theorem probed_add_capacity : probed capacity home (i + capacity) = probed capacity home i := by
  rw [probed, ← Nat.add_assoc, Nat.add_mod_right, probed]

/-- The first `n` probes find neither an empty slot nor the key. -/
def Passed (slot : Nat → α) (empty key : α) (capacity home n : Nat) : Prop :=
  ∀ i < n, slot (probed capacity home i) ≠ empty ∧ slot (probed capacity home i) ≠ key

/-- Probe `j` finds the key, and no probe before an empty slot. -/
structure Hit (slot : Nat → α) (empty key : α) (capacity home j : Nat) : Prop where
  lt : j < capacity
  found : slot (probed capacity home j) = key
  occupied : ∀ i < j, slot (probed capacity home i) ≠ empty

namespace Passed

theorem zero : Passed slot empty key capacity home 0 := fun _ h => absurd h (Nat.not_lt_zero _)

theorem succ (h : Passed slot empty key capacity home n)
    (hempty : slot (probed capacity home n) ≠ empty) (hkey : slot (probed capacity home n) ≠ key) :
    Passed slot empty key capacity home (n + 1) := fun i hi => by
  rcases Nat.lt_succ_iff_lt_or_eq.mp hi with hlt | rfl
  · exact h i hlt
  · exact ⟨hempty, hkey⟩

/-- A hit is behind what has been passed. -/
theorem le_of_hit (h : Passed slot empty key capacity home n)
    (hj : Hit slot empty key capacity home j) : n ≤ j := by
  by_contra hn
  exact (h j (by omega)).2 hj.found

/-- The search that comes to an empty slot has missed nothing. -/
theorem not_hit_of_empty (h : Passed slot empty key capacity home n) (hne : key ≠ empty)
    (hempty : slot (probed capacity home n) = empty) : ¬Hit slot empty key capacity home j :=
  fun hj => by
    rcases Nat.eq_or_lt_of_le (h.le_of_hit hj) with rfl | hlt
    · exact hne (hj.found.symm.trans hempty)
    · exact hj.occupied n hlt hempty

/-- Neither has the search that has gone through all slots. -/
theorem not_hit_of_turn (h : Passed slot empty key capacity home n) (hn : capacity ≤ n) :
    ¬Hit slot empty key capacity home j := fun hj => by
  have hle := h.le_of_hit hj
  have hlt := hj.lt
  omega

/-- A key that is found is a hit, as it cannot be found in the second turn. -/
theorem hit (h : Passed slot empty key capacity home n) (hcapacity : 0 < capacity)
    (hkey : slot (probed capacity home n) = key) : Hit slot empty key capacity home n where
  lt := by
    by_contra hn
    have hback : probed capacity home (n - capacity + capacity) =
        probed capacity home (n - capacity) := probed_add_capacity
    rw [Nat.sub_add_cancel (by omega)] at hback
    exact (h (n - capacity) (by omega)).2 (hback ▸ hkey)
  found := hkey
  occupied := fun i hi => (h i hi).1

end Passed

end Crosstalk
