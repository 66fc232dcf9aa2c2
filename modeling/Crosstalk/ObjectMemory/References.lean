import Crosstalk.ObjectMemory.Graph
import Mathlib.Data.Set.Card

/-!
# Counting references

How many pointers refer to an object: what its count should tell.
-/

namespace Crosstalk

namespace ObjectMemory

variable {D D' : Nat × Nat → Prop} {m : ObjectMemory} {p q i : Nat}

instance : Decidable (IsPointer m p i) := inferInstanceAs (Decidable (_ ∧ _ ∧ _))

/-- How many pointers among `D`, given by object and index, refer to `q`. -/
noncomputable def references (m : ObjectMemory) (D : Nat × Nat → Prop) (q : Nat) : Nat :=
  Set.ncard {x : Nat × Nat | D x ∧ IsPointer m x.1 x.2 ∧ m.chunkWord x.1 x.2 = q}

theorem finite_references (hD : ∀ x, D x → x.1 < 65536) (q : Nat) :
    {x : Nat × Nat | D x ∧ IsPointer m x.1 x.2 ∧ m.chunkWord x.1 x.2 = q}.Finite := by
  refine (Finset.range 65536 ×ˢ Finset.range 65536).finite_toSet.subset fun x hx => ?_
  have hlast : m.last x.1 < 65536 := last_lt
  have hlt := hx.2.1.2.1
  rw [Finset.mem_coe, Finset.mem_product, Finset.mem_range, Finset.mem_range]
  exact ⟨hD x hx.1, by omega⟩

theorem references_congr (h : ∀ x, IsPointer m x.1 x.2 → (D' x ↔ D x)) :
    m.references D' q = m.references D q := by
  rw [references, references]
  congr 1
  ext x
  exact ⟨fun ⟨hD, hx⟩ => ⟨(h x hx.1).mp hD, hx⟩, fun ⟨hD, hx⟩ => ⟨(h x hx.1).mpr hD, hx⟩⟩

/-- No pointer has been counted yet. -/
theorem references_none (h : ∀ x, IsPointer m x.1 x.2 → ¬D x) : m.references D q = 0 := by
  have hempty : {x : Nat × Nat | D x ∧ IsPointer m x.1 x.2 ∧ m.chunkWord x.1 x.2 = q} = ∅ :=
    Set.eq_empty_of_forall_notMem fun x hx => h x hx.2.1 hx.1
  rw [references, hempty, Set.ncard_empty]

/-- One more pointer counts for the object that it refers to. -/
theorem references_insert (hfin : ∀ x, D x → x.1 < 65536) (hD : ∀ x, D' x ↔ D x ∨ x = (p, i))
    (hnew : ¬D (p, i)) : m.references D' q =
      m.references D q + if IsPointer m p i ∧ m.chunkWord p i = q then 1 else 0 := by
  by_cases h : IsPointer m p i ∧ m.chunkWord p i = q
  · rw [if_pos h, references, references, ← Set.ncard_insert_of_notMem (a := (p, i))
      (fun hmem => hnew hmem.1) (finite_references hfin q)]
    congr 1
    ext x
    rw [Set.mem_insert_iff, Set.mem_ofPred_eq, Set.mem_ofPred_eq, hD x]
    constructor
    · rintro ⟨hx | rfl, hp⟩
      · exact .inr ⟨hx, hp⟩
      · exact .inl rfl
    · rintro (rfl | ⟨hx, hp⟩)
      · exact ⟨.inr rfl, h⟩
      · exact ⟨.inl hx, hp⟩
  · rw [if_neg h, Nat.add_zero, references, references]
    congr 1
    ext x
    rw [Set.mem_ofPred_eq, Set.mem_ofPred_eq, hD x]
    refine ⟨fun ⟨hx, hp⟩ => ⟨hx.resolve_right ?_, hp⟩, fun ⟨hx, hp⟩ => ⟨.inl hx, hp⟩⟩
    rintro rfl
    exact h hp

theorem references_le (hfin : ∀ x, D' x → x.1 < 65536)
    (h : ∀ x, D x → IsPointer m x.1 x.2 → m.chunkWord x.1 x.2 = q → D' x) :
    m.references D q ≤ m.references D' q :=
  Set.ncard_le_ncard (fun x hx => ⟨h x hx.1 hx.2.1 hx.2.2, hx.2⟩) (finite_references hfin q)

theorem references_mono (hfin : ∀ x, D' x → x.1 < 65536) (h : ∀ x, D x → D' x) (q : Nat) :
    m.references D q ≤ m.references D' q :=
  references_le hfin fun x hx _ _ => h x hx

/-- A reference that has not been counted. -/
theorem references_lt (hfin : ∀ x, D' x → x.1 < 65536) (h : ∀ x, D x → D' x)
    (hi : IsPointer m p i) (hnew : ¬D (p, i)) (hD' : D' (p, i)) :
    m.references D (m.chunkWord p i) < m.references D' (m.chunkWord p i) := by
  have hone : m.references (fun x => D x ∨ x = (p, i)) (m.chunkWord p i) = _ :=
    references_insert (fun x hx => hfin x (h x hx)) (fun _ => Iff.rfl) hnew
  rw [if_pos ⟨hi, rfl⟩] at hone
  have hle := references_mono (m := m) hfin (D := fun x => D x ∨ x = (p, i))
    (fun x hx => hx.elim (h x) fun hx => hx ▸ hD') (m.chunkWord p i)
  omega

end ObjectMemory

end Crosstalk
