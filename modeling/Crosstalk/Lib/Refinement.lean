import Crosstalk.Lib.Loop

/-!
# Refinement of state-passing programs

A program on a large state refines one on a part of it, `view`, when from every
state in `P` both halt, or both end with the same result and the same view. The
rules follow the structure of programs; a postcondition `Q` on the large state
hands over from one step to the next.
-/

namespace Crosstalk

variable {σ τ α β : Type} {view : σ → τ}

/-- `x` refines `y` from the states in `P`, and ends in `Q`. -/
def Refines (view : σ → τ) (P : σ → Prop) (x : StateT σ Option α) (y : StateT τ Option α)
    (Q : α → σ → Prop) : Prop :=
  ∀ s, P s → (y (view s) = none ∧ x s = none) ∨
    ∃ a s', x s = some (a, s') ∧ y (view s) = some (a, view s') ∧ Q a s'

namespace Refines

variable {P P' : σ → Prop} {x : StateT σ Option α} {y : StateT τ Option α}
  {Q Q' : α → σ → Prop}

/-- The outcomes agree. -/
theorem map_eq (h : Refines view P x y Q) {s : σ} (hs : P s) :
    (x s).map (fun r => (r.1, view r.2)) = y (view s) := by
  rcases h s hs with ⟨hy, hx⟩ | ⟨a, s', hx, hy, -⟩
  · rw [hx, hy]
    rfl
  · rw [hx, hy]
    rfl

theorem mono (h : Refines view P x y Q) (hP : ∀ s, P' s → P s)
    (hQ : ∀ a s, Q a s → Q' a s) : Refines view P' x y Q' := by
  intro s hs
  rcases h s (hP s hs) with h' | ⟨a, s', hx, hy, hq⟩
  · exact .inl h'
  · exact .inr ⟨a, s', hx, hy, hQ a s' hq⟩

protected theorem pure {a : α} (h : ∀ s, P s → Q a s) :
    Refines view P (pure a) (pure a) Q := fun s hs => .inr ⟨a, s, rfl, rfl, h s hs⟩

protected theorem bind {f : α → StateT σ Option β} {g : α → StateT τ Option β}
    {R : β → σ → Prop} (h : Refines view P x y Q)
    (hf : ∀ a, Refines view (Q a) (f a) (g a) R) :
    Refines view P (x >>= f) (y >>= g) R := by
  intro s hs
  simp only [bind, StateT.bind]
  rcases h s hs with ⟨hy, hx⟩ | ⟨a, s', hx, hy, hq⟩
  · exact .inl ⟨by rw [hy]; rfl, by rw [hx]; rfl⟩
  · rw [hx, hy]
    exact hf a s' hq

/-- A step that the abstract program does not have. -/
theorem bind_left {f : α → StateT σ Option β} {y : StateT τ Option β} {R : β → σ → Prop}
    (h : ∀ s, P s → Wp x (fun a s' => view s' = view s ∧ Q a s') s)
    (hf : ∀ a, Refines view (Q a) (f a) y R) : Refines view P (x >>= f) y R := by
  intro s hs
  obtain ⟨a, s', hx, hview, hq⟩ := h s hs
  simp only [bind, StateT.bind, hx]
  rw [← hview]
  exact hf a s' hq

/-- What the precondition says beyond the state. -/
theorem of_fact {c : Prop} (hc : ∀ s, P s → c) (h : c → Refines view P x y Q) :
    Refines view P x y Q := fun s hs => h (hc s hs) s hs

/-- The abstract program's postcondition holds of the view. -/
theorem and_wlp (h : Refines view P x y Q) {R : α → τ → Prop}
    (hR : ∀ s, P s → Wlp y R (view s)) :
    Refines view P x y fun a s => Q a s ∧ R a (view s) := by
  intro s hs
  rcases h s hs with h' | ⟨a, s', hx, hy, hq⟩
  · exact .inl h'
  · exact .inr ⟨a, s', hx, hy, hq, hR s hs a _ hy⟩

theorem ite {c : Prop} [Decidable c] {x' : StateT σ Option α} {y' : StateT τ Option α}
    (hx : c → Refines view P x y Q) (hx' : ¬c → Refines view P x' y' Q) :
    Refines view P (if c then x else x') (if c then y else y') Q := by
  by_cases hc : c
  · rw [if_pos hc, if_pos hc]
    exact hx hc
  · rw [if_neg hc, if_neg hc]
    exact hx' hc

theorem check {c : Prop} [Decidable c] {Q : Unit → σ → Prop} (h : ∀ s, P s → c → Q () s) :
    Refines view P (check c) (check c) Q := by
  intro s hs
  by_cases hc : c
  · exact .inr ⟨(), s, by simp only [Crosstalk.check, hc, if_true],
      by simp only [Crosstalk.check, hc, if_true], h s hs hc⟩
  · exact .inl ⟨by simp only [Crosstalk.check, hc, if_false],
      by simp only [Crosstalk.check, hc, if_false]⟩

theorem forN {f : Nat → StateT σ Option Unit} {g : Nat → StateT τ Option Unit}
    (Inv : Nat → σ → Prop) :
    ∀ {n : Nat}, (∀ i < n, Refines view (Inv i) (f i) (g i) fun _ => Inv (i + 1)) →
      Refines view (Inv 0) (forN n f) (forN n g) fun _ => Inv n
  | 0, _ => .pure fun _ h => h
  | n + 1, h =>
      (forN Inv fun i hi => h i (Nat.lt_succ_of_lt hi)).bind fun _ => h n (Nat.lt_succ_self n)

theorem foldN {γ : Type} {f : Nat → γ → StateT σ Option (Option γ)}
    {g : Nat → γ → StateT τ Option (Option γ)} (Inv : Nat → γ → σ → Prop) :
    ∀ {n : Nat} {c : γ}, (∀ i < n, ∀ c, Refines view (Inv i c) (f i c) (g i c)
        fun r s => ∀ c', r = some c' → Inv (i + 1) c' s) →
      Refines view (Inv 0 c) (foldN n f c) (foldN n g c)
        fun r s => ∀ c', r = some c' → Inv n c' s
  | 0, c, _ => .pure fun _ h c' hc => Option.some.inj hc ▸ h
  | n + 1, c, h => by
      rw [Crosstalk.foldN, Crosstalk.foldN]
      refine (foldN Inv fun i hi => h i (Nat.lt_succ_of_lt hi)).bind fun r => ?_
      cases r with
      | none => exact .pure fun _ _ c' hc => by cases hc
      | some c' =>
          exact (h n (Nat.lt_succ_self n) c').mono (fun s hs => hs c' rfl) fun _ _ hq => hq

/-- A loop that could be cut short, and is not. -/
theorem foldN_forN {f : Nat → Unit → StateT σ Option (Option Unit)}
    {g : Nat → StateT τ Option Unit} (Inv : Nat → σ → Prop) :
    ∀ {n : Nat}, (∀ i < n, Refines view (Inv i) (f i ())
        (g i >>= fun _ => pure (some ())) fun r s => r = some () ∧ Inv (i + 1) s) →
      Refines view (Inv 0) (Crosstalk.foldN n f ())
        (Crosstalk.forN n g >>= fun _ => pure (some ())) fun r s => r = some () ∧ Inv n s
  | 0, _ => fun s hs => .inr ⟨some (), s, rfl, rfl, rfl, hs⟩
  | n + 1, h => by
      have ih := foldN_forN Inv fun i hi => h i (Nat.lt_succ_of_lt hi)
      rw [Crosstalk.foldN, Crosstalk.forN, bind_assoc]
      intro s hs
      rcases ih s hs with ⟨hy, hx⟩ | ⟨a, s', hx, hy, ha, hInv⟩
      · refine .inl ⟨?_, by simp only [Bind.bind, StateT.bind, hx]; rfl⟩
        cases hloop : Crosstalk.forN n g (view s) with
        | none => simp only [Bind.bind, StateT.bind, hloop]; rfl
        | some r =>
            simp only [Bind.bind, StateT.bind, hloop, Option.bind_some] at hy
            cases hy
      · subst ha
        cases hloop : Crosstalk.forN n g (view s) with
        | none =>
            simp only [Bind.bind, StateT.bind, hloop, Option.bind_none] at hy
            cases hy
        | some r =>
            obtain ⟨⟨⟩, t⟩ := r
            simp only [Bind.bind, StateT.bind, hloop, Option.bind_some] at hy
            obtain rfl : t = view s' := by cases hy; rfl
            have hlast := h n (Nat.lt_succ_self n) s' hInv
            simp only [Bind.bind, StateT.bind, hx, hloop, Option.bind_some] at hlast ⊢
            exact hlast

end Refines

end Crosstalk
