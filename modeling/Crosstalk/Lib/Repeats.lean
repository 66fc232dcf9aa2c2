import Crosstalk.Lib.Loop

/-!
# Programs that read the same

`Repeats s t P x`: every run of `x` from `s` that ends with a result in `P` only
reads, and goes the same way from `t`. With `t = s` it says that `x` only reads.
-/

namespace Crosstalk

variable {σ α β : Type} {s t : σ}

def Repeats (s t : σ) (P : α → Prop) (x : StateT σ Option α) : Prop :=
  ∀ a s', x s = some (a, s') → P a → s' = s ∧ x t = some (a, t)

namespace Repeats

variable {P Q : α → Prop} {x : StateT σ Option α}

protected theorem pure (a : α) : Repeats s t P (pure a) := by
  rintro b s' hx -
  cases hx
  exact ⟨rfl, rfl⟩

/-- Nothing is asked where the result is not in `P`. -/
theorem of_wlp (h : Wlp x (fun a _ => ¬P a) s) : Repeats s t P x :=
  fun a s' hx hP => absurd hP (h a s' hx)

/-- The first part has to read the same whatever it answers. -/
theorem bind {R : β → Prop} {f : α → StateT σ Option β} (hx : Repeats s t (fun _ => True) x)
    (hf : ∀ a, x s = some (a, s) → Repeats s t R (f a)) : Repeats s t R (x >>= f) := by
  intro b s' hrun hR
  simp only [Bind.bind, StateT.bind] at hrun ⊢
  cases hxs : x s with
  | none => simp [hxs] at hrun
  | some r =>
      obtain ⟨a, s₁⟩ := r
      obtain ⟨rfl, hxt⟩ := hx a s₁ hxs trivial
      rw [hxs] at hrun
      obtain ⟨rfl, hft⟩ := hf a hxs b s' hrun hR
      rw [hxt]
      exact ⟨rfl, hft⟩

/-- Where the first part answers something else, the whole does not answer in `R`. -/
theorem bind_of {R : β → Prop} {f : α → StateT σ Option β} (hx : Repeats s t P x)
    (hf : ∀ a, P a → Repeats s t R (f a)) (hn : ∀ a s₁, ¬P a → Wlp (f a) (fun b _ => ¬R b) s₁) :
    Repeats s t R (x >>= f) := by
  intro b s' hrun hR
  simp only [Bind.bind, StateT.bind] at hrun ⊢
  cases hxs : x s with
  | none => simp [hxs] at hrun
  | some r =>
      obtain ⟨a, s₁⟩ := r
      rw [hxs] at hrun
      by_cases ha : P a
      · obtain ⟨rfl, hxt⟩ := hx a s₁ hxs ha
        obtain ⟨rfl, hft⟩ := hf a ha b s' hrun hR
        rw [hxt]
        exact ⟨rfl, hft⟩
      · exact absurd hR (hn a s₁ ha b s' hrun)

/-- A loop with variables in `Inv`. The rounds have to read the same until one
answers a result that is not in `P`. -/
theorem iterate {body : β → StateT σ Option (β ⊕ α)} (Inv : β → Prop)
    (hstep : ∀ b, Inv b → Repeats s t (fun r => ∀ a, r = .inr a → P a) (body b) ∧
      Wlp (body b) (fun r _ => ∀ b', r = .inl b' → Inv b') s)
    {b : β} (h : Inv b) : Repeats s t P (iterate body b) := by
  intro a s' hrun hP
  have hloop : Wlp (Crosstalk.iterate body b) (fun a s' => P a →
      s' = s ∧ Crosstalk.iterate body b t = some (a, t)) s := by
    refine wlp_iterate (fun b' s' => s' = s ∧ Inv b' ∧
      Crosstalk.iterate body b t = Crosstalk.iterate body b' t) ?_ ⟨rfl, h, rfl⟩
    rintro b' s₁ ⟨rfl, hb', hsame⟩ r s₂ hbody
    obtain ⟨hrep, hinv⟩ := hstep b' hb'
    cases r with
    | inl b'' =>
        obtain ⟨rfl, ht⟩ := hrep _ s₂ hbody (fun a ha => by cases ha)
        exact ⟨rfl, hinv _ _ hbody b'' rfl, hsame.trans (iterate_inl ht)⟩
    | inr a =>
        intro hPa
        obtain ⟨rfl, ht⟩ := hrep _ s₂ hbody (fun a' ha => by cases ha; exact hPa)
        exact ⟨rfl, hsame.trans (iterate_inr ht)⟩
  exact hloop a s' hrun hP

end Repeats

end Crosstalk
