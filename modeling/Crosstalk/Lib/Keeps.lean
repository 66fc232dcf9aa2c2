import Crosstalk.Lib.Loop

/-!
# Properties that programs keep

`Keeps R x`: a run of `x` that starts in `R` and ends, ends in `R`. It goes
through sequence, choice and counted loops, so that a program keeps what each of
its steps keeps.
-/

namespace Crosstalk

variable {σ α β : Type} {R : σ → Prop}

/-- `x` keeps `R`, if it ends. -/
def Keeps (R : σ → Prop) (x : StateT σ Option α) : Prop :=
  ∀ s, R s → Wlp x (fun _ s' => R s') s

namespace Keeps

theorem pure (a : α) : Keeps R (Pure.pure a : StateT σ Option α) := fun s h => by
  rwa [wlp_pure]

theorem bind {x : StateT σ Option α} {f : α → StateT σ Option β} (hx : Keeps R x)
    (hf : ∀ a, Keeps R (f a)) : Keeps R (x >>= f) := fun s h => by
  rw [wlp_bind]
  exact (hx s h).mono fun a s' hs' => hf a s' hs'

theorem ite {c : Prop} [Decidable c] {x y : StateT σ Option α} (hx : Keeps R x)
    (hy : Keeps R y) : Keeps R (if c then x else y) := by
  split
  · exact hx
  · exact hy

theorem get : Keeps R (MonadState.get : StateT σ Option σ) := fun s h => by
  rwa [wlp_get]

theorem modify {f : σ → σ} (hf : ∀ s, R s → R (f s)) :
    Keeps R (modify f : StateT σ Option PUnit) := fun s h => by
  rw [wlp_modify]
  exact hf s h

theorem check (c : Prop) [Decidable c] : Keeps R (Crosstalk.check c : StateT σ Option Unit) :=
  fun s h => by
    rw [wlp_check]
    exact fun _ => h

theorem foldN {body : Nat → α → StateT σ Option (Option α)}
    (hbody : ∀ i a, Keeps R (body i a)) : ∀ (n : Nat) (a : α), Keeps R (Crosstalk.foldN n body a)
  | 0, a => Keeps.pure _
  | n + 1, a => by
      refine (foldN hbody n a).bind fun r => ?_
      cases r with
      | none => exact Keeps.pure _
      | some a' => exact hbody n a'

end Keeps

end Crosstalk
