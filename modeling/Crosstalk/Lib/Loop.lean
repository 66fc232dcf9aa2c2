import Crosstalk.Lib.StateOption

/-!
# Loops of state-passing programs

`iterate` is the unbounded loop, `forN` the counted one. Each comes with a rule
for total correctness (an invariant and, for `iterate`, a measure that
decreases) and one for partial correctness.
-/

namespace Crosstalk

variable {σ α β : Type}

/-- A loop is its body, which goes on from a new point or leaves with a result. -/
structure Rounds (σ α β : Type) where
  body : α → StateT σ Option (α ⊕ β)

/-- Repeat the body until it answers a result. A loop that never ends has no
outcome, like one that halts the machine. -/
def Rounds.iterate (rounds : Rounds σ α β) (a : α) (s : σ) : Option (β × σ) := do
  match ← rounds.body a s with
  | (.inl a', s') => rounds |>.iterate a' s'
  | (.inr b, s') => some (b, s')
partial_fixpoint

def iterate (body : α → StateT σ Option (α ⊕ β)) (a : α) (s : σ) : Option (β × σ) :=
  Rounds.iterate ⟨body⟩ a s

/-- The end of one round: go on in `Inv`, or leave in `Q`. -/
def LoopPost (Inv : α → σ → Prop) (Q : β → σ → Prop) : α ⊕ β → σ → Prop
  | .inl a, s => Inv a s
  | .inr b, s => Q b s

@[simp] theorem loopPost_inl (Inv : α → σ → Prop) (Q : β → σ → Prop) (a : α) (s : σ) :
    LoopPost Inv Q (.inl a) s ↔ Inv a s := Iff.rfl

@[simp] theorem loopPost_inr (Inv : α → σ → Prop) (Q : β → σ → Prop) (b : β) (s : σ) :
    LoopPost Inv Q (.inr b) s ↔ Q b s := Iff.rfl

/-- A round that goes on hands over to the loop from the new point. -/
theorem iterate_inl {body : α → StateT σ Option (α ⊕ β)} {a a' : α} {s s' : σ}
    (h : body a s = some (.inl a', s')) : iterate body a s = iterate body a' s' := by
  rw [iterate, Rounds.iterate]
  dsimp only
  rw [h]
  rfl

theorem iterate_inr {body : α → StateT σ Option (α ⊕ β)} {a : α} {b : β} {s s' : σ}
    (h : body a s = some (.inr b, s')) : iterate body a s = some (b, s') := by
  rw [iterate, Rounds.iterate]
  dsimp only
  rw [h]
  rfl

/-- A round that halts the machine halts the loop. -/
theorem iterate_none {body : α → StateT σ Option (α ⊕ β)} {a : α} {s : σ}
    (h : body a s = none) : iterate body a s = none := by
  rw [iterate, Rounds.iterate]
  dsimp only
  rw [h]
  rfl

/-- Total correctness: every round keeps `Inv` and lowers the measure. -/
theorem wp_iterate {body : α → StateT σ Option (α ⊕ β)} (Inv : α → σ → Prop)
    (μ : α → σ → Nat) {Q : β → σ → Prop}
    (hstep : ∀ a s, Inv a s →
      Wp (body a) (LoopPost (fun a' s' => Inv a' s' ∧ μ a' s' < μ a s) Q) s)
    {a : α} {s : σ} (h : Inv a s) : Wp (iterate body a) Q s := by
  induction hn : μ a s using Nat.strongRecOn generalizing a s with
  | _ n ih =>
      obtain ⟨r, s', hr, hpost⟩ := hstep a s h
      cases r with
      | inl a' =>
          obtain ⟨b, t, hb, hQ⟩ := ih (μ a' s') (hn ▸ hpost.2) hpost.1 rfl
          exact ⟨b, t, by rw [iterate_inl hr, hb], hQ⟩
      | inr b => exact ⟨b, s', iterate_inr hr, hpost⟩

/-- Total correctness with a ghost state `g` that the rounds follow. A round may
also be the last one that the invariant accounts for. -/
theorem wp_iterate_ghost {γ : Type} {body : α → StateT σ Option (α ⊕ β)}
    (Inv : γ → α → σ → Prop) (μ : γ → Nat) {Q : β → σ → Prop}
    (hstep : ∀ g a s, Inv g a s → Wp (iterate body a) Q s ∨
      Wp (body a) (LoopPost (fun a' s' => ∃ g', Inv g' a' s' ∧ μ g' < μ g) Q) s)
    {g : γ} {a : α} {s : σ} (h : Inv g a s) : Wp (iterate body a) Q s := by
  induction hn : μ g using Nat.strongRecOn generalizing g a s with
  | _ n ih =>
      rcases hstep g a s h with hdone | ⟨r, s', hr, hpost⟩
      · exact hdone
      · cases r with
        | inl a' =>
            obtain ⟨g', hInv, hlt⟩ := hpost
            obtain ⟨b, t, hb, hQ⟩ := ih (μ g') (hn ▸ hlt) hInv rfl
            exact ⟨b, t, by rw [iterate_inl hr, hb], hQ⟩
        | inr b => exact ⟨b, s', iterate_inr hr, hpost⟩

/-- A round that is known to go on in `Inv`. -/
theorem wp_iterate_of_round {body : α → StateT σ Option (α ⊕ β)} {Q : β → σ → Prop} {a : α}
    {s : σ} (h : Wp (body a) (LoopPost (fun a' s' => Wp (iterate body a') Q s') Q) s) :
    Wp (iterate body a) Q s := by
  obtain ⟨r, s', hr, hpost⟩ := h
  cases r with
  | inl a' =>
      obtain ⟨b, t, hb, hQ⟩ := hpost
      exact ⟨b, t, by rw [iterate_inl hr, hb], hQ⟩
  | inr b => exact ⟨b, s', iterate_inr hr, hpost⟩

/-- Partial correctness: every round that ends keeps `Inv`. -/
theorem wlp_iterate {body : α → StateT σ Option (α ⊕ β)} (Inv : α → σ → Prop)
    {Q : β → σ → Prop}
    (hstep : ∀ a s, Inv a s → Wlp (body a) (LoopPost Inv Q) s)
    {a : α} {s : σ} (h : Inv a s) : Wlp (iterate body a) Q s := by
  refine fun b t hb => Rounds.iterate.partial_correctness ⟨body⟩
    (fun a s r => Inv a s → Q r.1 r.2) ?_ a s (b, t) hb h
  intro go hgo a s r hr hInv
  simp only [Option.bind_eq_bind, Option.bind_eq_some_iff] at hr
  obtain ⟨⟨out, s'⟩, hbody, hr⟩ := hr
  have hpost := hstep a s hInv out s' hbody
  cases out with
  | inl a' => exact hgo a' s' r hr hpost
  | inr b' => cases hr; exact hpost

/-- `body 0`, `body 1`, ..., `body (n - 1)`, in this order. -/
def forN : Nat → (Nat → StateT σ Option Unit) → StateT σ Option Unit
  | 0, _ => pure ()
  | n + 1, body => do
      forN n body
      body n

theorem wp_forN {body : Nat → StateT σ Option Unit} (Inv : Nat → σ → Prop) :
    ∀ {n : Nat} {s : σ}, (∀ i s', i < n → Inv i s' → Wp (body i) (fun _ => Inv (i + 1)) s') →
      Inv 0 s → Wp (forN n body) (fun _ => Inv n) s
  | 0, s, _, h0 => by simpa [forN] using h0
  | n + 1, s, hstep, h0 => by
      rw [forN, wp_bind]
      refine (wp_forN Inv (fun i s' hi => hstep i s' (by omega)) h0).mono ?_
      exact fun _ s' hs' => hstep n s' (by omega) hs'

theorem wlp_forN {body : Nat → StateT σ Option Unit} (Inv : Nat → σ → Prop) :
    ∀ {n : Nat} {s : σ}, (∀ i s', i < n → Inv i s' → Wlp (body i) (fun _ => Inv (i + 1)) s') →
      Inv 0 s → Wlp (forN n body) (fun _ => Inv n) s
  | 0, s, _, h0 => by simpa [forN] using h0
  | n + 1, s, hstep, h0 => by
      rw [forN, wlp_bind]
      refine (wlp_forN Inv (fun i s' hi => hstep i s' (by omega)) h0).mono ?_
      exact fun _ s' hs' => hstep n s' (by omega) hs'

/-- Where the whole loop ends, each of its rounds does. -/
theorem wp_round_of_forN {body : Nat → StateT σ Option Unit} :
    ∀ {n : Nat} {Q : Unit → σ → Prop} {s : σ}, Wp (forN n body) Q s →
      ∀ i < n, ∃ s', Wp (body i) (fun _ _ => True) s'
  | 0, _, _, _, _, hi => absurd hi (Nat.not_lt_zero _)
  | n + 1, _, _, h, i, hi => by
      rw [forN, wp_bind] at h
      rcases Nat.lt_succ_iff_lt_or_eq.mp hi with hlt | rfl
      · exact wp_round_of_forN h i hlt
      · obtain ⟨_, s', -, hlast⟩ := h
        exact ⟨s', hlast.mono fun _ _ _ => trivial⟩

/-- The counted loop with loop variables `a`: `body 0`, ..., `body (n - 1)`, cut
short by the first round that answers `none`. -/
def foldN : Nat → (Nat → α → StateT σ Option (Option α)) → α → StateT σ Option (Option α)
  | 0, _, a => pure (some a)
  | n + 1, body, a => do
      match ← foldN n body a with
      | none => pure none
      | some a' => body n a'

/-- Every round keeps `Inv` and does not cut the loop short. -/
theorem wp_foldN {body : Nat → α → StateT σ Option (Option α)} (Inv : Nat → α → σ → Prop) :
    ∀ {n : Nat} {a : α} {s : σ},
      (∀ i a' s', i < n → Inv i a' s' →
        Wp (body i a') (fun r t => ∃ a'', r = some a'' ∧ Inv (i + 1) a'' t) s') →
      Inv 0 a s → Wp (foldN n body a) (fun r t => ∃ a', r = some a' ∧ Inv n a' t) s
  | 0, a, s, _, h0 => by simpa [foldN] using h0
  | n + 1, a, s, hstep, h0 => by
      rw [foldN, wp_bind]
      refine (wp_foldN Inv (fun i a' s' hi => hstep i a' s' (by omega)) h0).mono ?_
      rintro _ s' ⟨a', rfl, hInv⟩
      exact hstep n a' s' (by omega) hInv

/-- Every round that ends keeps `Inv` and does not cut the loop short. -/
theorem wlp_foldN {body : Nat → α → StateT σ Option (Option α)} (Inv : Nat → α → σ → Prop) :
    ∀ {n : Nat} {a : α} {s : σ},
      (∀ i a' s', i < n → Inv i a' s' →
        Wlp (body i a') (fun r t => ∃ a'', r = some a'' ∧ Inv (i + 1) a'' t) s') →
      Inv 0 a s → Wlp (foldN n body a) (fun r t => ∃ a', r = some a' ∧ Inv n a' t) s
  | 0, a, s, _, h0 => by simpa [foldN] using h0
  | n + 1, a, s, hstep, h0 => by
      rw [foldN, wlp_bind]
      refine (wlp_foldN Inv (fun i a' s' hi => hstep i a' s' (by omega)) h0).mono ?_
      rintro _ s' ⟨a', rfl, hInv⟩
      exact hstep n a' s' (by omega) hInv

end Crosstalk
