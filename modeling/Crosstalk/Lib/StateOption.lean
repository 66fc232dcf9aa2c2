/-!
# Correctness of state-passing programs that may halt

Programs are `StateT σ Option α`: a run either halts the machine (`none`) or
ends with a result and a state. `Wp x Q s` is total correctness (the run from
`s` ends, and in `Q`), `Wlp x Q s` is partial correctness (if it ends, it ends
in `Q`). The rules below are equivalences, so that `simp` walks through
straight-line code; loops have their own rules in `Loop`.
-/

namespace Crosstalk

variable {σ α β : Type}

/-- Halt the machine unless `c` holds. -/
def check (c : Prop) [Decidable c] : StateT σ Option Unit :=
  fun s => if c then some ((), s) else none

/-- The run of `x` from `s` ends, with a result and a state in `Q`. -/
def Wp (x : StateT σ Option α) (Q : α → σ → Prop) (s : σ) : Prop :=
  ∃ a s', x s = some (a, s') ∧ Q a s'

/-- If the run of `x` from `s` ends, its result and state are in `Q`. -/
def Wlp (x : StateT σ Option α) (Q : α → σ → Prop) (s : σ) : Prop :=
  ∀ a s', x s = some (a, s') → Q a s'

/-! ## Consequence -/

theorem Wp.mono {x : StateT σ Option α} {Q R : α → σ → Prop} {s : σ}
    (h : Wp x Q s) (hQR : ∀ a s', Q a s' → R a s') : Wp x R s := by
  obtain ⟨a, s', hx, hQ⟩ := h
  exact ⟨a, s', hx, hQR a s' hQ⟩

theorem Wlp.mono {x : StateT σ Option α} {Q R : α → σ → Prop} {s : σ}
    (h : Wlp x Q s) (hQR : ∀ a s', Q a s' → R a s') : Wlp x R s :=
  fun a s' hx => hQR a s' (h a s' hx)

/-- A run is deterministic, so total correctness gives partial correctness. -/
theorem Wp.toWlp {x : StateT σ Option α} {Q : α → σ → Prop} {s : σ}
    (h : Wp x Q s) : Wlp x Q s := by
  obtain ⟨a, s', hx, hQ⟩ := h
  intro b t hb
  rw [hx] at hb
  cases hb
  exact hQ

theorem Wlp.and {x : StateT σ Option α} {Q R : α → σ → Prop} {s : σ}
    (hQ : Wlp x Q s) (hR : Wlp x R s) : Wlp x (fun a s' => Q a s' ∧ R a s') s :=
  fun a s' hx => ⟨hQ a s' hx, hR a s' hx⟩

theorem Wp.and_wlp {x : StateT σ Option α} {Q R : α → σ → Prop} {s : σ}
    (hQ : Wp x Q s) (hR : Wlp x R s) : Wp x (fun a s' => Q a s' ∧ R a s') s := by
  obtain ⟨a, s', hx, hq⟩ := hQ
  exact ⟨a, s', hx, hq, hR a s' hx⟩

/-- A run that is known is its own specification. -/
theorem wp_of_run {x : StateT σ Option α} {Q : α → σ → Prop} {a : α} {s t : σ}
    (h : x s = some (a, t)) : Wp x Q s ↔ Q a t := by
  constructor
  · rintro ⟨_, _, hx, hQ⟩
    rw [h] at hx
    cases hx
    exact hQ
  · exact fun hQ => ⟨a, t, h, hQ⟩

theorem Wp.run_eq {x : StateT σ Option α} {a : α} {s t : σ}
    (h : Wp x (fun a' t' => a' = a ∧ t' = t) s) : x s = some (a, t) := by
  obtain ⟨_, _, hx, rfl, rfl⟩ := h
  exact hx

theorem bind_of_run {x : StateT σ Option α} {f : α → StateT σ Option β} {a : α} {s t : σ}
    (h : x s = some (a, t)) : (x >>= f) s = f a t := by
  show (x s >>= fun r => f r.1 r.2) = f a t
  rw [h]
  rfl

/-! ## Total correctness of straight-line code -/

@[simp] theorem wp_pure (a : α) (Q : α → σ → Prop) (s : σ) :
    Wp (pure a) Q s ↔ Q a s :=
  ⟨by rintro ⟨_, _, ⟨⟩, h⟩; exact h, fun h => ⟨a, s, rfl, h⟩⟩

@[simp] theorem wp_bind (x : StateT σ Option α) (f : α → StateT σ Option β)
    (Q : β → σ → Prop) (s : σ) :
    Wp (x >>= f) Q s ↔ Wp x (fun a s' => Wp (f a) Q s') s := by
  simp only [Wp, bind, StateT.bind]
  constructor
  · rintro ⟨b, t, hx, hQ⟩
    cases hxs : x s with
    | none => simp [hxs] at hx
    | some r =>
        obtain ⟨a, s'⟩ := r
        refine ⟨a, s', rfl, b, t, ?_, hQ⟩
        simpa [hxs] using hx
  · rintro ⟨a, s', hxs, b, t, hf, hQ⟩
    exact ⟨b, t, by simpa [hxs] using hf, hQ⟩

@[simp] theorem wp_map (x : StateT σ Option α) (f : α → β) (Q : β → σ → Prop) (s : σ) :
    Wp (f <$> x) Q s ↔ Wp x (fun a s' => Q (f a) s') s := by
  rw [map_eq_pure_bind, wp_bind]
  simp

@[simp] theorem wp_get (Q : σ → σ → Prop) (s : σ) :
    Wp (get : StateT σ Option σ) Q s ↔ Q s s :=
  ⟨by rintro ⟨_, _, ⟨⟩, h⟩; exact h, fun h => ⟨s, s, rfl, h⟩⟩

@[simp] theorem wp_set (t : σ) (Q : PUnit → σ → Prop) (s : σ) :
    Wp (set t : StateT σ Option PUnit) Q s ↔ Q ⟨⟩ t :=
  ⟨by rintro ⟨_, _, ⟨⟩, h⟩; exact h, fun h => ⟨⟨⟩, t, rfl, h⟩⟩

@[simp] theorem wp_modify (f : σ → σ) (Q : PUnit → σ → Prop) (s : σ) :
    Wp (modify f : StateT σ Option PUnit) Q s ↔ Q ⟨⟩ (f s) :=
  ⟨by rintro ⟨_, _, ⟨⟩, h⟩; exact h, fun h => ⟨⟨⟩, f s, rfl, h⟩⟩

@[simp] theorem wp_check (c : Prop) [Decidable c] (Q : Unit → σ → Prop) (s : σ) :
    Wp (check c) Q s ↔ c ∧ Q () s := by
  by_cases h : c
  · simp only [Wp, check, h, if_true, true_and]
    exact ⟨by rintro ⟨_, _, ⟨⟩, h⟩; exact h, fun h => ⟨(), s, rfl, h⟩⟩
  · simp [Wp, check, h]

@[simp] theorem wp_ite (c : Prop) [Decidable c] (x y : StateT σ Option α)
    (Q : α → σ → Prop) (s : σ) :
    Wp (if c then x else y) Q s ↔ (c → Wp x Q s) ∧ (¬c → Wp y Q s) := by
  by_cases h : c <;> simp [h]

/-! ## Partial correctness of straight-line code -/

@[simp] theorem wlp_pure (a : α) (Q : α → σ → Prop) (s : σ) :
    Wlp (pure a) Q s ↔ Q a s :=
  ⟨fun h => h a s rfl, by rintro h _ _ ⟨⟩; exact h⟩

@[simp] theorem wlp_bind (x : StateT σ Option α) (f : α → StateT σ Option β)
    (Q : β → σ → Prop) (s : σ) :
    Wlp (x >>= f) Q s ↔ Wlp x (fun a s' => Wlp (f a) Q s') s := by
  simp only [Wlp, bind, StateT.bind]
  constructor
  · intro h a s' hxs b t hf
    exact h b t (by simpa [hxs] using hf)
  · intro h b t hx
    cases hxs : x s with
    | none => simp [hxs] at hx
    | some r =>
        obtain ⟨a, s'⟩ := r
        exact h a s' hxs b t (by simpa [hxs] using hx)

@[simp] theorem wlp_map (x : StateT σ Option α) (f : α → β) (Q : β → σ → Prop) (s : σ) :
    Wlp (f <$> x) Q s ↔ Wlp x (fun a s' => Q (f a) s') s := by
  rw [map_eq_pure_bind, wlp_bind]
  simp

@[simp] theorem wlp_get (Q : σ → σ → Prop) (s : σ) :
    Wlp (get : StateT σ Option σ) Q s ↔ Q s s :=
  ⟨fun h => h s s rfl, by rintro h _ _ ⟨⟩; exact h⟩

@[simp] theorem wlp_set (t : σ) (Q : PUnit → σ → Prop) (s : σ) :
    Wlp (set t : StateT σ Option PUnit) Q s ↔ Q ⟨⟩ t :=
  ⟨fun h => h ⟨⟩ t rfl, by rintro h _ _ ⟨⟩; exact h⟩

@[simp] theorem wlp_modify (f : σ → σ) (Q : PUnit → σ → Prop) (s : σ) :
    Wlp (modify f : StateT σ Option PUnit) Q s ↔ Q ⟨⟩ (f s) :=
  ⟨fun h => h ⟨⟩ (f s) rfl, by rintro h _ _ ⟨⟩; exact h⟩

@[simp] theorem wlp_check (c : Prop) [Decidable c] (Q : Unit → σ → Prop) (s : σ) :
    Wlp (check c) Q s ↔ (c → Q () s) := by
  by_cases h : c
  · simp only [Wlp, check, h, if_true, forall_const]
    exact ⟨fun h => h () s rfl, by rintro h _ _ ⟨⟩; exact h⟩
  · simp [Wlp, check, h]

@[simp] theorem wlp_ite (c : Prop) [Decidable c] (x y : StateT σ Option α)
    (Q : α → σ → Prop) (s : σ) :
    Wlp (if c then x else y) Q s ↔ (c → Wlp x Q s) ∧ (¬c → Wlp y Q s) := by
  by_cases h : c <;> simp [h]

end Crosstalk
