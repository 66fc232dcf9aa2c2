/-!
# Linked lists

A list whose cells are linked through a function: `Linked next stop head l`
says that following `next` from `head` passes the cells of `l` in order and
ends at `stop`. A cell determines all that follows it, so that a list that ends
has no cell twice.
-/

namespace Crosstalk

variable {α : Type}

/-- From `head` the links lead through `l` to `stop`. -/
def Linked (next : α → α) (stop : α) : α → List α → Prop
  | head, [] => head = stop
  | head, a :: l => head = a ∧ a ≠ stop ∧ Linked next stop (next a) l

namespace Linked

variable {next next' : α → α} {stop head a b : α} {l l' : List α}

@[simp] theorem nil_iff : Linked next stop head [] ↔ head = stop := Iff.rfl

@[simp] theorem cons_iff : Linked next stop head (a :: l) ↔
    head = a ∧ a ≠ stop ∧ Linked next stop (next a) l := Iff.rfl

/-- Only the links of the cells matter. -/
theorem congr (h : Linked next stop head l) (hnext : ∀ a ∈ l, next' a = next a) :
    Linked next' stop head l := by
  induction l generalizing head with
  | nil => exact h
  | cons a l ih =>
      obtain ⟨h1, h2, h3⟩ := h
      refine ⟨h1, h2, ?_⟩
      rw [hnext a List.mem_cons_self]
      exact ih h3 fun b hb => hnext b (List.mem_cons_of_mem _ hb)

/-- The head determines the list. -/
theorem unique (h : Linked next stop head l) (h' : Linked next stop head l') : l = l' := by
  induction l generalizing head l' with
  | nil =>
      cases l' with
      | nil => rfl
      | cons b l' => exact absurd (h'.1.symm.trans h) h'.2.1
  | cons a l ih =>
      cases l' with
      | nil => exact absurd (h.1.symm.trans h') h.2.1
      | cons b l' =>
          obtain rfl : a = b := h.1.symm.trans h'.1
          rw [ih h.2.2 h'.2.2]

/-- From each cell the links lead through the rest of the list. -/
theorem drop (h : Linked next stop head (l ++ a :: l')) :
    Linked next stop a (a :: l') := by
  induction l generalizing head with
  | nil => exact ⟨rfl, h.2⟩
  | cons b l ih => exact ih h.2.2

theorem nodup (h : Linked next stop head l) : l.Nodup := by
  induction l generalizing head with
  | nil => exact List.nodup_nil
  | cons a l ih =>
      refine List.nodup_cons.mpr ⟨fun hmem => ?_, ih h.2.2⟩
      obtain ⟨l₁, l₂, rfl⟩ := List.append_of_mem hmem
      -- the list from the first cell would be as long as the one from its second occurrence
      have h1 : Linked next stop a (a :: (l₁ ++ a :: l₂)) := ⟨rfl, h.2⟩
      have h2 : Linked next stop a (a :: l₂) := h.2.2.drop
      have hlen := congrArg List.length (h1.unique h2)
      simp only [List.length_cons, List.length_append] at hlen
      omega

theorem head_eq_stop (h : Linked next stop head l) : head = stop ↔ l = [] := by
  cases l with
  | nil => simpa using h
  | cons a l =>
      obtain ⟨h1, h2, -⟩ := h
      exact ⟨fun hs => absurd (h1.symm.trans hs) h2, by rintro ⟨⟩⟩

/-- Cells that lie at equal distances, each linked to the one after it. -/
theorem run {next : Nat → Nat} {stop p d : Nat} {l : List Nat} : ∀ {n : Nat},
    (∀ i < n, next (p + d * i) = p + d * (i + 1) ∧ p + d * i ≠ stop) →
    Linked next stop (p + d * n) l → Linked next stop p (List.range' p n d ++ l)
  | 0, _, h => h
  | n + 1, hnext, h => by
      obtain ⟨hlink, hstop⟩ := hnext n (Nat.lt_succ_self n)
      rw [List.range'_concat, List.append_assoc]
      refine run (fun i hi => hnext i (Nat.lt_succ_of_lt hi)) ⟨rfl, hstop, ?_⟩
      rw [hlink]
      exact h

/-- Taking out the cell after `b`: its link goes to `b`. -/
theorem unlink {x : α} (h : Linked next stop head (l ++ b :: x :: l'))
    (hb : next' b = next x) (hnext : ∀ a ∈ l ++ b :: x :: l', a ≠ b → next' a = next a) :
    Linked next' stop head (l ++ b :: l') := by
  induction l generalizing head with
  | nil =>
      have hnodup : (b :: x :: l').Nodup := h.nodup
      obtain ⟨h1, h2, -, -, h5⟩ := h
      refine ⟨h1, h2, ?_⟩
      rw [hb]
      refine h5.congr fun a ha => hnext a ?_ ?_
      · simp [ha]
      · rintro rfl
        simp [ha] at hnodup
  | cons c l ih =>
      have hnodup : (c :: (l ++ b :: x :: l')).Nodup := h.nodup
      obtain ⟨h1, h2, h3⟩ := h
      have hcb : c ≠ b := by
        rintro rfl
        simp at hnodup
      refine ⟨h1, h2, ?_⟩
      rw [hnext c List.mem_cons_self hcb]
      exact ih h3 fun a ha => hnext a (List.mem_cons_of_mem _ ha)

/-- A new last cell. -/
theorem concat {x : α} (h : Linked next stop head (l ++ [b])) (hb : next' b = x) (hx : x ≠ stop)
    (hstop : next' x = stop) (hnext : ∀ a ∈ l, next' a = next a) :
    Linked next' stop head (l ++ [b] ++ [x]) := by
  induction l generalizing head with
  | nil =>
      obtain ⟨h1, h2, -⟩ := h
      refine ⟨h1, h2, ?_⟩
      rw [hb]
      exact ⟨rfl, hx, hstop⟩
  | cons a l ih =>
      obtain ⟨h1, h2, h3⟩ := h
      refine ⟨h1, h2, ?_⟩
      rw [hnext a List.mem_cons_self]
      exact ih h3 fun c hc => hnext c (List.mem_cons_of_mem _ hc)

end Linked

end Crosstalk
