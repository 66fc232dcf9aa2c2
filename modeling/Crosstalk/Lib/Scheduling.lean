import Mathlib.Logic.Function.Basic
import Mathlib.Data.List.Nodup

/-!
# Priority scheduling

One process runs. The others that could run wait in a queue for each priority, and
those that wait for a signal in the queue of a semaphore, which counts the
signals that nobody has waited for. A process that gets ready runs at once when it
has the higher priority.
-/

namespace Crosstalk

namespace Scheduling

/-- Who runs, who waits where, and the signals that are left. -/
structure State (P Q : Type) where
  active : P
  queue : Q → List P
  excess : Q → Int

/-- What does not change: the priorities, from 1 to `levels`, the queues of the
processes that are ready, and how many signals a semaphore can count. -/
structure Policy (P Q : Type) where
  priority : P → Nat
  ready : Nat → Q
  levels : Nat
  limit : Int

variable {P Q : Type} [DecidableEq Q]

def State.setQueue (s : State P Q) (l : Q) (ps : List P) : State P Q :=
  { s with queue := Function.update s.queue l ps }

def State.setExcess (s : State P Q) (l : Q) (n : Int) : State P Q :=
  { s with excess := Function.update s.excess l n }

def State.append (s : State P Q) (l : Q) (p : P) : State P Q := s.setQueue l (s.queue l ++ [p])

def sleep (π : Policy P Q) (p : P) (s : State P Q) : State P Q :=
  s.append (π.ready (π.priority p)) p

def resume (π : Policy P Q) (p : P) (s : State P Q) : State P Q :=
  if π.priority s.active < π.priority p then { sleep π s.active s with active := p }
  else sleep π p s

def signal (π : Policy P Q) (l : Q) (s : State P Q) : State P Q :=
  match s.queue l with
  | [] => if s.excess l < π.limit then s.setExcess l (s.excess l + 1) else s
  | p :: ps => resume π p (s.setQueue l ps)

/-- The first process of the highest priority up to `k` that has one runs. -/
def wake (π : Policy P Q) : Nat → State P Q → Option (State P Q)
  | 0, _ => none
  | k + 1, s =>
    match s.queue (π.ready (k + 1)) with
    | [] => wake π k s
    | p :: ps => some { s.setQueue (π.ready (k + 1)) ps with active := p }

def suspend (π : Policy P Q) (s : State P Q) : Option (State P Q) := wake π π.levels s

def wait (π : Policy P Q) (l : Q) (s : State P Q) : Option (State P Q) :=
  if 0 < s.excess l then some (s.setExcess l (s.excess l - 1))
  else suspend π (s.append l s.active)

inductive Action (P Q : Type)
  | signal (l : Q)
  | wait (l : Q)
  | resume (p : P)
  | suspend

def Action.run (π : Policy P Q) : Action P Q → State P Q → Option (State P Q)
  | .signal l, s => some (Scheduling.signal π l s)
  | .wait l, s => Scheduling.wait π l s
  | .resume p, s => some (Scheduling.resume π p s)
  | .suspend, s => Scheduling.suspend π s

/-- A process that the scheduler knows: it runs or it waits. -/
def State.Known (s : State P Q) (p : P) : Prop := p = s.active ∨ ∃ l, p ∈ s.queue l

/-! ## What holds of the queues -/

/-- The queues of the ready processes are different ones, and no semaphores. -/
structure Policy.Sound (π : Policy P Q) (semaphore : Q → Prop) : Prop where
  inj : ∀ j k, 1 ≤ j → j ≤ π.levels → 1 ≤ k → k ≤ π.levels → π.ready j = π.ready k → j = k
  ready : ∀ k, 1 ≤ k → k ≤ π.levels → ¬semaphore (π.ready k)

/-- No process is in two places, no ready process has a higher priority than the one that
runs, and nobody waits for a signal that is left. -/
structure State.Orderly (π : Policy P Q) (semaphore : Q → Prop) (s : State P Q) : Prop where
  nodup : ∀ l, (s.queue l).Nodup
  apart : ∀ l l' p, p ∈ s.queue l → p ∈ s.queue l' → l = l'
  active : ∀ l, s.active ∉ s.queue l
  level : ∀ p, s.Known p → 1 ≤ π.priority p ∧ π.priority p ≤ π.levels
  place : ∀ l p, p ∈ s.queue l → ¬semaphore l → l = π.ready (π.priority p)
  highest : ∀ l p, p ∈ s.queue l → ¬semaphore l → π.priority p ≤ π.priority s.active
  excess : ∀ l, semaphore l → 0 ≤ s.excess l ∧ (s.queue l ≠ [] → s.excess l = 0)

/-- As before a process is chosen to run: the one that ran is elsewhere. -/
structure State.Pending (π : Policy P Q) (semaphore : Q → Prop) (s : State P Q) : Prop where
  nodup : ∀ l, (s.queue l).Nodup
  apart : ∀ l l' p, p ∈ s.queue l → p ∈ s.queue l' → l = l'
  level : ∀ l p, p ∈ s.queue l → 1 ≤ π.priority p ∧ π.priority p ≤ π.levels
  place : ∀ l p, p ∈ s.queue l → ¬semaphore l → l = π.ready (π.priority p)
  excess : ∀ l, semaphore l → 0 ≤ s.excess l ∧ (s.queue l ≠ [] → s.excess l = 0)

section Queues

variable {s : State P Q} {l l' : Q} {p q : P} {ps : List P}

@[simp] theorem queue_setQueue : (s.setQueue l ps).queue = Function.update s.queue l ps := rfl

@[simp] theorem excess_setQueue : (s.setQueue l ps).excess = s.excess := rfl

@[simp] theorem active_setQueue : (s.setQueue l ps).active = s.active := rfl

@[simp] theorem queue_setExcess {n : Int} : (s.setExcess l n).queue = s.queue := rfl

@[simp] theorem active_setExcess {n : Int} : (s.setExcess l n).active = s.active := rfl

@[simp] theorem excess_append : (s.append l p).excess = s.excess := rfl

@[simp] theorem active_append : (s.append l p).active = s.active := rfl

theorem mem_append : q ∈ (s.append l p).queue l' ↔ q ∈ s.queue l' ∨ l' = l ∧ q = p := by
  rw [State.append, queue_setQueue]
  by_cases h : l' = l
  · subst h
    rw [Function.update_self, List.mem_append, List.mem_singleton, and_iff_right rfl]
  · rw [Function.update_of_ne h]
    simp [h]

theorem mem_tail (hq : s.queue l = p :: ps) (hnodup : (s.queue l).Nodup) :
    q ∈ (s.setQueue l ps).queue l' ↔ q ∈ s.queue l' ∧ ¬(l' = l ∧ q = p) := by
  rw [queue_setQueue]
  by_cases h : l' = l
  · subst h
    rw [hq, List.nodup_cons] at hnodup
    rw [Function.update_self, hq, List.mem_cons, and_iff_right rfl]
    constructor
    · rintro hmem
      exact ⟨.inr hmem, by rintro rfl; exact hnodup.1 hmem⟩
    · rintro ⟨hmem, hne⟩
      exact hmem.resolve_left hne
  · rw [Function.update_of_ne h]
    simp [h]

end Queues

/-! ## One action -/

section Actions

variable {π : Policy P Q} {semaphore : Q → Prop} {s t : State P Q} {l : Q} {p q : P} {ps : List P}
  {k : Nat}

theorem nodup_tail (hq : s.queue l = p :: ps) (h : (s.queue l').Nodup) :
    ((s.setQueue l ps).queue l').Nodup := by
  rw [queue_setQueue]
  by_cases hl : l' = l
  · subst hl
    rw [hq, List.nodup_cons] at h
    rw [Function.update_self]
    exact h.2
  · rwa [Function.update_of_ne hl]

theorem ne_nil_of_tail (hq : s.queue l = p :: ps) (hne : (s.setQueue l ps).queue l' ≠ []) :
    s.queue l' ≠ [] := by
  intro hnil
  have hl : l' ≠ l := by
    rintro rfl
    rw [hq] at hnil
    cases hnil
  exact hne (by rw [queue_setQueue, Function.update_of_ne hl, hnil])

/-- One process less waits. -/
theorem State.Orderly.tail (h : s.Orderly π semaphore) (hq : s.queue l = p :: ps) :
    (s.setQueue l ps).Orderly π semaphore ∧ ¬(s.setQueue l ps).Known p ∧
      ∀ q, s.Known q ↔ (s.setQueue l ps).Known q ∨ q = p := by
  have hmem : ∀ q l', q ∈ (s.setQueue l ps).queue l' ↔ q ∈ s.queue l' ∧ ¬(l' = l ∧ q = p) :=
    fun q l' => mem_tail hq (h.nodup l)
  have hp : p ∈ s.queue l := hq ▸ List.mem_cons_self
  have hknown : ∀ q, (s.setQueue l ps).Known q → s.Known q := by
    rintro q (hact | ⟨l', hl'⟩)
    · exact .inl hact
    · exact .inr ⟨l', ((hmem q l').mp hl').1⟩
  refine ⟨⟨fun l' => nodup_tail hq (h.nodup l'),
    fun l' l'' q hl' hl'' => h.apart l' l'' q ((hmem q l').mp hl').1 ((hmem q l'').mp hl'').1,
    fun l' hl' => h.active l' ((hmem _ l').mp hl').1, fun q hk => h.level q (hknown q hk),
    fun l' q hl' => h.place l' q ((hmem q l').mp hl').1,
    fun l' q hl' => h.highest l' q ((hmem q l').mp hl').1,
    fun l' hs => ⟨(h.excess l' hs).1, fun hne => (h.excess l' hs).2 (ne_nil_of_tail hq hne)⟩⟩,
    ?_, fun q => ⟨?_, ?_⟩⟩
  · rintro (hact | ⟨l', hl'⟩)
    · rw [active_setQueue] at hact
      exact h.active l (hact ▸ hp)
    · obtain ⟨hl', hne⟩ := (hmem p l').mp hl'
      exact hne ⟨h.apart l' l p hl' hp, rfl⟩
  · rintro (hact | ⟨l', hl'⟩)
    · exact .inl (.inl hact)
    · by_cases hqp : q = p
      · exact .inr hqp
      · exact .inl (.inr ⟨l', (hmem q l').mpr ⟨hl', fun hall => hqp hall.2⟩⟩)
  · rintro (hk | rfl)
    · exact hknown q hk
    · exact .inr ⟨l, hp⟩

omit [DecidableEq Q] in
theorem State.Orderly.pending (h : s.Orderly π semaphore) : s.Pending π semaphore :=
  ⟨h.nodup, h.apart, fun l p hp => h.level p (.inr ⟨l, hp⟩), h.place, h.excess⟩

/-- A process goes to the end of a queue. -/
theorem State.Pending.tail (h : s.Pending π semaphore) (hq : s.queue l = p :: ps) :
    (s.setQueue l ps).Pending π semaphore := by
  have hmem : ∀ q l', q ∈ (s.setQueue l ps).queue l' → q ∈ s.queue l' := fun q l' hl' =>
    ((mem_tail hq (h.nodup l)).mp hl').1
  exact ⟨fun l' => nodup_tail hq (h.nodup l'),
    fun l' l'' q hl' hl'' => h.apart l' l'' q (hmem q l' hl') (hmem q l'' hl''),
    fun l' q hl' => h.level l' q (hmem q l' hl'), fun l' q hl' => h.place l' q (hmem q l' hl'),
    fun l' hs => ⟨(h.excess l' hs).1, fun hne => (h.excess l' hs).2 (ne_nil_of_tail hq hne)⟩⟩

theorem State.Pending.append (hπ : π.Sound semaphore) (h : s.Pending π semaphore)
    (hp : ∀ l, p ∉ s.queue l) (hlevel : 1 ≤ π.priority p ∧ π.priority p ≤ π.levels)
    (hl : l = π.ready (π.priority p) ∨ semaphore l ∧ s.excess l = 0) :
    (s.append l p).Pending π semaphore := by
  refine ⟨fun l' => ?_, fun l' l'' q hl' hl'' => ?_, fun l' q hl' => ?_, fun l' q hl' hs => ?_,
    fun l' hs => ⟨(h.excess l' hs).1, fun hne => ?_⟩⟩
  · rw [State.append, queue_setQueue]
    by_cases hll : l' = l
    · rw [hll, Function.update_self]
      refine List.Nodup.append (h.nodup _) (List.nodup_singleton p) ?_
      simpa using hp _
    · rw [Function.update_of_ne hll]
      exact h.nodup l'
  · rw [mem_append] at hl' hl''
    rcases hl' with hl' | ⟨rfl, rfl⟩
    · rcases hl'' with hl'' | ⟨rfl, rfl⟩
      · exact h.apart l' l'' q hl' hl''
      · exact absurd hl' (hp l')
    · rcases hl'' with hl'' | ⟨rfl, -⟩
      · exact absurd hl'' (hp l'')
      · rfl
  · rcases mem_append.mp hl' with hl' | ⟨-, rfl⟩
    · exact h.level l' q hl'
    · exact hlevel
  · rcases mem_append.mp hl' with hl' | ⟨rfl, rfl⟩
    · exact h.place l' q hl' hs
    · exact hl.resolve_right fun hall => hs hall.1
  · rw [excess_append]
    by_cases hll : l' = l
    · subst hll
      rcases hl with rfl | ⟨-, h0⟩
      · exact absurd hs (hπ.ready _ hlevel.1 hlevel.2)
      · exact h0
    · rw [State.append, queue_setQueue, Function.update_of_ne hll] at hne
      exact (h.excess l' hs).2 hne

omit [DecidableEq Q] in
/-- A process that is in no queue, and that no ready one has a higher priority than, runs. -/
theorem State.Pending.run (h : s.Pending π semaphore) (hp : ∀ l, p ∉ s.queue l)
    (hlevel : 1 ≤ π.priority p ∧ π.priority p ≤ π.levels)
    (hle : ∀ l q, q ∈ s.queue l → ¬semaphore l → π.priority q ≤ π.priority p) :
    ({ s with active := p } : State P Q).Orderly π semaphore := by
  refine ⟨h.nodup, h.apart, hp, ?_, h.place, hle, h.excess⟩
  rintro q (rfl | ⟨l, hl⟩)
  · exact hlevel
  · exact h.level l q hl

/-- A new process in the queue of its priority. -/
theorem State.Orderly.sleep (hπ : π.Sound semaphore) (h : s.Orderly π semaphore)
    (hp : ¬s.Known p) (hlevel : 1 ≤ π.priority p ∧ π.priority p ≤ π.levels)
    (hle : π.priority p ≤ π.priority s.active) :
    (Scheduling.sleep π p s).Orderly π semaphore := by
  have hpending := h.pending.append hπ (fun l hl => hp (.inr ⟨l, hl⟩)) hlevel (.inl rfl)
  refine hpending.run (p := s.active) (fun l hl => ?_) (h.level _ (.inl rfl)) fun l q hl hs => ?_
  · rcases mem_append.mp hl with hl | ⟨-, hact⟩
    · exact h.active l hl
    · exact hp (.inl hact.symm)
  · rcases mem_append.mp hl with hl | ⟨-, rfl⟩
    · exact h.highest l q hl hs
    · exact hle

theorem known_sleep : (Scheduling.sleep π p s).Known q ↔ s.Known q ∨ q = p := by
  rw [Scheduling.sleep]
  constructor
  · rintro (hact | ⟨l', hl'⟩)
    · exact .inl (.inl hact)
    · rcases mem_append.mp hl' with hl' | ⟨-, rfl⟩
      · exact .inl (.inr ⟨l', hl'⟩)
      · exact .inr rfl
  · rintro ((hact | ⟨l', hl'⟩) | rfl)
    · exact .inl hact
    · exact .inr ⟨l', mem_append.mpr (.inl hl')⟩
    · exact .inr ⟨_, mem_append.mpr (.inr ⟨rfl, rfl⟩)⟩

/-- The process that gets ready runs, or it waits behind those of its priority. -/
theorem State.Orderly.resume (hπ : π.Sound semaphore) (h : s.Orderly π semaphore)
    (hp : ¬s.Known p) (hlevel : 1 ≤ π.priority p ∧ π.priority p ≤ π.levels) :
    (Scheduling.resume π p s).Orderly π semaphore := by
  rw [Scheduling.resume]
  split
  · next hlt =>
      have hpending := h.pending.append hπ h.active (h.level _ (.inl rfl)) (.inl rfl)
      refine hpending.run (fun l hl => ?_) hlevel fun l q hl hs => ?_
      · rcases mem_append.mp hl with hl | ⟨-, rfl⟩
        · exact hp (.inr ⟨l, hl⟩)
        · exact hp (.inl rfl)
      · rcases mem_append.mp hl with hl | ⟨-, rfl⟩
        · exact Nat.le_trans (h.highest l q hl hs) (Nat.le_of_lt hlt)
        · exact Nat.le_of_lt hlt
  · next hge => exact h.sleep hπ hp hlevel (Nat.le_of_not_lt hge)

theorem known_resume : (Scheduling.resume π p s).Known q ↔ s.Known q ∨ q = p := by
  rw [Scheduling.resume]
  split
  · constructor
    · rintro (rfl | ⟨l, hl⟩)
      · exact .inr rfl
      · rcases mem_append.mp hl with hl | ⟨-, rfl⟩
        · exact .inl (.inr ⟨l, hl⟩)
        · exact .inl (.inl rfl)
    · rintro ((rfl | ⟨l, hl⟩) | rfl)
      · exact .inr ⟨_, mem_append.mpr (.inr ⟨rfl, rfl⟩)⟩
      · exact .inr ⟨l, mem_append.mpr (.inl hl)⟩
      · exact .inl rfl
  · exact known_sleep

theorem State.Orderly.setExcess {n : Int} (h : s.Orderly π semaphore) (hn : 0 ≤ n)
    (hnil : s.queue l = []) : (s.setExcess l n).Orderly π semaphore := by
  refine ⟨h.nodup, h.apart, h.active, h.level, h.place, h.highest, fun l' hs => ?_⟩
  rw [State.setExcess]
  dsimp only
  by_cases hl : l' = l
  · subst hl
    rw [Function.update_self]
    exact ⟨hn, fun hne => absurd hnil hne⟩
  · rw [Function.update_of_ne hl]
    exact h.excess l' hs

theorem State.Orderly.signal (hπ : π.Sound semaphore) (h : s.Orderly π semaphore)
    (hl : semaphore l) : (Scheduling.signal π l s).Orderly π semaphore := by
  rw [Scheduling.signal]
  cases hq : s.queue l with
  | nil =>
      dsimp only
      split
      · exact h.setExcess (by have := (h.excess l hl).1; omega) hq
      · exact h
  | cons p ps =>
      obtain ⟨htail, hp, -⟩ := h.tail hq
      exact htail.resume hπ hp (h.level p (.inr ⟨l, hq ▸ List.mem_cons_self⟩))

theorem known_signal (h : s.Orderly π semaphore) :
    (Scheduling.signal π l s).Known q ↔ s.Known q := by
  rw [Scheduling.signal]
  cases hq : s.queue l with
  | nil =>
      dsimp only
      split
      · exact Iff.rfl
      · exact Iff.rfl
  | cons p ps => exact known_resume.trans ((h.tail hq).2.2 q).symm

/-- The process that is woken is the first of the highest priority that has one. -/
theorem State.Pending.wake (hπ : π.Sound semaphore) (h : s.Pending π semaphore) :
    ∀ k ≤ π.levels, (∀ j, k < j → j ≤ π.levels → s.queue (π.ready j) = []) →
      Scheduling.wake π k s = some t →
      t.Orderly π semaphore ∧ ∀ q, t.Known q ↔ ∃ l, q ∈ s.queue l
  | 0, _, _, ht => by cases ht
  | k + 1, hk, habove, ht => by
      rw [Scheduling.wake] at ht
      cases hq : s.queue (π.ready (k + 1)) with
      | nil =>
          rw [hq] at ht
          refine h.wake hπ k (by omega) (fun j hj hle => ?_) ht
          by_cases hjk : j = k + 1
          · rw [hjk, hq]
          · exact habove j (by omega) hle
      | cons p ps =>
          rw [hq] at ht
          cases ht
          have hp : p ∈ s.queue (π.ready (k + 1)) := hq ▸ List.mem_cons_self
          have hmem : ∀ q l, q ∈ (s.setQueue (π.ready (k + 1)) ps).queue l ↔
              q ∈ s.queue l ∧ ¬(l = π.ready (k + 1) ∧ q = p) :=
            fun q l => mem_tail hq (h.nodup _)
          have hlevel := h.level _ p hp
          have hpriority : π.priority p = k + 1 :=
            (hπ.inj _ _ (by omega) hk hlevel.1 hlevel.2 (h.place _ p hp
              (hπ.ready _ (by omega) hk))).symm
          refine ⟨(h.tail hq).run (fun l hl => ?_) hlevel fun l q hl hs => ?_, fun q => ⟨?_, ?_⟩⟩
          · obtain ⟨hl, hne⟩ := (hmem p l).mp hl
            exact hne ⟨h.apart l _ p hl hp, rfl⟩
          · -- those above `k + 1` are empty
            have hl := ((hmem q l).mp hl).1
            have hq' := h.level l q hl
            by_contra hlt
            have hplace := h.place l q hl hs
            have hempty := habove _ (by omega) hq'.2
            rw [hplace, hempty] at hl
            cases hl
          · rintro (rfl | ⟨l, hl⟩)
            · exact ⟨_, hp⟩
            · exact ⟨l, ((hmem q l).mp hl).1⟩
          · rintro ⟨l, hl⟩
            by_cases hqp : q = p
            · exact .inl hqp
            · exact .inr ⟨l, (hmem q l).mpr ⟨hl, fun hall => hqp hall.2⟩⟩

theorem State.Orderly.suspend (hπ : π.Sound semaphore) (h : s.Orderly π semaphore)
    (ht : Scheduling.suspend π s = some t) :
    t.Orderly π semaphore ∧ ∀ q, t.Known q ↔ s.Known q ∧ q ≠ s.active := by
  obtain ⟨horderly, hknown⟩ :=
    h.pending.wake hπ π.levels (Nat.le_refl _) (fun j hj hle => by omega) ht
  refine ⟨horderly, fun q => (hknown q).trans ⟨?_, ?_⟩⟩
  · rintro ⟨l, hl⟩
    refine ⟨.inr ⟨l, hl⟩, ?_⟩
    rintro rfl
    exact h.active l hl
  · rintro ⟨hk, hne⟩
    exact hk.resolve_left hne

theorem State.Orderly.wait (hπ : π.Sound semaphore) (h : s.Orderly π semaphore) (hl : semaphore l)
    (ht : Scheduling.wait π l s = some t) :
    t.Orderly π semaphore ∧ ∀ q, t.Known q ↔ s.Known q := by
  have hexcess := h.excess l hl
  rw [Scheduling.wait] at ht
  split at ht
  · next hpos =>
      cases ht
      have hnil : s.queue l = [] := by
        by_contra hne
        have := hexcess.2 hne
        omega
      exact ⟨h.setExcess (by omega) hnil, fun q => Iff.rfl⟩
  · next hpos =>
      have hpending := h.pending.append hπ h.active (h.level _ (.inl rfl))
        (.inr ⟨hl, show s.excess l = 0 by omega⟩)
      obtain ⟨horderly, hknown⟩ :=
        hpending.wake hπ π.levels (Nat.le_refl _) (fun j hj hle => by omega) ht
      refine ⟨horderly, fun q => (hknown q).trans ⟨?_, ?_⟩⟩
      · rintro ⟨l', hl'⟩
        rcases mem_append.mp hl' with hl' | ⟨-, rfl⟩
        · exact .inr ⟨l', hl'⟩
        · exact .inl rfl
      · rintro (rfl | ⟨l', hl'⟩)
        · exact ⟨l, mem_append.mpr (.inr ⟨rfl, rfl⟩)⟩
        · exact ⟨l', mem_append.mpr (.inl hl')⟩

/-- What an action is given: only a process that the scheduler does not know gets ready. -/
def Action.Valid (π : Policy P Q) (semaphore : Q → Prop) (s : State P Q) : Action P Q → Prop
  | .signal l => semaphore l
  | .wait l => semaphore l
  | .resume p => ¬s.Known p ∧ 1 ≤ π.priority p ∧ π.priority p ≤ π.levels
  | .suspend => True

/-- The processes that are known after the action. -/
def Action.Knows (s : State P Q) (q : P) : Action P Q → Prop
  | .signal _ => s.Known q
  | .wait _ => s.Known q
  | .resume p => s.Known q ∨ q = p
  | .suspend => s.Known q ∧ q ≠ s.active

/-- Each action keeps the order, and no process is lost or doubled. -/
theorem State.Orderly.action (hπ : π.Sound semaphore) (h : s.Orderly π semaphore)
    {act : Action P Q} (hact : act.Valid π semaphore s) (ht : act.run π s = some t) :
    t.Orderly π semaphore ∧ ∀ q, t.Known q ↔ act.Knows s q := by
  cases act with
  | signal l =>
      cases ht
      exact ⟨h.signal hπ hact, fun q => known_signal h⟩
  | wait l => exact h.wait hπ hact ht
  | resume p =>
      cases ht
      exact ⟨h.resume hπ hact.1 hact.2, fun q => known_resume⟩
  | suspend => exact h.suspend hπ ht

end Actions

/-! ## Signals and waits

The signals that are left less the processes that wait. -/

section Balance

variable {π : Policy P Q} {semaphore : Q → Prop} {s t : State P Q} {l l' : Q} {p : P} {k : Nat}

def State.balance (s : State P Q) (l : Q) : Int := s.excess l - (s.queue l).length

/-- What an action adds to the balance of `l`. -/
def Action.change (l : Q) : Action P Q → Int
  | .signal l' => if l = l' then 1 else 0
  | .wait l' => if l = l' then -1 else 0
  | .resume _ => 0
  | .suspend => 0

theorem balance_setExcess {n : Int} : (s.setExcess l n).balance l' =
    if l' = l then n - (s.queue l).length else s.balance l' := by
  rw [State.balance, State.balance, queue_setExcess, State.setExcess]
  dsimp only
  by_cases h : l' = l
  · subst h
    rw [Function.update_self, if_pos rfl]
  · rw [Function.update_of_ne h, if_neg h]

theorem balance_tail (hq : s.queue l = p :: ps) :
    (s.setQueue l ps).balance l' = s.balance l' + if l' = l then 1 else 0 := by
  rw [State.balance, State.balance, queue_setQueue, excess_setQueue]
  by_cases h : l' = l
  · subst h
    rw [Function.update_self, if_pos rfl, hq, List.length_cons]
    omega
  · rw [Function.update_of_ne h, if_neg h]
    omega

theorem balance_append : (s.append l p).balance l' = s.balance l' - if l' = l then 1 else 0 := by
  rw [State.balance, State.balance, State.append, queue_setQueue, excess_setQueue]
  by_cases h : l' = l
  · subst h
    rw [Function.update_self, if_pos rfl, List.length_append, List.length_singleton]
    omega
  · rw [Function.update_of_ne h, if_neg h]
    omega

theorem balance_resume (h : l ≠ π.ready (π.priority p))
    (hact : l ≠ π.ready (π.priority s.active)) :
    (Scheduling.resume π p s).balance l = s.balance l := by
  have hsleep : ∀ q, l ≠ π.ready (π.priority q) →
      (Scheduling.sleep π q s).balance l = s.balance l := by
    intro q hq
    rw [Scheduling.sleep, balance_append, if_neg hq]
    omega
  rw [Scheduling.resume]
  split
  · exact hsleep _ hact
  · exact hsleep _ h

theorem balance_wake (h : ∀ j, 1 ≤ j → j ≤ k → l ≠ π.ready j)
    (ht : Scheduling.wake π k s = some t) : t.balance l = s.balance l := by
  induction k with
  | zero => cases ht
  | succ k ih =>
      rw [Scheduling.wake] at ht
      cases hq : s.queue (π.ready (k + 1)) with
      | nil =>
          rw [hq] at ht
          exact ih (fun j h1 hj => h j h1 (by omega)) ht
      | cons p ps =>
          rw [hq] at ht
          cases ht
          rw [State.balance, State.balance, queue_setQueue, excess_setQueue,
            Function.update_of_ne (h (k + 1) (by omega) (Nat.le_refl _))]

/-- One action, where no signal is lost. -/
theorem balance_action (hπ : π.Sound semaphore) (h : s.Orderly π semaphore) {act : Action P Q}
    (hact : act.Valid π semaphore s) (ht : act.run π s = some t) (hl : semaphore l)
    (hfits : s.balance l + act.change l ≤ π.limit) :
    t.balance l = s.balance l + act.change l := by
  have hready : ∀ j, 1 ≤ j → j ≤ π.levels → l ≠ π.ready j := by
    rintro j h1 hj rfl
    exact hπ.ready j h1 hj hl
  have hlevel : ∀ q, s.Known q → l ≠ π.ready (π.priority q) := fun q hq =>
    hready _ (h.level q hq).1 (h.level q hq).2
  cases act with
  | signal l' =>
      cases ht
      rw [Action.change, Scheduling.signal]
      cases hq : s.queue l' with
      | nil =>
          dsimp only
          have hlength : (s.queue l').length = 0 := by rw [hq, List.length_nil]
          by_cases hll : l = l'
          · subst hll
            have hbalance : s.balance l = s.excess l := by
              rw [State.balance]
              omega
            rw [Action.change, if_pos rfl, hbalance] at hfits
            rw [if_pos (by omega), if_pos rfl, balance_setExcess, if_pos rfl]
            omega
          · rw [if_neg hll]
            split
            · rw [balance_setExcess, if_neg hll]
              omega
            · omega
      | cons p ps =>
          have hp : p ∈ s.queue l' := hq ▸ List.mem_cons_self
          have hresume : (Scheduling.resume π p (s.setQueue l' ps)).balance l =
              (s.setQueue l' ps).balance l :=
            balance_resume (hlevel p (.inr ⟨l', hp⟩)) (hlevel _ (.inl rfl))
          dsimp only
          rw [hresume, balance_tail hq]
  | wait l' =>
      rw [Action.run, Scheduling.wait] at ht
      rw [Action.change]
      by_cases hpos : 0 < s.excess l'
      · rw [if_pos hpos] at ht
        cases ht
        rw [balance_setExcess]
        split
        · next hll =>
            rw [hll, State.balance]
            omega
        · omega
      · rw [if_neg hpos] at ht
        rw [balance_wake hready ht, balance_append]
        split <;> omega
  | resume p =>
      cases ht
      rw [Action.change, balance_resume (hready _ hact.2.1 hact.2.2) (hlevel _ (.inl rfl))]
      omega
  | suspend =>
      rw [Action.change, balance_wake hready ht]
      omega

end Balance

end Scheduling

end Crosstalk
