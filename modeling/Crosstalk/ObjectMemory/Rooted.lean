import Crosstalk.ObjectMemory.Written

/-!
# What the roots keep

An object that the roots reach through fields is not freed by a store into
another object's field, nor by one into its own: a path to an object need not
pass through the object itself. `cut` are fields that a path does not use; when
only such fields are stored into, the path is there afterwards.
-/

namespace Crosstalk

namespace ObjectMemory

variable {m u : ObjectMemory} {L L' : Layout} {regs : Nat → Nat} {roots : Nat → Prop}
  {g g' : Nat → Nat → Nat} {cut cut' : Nat → Nat → Prop} {c i p v : Nat}

theorem one_le_held (regs : Nat → Nat) (r : Nat) : 1 ≤ held regs r r := by
  rw [held, if_pos rfl]
  omega

theorem held_le (regs : Nat → Nat) (r : Nat) : ∀ p, 1 ≤ regs p → 1 ≤ held regs r p := by
  intro p hp
  rw [held]
  omega

/-- The roots reach the object through fields outside `cut`, whose words are `g`. -/
inductive Rooted (m : ObjectMemory) (L : Layout) (roots : Nat → Prop) (g : Nat → Nat → Nat)
    (cut : Nat → Nat → Prop) : Nat → Prop
  | root {p : Nat} : Allocated m L p → roots p → Rooted m L roots g cut p
  | field {p i : Nat} : Rooted m L roots g cut p → PointerField m L p i → ¬cut p i →
      g p i % 2 = 0 → Rooted m L roots g cut (g p i)

namespace Rooted

/-- Only the pointers outside `cut` matter. -/
theorem congr_even (h : Rooted m L roots g cut p)
    (hg : ∀ p i, ¬cut p i → g p i % 2 = 0 → g' p i = g p i) : Rooted m L roots g' cut p := by
  induction h with
  | root hp hr => exact .root hp hr
  | @field p i _ hi hcut heven ih =>
      have hword := hg p i hcut heven
      rw [← hword] at heven ⊢
      exact .field ih hi hcut heven

theorem congr (h : Rooted m L roots g cut p) (hg : ∀ p i, ¬cut p i → g' p i = g p i) :
    Rooted m L roots g' cut p :=
  h.congr_even fun p i hc _ => hg p i hc

theorem mono (h : Rooted m L roots g cut p) (hcut : ∀ p i, cut' p i → cut p i) :
    Rooted m L roots g cut' p := by
  induction h with
  | root hp hr => exact .root hp hr
  | field _ hi hn heven ih => exact .field ih hi (fun hc => hn (hcut _ _ hc)) heven

theorem widen {roots' : Nat → Prop} (h : Rooted m L roots g cut p)
    (hr : ∀ p, roots p → roots' p) : Rooted m L roots' g cut p := by
  induction h with
  | root hp hroot => exact .root hp (hr _ hroot)
  | field _ hi hn heven ih => exact .field ih hi hn heven

/-- The path up to the first time that it comes to `c` uses no field of `c`. -/
theorem avoid (h : Rooted m L roots g cut p) :
    Rooted m L roots g (fun p _ => p = c) p ∨ Rooted m L roots g (fun p _ => p = c) c := by
  induction h with
  | root hp hr => exact .inl (.root hp hr)
  | @field p i _ hi _ heven ih =>
      rcases ih with ih | ih
      · by_cases hpc : p = c
        · exact .inr (hpc ▸ ih)
        · exact .inl (.field ih hi hpc heven)
      · exact .inr ih

theorem avoid_self (h : Rooted m L roots g cut c) : Rooted m L roots g (fun p _ => p = c) c :=
  h.avoid.elim id id

end Rooted

section Rules

variable (h : Written m L regs g L' u) (hroots : ∀ p, roots p → 1 ≤ regs p)

include h hroots

theorem Written.rooted (hp : Rooted m L roots g cut p) : Allocated u L' p := by
  induction hp with
  | root hp hr => exact h.root _ hp (hroots _ hr)
  | field _ hi _ heven ih => exact h.value ih hi heven

/-- The path is one of the new memory, too. -/
theorem Written.rooted_after (hp : Rooted m L roots g cut p) :
    Rooted u L' roots u.chunkWord cut p := by
  induction hp with
  | root hp hr => exact .root (h.root _ hp (hroots _ hr)) hr
  | @field p i hpath hi hcut heven ih =>
      have hpu := h.rooted hroots hpath
      rw [← h.word p i hpu hi.lt_size] at heven ⊢
      exact .field ih (h.pointerField hpu hi) hcut heven

/-- The store into a field of `c` frees no object that has a path without this field. -/
theorem Written.not_freed (hc : PointerField u L' c i) (hv : v < 65536)
    (hva : v % 2 = 0 → Allocated u L' v) (hp : Rooted m L roots g (fun p _ => p = c) p) :
    ¬Freed ((u.countedUp v).setChunkWord c i v) L' (held regs (u.chunkWord c i))
      (u.chunkWord c i) p := by
  induction hp with
  | root hp hr =>
      intro hfreed
      have heq := hfreed.regs_eq
      have hone := hroots _ hr
      rw [held] at heq
      omega
  | @field p j hpath hj hne heven ih =>
      -- what refers to a freed object is freed
      intro hfreed
      have hpu := h.rooted hroots hpath
      have hju := h.pointerField hpu hj
      have hlt := hju.lt_size
      have htwo := hju.two_le
      have h2 := hc.two_le
      have hext := hju.lt_extent h.counted.heap
      have hword := fun k =>
        chunkWord_countedUp_stored (j := k) h.counted hc hv hva hju.allocated
      have hvalue : ((u.countedUp v).setChunkWord c i v).chunkWord p j = g p j := by
        rw [hword j hext, if_neg fun hall => hne hall.1, h.word p j hpu hj.lt_size]
      have hju' : PointerField ((u.countedUp v).setChunkWord c i v) L' p j := by
        refine ⟨(allocated_countedUp_stored h.counted hc).mpr hpu, ?_, htwo, ?_⟩
        · rw [entry_countedUp_stored h.counted hc]
          exact hju.pointer
        · rwa [hword 0 (by omega), if_neg (by omega)]
      exact ih (hfreed.referrers hju'.allocated (hju'.isPointer_iff.mpr (by rw [hvalue, heven]))
        hvalue)

/-- The rule of a store into an object that the roots reach. -/
theorem Written.wp_store_rooted {f : Int} (hcr : Rooted m L roots g cut c)
    (hc : PointerField m L c (headerSize + f.toNat)) (h0 : 0 ≤ f) (hv : v < 65536) (hpos : 0 < v)
    (hva : v % 2 = 0 → Allocated u L' v) :
    Wp (storePointerOfObjectWithValue f c v)
      (fun _ t => ∃ L'', Written m L regs (put g c (headerSize + f.toNat) v) L'' t) u := by
  have hcu := h.pointerField (h.rooted hroots hcr) hc
  refine (wp_storePointer_kept h.counted hcu hv rfl h0
    (h.not_freed hroots hcu hv hva hcr.avoid_self) hpos hva).mono ?_
  rintro _ t ⟨L'', ht⟩
  exact ⟨L'', h.stored hc ht⟩

omit hroots in
/-- A register is given up, with what only it has kept. -/
theorem Written.wp_countDown_any (hr : Allocated u L' c) (hregs : 1 ≤ regs c) :
    Wp (countDown c) (fun _ t => ∃ L'', Written m L (dropped regs c) g L'' t) u := by
  have hkept : ¬Freed u L' regs c 0 := fun h0 => h0.allocated.ne_zero rfl
  refine (wp_countDown_aside h.counted hr hregs hkept (.nothing : Aside u L' (0, 0) id)).mono ?_
  rintro _ t ⟨dead, L'', ht⟩
  have hiff : ∀ p, Allocated t L'' p ↔ Allocated u L' p ∧ ¬Freed u L' regs c p := fun p =>
    ht.allocated_iff h.counted
  refine ⟨L'', ht.counted h.counted hregs, fun p hp => h.allocated p ((hiff p).mp hp).1,
    fun p hp => ?_, h.size, fun p j hp hj => ?_, fun p hp hroot => (hiff p).mpr ⟨?_, ?_⟩⟩
  · rw [ht.entry p]
    exact h.pointer p ((hiff p).mp hp).1
  · have hpu := ((hiff p).mp hp).1
    have hsize : u.chunkWord p 0 = m.chunkWord p 0 := by
      rw [h.word p 0 hpu (by omega), h.size]
    rw [ht.chunkWord_eq h.counted hp (by omega), h.word p j hpu hj]
  · refine h.root p hp ?_
    rw [dropped] at hroot
    split at hroot <;> omega
  · intro hfreed
    have heq := hfreed.regs_eq
    rw [dropped] at hroot
    split at hroot <;> simp_all

end Rules

end ObjectMemory

end Crosstalk
