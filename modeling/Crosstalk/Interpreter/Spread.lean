import Crosstalk.Interpreter.Collection
import Crosstalk.ObjectMemory.StorePointer

/-!
# Memories that are spread over the segments

Oop 2 is nil and oop 4 a short object behind it. Each segment but the first has one
more object, oops 8 to 34, of which only the first words are of interest.
-/

namespace Crosstalk

open ObjectMemory

variable {c : Nat → List Nat} {p i : Nat}

/-- The words of the object `p`: its size, then `c p`, and then the SmallInteger 0. -/
def spreadField (c : Nat → List Nat) (p i : Nat) : Nat :=
  if i = 0 then if p = 4 then (c 4).length + 1 else 65514 else (c p).getD (i - 1) 1

def spreadWord (c : Nat → List Nat) (s w : Nat) : Nat :=
  if s = 15 then
    if w = 65534 then 36
    else if w % 2 = 0 then
      if w = 2 ∨ w = 6 then 32768 else if w ≤ 34 then 32832 + (w / 2 - 3) else 32
    else if w = 5 then 2
    else if w = 7 then (c 4).length % 256 + 3
    else if w ≤ 35 then 0
    else if w < 65533 then w + 1
    else 65535
  else if 65515 ≤ w then 65535
  else if s = 0 then
    if w = 0 then 2 else if w = 1 then 1
    else if w < (c 4).length + 3 then spreadField c 4 (w - 2) % 65536
    else if w = (c 4).length + 3 then 65512 - (c 4).length
    else 1
  else spreadField c (6 + 2 * s) w % 65536

theorem spreadWord_lt (c : Nat → List Nat) (s w : Nat) : spreadWord c s w < 65536 := by
  have hmod : ∀ x, x % 65536 < 65536 := fun x => Nat.mod_lt _ (by decide)
  have h4 := hmod (spreadField c 4 (w - 2))
  have hs := hmod (spreadField c (6 + 2 * s) w)
  unfold spreadWord
  repeat' refine ite_lt_of (fun _ => ?_) fun _ => ?_
  all_goals omega

def spread (c : Nat → List Nat) : ObjectMemory := ⟨⟨spreadWord c, spreadWord_lt c⟩, 0, 0, 32749⟩

def spreadExtent (c : Nat → List Nat) (p : Nat) : Nat :=
  if p = 2 then 2 else if p = 4 then (c 4).length + 1 else if p = 6 then 65512 - (c 4).length
  else 65515

def spreadLayout (c : Nat → List Nat) : Layout where
  freePointers := List.range' 36 32748 2 ++ [65532]
  chunks _ _ := []
  extent := spreadExtent c

/-- The short object is short, and the pointers are to the objects. -/
structure Spreadable (c : Nat → List Nat) : Prop where
  short : 1 ≤ (c 4).length ∧ (c 4).length < 255
  value : ∀ p, p ≤ 34 → ∀ v ∈ c p, v < 65536 ∧ (v % 2 = 0 → 2 ≤ v ∧ v ≤ 34)

theorem entry_spread (hp : IsOop p) : (spread c).entry p =
    if p = 2 ∨ p = 6 then ⟨128, 0, 0, 0, 0⟩
    else if p ≤ 34 then ⟨128, 0, 1, 0, p / 2 - 3⟩ else ⟨0, 0, 0, 1, 0⟩ := by
  obtain ⟨heven, htwo, hle⟩ := hp
  show decodeEntry (spreadWord c 15 p) = _
  rw [spreadWord, if_pos rfl, if_neg (by omega), if_pos heven]
  have hfill : ∀ s < 15, decodeEntry (32832 + s) = ⟨128, 0, 1, 0, s⟩ := by decide
  by_cases h26 : p = 2 ∨ p = 6
  · rw [if_pos h26, if_pos h26]
    rfl
  · rw [if_neg h26, if_neg h26]
    by_cases h34 : p ≤ 34
    · rw [if_pos h34, if_pos h34]
      exact hfill _ (by omega)
    · rw [if_neg h34, if_neg h34]
      rfl

section Spread

variable (h : Spreadable c)

include h

theorem location_spread (hp : IsOop p) : (spread c).location p =
    if p = 4 then 2 else if p = 6 then (c 4).length + 3 else if p ≤ 34 then 0
    else if p < 65532 then p + 2 else 65535 := by
  obtain ⟨heven, htwo, hle⟩ := hp
  have hshort := h.short.2
  show spreadWord c 15 (p + 1) = _
  rw [spreadWord, if_pos rfl, if_neg (by omega), if_neg (by omega), Nat.mod_eq_of_lt (by omega)]
  exact if_congr (by omega) rfl (if_congr (by omega) rfl (if_congr (by omega) rfl
    (if_congr (by omega) rfl rfl)))

/-- Where the object `p` is. -/
theorem span_spread (hp : IsOop p) (hle : p ≤ 34) :
    ((spread c).entry p).segment = p / 2 - 3 ∧
      (p = 2 ∧ (spread c).location p = 0 ∧ spreadExtent c p = 2 ∨
        p = 4 ∧ (spread c).location p = 2 ∧ spreadExtent c p = (c 4).length + 1 ∨
        p = 6 ∧ (spread c).location p = (c 4).length + 3 ∧
          spreadExtent c p = 65512 - (c 4).length ∨
        8 ≤ p ∧ (spread c).location p = 0 ∧ spreadExtent c p = 65515) := by
  have heven := hp.1
  have htwo := hp.2.1
  rw [entry_spread hp, location_spread h hp, if_pos hle, if_pos hle, spreadExtent]
  refine ⟨?_, ?_⟩
  · split
    · next h26 => rcases h26 with rfl | rfl <;> rfl
    · rfl
  · by_cases h2 : p = 2
    · subst h2
      exact .inl ⟨rfl, rfl, rfl⟩
    · by_cases h4 : p = 4
      · subst h4
        exact .inr (.inl ⟨rfl, rfl, rfl⟩)
      · by_cases h6 : p = 6
        · subst h6
          exact .inr (.inr (.inl ⟨rfl, rfl, rfl⟩))
        · rw [if_neg h4, if_neg h6, if_neg h2, if_neg h4, if_neg h6]
          exact .inr (.inr (.inr ⟨by omega, rfl, rfl⟩))

omit h in
theorem count_spread (hp : IsOop p) (hle : p ≤ 34) :
    ((spread c).entry p).free = 0 ∧ ((spread c).entry p).count = 128 := by
  rw [entry_spread hp, if_pos hle]
  split <;> exact ⟨rfl, rfl⟩

omit h in
theorem inUse_spread : InUse (spread c) p ↔ IsOop p ∧ p ≤ 34 := by
  refine and_congr_right fun hp => ⟨fun hfree => ?_, fun hle => (count_spread hp hle).1⟩
  by_contra hle
  rw [entry_spread hp, if_neg (by omega), if_neg hle] at hfree
  cases hfree

omit h in
theorem allocated_spread : Allocated (spread c) (spreadLayout c) p ↔ IsOop p ∧ p ≤ 34 :=
  ⟨fun h => inUse_spread.mp h.1, fun h => ⟨inUse_spread.mpr h, fun _ _ hmem =>
    absurd hmem List.not_mem_nil⟩⟩

theorem tiled_spread : Tiled (spread c) (spreadExtent c) := by
  have hshort := h.short
  have hspan : ∀ {p}, InUse (spread c) p → IsOop p ∧ p ≤ 34 ∧ _ := fun {p} hp =>
    have hin := inUse_spread.mp hp
    ⟨hin.1, hin.2, span_spread h hin.1 hin.2⟩
  refine ⟨fun p hp => ?_, fun p hp => ?_, fun p hp => ?_, fun p q hp hq hne hseg => ?_,
    fun u w hu hw => ?_⟩
  · obtain ⟨-, hle, hsegment, -⟩ := hspan hp
    omega
  · obtain ⟨-, -, -, hplace⟩ := hspan hp
    omega
  · obtain ⟨-, -, -, hplace⟩ := hspan hp
    omega
  · obtain ⟨⟨hpe, -, -⟩, -, hps, hplace⟩ := hspan hp
    obtain ⟨⟨hqe, -, -⟩, -, hqs, hplace'⟩ := hspan hq
    omega
  · have hcover : ∀ p, IsOop p → p ≤ 34 → p / 2 - 3 = u → (spread c).location p ≤ w →
        w < (spread c).location p + spreadExtent c p → ∃ p, InUse (spread c) p ∧
          ((spread c).entry p).segment = u ∧ (spread c).location p ≤ w ∧
          w < (spread c).location p + spreadExtent c p := fun p hp hle hsegment hge hlt =>
      ⟨p, inUse_spread.mpr ⟨hp, hle⟩, (span_spread h hp hle).1.trans hsegment, hge, hlt⟩
    by_cases h0 : u = 0
    · have h2 : IsOop 2 := ⟨rfl, Nat.le_refl _, by decide⟩
      have h4 : IsOop 4 := ⟨rfl, by decide, by decide⟩
      have h6 : IsOop 6 := ⟨rfl, by decide, by decide⟩
      have hplace₂ := (span_spread h h2 (by decide)).2
      have hplace₄ := (span_spread h h4 (by decide)).2
      have hplace₆ := (span_spread h h6 (by decide)).2
      by_cases hw2 : w < 2
      · exact hcover 2 h2 (by decide) (by omega) (by omega) (by omega)
      · by_cases hw5 : w < (c 4).length + 3
        · exact hcover 4 h4 (by decide) (by omega) (by omega) (by omega)
        · exact hcover 6 h6 (by decide) (by omega) (by omega) (by omega)
    · have hoop : IsOop (6 + 2 * u) := ⟨by omega, by omega, by omega⟩
      have hplace := (span_spread h hoop (by omega)).2
      exact hcover (6 + 2 * u) hoop (by omega) (by omega) (by omega) (by omega)

theorem linked_spread : Linked (spread c).location nonPointer (spread c).freeHead
    (List.range' 36 32748 2 ++ [65532]) := by
  have hhead : (spread c).freeHead = 36 := rfl
  have hnon : nonPointer = 65535 := rfl
  have hlast : (spread c).location 65532 = nonPointer := by
    rw [location_spread h ⟨rfl, by decide, by decide⟩, if_neg (by decide), if_neg (by decide),
      if_neg (by decide), if_neg (by decide), hnon]
  rw [hhead]
  refine Linked.run (fun i hi => ?_) ⟨by omega, by omega, hlast⟩
  have hoop : IsOop (36 + 2 * i) := ⟨by omega, by omega, by omega⟩
  rw [location_spread h hoop, if_neg (by omega), if_neg (by omega), if_neg (by omega),
    if_pos (by omega)]
  exact ⟨by omega, by omega⟩

/-! ### The words of the objects -/

theorem spreadField_value (hle : p ≤ 34) (hi : 1 ≤ i) : spreadField c p i < 65536 ∧
    (spreadField c p i % 2 = 0 → 2 ≤ spreadField c p i ∧ spreadField c p i ≤ 34) := by
  rw [spreadField, if_neg (by omega)]
  by_cases hlt : i - 1 < (c p).length
  · rw [List.getD_eq_getElem _ _ hlt]
    exact h.value p hle _ (List.getElem_mem hlt)
  · rw [List.getD_eq_default _ _ (by omega)]
    exact ⟨by decide, by decide⟩

/-- How many words of the object `p` are of interest. -/
def spreadSize (c : Nat → List Nat) (p : Nat) : Nat := if p = 4 then (c 4).length + 1 else 65514

theorem chunkWord_spread (hp : IsOop p) (hle : p ≤ 34) (h2 : p ≠ 2) (h6 : p ≠ 6)
    (hi : i < spreadSize c p) : (spread c).chunkWord p i = spreadField c p i := by
  have hshort := h.short
  obtain ⟨hsegment, hplace⟩ := span_spread h hp hle
  have heq : (spread c).chunkWord p i =
      spreadWord c (p / 2 - 3) ((spread c).location p + i) := by
    rw [← hsegment]
    rfl
  have hvalue : spreadField c p i < 65536 := by
    by_cases h0 : i = 0
    · subst h0
      rw [spreadField, if_pos rfl]
      split <;> omega
    · exact (spreadField_value h hle (by omega)).1
  rw [spreadSize] at hi
  rw [heq, spreadWord]
  rcases hplace with ⟨h2', -⟩ | ⟨rfl, hlocation, -⟩ | ⟨h6', -⟩ | ⟨hge, hlocation, -⟩
  · exact absurd h2' h2
  · rw [if_pos rfl] at hi
    rw [if_neg (by decide), hlocation, if_neg (by omega), if_pos (by decide), if_neg (by omega),
      if_neg (by omega), if_pos (by omega), Nat.add_sub_cancel_left, Nat.mod_eq_of_lt hvalue]
  · exact absurd h6' h6
  · have heven := hp.1
    rw [if_neg (by omega)] at hi
    rw [if_neg (by omega), hlocation, if_neg (by omega), if_neg (by omega), Nat.zero_add,
      show 6 + 2 * (p / 2 - 3) = p by omega, Nat.mod_eq_of_lt hvalue]

/-- The sizes, and which words of the objects are pointers. -/
theorem words_spread (hp : IsOop p) (hle : p ≤ 34) :
    (spread c).space p = spreadExtent c p ∧ (spread c).last p ≤ (spread c).chunkWord p 0 ∧
      ∀ i, IsPointer (spread c) p i → IsOop ((spread c).chunkWord p i) ∧
        (spread c).chunkWord p i ≤ 34 := by
  have hshort := h.short
  have hhuge : hugeSize = 256 := rfl
  obtain ⟨hsegment, hplace⟩ := span_spread h hp hle
  have heven := hp.1
  have htwo := hp.2.1
  by_cases h26 : p = 2 ∨ p = 6
  · -- no pointers
    have hpointer : ((spread c).entry p).pointer = 0 := by
      rw [entry_spread hp, if_pos h26]
    have hwords : (spread c).chunkWord p 0 = spreadExtent c p ∧ (spread c).chunkWord p 1 = 1 := by
      have heq : ∀ i, (spread c).chunkWord p i =
          spreadWord c (p / 2 - 3) ((spread c).location p + i) := by
        intro i
        rw [← hsegment]
        rfl
      rw [heq, heq]
      rcases hplace with ⟨rfl, hlocation, hext⟩ | ⟨rfl, -⟩ | ⟨rfl, hlocation, hext⟩ | ⟨hge, -⟩
      · rw [hlocation, hext]
        exact ⟨rfl, rfl⟩
      · omega
      · rw [hlocation, hext, show 6 / 2 - 3 = 0 from rfl]
        refine ⟨?_, ?_⟩
        · rw [spreadWord, if_neg (by decide), if_neg (by omega), if_pos rfl, if_neg (by omega),
            if_neg (by omega), if_neg (by omega), if_pos (by omega)]
        · rw [spreadWord, if_neg (by decide), if_neg (by omega), if_pos rfl, if_neg (by omega),
            if_neg (by omega), if_neg (by omega), if_neg (by omega)]
      · omega
    have hlast : (spread c).last p = 2 := by
      rw [last, if_pos hpointer, hwords.2, if_neg (by decide)]
    refine ⟨by rw [ObjectMemory.space, hwords.1, if_pos (.inr hpointer)], by omega, ?_⟩
    rintro i ⟨h1, hlt, hword⟩
    obtain rfl : i = 1 := by omega
    omega
  · have hpointer : ((spread c).entry p).pointer = 1 := by
      rw [entry_spread hp, if_neg h26, if_pos hle]
    have hsize : (spread c).chunkWord p 0 = spreadSize c p := by
      rw [chunkWord_spread h hp hle (by omega) (by omega) (by rw [spreadSize]; split <;> omega),
        spreadField, if_pos rfl, spreadSize]
    have hlast : (spread c).last p = spreadSize c p := by
      rw [last, if_neg (by omega), hsize]
    refine ⟨?_, by omega, ?_⟩
    · rw [ObjectMemory.space, hsize, spreadSize, spreadExtent]
      by_cases h4 : p = 4
      · rw [if_pos h4, if_pos (.inl (by omega)), if_neg (by omega), if_pos h4]
      · rw [if_neg h4, if_neg (by omega), if_neg (by omega), if_neg h4, if_neg (by omega)]
    · rintro i ⟨h1, hlt, hword⟩
      rw [chunkWord_spread h hp hle (by omega) (by omega) (by omega)] at hword ⊢
      obtain ⟨hlt', hvalue⟩ := spreadField_value h hle h1
      obtain ⟨h2', h34⟩ := hvalue hword
      exact ⟨⟨hword, h2', by omega⟩, h34⟩

theorem heap_spread : Heap (spread c) (spreadLayout c) := by
  refine ⟨tiled_spread h, ⟨linked_spread h, fun p => ?_, fun s k hs h2 h20 => ?_,
    fun _ _ _ hmem => absurd hmem List.not_mem_nil, fun _ _ _ _ hmem =>
    absurd hmem List.not_mem_nil⟩, fun _ _ _ hmem => absurd hmem List.not_mem_nil, fun p hp => ?_⟩
  · show p ∈ List.range' 36 32748 2 ++ [65532] ↔ _
    rw [List.mem_append, List.mem_range', List.mem_singleton]
    constructor
    · intro hmem
      have hbound : IsOop p ∧ 36 ≤ p := by
        rcases hmem with ⟨i, hi, rfl⟩ | rfl
        · exact ⟨⟨by omega, by omega, by omega⟩, by omega⟩
        · exact ⟨⟨rfl, by decide, by decide⟩, by decide⟩
      refine ⟨hbound.1, ?_⟩
      rw [entry_spread hbound.1, if_neg (by omega), if_neg (by omega)]
    · rintro ⟨hoop, hfree⟩
      have hle : ¬p ≤ 34 := fun hle => by
        have h0 := (count_spread (c := c) hoop hle).1
        omega
      obtain ⟨heven, htwo, hmax⟩ := hoop
      by_cases hp : p = 65532
      · exact .inr hp
      · exact .inl ⟨(p - 36) / 2, by omega, by omega⟩
  · have hhead : (spread c).chunkHead s k = spreadWord c s (65515 + k) := rfl
    rw [hhead, spreadWord, if_neg (by omega), if_pos (by omega)]
    rfl
  · obtain ⟨hoop, hle⟩ := allocated_spread.mp hp
    exact (words_spread h hoop hle).1.symm

/-- The counts are saturated, so that the registers may hold anything. -/
theorem counted_spread (regs : Nat → Nat) : Counted (spread c) (spreadLayout c) regs := by
  refine ⟨heap_spread h, fun p hp => ?_, fun p i hp hi => ?_, fun p hp hlt => ?_⟩
  · obtain ⟨hoop, hle⟩ := allocated_spread.mp hp
    exact (words_spread h hoop hle).2.1
  · obtain ⟨hoop, hle⟩ := allocated_spread.mp hp
    exact allocated_spread.mpr ((words_spread h hoop hle).2.2 i hi)
  · obtain ⟨hoop, hle⟩ := allocated_spread.mp hp
    have hcount := (count_spread (c := c) hoop hle).2
    omega

theorem pointerField_spread (hp : IsOop p) (hle : p ≤ 34) (h2 : p ≠ 2) (h6 : p ≠ 6) (hi : 2 ≤ i)
    (hsize : i < spreadSize c p) : PointerField (spread c) (spreadLayout c) p i := by
  refine ⟨allocated_spread.mpr ⟨hp, hle⟩, ?_, hi, ?_⟩
  · rw [entry_spread hp, if_neg (by omega), if_pos hle]
    exact one_ne_zero
  · rw [chunkWord_spread h hp hle h2 h6 (by omega), spreadField, if_pos rfl]
    rw [spreadSize] at hsize
    exact hsize

end Spread

end Crosstalk
