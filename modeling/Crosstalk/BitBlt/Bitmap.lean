import Crosstalk.ObjectMemory.Interface

/-!
# Bitmaps in the object memory

The words of a bitmap object, bitmaps that do not overlap, and memories that
differ in the words of one bitmap only.
-/

namespace Crosstalk

namespace ObjectMemory

/-- Word `k` of the bitmap `p`, from 0. -/
def wordAt (m : ObjectMemory) (p : Nat) (k : Int) : Nat :=
  m.chunkWord p (headerSize + k.toNat)

theorem wordAt_lt (m : ObjectMemory) (p : Nat) (k : Int) : m.wordAt p k < 65536 :=
  m.chunkWord_lt p _

/-- `p` is an object of `n` words, inside one heap segment. -/
structure IsBitmap (m : ObjectMemory) (p : Nat) (n : Int) : Prop where
  isEntry : IsEntry p
  heap : (m.entry p).segment ≠ objectTableSegment
  nonneg : 0 ≤ n
  size : (m.chunkWord p 0 : Int) = n + headerSize
  inside : m.location p + m.chunkWord p 0 ≤ 65536

/-- The chunks of `p` and `q` have no word in common. -/
def Separate (m : ObjectMemory) (p q : Nat) : Prop :=
  (m.entry p).segment = (m.entry q).segment →
    m.location p + m.chunkWord p 0 ≤ m.location q ∨
      m.location q + m.chunkWord q 0 ≤ m.location p

/-- `m'` is `m` but for the fields of `p`. -/
structure OnlyFields (p : Nat) (m m' : ObjectMemory) : Prop where
  word : ∀ s w, ¬(s = (m.entry p).segment ∧ m.location p + headerSize ≤ w ∧
    w < m.location p + m.chunkWord p 0) → m'.word s w = m.word s w
  currentSegment : m'.currentSegment = m.currentSegment
  freeWords : m'.freeWords = m.freeWords
  freeOops : m'.freeOops = m.freeOops

variable {m m' m'' : ObjectMemory} {p q v : Nat} {k j n : Int}

theorem IsBitmap.hasField (h : m.IsBitmap p n) (h0 : 0 ≤ k) (hk : k < n) :
    HasField m p k := by
  have hs := h.size
  have hi := h.inside
  exact ⟨h.isEntry, h0, by omega, by omega⟩

theorem IsBitmap.size_pos (h : m.IsBitmap p n) : 0 < m.chunkWord p 0 := by
  have hs := h.size
  have hn := h.nonneg
  simp only [headerSize] at hs
  omega

namespace OnlyFields

theorem refl (p : Nat) (m : ObjectMemory) : OnlyFields p m m :=
  ⟨fun _ _ _ => rfl, rfl, rfl, rfl⟩

section Heap

variable (h : OnlyFields p m m') (hp : (m.entry p).segment ≠ objectTableSegment)

include h hp

theorem tableWord (w : Nat) :
    m'.word objectTableSegment w = m.word objectTableSegment w :=
  h.word _ _ fun hw => hp hw.1.symm

theorem entry_eq (q : Nat) : m'.entry q = m.entry q := by
  rw [entry, h.tableWord hp, entry]

theorem location_eq (q : Nat) : m'.location q = m.location q := h.tableWord hp _

theorem size_eq : m'.chunkWord p 0 = m.chunkWord p 0 := by
  rw [chunkWord, h.entry_eq hp, h.location_eq hp, h.word, chunkWord]
  simp only [headerSize]
  omega

theorem trans (h' : OnlyFields p m' m'') : OnlyFields p m m'' where
  word s w hw := by
    rw [h'.word, h.word s w hw]
    rwa [h.entry_eq hp, h.location_eq hp, h.size_eq hp]
  currentSegment := h'.currentSegment.trans h.currentSegment
  freeWords := h'.freeWords.trans h.freeWords
  freeOops := h'.freeOops.trans h.freeOops

theorem isBitmap (hb : m.IsBitmap p n) : m'.IsBitmap p n := by
  refine ⟨hb.isEntry, ?_, hb.nonneg, ?_, ?_⟩
  · rw [h.entry_eq hp]; exact hp
  · rw [h.size_eq hp]; exact hb.size
  · rw [h.size_eq hp, h.location_eq hp]; exact hb.inside

/-- A bitmap apart from the changed one keeps its words. -/
theorem chunkWord_separate {i : Nat} (hpq : m.Separate p q) (hi : i < m.chunkWord q 0) :
    m'.chunkWord q i = m.chunkWord q i := by
  rw [chunkWord, h.entry_eq hp, h.location_eq hp, h.word, chunkWord]
  rintro ⟨hs, h1, h2⟩
  have := hpq hs.symm
  omega

theorem size_separate (hpq : m.Separate p q) (hq : 0 < m.chunkWord q 0) :
    m'.chunkWord q 0 = m.chunkWord q 0 := h.chunkWord_separate hp hpq hq

theorem isBitmap_separate (hpq : m.Separate p q) (hb : m.IsBitmap q n) :
    m'.IsBitmap q n := by
  have h0 := h.size_separate hp hpq hb.size_pos
  refine ⟨hb.isEntry, ?_, hb.nonneg, ?_, ?_⟩
  · rw [h.entry_eq hp]; exact hb.heap
  · rw [h0]; exact hb.size
  · rw [h0, h.location_eq hp]; exact hb.inside

theorem separate (hpq : m.Separate p q) (hq : 0 < m.chunkWord q 0) : m'.Separate p q := by
  have h0 := h.size_separate hp hpq hq
  intro hs
  rw [h.entry_eq hp, h.entry_eq hp] at hs
  rw [h.location_eq hp, h.location_eq hp, h.size_eq hp, h0]
  exact hpq hs

theorem wordAt_separate (hpq : m.Separate p q) (hb : m.IsBitmap q n) (h0 : 0 ≤ k)
    (hk : k < n) : m'.wordAt q k = m.wordAt q k := by
  have hs := hb.size
  exact h.chunkWord_separate hp hpq (by omega)

end Heap

end OnlyFields

/-! ## Stores into a bitmap -/

theorem onlyFields_setChunkWord (hb : m.IsBitmap p n) (h0 : 0 ≤ k) (hk : k < n) :
    OnlyFields p m (m.setChunkWord p (headerSize + k.toNat) v) := by
  have hs := hb.size
  refine ⟨fun s w hw => ?_, rfl, rfl, rfl⟩
  rw [setChunkWord, word_setWord, if_neg]
  rintro ⟨rfl, rfl⟩
  exact hw ⟨rfl, by omega, by omega⟩

theorem wordAt_setChunkWord (hb : m.IsBitmap p n) (h0 : 0 ≤ k) (hj : 0 ≤ j)
    (hv : v < 65536) :
    (m.setChunkWord p (headerSize + k.toNat) v).wordAt p j =
      if j = k then v else m.wordAt p j := by
  rw [wordAt, chunkWord_setChunkWord hb.heap hv, wordAt]
  refine if_congr ?_ rfl rfl
  simp only [true_and]
  omega

/-! ## Filled bitmaps -/

/-- The memory with `bit i k` as bit `k` of word `i` of the bitmap `p`. -/
def fill (m : ObjectMemory) (p : Nat) (bit : Int → Nat → Bool) : ObjectMemory where
  wordMemory := {
    memory s w :=
      if s = (m.entry p).segment ∧ m.location p + headerSize ≤ w ∧
          w < m.location p + m.chunkWord p 0 then
        Nat.ofBits fun k : Fin 16 => bit (w - (m.location p + headerSize) : Nat) k
      else m.word s w
    memory_lt s w := by
      split
      · exact Nat.ofBits_lt_two_pow _
      · exact m.word_lt s w }
  currentSegment := m.currentSegment
  freeWords := m.freeWords
  freeOops := m.freeOops

theorem word_fill (m : ObjectMemory) (p : Nat) (bit : Int → Nat → Bool) (s w : Nat) :
    (m.fill p bit).word s w =
      if s = (m.entry p).segment ∧ m.location p + headerSize ≤ w ∧
          w < m.location p + m.chunkWord p 0 then
        Nat.ofBits fun k : Fin 16 => bit (w - (m.location p + headerSize) : Nat) k
      else m.word s w := rfl

theorem onlyFields_fill (m : ObjectMemory) (p : Nat) (bit : Int → Nat → Bool) :
    OnlyFields p m (m.fill p bit) :=
  ⟨fun s w h => by rw [word_fill, if_neg h], rfl, rfl, rfl⟩

theorem testBit_wordAt_fill (hb : m.IsBitmap p n) (bit : Int → Nat → Bool) (h0 : 0 ≤ k)
    (hk : k < n) {i : Nat} (hi : i < 16) :
    ((m.fill p bit).wordAt p k).testBit i = bit k i := by
  have hs := hb.size
  have honly := onlyFields_fill m p bit
  rw [wordAt, chunkWord, honly.entry_eq hb.heap, honly.location_eq hb.heap, word_fill,
    if_pos ⟨rfl, by omega, by omega⟩, Nat.testBit_ofBits_lt _ _ hi]
  congr 1
  omega

/-! ## Rules -/

theorem wp_fetchBits {Q : Nat → ObjectMemory → Prop} (hb : m.IsBitmap p n) (h0 : 0 ≤ k)
    (hk : k < n) : Wp (fetchWordOfObject k p) Q m ↔ Q (m.wordAt p k) m := by
  rw [wp_fetchWordOfObject]
  exact and_iff_right (hb.hasField h0 hk)

theorem wp_storeBits {R : Unit → ObjectMemory → Prop} (hb : m.IsBitmap p n) (h0 : 0 ≤ k)
    (hk : k < n) (hv : v < 65536) :
    Wp (storeWordOfObjectWithValue k p v) R m ↔
      R () (m.setChunkWord p (headerSize + k.toNat) v) := by
  rw [wp_storeWordOfObjectWithValue]
  exact and_iff_right ⟨hb.hasField h0 hk, hv⟩

end ObjectMemory

end Crosstalk
