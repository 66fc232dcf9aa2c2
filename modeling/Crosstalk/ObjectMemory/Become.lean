import Crosstalk.ObjectMemory.Compacted
import Crosstalk.ObjectMemory.CountDown
import Mathlib.Logic.Equiv.Basic

/-!
# Exchanging identities

`swapPointersOfAnd` exchanges the places of two objects, together with the two
bits of the entry that tell how the chunk is to be read. The count and the free
bit stay with the oop.
-/

namespace Crosstalk

def swapPointersOfAnd (firstPointer secondPointer : Nat) : OM Unit := do
  let firstSegment ← segmentBitsOf firstPointer
  let firstLocation ← locationBitsOf firstPointer
  let firstPointerBit ← pointerBitOf firstPointer
  let firstOdd ← oddBitOf firstPointer
  segmentBitsOfPut firstPointer (← segmentBitsOf secondPointer)
  locationBitsOfPut firstPointer (← locationBitsOf secondPointer)
  pointerBitOfPut firstPointer (← pointerBitOf secondPointer)
  oddBitOfPut firstPointer (← oddBitOf secondPointer)
  segmentBitsOfPut secondPointer firstSegment
  locationBitsOfPut secondPointer firstLocation
  pointerBitOfPut secondPointer firstPointerBit
  oddBitOfPut secondPointer firstOdd

/-! ## Entry words -/

/-- The entry word `w` with the bits of `v` that travel with the chunk. -/
def exchangeWord (w v : Nat) : Nat :=
  putField (putField (putField w 0 4 (field v 0 4)) 6 1 (field v 6 1)) 7 1 (field v 7 1)

section Words

variable {w v : Nat}

theorem decodeEntry_exchangeWord : decodeEntry (exchangeWord w v) =
    { decodeEntry w with
      odd := (decodeEntry v).odd
      pointer := (decodeEntry v).pointer
      segment := (decodeEntry v).segment } := by
  rw [exchangeWord, decodeEntry_putOdd (field_lt v 7 1), decodeEntry_putPointer (field_lt v 6 1),
    decodeEntry_putSegment (field_lt v 0 4)]
  rfl

/-- A field that is taken over from `v`. -/
theorem testBit_putField_field {x k n : Nat} (h16 : k + n ≤ 16) (i : Nat) :
    (putField x k n (field v k n)).testBit i =
      (decide (i < 16) && if k ≤ i ∧ i < k + n then v.testBit i else x.testBit i) := by
  rw [testBit_putField, testBit_field]
  by_cases hk : k ≤ i
  · have hadd : k + (i - k) = i := by omega
    by_cases hn : i < k + n
    · have h1 : i - k < n := by omega
      have h2 : i < 16 := by omega
      simp [hk, hn, h1, h2, hadd]
    · have h1 : ¬i - k < n := by omega
      simp [hn, h1, Bool.and_comm]
  · simp [hk, Bool.and_comm]

theorem testBit_exchangeWord (i : Nat) : (exchangeWord w v).testBit i =
    (decide (i < 16) && if i < 4 ∨ i = 6 ∨ i = 7 then v.testBit i else w.testBit i) := by
  have h4 : 0 ≤ i ∧ i < 0 + 4 ↔ i < 4 := by omega
  have h6 : 6 ≤ i ∧ i < 6 + 1 ↔ i = 6 := by omega
  have h7 : 7 ≤ i ∧ i < 7 + 1 ↔ i = 7 := by omega
  rw [exchangeWord, testBit_putField_field (by omega), testBit_putField_field (by omega),
    testBit_putField_field (by omega)]
  simp only [h4, h6, h7]
  by_cases h16 : i < 16
  · by_cases hlow : i < 4 <;> by_cases h6 : i = 6 <;> by_cases h7 : i = 7 <;>
      simp [h16, hlow, h6, h7]
  · simp [h16]

theorem exchangeWord_back (hw : w < 65536) :
    exchangeWord (exchangeWord w v) (exchangeWord v w) = w := by
  refine Nat.eq_of_testBit_eq fun i => ?_
  rw [testBit_exchangeWord, testBit_exchangeWord, testBit_exchangeWord]
  by_cases h16 : i < 16
  · by_cases htravels : i < 4 ∨ i = 6 ∨ i = 7
    · simp [h16, htravels]
    · simp [h16, htravels]
  · simp [h16, testBit_eq_false_of_lt (n := 16) hw (Nat.le_of_not_lt h16)]

theorem exchangeWord_self (hw : w < 65536) : exchangeWord w w = w := by
  rw [exchangeWord, putField_field hw, putField_field hw, putField_field hw]

end Words

namespace ObjectMemory

/-! ## The exchange -/

/-- The memory `u` is `m` with the places of `a` and `b` exchanged. -/
structure Exchanged (m : ObjectMemory) (a b : Nat) (u : ObjectMemory) : Prop where
  first : u.word objectTableSegment a =
    exchangeWord (m.word objectTableSegment a) (m.word objectTableSegment b)
  second : u.word objectTableSegment b =
    exchangeWord (m.word objectTableSegment b) (m.word objectTableSegment a)
  firstLocation : u.location a = m.location b
  secondLocation : u.location b = m.location a
  kept : ∀ s w, ¬(s = objectTableSegment ∧ (w = a ∨ w = a + 1 ∨ w = b ∨ w = b + 1)) →
    u.word s w = m.word s w
  currentSegment : u.currentSegment = m.currentSegment
  freeWords : u.freeWords = m.freeWords
  freeOops : u.freeOops = m.freeOops

variable {m u : ObjectMemory} {L : Layout} {a b p q s i : Nat}

theorem Exchanged.refl (m : ObjectMemory) (a : Nat) : Exchanged m a a m :=
  ⟨(exchangeWord_self (m.word_lt _ _)).symm, (exchangeWord_self (m.word_lt _ _)).symm, rfl, rfl,
    fun _ _ _ => rfl, rfl, rfl, rfl⟩

theorem setSegment_self : m.setSegment p (m.entry p).segment = m := by
  rw [setSegment, setField, entry, decodeEntry, putField_field (m.word_lt _ _), setWord_word]

theorem setPointer_self : m.setPointer p (m.entry p).pointer = m := by
  rw [setPointer, setField, entry, decodeEntry, putField_field (m.word_lt _ _), setWord_word]

theorem setOdd_self : m.setOdd p (m.entry p).odd = m := by
  rw [setOdd, setField, entry, decodeEntry, putField_field (m.word_lt _ _), setWord_word]

theorem setLocation_self : m.setLocation p (m.location p) = m := setWord_word m _ _

/-- The entry `p` with the place `l` and the travelling bits of `e`. -/
def moved (m : ObjectMemory) (p l : Nat) (e : Entry) : ObjectMemory :=
  (((m.setSegment p e.segment).setLocation p l).setPointer p e.pointer).setOdd p e.odd

theorem word_moved {w l v : Nat} {s : Nat} (hl : l < 65536) :
    (m.moved p l (decodeEntry v)).word s w =
      if s = objectTableSegment ∧ w = p then exchangeWord (m.word objectTableSegment p) v
      else if s = objectTableSegment ∧ w = p + 1 then l else m.word s w := by
  have hw := m.word_lt objectTableSegment p
  have h1 := putField_lt (k := 0) hw (field_lt v 0 4) (by omega)
  have h2 := putField_lt (k := 6) h1 (field_lt v 6 1) (by omega)
  have h3 := putField_lt (k := 7) h2 (field_lt v 7 1) (by omega)
  have hne : ¬p = p + 1 := by omega
  simp only [moved, setOdd, setPointer, setSegment, setLocation, setField, decodeEntry,
    word_setWord, hne, and_false, and_self, if_true, if_false, Nat.mod_eq_of_lt h1,
    Nat.mod_eq_of_lt h2, Nat.mod_eq_of_lt h3, Nat.mod_eq_of_lt hl]
  by_cases hp : s = objectTableSegment ∧ w = p
  · rw [if_pos hp, if_pos hp, exchangeWord]
  · simp only [if_neg hp]

theorem exchanged_moved (ha : IsEntry a) (hb : IsEntry b) (hab : a ≠ b) : Exchanged m a b
    ((m.moved a (m.location b) (m.entry b)).moved b (m.location a) (m.entry a)) := by
  have heven := ha.1
  have heven' := hb.1
  have hfirst : ∀ s w, (m.moved a (m.location b) (m.entry b)).word s w =
      if s = objectTableSegment ∧ w = a then
        exchangeWord (m.word objectTableSegment a) (m.word objectTableSegment b)
      else if s = objectTableSegment ∧ w = a + 1 then m.location b else m.word s w :=
    fun s w => word_moved (m.location_lt b)
  have hsecond : ∀ s w, ((m.moved a (m.location b) (m.entry b)).moved b (m.location a)
        (m.entry a)).word s w =
      if s = objectTableSegment ∧ w = b then
        exchangeWord ((m.moved a (m.location b) (m.entry b)).word objectTableSegment b)
          (m.word objectTableSegment a)
      else if s = objectTableSegment ∧ w = b + 1 then m.location a
      else (m.moved a (m.location b) (m.entry b)).word s w :=
    fun s w => word_moved (m.location_lt a)
  have hword : (m.moved a (m.location b) (m.entry b)).word objectTableSegment b =
      m.word objectTableSegment b := by
    rw [hfirst, if_neg (by omega), if_neg (by omega)]
  refine ⟨?_, ?_, ?_, ?_, fun s w hsw => ?_, rfl, rfl, rfl⟩
  · rw [hsecond, if_neg (by omega), if_neg (by omega), hfirst, if_pos ⟨rfl, rfl⟩]
  · rw [hsecond, if_pos ⟨rfl, rfl⟩, hword]
  · rw [location, hsecond, if_neg (by omega), if_neg (by omega), hfirst, if_neg (by omega),
      if_pos ⟨rfl, rfl⟩]
  · rw [location, hsecond, if_neg (by omega), if_pos ⟨rfl, rfl⟩]
  · rw [hsecond, if_neg (by tauto), if_neg (by tauto), hfirst, if_neg (by tauto),
      if_neg (by tauto)]

theorem wp_swapPointersOfAnd (ha : IsEntry a) (hb : IsEntry b) :
    Wp (swapPointersOfAnd a b) (fun _ u => Exchanged m a b u) m := by
  have hl := fun p => m.location_lt p
  have hbits : ∀ p, (m.entry p).segment < 16 ∧ (m.entry p).pointer < 2 ∧ (m.entry p).odd < 2 :=
    fun p => ⟨m.segment_lt p, m.pointer_lt p, m.odd_lt p⟩
  by_cases hab : a = b
  · subst hab
    simp only [swapPointersOfAnd, wp_bind, wp_segmentBitsOf, wp_locationBitsOf, wp_pointerBitOf,
      wp_oddBitOf, wp_segmentBitsOfPut, wp_locationBitsOfPut, wp_pointerBitOfPut, wp_oddBitOfPut,
      iff_true_intro ha, hl, hbits, true_and, setSegment_self, setLocation_self, setPointer_self,
      setOdd_self]
    exact .refl m a
  · have hsegment : ∀ (n : ObjectMemory) x, (n.setSegment a x).entry b = n.entry b :=
      fun n x => entry_setField_of_ne (Ne.symm hab)
    have hsegment' : ∀ (n : ObjectMemory) x, (n.setSegment a x).location b = n.location b :=
      fun n x => location_setField (by have := ha.1; have := hb.1; omega)
    have hlocation : ∀ (n : ObjectMemory) x, (n.setLocation a x).entry b = n.entry b :=
      fun n x => entry_setLocation (by have := ha.1; have := hb.1; omega)
    have hpointer : ∀ (n : ObjectMemory) x, (n.setPointer a x).entry b = n.entry b :=
      fun n x => entry_setField_of_ne (Ne.symm hab)
    simp only [swapPointersOfAnd, wp_bind, wp_segmentBitsOf, wp_locationBitsOf, wp_pointerBitOf,
      wp_oddBitOf, wp_segmentBitsOfPut, wp_locationBitsOfPut, wp_pointerBitOfPut, wp_oddBitOfPut,
      iff_true_intro ha, iff_true_intro hb, hl, hbits, true_and, hsegment, hsegment', hlocation,
      hpointer]
    exact exchanged_moved ha hb hab

/-- A second exchange restores the memory. -/
theorem Exchanged.back {v : ObjectMemory} (h : Exchanged m a b u) (h' : Exchanged u a b v) :
    v = m := by
  refine ext_words (fun s w => ?_) (h'.currentSegment.trans h.currentSegment)
    (h'.freeWords.trans h.freeWords) (h'.freeOops.trans h.freeOops)
  by_cases hsw : s = objectTableSegment ∧ (w = a ∨ w = a + 1 ∨ w = b ∨ w = b + 1)
  · obtain ⟨rfl, rfl | rfl | rfl | rfl⟩ := hsw
    · rw [h'.first, h.first, h.second, exchangeWord_back (m.word_lt _ _)]
    · exact h'.firstLocation.trans h.secondLocation
    · rw [h'.second, h.first, h.second, exchangeWord_back (m.word_lt _ _)]
    · exact h'.secondLocation.trans h.firstLocation
  · exact (h'.kept s w hsw).trans (h.kept s w hsw)

/-! ## Reading through the oops -/

namespace Exchanged

variable (h : Exchanged m a b u)

include h

/-- What travels comes from the other oop, what stays is that of the oop. -/
theorem entry_eq (hp : p % 2 = 0) (ha : a % 2 = 0) (hb : b % 2 = 0) :
    u.entry p = { m.entry p with
      odd := (m.entry (Equiv.swap a b p)).odd
      pointer := (m.entry (Equiv.swap a b p)).pointer
      segment := (m.entry (Equiv.swap a b p)).segment } := by
  by_cases hpa : p = a
  · rw [hpa, Equiv.swap_apply_left, entry, h.first, decodeEntry_exchangeWord]
    rfl
  · by_cases hpb : p = b
    · rw [hpb, Equiv.swap_apply_right, entry, h.second, decodeEntry_exchangeWord]
      rfl
    · rw [Equiv.swap_apply_of_ne_of_ne hpa hpb, entry, h.kept _ _ (by omega)]
      rfl

theorem location_eq (hp : p % 2 = 0) (ha : a % 2 = 0) (hb : b % 2 = 0) :
    u.location p = m.location (Equiv.swap a b p) := by
  by_cases hpa : p = a
  · rw [hpa, Equiv.swap_apply_left, h.firstLocation]
  · by_cases hpb : p = b
    · rw [hpb, Equiv.swap_apply_right, h.secondLocation]
    · rw [Equiv.swap_apply_of_ne_of_ne hpa hpb, location, h.kept _ _ (by omega), location]

theorem chunkWord_eq (hp : p % 2 = 0) (ha : a % 2 = 0) (hb : b % 2 = 0)
    (hs : (m.entry (Equiv.swap a b p)).segment ≠ objectTableSegment) :
    u.chunkWord p i = m.chunkWord (Equiv.swap a b p) i := by
  rw [chunkWord, h.entry_eq hp ha hb, h.location_eq hp ha hb]
  exact h.kept _ _ fun hn => hs hn.1

end Exchanged

end ObjectMemory

/-- The layout in which `a` and `b` have exchanged their chunks. -/
def ObjectMemory.Layout.exchange (L : Layout) (a b : Nat) : Layout :=
  { L with extent := fun p => L.extent (Equiv.swap a b p) }

namespace ObjectMemory

theorem Layout.extent_exchange (L : Layout) (a b p : Nat) :
    (L.exchange a b).extent p = L.extent (Equiv.swap a b p) := rfl

namespace Exchanged

variable {m u : ObjectMemory} {L : Layout} {a b p s i : Nat} (hm : Heap m L)
  (ha : Allocated m L a) (hb : Allocated m L b) (h : Exchanged m a b u)

include ha hb

theorem swap_eq (hp : ¬Allocated m L p) : Equiv.swap a b p = p :=
  Equiv.swap_apply_of_ne_of_ne (fun hpa => hp (hpa ▸ ha)) fun hpb => hp (hpb ▸ hb)

theorem allocated_swap : Allocated m L (Equiv.swap a b p) ↔ Allocated m L p := by
  by_cases hpa : p = a
  · rw [hpa, Equiv.swap_apply_left]
    exact ⟨fun _ => ha, fun _ => hb⟩
  · by_cases hpb : p = b
    · rw [hpb, Equiv.swap_apply_right]
      exact ⟨fun _ => hb, fun _ => ha⟩
    · rw [Equiv.swap_apply_of_ne_of_ne hpa hpb]

theorem inUse_swap : InUse m (Equiv.swap a b p) ↔ InUse m p := by
  by_cases hpa : p = a
  · rw [hpa, Equiv.swap_apply_left]
    exact ⟨fun _ => ha.inUse, fun _ => hb.inUse⟩
  · by_cases hpb : p = b
    · rw [hpb, Equiv.swap_apply_right]
      exact ⟨fun _ => hb.inUse, fun _ => ha.inUse⟩
    · rw [Equiv.swap_apply_of_ne_of_ne hpa hpb]

include h

theorem inUse_iff : InUse u p ↔ InUse m p :=
  and_congr_right fun hp => by rw [h.entry_eq hp.1 ha.inUse.even hb.inUse.even]

theorem allocated_iff : Allocated u (L.exchange a b) p ↔ Allocated m L p :=
  and_congr_left' (h.inUse_iff ha hb)

include hm

theorem tiled : Tiled u (L.exchange a b).extent := by
  have hentry : ∀ p, InUse u p → (u.entry p).segment = (m.entry (Equiv.swap a b p)).segment :=
    fun p hp => by rw [h.entry_eq hp.even ha.inUse.even hb.inUse.even]
  have hlocation : ∀ p, InUse u p → u.location p = m.location (Equiv.swap a b p) :=
    fun p hp => h.location_eq hp.even ha.inUse.even hb.inUse.even
  have huse : ∀ p, InUse u p → InUse m (Equiv.swap a b p) := fun p hp =>
    (inUse_swap ha hb).mpr ((h.inUse_iff ha hb).mp hp)
  refine ⟨fun p hp => ?_, fun p hp => ?_, fun p hp => ?_, fun p q hp hq hne hs => ?_,
    fun s w hs hw => ?_⟩
  · rw [hentry p hp]
    exact hm.tiled.segment_lt _ (huse p hp)
  · exact hm.tiled.two_le _ (huse p hp)
  · rw [hlocation p hp]
    exact hm.tiled.inside _ (huse p hp)
  · rw [hentry p hp, hentry q hq] at hs
    rw [hlocation p hp, hlocation q hq]
    exact hm.tiled.apart _ _ (huse p hp) (huse q hq) ((Equiv.swap a b).injective.ne hne) hs
  · obtain ⟨p, hp, hps, hle, hlt⟩ := hm.tiled.cover s w hs hw
    have hp' : InUse u (Equiv.swap a b p) := (h.inUse_iff ha hb).mpr ((inUse_swap ha hb).mpr hp)
    refine ⟨Equiv.swap a b p, hp', ?_, ?_, ?_⟩
    · rw [hentry _ hp', Equiv.swap_apply_self, hps]
    · rw [hlocation _ hp', Equiv.swap_apply_self]
      exact hle
    · rw [hlocation _ hp', Layout.extent_exchange, Equiv.swap_apply_self]
      exact hlt

theorem heap : Heap u (L.exchange a b) := by
  have heven := ha.inUse.even
  have heven' := hb.inUse.even
  have hchunk : ∀ p, InUse m p → ¬Allocated m L p → ∀ i, u.chunkWord p i = m.chunkWord p i :=
    fun p hp hno i => by
      have hp' : (m.entry p).segment ≠ objectTableSegment := hm.onHeap hp
      rw [h.chunkWord_eq hp.even heven heven' (by rwa [swap_eq ha hb hno]), swap_eq ha hb hno]
  have hfree : ∀ s k p, p ∈ L.chunks s k → ¬Allocated m L p := fun s k p hp hno => hno.2 s k hp
  refine ⟨h.tiled hm ha hb, ⟨?_, fun p => ?_, fun s k hs h2 h20 => ?_, fun s k p hp => ?_,
    hm.lists.unique⟩, fun s k p hp => ?_, fun p hp => ?_⟩
  · have hhead : u.freeHead = m.freeHead := h.kept _ _ (by
      have := ha.inUse.le
      have := hb.inUse.le
      have hfree : freePointerList = 65534 := rfl
      omega)
    rw [hhead]
    refine hm.lists.pointers.congr fun p hp => ?_
    obtain ⟨hoop, h1⟩ := (hm.lists.mem_pointers p).mp hp
    have hno : ¬Allocated m L p := fun hp' => by
      have := hp'.inUse.2
      omega
    rw [h.location_eq hoop.1 heven heven', swap_eq ha hb hno]
  · rw [show (L.exchange a b).freePointers = L.freePointers from rfl, hm.lists.mem_pointers p]
    exact and_congr_right fun hp => by rw [h.entry_eq hp.1 heven heven']
  · have hhead : u.chunkHead s k = m.chunkHead s k := h.kept _ _ fun hn => by
      have := hn.1
      simp only [objectTableSegment, segmentCount] at this
      omega
    rw [hhead]
    refine (hm.lists.chunks s k hs h2 h20).congr fun p hp => ?_
    exact hchunk p (hm.chunk_inUse hp) (hfree s k p hp) 1
  · have hc := hm.lists.freeChunk s k p hp
    have hentry := h.entry_eq hc.inUse.even heven heven'
    rw [swap_eq ha hb (hfree s k p hp)] at hentry
    refine ⟨(h.inUse_iff ha hb).mpr hc.inUse, by rw [hentry]; exact hc.segment, hc.segment_lt,
      hc.two_le, hc.le_bigSize, fun hk => ?_, by rw [hentry]; exact hc.count⟩
    rw [hchunk p hc.inUse (hfree s k p hp)]
    exact hc.size hk
  · have hp' := hm.chunk_inUse hp
    rw [hchunk p hp' (hfree s k p hp), Layout.extent_exchange, swap_eq ha hb (hfree s k p hp)]
    exact hm.extent_chunk s k p hp
  · have hp' := (h.allocated_iff ha hb).mp hp
    have hswap := (allocated_swap ha hb).mpr hp'
    have hs : (m.entry (Equiv.swap a b p)).segment ≠ objectTableSegment := hm.onHeap hswap.inUse
    rw [Layout.extent_exchange, hm.extent_allocated _ hswap, space, space,
      h.chunkWord_eq hp.inUse.even heven heven' hs, h.entry_eq hp.inUse.even heven heven']

end Exchanged

/-! ## Becoming -/

variable {m u : ObjectMemory} {L : Layout} {a b p q s : Nat}

/-- What is read through `p` in `u` is what is read through `q` in `m`. -/
structure ReadsAs (m u : ObjectMemory) (p q : Nat) : Prop where
  fetchClass : (fetchClassOf p u).map Prod.fst = (fetchClassOf q m).map Prod.fst
  wordLength : (fetchWordLengthOf p u).map Prod.fst = (fetchWordLengthOf q m).map Prod.fst
  byteLength : (fetchByteLengthOf p u).map Prod.fst = (fetchByteLengthOf q m).map Prod.fst
  pointerBit : (pointerBitOf p u).map Prod.fst = (pointerBitOf q m).map Prod.fst
  field : ∀ i, (fetchPointerOfObject i p u).map Prod.fst = (fetchPointerOfObject i q m).map Prod.fst

/-- Two readers with the same condition and the same value. -/
theorem read_congr {α : Type} {x y : OM α} {c d : Prop} {v w : α}
    (hx : ∀ Q, Wp x Q u ↔ c ∧ Q v u) (hy : ∀ Q, Wp y Q m ↔ d ∧ Q w m) (hcd : c ↔ d)
    (hvw : v = w) : (x u).map Prod.fst = (y m).map Prod.fst := by
  by_cases hd : d
  · have hrun : x u = some (v, u) := Wp.run_eq ((hx _).mpr ⟨hcd.mpr hd, rfl, rfl⟩)
    have hrun' : y m = some (w, m) := Wp.run_eq ((hy _).mpr ⟨hd, rfl, rfl⟩)
    rw [hrun, hrun', hvw]
    rfl
  · have hnone {z : OM α} {n : ObjectMemory} {e : Prop} {v' : α}
        (hz : ∀ Q, Wp z Q n ↔ e ∧ Q v' n) (he : ¬e) : z n = none := by
      cases hzn : z n with
      | none => rfl
      | some r => exact absurd ((hz fun _ _ => True).mp ⟨r.1, r.2, hzn, trivial⟩).1 he
    rw [hnone hx (fun hc => hd (hcd.mp hc)), hnone hy hd]

/-- The reads depend on the two bits of the entry, the place and the words of the chunk. -/
theorem ReadsAs.of_alike (hp : IsEntry p) (hq : IsEntry q) (hlocation : u.location p = m.location q)
    (hodd : (u.entry p).odd = (m.entry q).odd) (hpointer : (u.entry p).pointer = (m.entry q).pointer)
    (hword : ∀ i, u.chunkWord p i = m.chunkWord q i) : ReadsAs m u p q := by
  have hentry : IsEntry p ↔ IsEntry q := ⟨fun _ => hq, fun _ => hp⟩
  have hfield : ∀ i : Int, HasField u p i ↔ HasField m q i := fun i => by
    constructor
    · rintro ⟨-, h0, hsize, hinside⟩
      exact ⟨hq, h0, by rwa [← hword 0], by rwa [← hlocation]⟩
    · rintro ⟨-, h0, hsize, hinside⟩
      exact ⟨hp, h0, by rwa [hword 0], by rwa [hlocation]⟩
  refine ⟨read_congr (fun _ => wp_fetchClassOf hp.1) (fun _ => wp_fetchClassOf hq.1) ?_ (hword 1),
    read_congr (fun _ => wp_fetchWordLengthOf) (fun _ => wp_fetchWordLengthOf) ?_ ?_,
    read_congr (fun _ => wp_fetchByteLengthOf) (fun _ => wp_fetchByteLengthOf) ?_ ?_,
    read_congr (fun _ => wp_pointerBitOf) (fun _ => wp_pointerBitOf) hentry hpointer,
    fun i => read_congr (fun _ => wp_fetchWordOfObject) (fun _ => wp_fetchWordOfObject) (hfield i)
      (hword _)⟩
  · rw [hentry, hlocation]
  · rw [hentry, hlocation]
  · rw [hword 0]
  · rw [hentry, hlocation]
  · rw [hword 0, hodd]

/-- The deallocation of `countDown`: the count is zeroed first. -/
def deallocateZeroed (objectPointer : Nat) : OM Unit := do
  countBitsOfPut objectPointer 0
  deallocate objectPointer

/-- What `become:` does, and what stays true. -/
structure Became (m : ObjectMemory) (L : Layout) (a b : Nat) (u : ObjectMemory) : Prop where
  first : ReadsAs m u a b
  second : ReadsAs m u b a
  others : ∀ q, IsOop q → q ≠ a → q ≠ b → (m.entry q).segment ≠ objectTableSegment →
    ReadsAs m u q q
  /-- The count and the free bit stay with the oop. -/
  stays : ∀ q, IsOop q → (u.entry q).count = (m.entry q).count ∧ (u.entry q).free = (m.entry q).free
  heap : Heap u (L.exchange a b)
  allocated : ∀ q, Allocated u (L.exchange a b) q ↔ Allocated m L q
  restores : swapPointersOfAnd a b u = some ((), m)
  /-- Each body keeps its size in a compaction. -/
  compacts : ∀ s : Nat, s < 15 → (m.entry 0).free ≠ 0 → Allocated m L nilPointer →
    (∀ q, Allocated m L q → m.chunkWord q 1 ≠ nonPointer) →
    Wp compactCurrentSegment (fun _ z => ∃ L', Compacted { u with currentSegment := (s : Int) }
      (L.exchange a b) s L' z) { u with currentSegment := (s : Int) }
  /-- A body that is deallocated becomes a free chunk of its size. -/
  deallocates : ∀ p, p = a ∨ p = b → Wp (deallocateZeroed p) (fun _ z =>
    Heap z ((L.exchange a b).push (u.entry p).segment (min (u.space p) bigSize) p) ∧
      z.chunkWord p 0 = L.extent (Equiv.swap a b p)) u

section Became

variable (hm : Heap m L) (ha : Allocated m L a) (hb : Allocated m L b) (h : Exchanged m a b u)

include hm ha hb h

omit hm in
theorem Exchanged.readsAs (hp : IsOop p) (hs : (m.entry (Equiv.swap a b p)).segment ≠
    objectTableSegment) (hq : IsEntry (Equiv.swap a b p)) : ReadsAs m u p (Equiv.swap a b p) := by
  have hentry := h.entry_eq hp.1 ha.inUse.even hb.inUse.even
  exact .of_alike hp.isEntry hq (h.location_eq hp.1 ha.inUse.even hb.inUse.even) (by rw [hentry])
    (by rw [hentry]) fun i => h.chunkWord_eq hp.1 ha.inUse.even hb.inUse.even hs

theorem Exchanged.compacts (hs : s < 15) (h0 : (m.entry 0).free ≠ 0)
    (hnil : Allocated m L nilPointer) (hclass : ∀ q, Allocated m L q → m.chunkWord q 1 ≠ nonPointer) :
    Wp compactCurrentSegment (fun _ z => ∃ L', Compacted { u with currentSegment := (s : Int) }
      (L.exchange a b) s L' z) { u with currentSegment := (s : Int) } := by
  have heap : Heap { u with currentSegment := (s : Int) } (L.exchange a b) :=
    (h.heap hm ha hb).congr (fun _ _ => rfl) (fun _ _ => rfl) (fun _ _ => rfl) (fun _ _ => rfl) rfl
      (fun _ _ _ => rfl) (fun _ _ => rfl) (fun _ _ _ _ => rfl)
      fun s' k p hp => ((h.heap hm ha hb).lists.freeChunk s' k p hp).count
  have hreserved : u.entry 0 = m.entry 0 := congrArg decodeEntry (h.kept _ _ (by
    have := ha.inUse.1.2
    have := hb.inUse.1.2
    omega))
  refine wp_compactCurrentSegment heap hs rfl ?_
    (fun k => ((h.allocated_iff ha hb).mpr hnil).2 s k) fun _ _ q _ hq _ _ => ?_
  · exact fun hfree => h0 (hreserved ▸ hfree)
  · have hq' := (allocated_swap ha hb).mpr ((h.allocated_iff ha hb).mp hq)
    have hs' : (m.entry (Equiv.swap a b q)).segment ≠ objectTableSegment := hm.onHeap hq'.inUse
    have hword : u.chunkWord q 1 = m.chunkWord (Equiv.swap a b q) 1 :=
      h.chunkWord_eq hq.inUse.even ha.inUse.even hb.inUse.even hs'
    exact fun hn => hclass _ hq' (hword ▸ hn)

theorem Exchanged.deallocates (hp : Allocated m L p) : Wp (deallocateZeroed p) (fun _ z =>
    Heap z ((L.exchange a b).push (u.entry p).segment (min (u.space p) bigSize) p) ∧
      z.chunkWord p 0 = L.extent (Equiv.swap a b p)) u := by
  have heap := h.heap hm ha hb
  have hpu : Allocated u (L.exchange a b) p := (h.allocated_iff ha hb).mpr hp
  have hodd := hp.inUse.even
  have hzero : Heap (u.setCount p 0) (L.exchange a b) :=
    heap.setCount hodd hp.inUse.le (by decide) fun _ _ _ => rfl
  have hentry : (u.setCount p 0).entry p = { u.entry p with count := 0 } := by
    rw [entry_setCount (by decide), if_pos rfl]
  have hpz : Allocated (u.setCount p 0) (L.exchange a b) p :=
    ⟨⟨hpu.inUse.1, by rw [hentry]; exact hpu.inUse.2⟩, hpu.2⟩
  have hspace : (u.setCount p 0).space p = u.space p :=
    space_congr (by rw [hentry]) (chunkWord_setCount (by decide) (by omega) (heap.onHeap hpu.inUse))
  have hfreed := hzero.deallocated hpz (by rw [hentry])
  rw [hspace, hentry] at hfreed
  rw [deallocateZeroed, wp_bind, wp_countBitsOfPut, and_iff_right ⟨hp.inUse.isEntry, by decide⟩,
    hzero.wp_deallocate hpz]
  refine ⟨hfreed, ?_⟩
  rw [hzero.chunkWord_deallocated hpz hpz.inUse (by have := hzero.tiled.two_le p hpz.inUse; omega),
    if_pos ⟨rfl, rfl⟩, ← hzero.extent_allocated p hpz, Layout.extent_exchange]

end Became

/-- `become:` exchanges the identities of two objects, which may be the same: each reads as the
other did, every object else as before, and the memory stays a heap. -/
theorem swapPointersOfAnd_became (hm : Heap m L) (ha : Allocated m L a) (hb : Allocated m L b) :
    ∃ u, swapPointersOfAnd a b m = some ((), u) ∧ Became m L a b u := by
  obtain ⟨_, u, hrun, h⟩ := wp_swapPointersOfAnd (m := m) ha.inUse.isEntry hb.inUse.isEntry
  obtain ⟨_, v, hback, h'⟩ := wp_swapPointersOfAnd (m := u) ha.inUse.isEntry hb.inUse.isEntry
  have hfirst := h.readsAs ha hb (p := a) ha.inUse.1
  have hsecond := h.readsAs ha hb (p := b) hb.inUse.1
  rw [Equiv.swap_apply_left] at hfirst
  rw [Equiv.swap_apply_right] at hsecond
  refine ⟨u, hrun, hfirst (hm.onHeap hb.inUse) hb.inUse.isEntry,
    hsecond (hm.onHeap ha.inUse) ha.inUse.isEntry, fun q hq hqa hqb hs => ?_, fun q hq => ?_,
    h.heap hm ha hb, fun q => h.allocated_iff ha hb, ?_, fun s hs => h.compacts hm ha hb hs,
    fun p hp => ?_⟩
  · have hread := h.readsAs ha hb hq
    rw [Equiv.swap_apply_of_ne_of_ne hqa hqb] at hread
    exact hread hs hq.isEntry
  · rw [h.entry_eq hq.1 ha.inUse.even hb.inUse.even]
    exact ⟨rfl, rfl⟩
  · rw [hback, h.back h']
  · rcases hp with rfl | rfl
    · exact h.deallocates hm ha hb ha
    · exact h.deallocates hm ha hb hb

theorem swapPointersOfAnd_became_couple : ∃ u,
    swapPointersOfAnd 2 6 (couple 1 0) = some ((), u) ∧
      Became (couple 1 0) coupleLayout 2 6 u :=
  swapPointersOfAnd_became (heap_couple (by decide) (by decide))
    ((allocated_couple (by decide)).mpr (.inl rfl)) ((allocated_couple (by decide)).mpr (.inr rfl))

end ObjectMemory

end Crosstalk
