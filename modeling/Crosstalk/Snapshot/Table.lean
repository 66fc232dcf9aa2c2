import Crosstalk.ObjectMemory.Heap
import Crosstalk.Snapshot.Unpack

/-!
# The object table of an image

After `unpackTable` the live entries are those of the image, and all others are
on the list of free entries.
-/

namespace Crosstalk

variable {bytes : List UInt8} {p q n : Nat}

/-- Entry `p` of the table of the image. -/
def imageEntry (bytes : List UInt8) (p : Nat) : Entry :=
  decodeEntry (wordAt bytes (tableBase bytes + 2 * p))

def imageLocation (bytes : List UInt8) (p : Nat) : Nat :=
  wordAt bytes (tableBase bytes + 2 * p + 2)

theorem byteAt_lt (bytes : List UInt8) (k : Nat) : byteAt bytes k < 256 :=
  UInt8.toNat_lt_size _

theorem wordAt_lt (bytes : List UInt8) (k : Nat) : wordAt bytes k < 65536 := by
  have h0 := byteAt_lt bytes k
  have h1 := byteAt_lt bytes (k + 1)
  rw [wordAt]
  omega

namespace ObjectMemory

variable {m m' : ObjectMemory}

/-- Every free entry is on the list of free entries. -/
def FreeEntries (m : ObjectMemory) (l : List Nat) : Prop :=
  Linked m.location nonPointer m.freeHead l ∧ ∀ p, p ∈ l ↔ IsOop p ∧ (m.entry p).free = 1

/-- The first `n` words of the table have been loaded. -/
def EntriesLoaded (bytes : List UInt8) (n : Nat) (m : ObjectMemory) : Prop :=
  ∀ p, p % 2 = 0 → p ≤ 65532 → p < n →
    m.entry p = imageEntry bytes p ∧ m.location p = imageLocation bytes p

theorem wp_unpackEntry (hp : IsEntry p) (h : EntriesLoaded bytes p m) :
    Wp (unpackEntry bytes p) (fun _ => EntriesLoaded bytes (p + 2)) m := by
  have hw := Crosstalk.wordAt_lt bytes (tableBase bytes + 2 * p)
  have hl := Crosstalk.wordAt_lt bytes (tableBase bytes + 2 * p + 2)
  rw [unpackEntry, wp_bind, wp_otPut, and_iff_right ⟨hp, hw⟩, wp_locationBitsOfPut,
    and_iff_right ⟨hp, hl⟩]
  intro q hq hq' hlt
  have hodd : q ≠ p + 1 := by omega
  rw [entry_setLocation hodd, location_setLocation hl, entry_setWord_entry hw]
  by_cases hqp : q = p
  · rw [if_pos hqp, if_pos hqp, hqp]
    exact ⟨rfl, rfl⟩
  · rw [if_neg hqp, if_neg hqp, location_setWord_entry (by omega)]
    exact h q hq hq' (by omega)

theorem wp_unpackEntries (hn : n ≤ 32768) : Wp (forN n fun i => unpackEntry bytes (2 * i))
    (fun _ => EntriesLoaded bytes (2 * n)) m := by
  refine wp_forN (fun i => EntriesLoaded bytes (2 * i)) (fun i m' hi h => ?_)
    fun q _ _ hlt => absurd hlt (by omega)
  exact wp_unpackEntry ⟨by omega, by omega⟩ h

/-! ## The list of free entries -/

/-- The entries up to `n` are initialized, those of the image or free. -/
structure EntriesFree (bytes : List UInt8) (n : Nat) (m : ObjectMemory) : Prop where
  loaded : EntriesLoaded bytes (tableLength bytes).toNat m
  free : ∀ p, IsOop p → (tableLength bytes).toNat ≤ p → p < n → (m.entry p).free = 1
  freeHead : m.freeHead = nonPointer

theorem wp_initializeFreeEntry (hp : p % 2 = 0) (hp' : p ≤ 65532)
    (hlen : (tableLength bytes).toNat ≤ p)
    (h : EntriesFree bytes p m) :
    Wp (initializeFreeEntry p) (fun _ => EntriesFree bytes (p + 2) ) m := by
  have hentry : ∀ q, q % 2 = 0 → ((((m.setWord objectTableSegment p 0).setFree p 1).setLocation
      p 0).entry q) = if q = p then ⟨0, 0, 0, 1, 0⟩ else m.entry q := by
    intro q hq
    rw [entry_setLocation (by omega), entry_setFree (by omega), entry_setWord_entry (by omega),
      entry_setWord_entry (by omega), if_pos rfl, decodeEntry_zero]
    split <;> rfl
  have hentry' : IsEntry p := ⟨hp, by omega⟩
  rw [initializeFreeEntry, wp_bind, wp_check, and_iff_right (by omega), Int.toNat_natCast,
    wp_bind, wp_otPut, and_iff_right ⟨hentry', by omega⟩, wp_bind, wp_freeBitOfPut,
    and_iff_right ⟨hentry', by omega⟩, wp_locationBitsOfPut,
    and_iff_right ⟨hentry', by omega⟩]
  refine ⟨fun q hq hle hlt => ?_, fun q hq hlen' hlt => ?_, ?_⟩
  · have hne : q ≠ p := by omega
    rw [hentry q hq, if_neg hne, location_setLocation (by omega), if_neg hne, setFree,
      location_setField (by omega), location_setWord_entry (by omega)]
    exact h.loaded q hq hle hlt
  · rw [hentry q hq.1]
    split
    · rfl
    · next hne =>
        have := hq.1
        exact h.free q hq hlen' (by omega)
  · rw [freeHead_setLocation hp', setFree, freeHead_setField hp', freeHead, word_setWord,
      if_neg]
    · exact h.freeHead
    · simp only [freePointerList, objectTableStart, objectTableSize, segmentSize]
      omega

/-- The free entries from `n` on are on the list. -/
structure ListedFrom (m₁ : ObjectMemory) (n : Nat) (m : ObjectMemory) : Prop where
  entry : ∀ p, IsOop p → m.entry p = m₁.entry p
  location : ∀ p, IsOop p → (m₁.entry p).free = 0 → m.location p = m₁.location p
  list : ∃ l, Linked m.location nonPointer m.freeHead l ∧ l.Pairwise (· < ·) ∧
    ∀ p, p ∈ l ↔ IsOop p ∧ n ≤ p ∧ (m.entry p).free = 1

theorem wp_addIfFree {m₁ : ObjectMemory} (hp : IsOop p) (h : ListedFrom m₁ (p + 2) m) :
    Wp (addIfFree p) (fun _ => ListedFrom m₁ p) m := by
  have hfree := m.free_lt p
  obtain ⟨l, hl, hsorted, hmem⟩ := h.list
  rw [addIfFree, wp_bind, wp_freeBitOf, and_iff_right hp.isEntry]
  by_cases hf : (m.entry p).free = 0
  · rw [if_neg (by simp [hf]), wp_pure]
    refine ⟨h.entry, h.location, l, hl, hsorted, fun q => ?_⟩
    rw [hmem]
    have := hp.1
    constructor
    · exact fun ⟨hq, hle, h1⟩ => ⟨hq, by omega, h1⟩
    · rintro ⟨hq, hle, h1⟩
      have hne : q ≠ p := by
        rintro rfl
        omega
      have := hq.1
      exact ⟨hq, by omega, h1⟩
  · have hhead := m.freeHead_lt
    have hlt := hp.isEntry.2
    have hentry : ∀ q, IsOop q →
        ((m.setLocation p m.freeHead).setFreeHead p).entry q = m.entry q := fun q hq => by
      have := hq.1
      have := hp.1
      rw [entry_setFreeHead hq.2.2, entry_setLocation (by omega)]
    have hlocation : ∀ q, IsOop q → ((m.setLocation p m.freeHead).setFreeHead p).location q =
        if q = p then m.freeHead else m.location q := fun q hq => by
      rw [location_setFreeHead hq.2.2, location_setLocation hhead]
    rw [if_pos hf, toFreePointerListAdd, wp_bind, wp_headOfFreePointerList, wp_bind,
      wp_locationBitsOfPut, and_iff_right ⟨hp.isEntry, hhead⟩, wp_headOfFreePointerListPut,
      and_iff_right hlt]
    refine ⟨fun q hq => (hentry q hq).trans (h.entry q hq), fun q hq h0 => ?_, p :: l, ?_,
      List.pairwise_cons.mpr ⟨fun q hq => ?_, hsorted⟩, fun q => ?_⟩
    · have hne : q ≠ p := by
        rintro rfl
        rw [h.entry q hq] at hf
        exact hf h0
      rw [hlocation q hq, if_neg hne]
      exact h.location q hq h0
    · rw [freeHead_setFreeHead hlt]
      refine ⟨rfl, by simp only [nonPointer]; have := hp.2.2; omega, ?_⟩
      rw [hlocation p hp, if_pos rfl]
      refine hl.congr fun q hq => ?_
      have hq' := (hmem q).mp hq
      rw [hlocation q hq'.1, if_neg (by omega)]
    · have := ((hmem q).mp hq).2.1
      omega
    · rw [List.mem_cons, hmem]
      constructor
      · rintro (rfl | ⟨hq, hle, h1⟩)
        · exact ⟨hp, le_rfl, by rw [hentry q hp]; omega⟩
        · exact ⟨hq, by omega, by rw [hentry q hq]; exact h1⟩
      · rintro ⟨hq, hle, h1⟩
        rw [hentry q hq] at h1
        have := hq.1
        have := hp.1
        by_cases hqp : q = p
        · exact .inl hqp
        · exact .inr ⟨hq, by omega, h1⟩

theorem wp_auditRound {c : Nat} (hp : IsEntry p) :
    Wp (auditRound c p) (fun _ m' => m' = m) m := by
  rw [auditRound, wp_bind, hasObject, cantBeIntegerObject, wp_bind, wp_check,
    and_iff_right (by omega), wp_bind, wp_freeBitOf, and_iff_right hp]
  by_cases hf : (m.entry p).free = 0
  · rw [if_pos hf, wp_bind, wp_countBitsOf, and_iff_right hp, wp_pure]
    split <;> rw [wp_pure]
  · rw [if_neg hf, wp_pure]
    split <;> rw [wp_pure]

theorem wp_auditFrom {c : Nat} (hn : n ≤ 32766) :
    Wp (auditFrom n c) (fun _ m' => m' = m) m := by
  induction n generalizing c with
  | zero => rw [auditFrom, wp_pure]
  | succ n ih =>
      rw [auditFrom, wp_bind]
      refine (wp_auditRound ?_).mono fun c' m' h => ?_
      · simp only [objectTableSize, segmentSize, IsEntry]
        omega
      · rw [h]
        exact ih (by omega)

theorem wp_auditFreeOops : Wp auditFreeOops (fun _ m' => m' = m) m :=
  wp_auditFrom (by decide)

/-- The entries of `m` are those of the image. -/
structure TableLoaded (bytes : List UInt8) (m : ObjectMemory) : Prop where
  live : ∀ p, IsOop p → (m.entry p).free = 0 → p < (tableLength bytes).toNat ∧
    m.entry p = imageEntry bytes p ∧ m.location p = imageLocation bytes p
  entry : ∀ p, IsOop p → p < (tableLength bytes).toNat → m.entry p = imageEntry bytes p
  freeEntries : ∃ l, l.Pairwise (· < ·) ∧ FreeEntries m l

theorem wp_buildFreeEntries {t : Nat} (ht : tableLength bytes = t) (heven : t % 2 = 0)
    (h : EntriesLoaded bytes t m) :
    Wp (buildFreeEntries t) (fun _ => TableLoaded bytes) m := by
  have htn : (tableLength bytes).toNat = t := by omega
  have hstart : EntriesFree bytes t (m.setFreeHead nonPointer) := by
    refine ⟨fun p hp hp' hlt => ?_, fun p _ _ hlt => by omega,
      freeHead_setFreeHead (by decide)⟩
    rw [entry_setFreeHead hp', location_setFreeHead hp']
    exact h p hp hp' (by omega)
  rw [buildFreeEntries, wp_bind, wp_headOfFreePointerListPut, and_iff_right (by decide), wp_bind]
  refine Wp.mono (x := forN (((objectTableSize : Int) - t + 1) / 2).toNat fun i =>
      initializeFreeEntry (t + 2 * i))
    (wp_forN (fun i => EntriesFree bytes (t + 2 * i)) (fun i m' hi h' => ?_) hstart)
    fun _ m₁ hfree => ?_
  · have hlt : t + 2 * i < objectTableSize := by omega
    simp only [objectTableSize, segmentSize] at hlt
    exact wp_initializeFreeEntry (p := t + 2 * i) (by omega) (by omega) (by omega) h'
  have hlist : ListedFrom m₁ (65534 - 2 * 0) m₁ := by
    refine ⟨fun _ _ => rfl, fun _ _ _ => rfl, [], hfree.freeHead, .nil, fun p => ?_⟩
    constructor
    · exact fun hp => absurd hp List.not_mem_nil
    · rintro ⟨hp, hle, -⟩
      have := hp.2.2
      omega
  rw [wp_bind]
  refine Wp.mono (x := forN (objectTableSize / 2 - 1) fun i =>
      addIfFree (objectTableSize - 2 * (i + 1)))
    (wp_forN (fun i => ListedFrom m₁ (65534 - 2 * i)) (fun i m' hi h' => ?_) hlist)
    fun _ m₂ hlisted => ?_
  · simp only [objectTableSize, segmentSize] at hi ⊢
    refine wp_addIfFree (p := 65534 - 2 * (i + 1)) ⟨by omega, by omega, by omega⟩ ?_
    rwa [show 65534 - 2 * (i + 1) + 2 = 65534 - 2 * i by omega]
  · rw [wp_bind]
    refine wp_auditFreeOops.mono fun c m₃ hm => ?_
    subst hm
    rw [wp_modify]
    have hentry := hlisted.entry
    obtain ⟨l, hl, hsorted, hmem⟩ := hlisted.list
    refine ⟨fun p hp h0 => ?_, fun p hp hlt => ?_, l, hsorted, hl, fun p => ?_⟩
    · change (m₃.entry p).free = 0 at h0
      rw [hentry p hp] at h0
      have hlt : p < t := by
        by_contra hge
        have := hp.2.2
        have := hp.1
        have h1 := hfree.free p hp (by omega) (by
          simp only [objectTableSize, segmentSize]
          omega)
        omega
      have hloaded := hfree.loaded p hp.1 hp.2.2 (by omega)
      refine ⟨by omega, (hentry p hp).trans hloaded.1, ?_⟩
      exact (hlisted.location p hp h0).trans hloaded.2
    · exact (hentry p hp).trans (hfree.loaded p hp.1 hp.2.2 hlt).1
    · rw [hmem]
      constructor
      · exact fun ⟨hp, _, h1⟩ => ⟨hp, h1⟩
      · rintro ⟨hp, h1⟩
        have := hp.2.1
        exact ⟨hp, by simp only [objectTableSize, segmentSize]; omega, h1⟩

theorem wp_unpackTable {t : Nat} (ht : tableLength bytes = t) (heven : t % 2 = 0)
    (hle : t ≤ 65536) : Wp (unpackTable bytes) (fun _ => TableLoaded bytes) m := by
  rw [unpackTable, wp_bind, ht]
  have hrounds : (((t : Int) + 1) / 2).toNat = t / 2 := by omega
  rw [hrounds]
  refine (wp_unpackEntries (by omega)).mono fun _ m' h => ?_
  rw [show 2 * (t / 2) = t by omega] at h
  exact wp_buildFreeEntries ht heven h

end ObjectMemory

/-- A loop halts where one of its rounds does. -/
theorem forN_eq_none {σ : Type} {body : Nat → StateT σ Option Unit} {i n : Nat} (hi : i < n)
    (h : ∀ s, body i s = none) (s : σ) : forN n body s = none := by
  induction n generalizing s with
  | zero => omega
  | succ n ih =>
      rw [forN]
      simp only [bind, StateT.bind]
      by_cases hin : i = n
      · subst hin
        cases forN i body s with
        | none => rfl
        | some r => exact h r.2
      · rw [ih (by omega)]
        rfl

/-- A longer table halts the machine: there is no entry for it. -/
theorem unpackTable_eq_none {t : Nat} (ht : tableLength bytes = t) (hlt : 65536 < t)
    (m : ObjectMemory) : unpackTable bytes m = none := by
  have hround : ∀ m, unpackEntry bytes (2 * 32768) m = none := fun m => rfl
  have hn : 32768 < ((tableLength bytes + 1) / 2).toNat := by omega
  rw [unpackTable]
  simp only [bind, StateT.bind]
  rw [forN_eq_none hn hround]
  rfl

end Crosstalk
