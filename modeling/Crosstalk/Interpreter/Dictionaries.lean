import Crosstalk.Interpreter.Collection
import Crosstalk.Interpreter.MethodCache
import Crosstalk.Lib.Probing

/-!
# Probing method dictionaries

`lookupMethodInDictionary` finds exactly the selectors that no nil slot
separates from their home slot, in dictionaries that are full as well.
-/

namespace Crosstalk

/-- The registers that a lookup sets. -/
def lookupMethodInDictionaryRegisters (dictionary : Nat) : IM Bool := do
  match ← inMemory (lookupMethodInDictionary (← get).messageSelector dictionary) with
  | some (newMethod, primitiveIndex) =>
      modify fun s => { s with newMethod, primitiveIndex }
      return true
  | none => return false

namespace ObjectMemory

variable (m : ObjectMemory) (p : Nat)

/-! ## Methods -/

def header : Nat := m.chunkWord p headerSize

def hasExtension : Bool := extractBitsToOf 0 2 (m.header p) = 7

/-- The field of the header extension. -/
def extensionIndex : Int := (extractBitsToOf 9 14 (m.header p) : Int) - 2 + literalStart

def primitiveIndex : Nat :=
  if m.hasExtension p then
    extractBitsToOf 7 14 (m.chunkWord p (headerSize + (m.extensionIndex p).toNat))
  else 0

/-- A method has a header, and the header extension if the header says so. -/
structure CompiledMethod : Prop where
  header : HasField m p headerIndex
  extension : m.hasExtension p = true → HasField m p (m.extensionIndex p)

/-! ## Dictionaries -/

/-- The number of selector slots. -/
def slots : Nat := m.chunkWord p 0 - headerSize - selectorStart

def selectorAt (i : Nat) : Nat := m.chunkWord p (headerSize + (selectorStart + i))

def methodArray : Nat := m.chunkWord p (headerSize + methodArrayIndex)

def methodEntry (i : Nat) : Nat := m.chunkWord (m.methodArray p) (headerSize + i)

/-- A method dictionary: a power of two selector slots, behind each of which that is
not nil there is a method. -/
structure MethodDictionary : Prop where
  isEntry : IsEntry p
  inside : m.location p + m.chunkWord p 0 ≤ 65536
  size : m.chunkWord p 0 = headerSize + selectorStart + m.slots p
  power : ∃ k, m.slots p = 2 ^ k
  entries : ∀ i < m.slots p, m.selectorAt p i ≠ nilPointer →
    HasField m (m.methodArray p) i ∧ CompiledMethod m (m.methodEntry p i)

end ObjectMemory

open ObjectMemory

section Rules

variable {m : ObjectMemory} {p dictionary messageSelector : Nat}

theorem wp_primitiveIndexOf {Q : Nat → ObjectMemory → Prop} (h : CompiledMethod m p) :
    Wp (primitiveIndexOf p) Q m ↔ Q (m.primitiveIndex p) m := by
  have hheader {R : Nat → ObjectMemory → Prop} : Wp (headerOf p) R m ↔ R (m.header p) m := by
    rw [headerOf, fetchPointerOfObject_eq, wp_fetchWordOfObject]
    exact and_iff_right h.header
  rw [primitiveIndexOf, flagValueOf, wp_bind, wp_bind, hheader, wp_pure, wp_ite]
  cases hext : m.hasExtension p with
  | true =>
      have hflag : extractBitsToOf 0 2 (m.header p) = 7 := of_decide_eq_true hext
      rw [headerExtensionOf, literalCountOf, wp_bind, wp_bind, wp_bind, hheader, wp_pure,
        literalOfMethod, fetchPointerOfObject_eq, wp_fetchWordOfObject, wp_pure,
        ObjectMemory.primitiveIndex, if_pos hext]
      exact ⟨fun hQ => (hQ.1 hflag).2, fun hQ => ⟨fun _ => ⟨h.extension hext, hQ⟩,
        fun hn => absurd hflag hn⟩⟩
  | false =>
      have hflag : extractBitsToOf 0 2 (m.header p) ≠ 7 := of_decide_eq_false hext
      rw [wp_pure, ObjectMemory.primitiveIndex, hext, if_neg Bool.false_ne_true]
      exact ⟨fun hQ => hQ.2 hflag, fun hQ => ⟨fun hn => absurd hn hflag, fun _ => hQ⟩⟩

namespace ObjectMemory.MethodDictionary

variable (h : MethodDictionary m dictionary)

include h

theorem slots_pos : 0 < m.slots dictionary := by
  obtain ⟨k, hk⟩ := h.power
  rw [hk]
  exact Nat.two_pow_pos k

theorem hasField {i : Int} (h0 : 0 ≤ i) (hi : i < selectorStart + m.slots dictionary) :
    HasField m dictionary i := by
  have hsize := h.size
  have hinside := h.inside
  have hword := m.chunkWord_lt dictionary 0
  exact ⟨h.isEntry, h0, by omega, by omega⟩

/-- The home slot. -/
theorem maskedHash_eq : maskedHash ((m.chunkWord dictionary 0 : Int) - headerSize - selectorStart - 1)
    messageSelector = hash messageSelector % m.slots dictionary := by
  have hsize := h.size
  have hword := m.chunkWord_lt dictionary 0
  obtain ⟨k, hk⟩ := h.power
  have hmask : (((m.chunkWord dictionary 0 : Int) - headerSize - selectorStart - 1) %
      4294967296).toNat = 2 ^ k - 1 := by
    have hpos := Nat.two_pow_pos k
    omega
  rw [maskedHash, hmask, Nat.and_comm, Nat.and_two_pow_sub_one_eq_mod, hk]

theorem wp_methodAt {Q : Nat × Nat → ObjectMemory → Prop} {i : Nat}
    (hi : i < m.slots dictionary) (hslot : m.selectorAt dictionary i ≠ nilPointer) :
    Wp (methodAt dictionary (selectorStart + i : Nat)) Q m ↔
      Q (m.methodEntry dictionary i, m.primitiveIndex (m.methodEntry dictionary i)) m := by
  obtain ⟨hentry, hmethod⟩ := h.entries i hi hslot
  have hindex : ((selectorStart + i : Nat) : Int) - selectorStart = i := by omega
  have harray : (methodArrayIndex : Int) < selectorStart + m.slots dictionary := by
    simp only [methodArrayIndex, selectorStart]
    omega
  rw [methodAt, wp_bind, fetchPointerOfObject_eq, wp_fetchWordOfObject,
    and_iff_right (h.hasField (Int.natCast_nonneg _) harray), wp_bind, hindex, wp_fetchWordOfObject]
  refine (and_iff_right hentry).trans ?_
  rw [wp_bind]
  exact (wp_primitiveIndexOf hmethod).trans (wp_pure _ _ _)

end ObjectMemory.MethodDictionary

end Rules

/-! ## The search -/

section Search

variable {m : ObjectMemory} {dictionary messageSelector n j : Nat} {c : Nat × Bool}

/-- The home slot of a selector. -/
def home (m : ObjectMemory) (dictionary messageSelector : Nat) : Nat :=
  hash messageSelector % m.slots dictionary

/-- The first `n` probes find neither nil nor the selector. -/
def PassedSlots (m : ObjectMemory) (dictionary messageSelector n : Nat) : Prop :=
  Passed (m.selectorAt dictionary) nilPointer messageSelector (m.slots dictionary)
    (home m dictionary messageSelector) n

/-- Probe `j` finds the selector, and none before it finds nil. -/
def HitSlot (m : ObjectMemory) (dictionary messageSelector j : Nat) : Prop :=
  Hit (m.selectorAt dictionary) nilPointer messageSelector (m.slots dictionary)
    (home m dictionary messageSelector) j

/-- The slot of probe `j`. -/
def slotOf (m : ObjectMemory) (dictionary messageSelector j : Nat) : Nat :=
  probed (m.slots dictionary) (home m dictionary messageSelector) j

/-- Before probe `n`: the loop variables, and the probes that have been made. -/
structure Probing (m : ObjectMemory) (dictionary messageSelector : Nat) (c : Nat × Bool) (n : Nat) :
    Prop where
  index : c.1 = selectorStart + slotOf m dictionary messageSelector n
  turn : (if c.2 then m.slots dictionary else 0) + slotOf m dictionary messageSelector n =
    home m dictionary messageSelector + n
  passed : PassedSlots m dictionary messageSelector n

/-- What the search answers. -/
def Outcome (m : ObjectMemory) (dictionary messageSelector : Nat) : Option (Nat × Nat) → Prop
  | none => ∀ j, ¬HitSlot m dictionary messageSelector j
  | some found => ∃ j, HitSlot m dictionary messageSelector j ∧
      PassedSlots m dictionary messageSelector j ∧
      found.1 = m.methodEntry dictionary (slotOf m dictionary messageSelector j) ∧
      found.2 = m.primitiveIndex found.1

/-- The probes that are left. -/
def probesLeft (m : ObjectMemory) (dictionary : Nat) (c : Nat × Bool) : Nat :=
  2 * m.slots dictionary - ((if c.2 then m.slots dictionary else 0) + (c.1 - selectorStart))

theorem home_lt (hd : MethodDictionary m dictionary) :
    home m dictionary messageSelector < m.slots dictionary := Nat.mod_lt _ hd.slots_pos

theorem slotOf_lt (hd : MethodDictionary m dictionary) :
    slotOf m dictionary messageSelector n < m.slots dictionary := probed_lt hd.slots_pos

namespace Probing

theorem start (hd : MethodDictionary m dictionary) : Probing m dictionary messageSelector
    (home m dictionary messageSelector + selectorStart, false) 0 := by
  have hslot : slotOf m dictionary messageSelector 0 = home m dictionary messageSelector :=
    Nat.mod_eq_of_lt (home_lt hd)
  exact ⟨by rw [hslot, Nat.add_comm], by rw [hslot]; exact Nat.zero_add _, .zero⟩

/-- The next slot, in the same turn. -/
theorem next (h : Probing m dictionary messageSelector c n)
    (hpassed : PassedSlots m dictionary messageSelector (n + 1))
    (hlt : slotOf m dictionary messageSelector n + 1 < m.slots dictionary) :
    Probing m dictionary messageSelector (c.1 + 1, c.2) (n + 1) := by
  have hturn := h.turn
  have hslot : slotOf m dictionary messageSelector (n + 1) =
      slotOf m dictionary messageSelector n + 1 := by
    rw [slotOf, probed, ← Nat.add_assoc, ← hturn]
    cases c.2 with
    | true => rw [if_pos rfl, Nat.add_assoc, Nat.add_mod_left, Nat.mod_eq_of_lt hlt]
    | false => rw [if_neg Bool.false_ne_true, Nat.zero_add, Nat.mod_eq_of_lt hlt]
  have hindex := h.index
  refine ⟨?_, ?_, hpassed⟩
  · rw [hslot, hindex, Nat.add_assoc]
  · rw [hslot, ← Nat.add_assoc, hturn, Nat.add_assoc]

/-- The first slot, in the second turn. -/
theorem wrap (h : Probing m dictionary messageSelector c n)
    (hpassed : PassedSlots m dictionary messageSelector (n + 1)) (hc : c.2 = false)
    (hend : slotOf m dictionary messageSelector n + 1 = m.slots dictionary) :
    Probing m dictionary messageSelector (selectorStart, true) (n + 1) := by
  have hturn := h.turn
  rw [hc, if_neg Bool.false_ne_true] at hturn
  have hsum : home m dictionary messageSelector + (n + 1) = m.slots dictionary := by omega
  have hslot : slotOf m dictionary messageSelector (n + 1) = 0 := by
    rw [slotOf, probed, hsum, Nat.mod_self]
  refine ⟨by rw [hslot], ?_, hpassed⟩
  rw [hslot, if_pos rfl, hsum, Nat.add_zero]

theorem wp_round (hd : MethodDictionary m dictionary) (hne : messageSelector ≠ nilPointer)
    (h : Probing m dictionary messageSelector c n) :
    Wp (probeDictionary messageSelector dictionary
        ((m.chunkWord dictionary 0 : Int) - headerSize) c)
      (LoopPost (fun c' m' => (m' = m ∧ ∃ n', Probing m dictionary messageSelector c' n') ∧
          probesLeft m dictionary c' < probesLeft m dictionary c)
        (fun r m' => m' = m ∧ Outcome m dictionary messageSelector r)) m := by
  have hlt : slotOf m dictionary messageSelector n < m.slots dictionary := slotOf_lt hd
  have hhome : home m dictionary messageSelector < m.slots dictionary := home_lt hd
  have hsize := hd.size
  have hindex := h.index
  have hturn := h.turn
  have hread : m.chunkWord dictionary (headerSize + (c.1 : Int).toNat) =
      m.selectorAt dictionary (slotOf m dictionary messageSelector n) := by
    rw [Int.toNat_natCast, hindex, selectorAt]
  rw [probeDictionary, wp_bind, fetchPointerOfObject_eq, wp_fetchWordOfObject,
    and_iff_right (hd.hasField (Int.natCast_nonneg _) (by omega)), hread, wp_ite]
  refine ⟨fun hnil => ?_, fun hnil => ?_⟩
  · rw [wp_pure, loopPost_inr]
    exact ⟨rfl, fun j => h.passed.not_hit_of_empty hne hnil⟩
  rw [wp_ite]
  refine ⟨fun hkey => ?_, fun hkey => ?_⟩
  · rw [wp_bind, hindex, hd.wp_methodAt hlt hnil, wp_pure, loopPost_inr]
    exact ⟨rfl, n, h.passed.hit hd.slots_pos hkey, h.passed, rfl, rfl⟩
  have hpassed : PassedSlots m dictionary messageSelector (n + 1) := h.passed.succ hnil hkey
  rw [wp_ite]
  refine ⟨fun hend => ?_, fun hend => ?_⟩
  · rw [wp_ite]
    refine ⟨fun hc => ?_, fun hc => ?_⟩
    · rw [hc, if_pos rfl] at hturn
      rw [wp_pure, loopPost_inr]
      exact ⟨rfl, fun j => hpassed.not_hit_of_turn (by omega)⟩
    · rw [Bool.not_eq_true] at hc
      rw [wp_pure, loopPost_inl]
      refine ⟨⟨rfl, _, h.wrap hpassed hc (by omega)⟩, ?_⟩
      rw [probesLeft, probesLeft, hc, if_pos rfl, if_neg Bool.false_ne_true]
      omega
  · rw [wp_pure, loopPost_inl]
    refine ⟨⟨rfl, _, h.next hpassed (by omega)⟩, ?_⟩
    rw [probesLeft, probesLeft]
    cases c.2 with
    | true => 
        rw [if_pos rfl]
        omega
    | false => 
        rw [if_neg Bool.false_ne_true]
        omega

end Probing

/-- The search ends, and its answer is the first hit. -/
theorem wp_lookupMethodInDictionary (hd : MethodDictionary m dictionary)
    (hne : messageSelector ≠ nilPointer) : Wp (lookupMethodInDictionary messageSelector dictionary)
      (fun r m' => m' = m ∧ Outcome m dictionary messageSelector r) m := by
  have hsize := hd.size
  have hlocation := hd.inside
  have hpos := hd.slots_pos
  rw [lookupMethodInDictionary, wp_bind, wp_fetchWordLengthOf,
    and_iff_right ⟨hd.isEntry, by omega⟩]
  dsimp only
  rw [hd.maskedHash_eq]
  refine wp_iterate (fun c m' => m' = m ∧ ∃ n, Probing m dictionary messageSelector c n)
    (fun c _ => probesLeft m dictionary c) ?_ ⟨rfl, 0, .start hd⟩
  rintro c _ ⟨rfl, n, hc⟩
  refine (hc.wp_round hd hne).mono fun r m' hr => ?_
  cases r with
  | inl c' => exact hr
  | inr r => exact hr

end Search

/-- The lookup in a method dictionary ends. It answers true exactly where a slot holds
the selector and no slot from the home slot to it is nil, with the method of the first
such slot and its primitive; otherwise it sets no register. -/
theorem lookupMethodInDictionary_exact (s : Interpreter) (dictionary : Nat)
    (hd : MethodDictionary s.memory dictionary) (hne : s.messageSelector ≠ nilPointer) :
    ∃ found s', lookupMethodInDictionaryRegisters dictionary s = some (found, s') ∧
      (found = true ↔ ∃ j, HitSlot s.memory dictionary s.messageSelector j) ∧
      (found = true → ∃ j method, HitSlot s.memory dictionary s.messageSelector j ∧
        (∀ i < j, s.memory.selectorAt dictionary (slotOf s.memory dictionary s.messageSelector i) ≠
          s.messageSelector) ∧
        method = s.memory.methodEntry dictionary
          (slotOf s.memory dictionary s.messageSelector j) ∧
        s' = { s with newMethod := method, primitiveIndex := s.memory.primitiveIndex method }) ∧
      (found = false → s' = s) := by
  obtain ⟨r, _, hrun, rfl, hout⟩ := wp_lookupMethodInDictionary hd hne
  have hlookup {R : Option (Nat × Nat) → Interpreter → Prop} :
      Wp (inMemory (lookupMethodInDictionary s.messageSelector dictionary)) R s ↔ R r s := by
    rw [wp_inMemory, wp_of_run hrun]
    rfl
  cases r with
  | none =>
      refine ⟨false, s, Wp.run_eq ?_, ⟨fun h => absurd h Bool.false_ne_true, fun ⟨j, hj⟩ =>
        absurd hj (hout j)⟩, fun h => absurd h Bool.false_ne_true, fun _ => rfl⟩
      rw [lookupMethodInDictionaryRegisters, wp_bind, wp_get, wp_bind, hlookup, wp_pure]
      exact ⟨rfl, rfl⟩
  | some found =>
      obtain ⟨j, hhit, hpassed, hmethod, hprimitive⟩ := hout
      refine ⟨true, { s with newMethod := found.1, primitiveIndex := found.2 }, Wp.run_eq ?_,
        ⟨fun _ => ⟨j, hhit⟩, fun _ => rfl⟩, fun _ => ⟨j, found.1, hhit, fun i hi => (hpassed i hi).2,
          hmethod, by rw [hprimitive]⟩, fun h => absurd h.symm Bool.false_ne_true⟩
      rw [lookupMethodInDictionaryRegisters, wp_bind, wp_get, wp_bind, hlookup]
      exact (wp_bind _ _ _ _).mpr ((wp_modify _ _ _).mpr ((wp_pure _ _ _).mpr ⟨rfl, rfl⟩))

/-- A dictionary of four slots: the selector 30 is in the home slot of the selector 22, the
last one, which the first slot holds. -/
def wrappedMethods : ObjectMemory :=
  (((ObjectMemory.blank.place 6 256 10 [8, 0, 5, 8, 22, 2, 2, 30]).place 8 256 20
    [6, 0, 10, 2, 2, 12]).place 10 256 30 [3, 34, 1]).place 12 256 34 [3, 34, 3]

def beforeWrap : Interpreter :=
  { beforeSend with
    host := { beforeSend.host with memory := wrappedMethods }
    messageSelector := 22 }

theorem methodDictionary_wrappedMethods : MethodDictionary wrappedMethods 6 where
  isEntry := by decide
  inside := by decide
  size := by decide
  power := ⟨2, by decide⟩
  entries i hi hne := by
    have hslots : wrappedMethods.slots 6 = 4 := by decide
    have hcases : i = 0 ∨ i = 1 ∨ i = 2 ∨ i = 3 := by omega
    rcases hcases with rfl | rfl | rfl | rfl
    · exact ⟨⟨by decide, by decide, by decide, by decide⟩,
        ⟨⟨by decide, by decide, by decide, by decide⟩, fun h => absurd h (by decide)⟩⟩
    · exact absurd (by decide) hne
    · exact absurd (by decide) hne
    · exact ⟨⟨by decide, by decide, by decide, by decide⟩,
        ⟨⟨by decide, by decide, by decide, by decide⟩, fun h => absurd h (by decide)⟩⟩

theorem hitSlot_wrappedMethods : HitSlot wrappedMethods 6 22 1 :=
  ⟨by decide, by decide, fun i hi => by
    obtain rfl : i = 0 := by omega
    decide⟩

/-- The second probe wraps to the first slot, and finds the method there. -/
theorem lookupMethodInDictionary_wrapped :
    slotOf wrappedMethods 6 22 0 = 3 ∧ slotOf wrappedMethods 6 22 1 = 0 ∧
      ∃ s', lookupMethodInDictionaryRegisters 6 beforeWrap = some (true, s') ∧
        s' = { beforeWrap with newMethod := 10, primitiveIndex := 0 } := by
  obtain ⟨found, s', hrun, hfound, hset, -⟩ :=
    lookupMethodInDictionary_exact beforeWrap 6 methodDictionary_wrappedMethods (by decide)
  obtain rfl : found = true := hfound.mpr ⟨1, hitSlot_wrappedMethods⟩
  obtain ⟨j, method, hhit, hfirst, rfl, hs⟩ := hset rfl
  obtain rfl : j = 1 := by
    by_contra hne
    have hcases : j = 0 ∨ 1 < j := by omega
    rcases hcases with rfl | hlt
    · exact absurd hhit.found (by decide)
    · exact hfirst 1 hlt hitSlot_wrappedMethods.found
  exact ⟨by decide, by decide, s', hrun, hs⟩

end Crosstalk
