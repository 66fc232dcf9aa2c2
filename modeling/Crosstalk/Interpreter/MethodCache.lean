import Crosstalk.Interpreter.MethodLookup
import Crosstalk.Lib.Repeats

/-!
# The method cache

Every filled entry of the cache is the result of a lookup along the superclass
chain. The cache stays so while the objects that the lookups read stay the same.
-/

namespace Crosstalk

/-! ## What a lookup reads -/

/-- Field `i` of `p` still reads the same. -/
def SameField (m m' : ObjectMemory) (i : Int) (p : Nat) : Prop :=
  ∀ v, fetchPointerOfObject i p m = some (v, m) → fetchPointerOfObject i p m' = some (v, m')

/-- The object `p` is still the same. -/
structure SameObject (m m' : ObjectMemory) (p : Nat) : Prop where
  length : ∀ n, fetchWordLengthOf p m = some (n, m) → fetchWordLengthOf p m' = some (n, m')
  field : ∀ i, SameField m m' i p

/-- `c` is `cls` or a superclass of it. -/
inductive Inherits (m : ObjectMemory) (cls : Nat) : Nat → Prop
  | refl : Inherits m cls cls
  | superclass {c c' : Nat} : Inherits m cls c → superclassOf c m = some (c', m) →
      Inherits m cls c'

/-- The superclass links, the method dictionaries and the method arrays of `cls`
are unchanged, and `method` is still the same method. -/
structure Unchanged (m m' : ObjectMemory) (cls method : Nat) : Prop where
  superclass : ∀ c, Inherits m cls c → SameField m m' superclassIndex c
  messageDictionary : ∀ c, Inherits m cls c → SameField m m' messageDictionaryIndex c
  dictionary : ∀ c d, Inherits m cls c → fetchPointerOfObject messageDictionaryIndex c m =
    some (d, m) → SameObject m m' d
  methodArray : ∀ c d a, Inherits m cls c → fetchPointerOfObject messageDictionaryIndex c m =
    some (d, m) → fetchPointerOfObject methodArrayIndex d m = some (a, m) → SameObject m m' a
  method : SameObject m m' method

variable {m m' : ObjectMemory} {p method cls messageSelector dictionary : Nat} {i : Int}
  {s s' : Interpreter}

theorem SameObject.refl (m : ObjectMemory) (p : Nat) : SameObject m m p :=
  ⟨fun _ h => h, fun _ _ h => h⟩

theorem fetchPointerOfObject_reads {v : Nat} {m₁ : ObjectMemory}
    (h : fetchPointerOfObject i p m = some (v, m₁)) : m₁ = m := by
  have hw : Wp (fetchPointerOfObject i p) (fun _ t => t = m₁) m := ⟨v, m₁, h, rfl⟩
  rw [fetchPointerOfObject_eq, wp_fetchWordOfObject] at hw
  exact hw.2.symm

theorem fetchWordLengthOf_reads {n : Int} {m₁ : ObjectMemory}
    (h : fetchWordLengthOf p m = some (n, m₁)) : m₁ = m := by
  have hw : Wp (fetchWordLengthOf p) (fun _ t => t = m₁) m := ⟨n, m₁, h, rfl⟩
  rw [wp_fetchWordLengthOf] at hw
  exact hw.2.symm

section Repeats

variable {α : Type} {P : Nat → Prop}

theorem SameField.repeats (h : SameField m m' i p) :
    Repeats m m' P (fetchPointerOfObject i p) := by
  intro v m₁ hrun _
  obtain rfl := fetchPointerOfObject_reads hrun
  exact ⟨rfl, h v hrun⟩

theorem SameObject.repeats_length {P : Int → Prop} (h : SameObject m m' p) :
    Repeats m m' P (fetchWordLengthOf p) := by
  intro n m₁ hrun _
  obtain rfl := fetchWordLengthOf_reads hrun
  exact ⟨rfl, h.length n hrun⟩

theorem repeats_headerOf (h : SameObject m m' method) : Repeats m m' P (headerOf method) :=
  (h.field _).repeats

theorem repeats_primitiveIndexOf (h : SameObject m m' method) :
    Repeats m m' P (primitiveIndexOf method) := by
  have hflag : Repeats m m' (fun _ => True) (flagValueOf method) :=
    (repeats_headerOf h).bind fun _ _ => .pure _
  have hcount : Repeats m m' (fun _ => True) (literalCountOf method) :=
    (repeats_headerOf h).bind fun _ _ => .pure _
  have hext : Repeats m m' (fun _ => True) (headerExtensionOf method) :=
    hcount.bind fun _ _ => (h.field _).repeats
  refine hflag.bind fun flag _ => ?_
  split
  · exact hext.bind fun _ _ => .pure _
  · exact .pure _

end Repeats

/-! ## The lookup -/

/-- The lookup finds no other method than `method`. -/
def Only (method : Nat) (r : Option (Nat × Nat)) : Prop := ∀ found, r = some found → found.1 = method

theorem repeats_methodAt {P : Nat × Nat → Prop} (hd : SameObject m m' dictionary)
    (ha : ∀ a, fetchPointerOfObject methodArrayIndex dictionary m = some (a, m) →
      SameObject m m' a) (hm : SameObject m m' method) (hP : ∀ found, P found → found.1 = method) :
    Repeats m m' P (methodAt dictionary i) := by
  refine (hd.field _).repeats.bind fun a hread => ?_
  refine ((ha a hread).field _).repeats.bind fun newMethod _ => ?_
  by_cases h : newMethod = method
  · subst h
    exact (repeats_primitiveIndexOf hm).bind fun _ _ => .pure _
  · refine .of_wlp ?_
    rw [wlp_bind]
    exact fun primitive s₁ _ => (wlp_pure _ _ _).mpr fun hfound => h (hP _ hfound)

theorem repeats_probeDictionary {length : Int} {c : Nat × Bool} (hd : SameObject m m' dictionary)
    (ha : ∀ a, fetchPointerOfObject methodArrayIndex dictionary m = some (a, m) →
      SameObject m m' a) (hm : SameObject m m' method) :
    Repeats m m' (fun r => ∀ found, r = .inr found → Only method found)
      (probeDictionary messageSelector dictionary length c) := by
  refine (hd.field _).repeats.bind fun nextSelector _ => ?_
  split
  · exact .pure _
  · split
    · -- the selector is there: the method found has to be `method`
      refine (repeats_methodAt (P := fun found => found.1 = method) hd ha hm fun _ h => h).bind_of
        (fun _ _ => .pure _) fun found _ hne => ?_
      exact (wlp_pure _ _ _).mpr fun hr => hne (hr _ rfl found rfl)
    · split
      · split
        · exact .pure _
        · exact .pure _
      · exact .pure _

theorem repeats_lookupMethodInDictionary (hd : SameObject m m' dictionary)
    (ha : ∀ a, fetchPointerOfObject methodArrayIndex dictionary m = some (a, m) →
      SameObject m m' a) (hm : SameObject m m' method) :
    Repeats m m' (Only method) (lookupMethodInDictionary messageSelector dictionary) := by
  refine hd.repeats_length.bind fun length _ => ?_
  exact .iterate (fun _ => True) (fun c _ => ⟨repeats_probeDictionary hd ha hm,
    fun _ _ _ _ _ => trivial⟩) trivial

theorem repeats_lookupRound {currentClass : Nat} (h : Unchanged m m' cls method)
    (hc : Inherits m cls currentClass) :
    Repeats m m' (fun r => ∀ found, r = .inr found → Only method found)
      (lookupRound messageSelector currentClass) := by
  rw [lookupRound]
  split
  · exact .pure _
  · refine (h.messageDictionary _ hc).repeats.bind fun dictionary hread => ?_
    refine (repeats_lookupMethodInDictionary (h.dictionary _ _ hc hread)
      (fun a ha => h.methodArray _ _ a hc hread ha) h.method).bind_of (fun r _ => ?_)
      fun r m₁ hne => ?_
    · cases r with
      | none => exact (h.superclass _ hc).repeats.bind fun _ _ => .pure _
      | some found => exact .pure _
    · cases r with
      | none => exact absurd (fun found hf => by cases hf) hne
      | some found => exact (wlp_pure _ _ _).mpr fun hr => hne (hr _ rfl)

/-- Only the superclass link leads to the next class. -/
theorem lookupRound_inherits {currentClass : Nat} (hc : Inherits m cls currentClass) :
    Wlp (lookupRound messageSelector currentClass)
      (fun r _ => ∀ c, r = .inl c → Inherits m cls c) m := by
  rw [lookupRound]
  split
  · exact (wlp_pure _ _ _).mpr fun c hr => by cases hr
  · rw [wlp_bind]
    intro dictionary m₁ hread
    obtain rfl := fetchPointerOfObject_reads hread
    rw [wlp_bind]
    intro r m₂ hlookup
    cases r with
    | some found => exact (wlp_pure _ _ _).mpr fun c hr => by cases hr
    | none =>
        have hsame : Repeats m₁ m₁ (Only 0) (lookupMethodInDictionary messageSelector dictionary) :=
          repeats_lookupMethodInDictionary (.refl _ _) (fun a _ => .refl _ a) (.refl _ _)
        obtain ⟨rfl, -⟩ := hsame none m₂ hlookup fun found hr => by cases hr
        refine (wlp_bind _ _ _ _).mpr fun c m₃ hsuper => ?_
        refine (wlp_pure _ _ _).mpr fun c' hr => ?_
        cases hr
        obtain rfl := fetchPointerOfObject_reads hsuper
        exact .superclass hc hsuper

/-- A lookup that finds `method` does so again in a memory where it is unchanged. -/
theorem repeats_lookupInChain (h : Unchanged m m' cls method) :
    Repeats m m' (Only method) (lookupInChain messageSelector cls) :=
  .iterate (Inherits m cls) (fun _ hc => ⟨repeats_lookupRound h hc, lookupRound_inherits hc⟩) .refl

/-! ## The register of the cache -/

/-- Only `findNewMethodInClass` and `initializeMethodCache` touch the cache. -/
def KeepsCache {α : Type} (x : IM α) : Prop :=
  ∀ s, Wlp x (fun _ s' => s'.methodCache = s.methodCache) s

namespace KeepsCache

variable {α β : Type}

protected theorem pure (a : α) : KeepsCache (pure a : IM α) := fun _ => (wlp_pure _ _ _).mpr rfl

theorem bind {x : IM α} {f : α → IM β} (hx : KeepsCache x) (hf : ∀ a, KeepsCache (f a)) :
    KeepsCache (x >>= f) := fun s => (wlp_bind _ _ _ _).mpr
  ((hx s).mono fun a s₁ h₁ => (hf a s₁).mono fun _ _ h₂ => h₂.trans h₁)

theorem get : KeepsCache (get : IM Interpreter) := fun _ => (wlp_get _ _).mpr rfl

theorem modify {f : Interpreter → Interpreter} (hf : ∀ s, (f s).methodCache = s.methodCache) :
    KeepsCache (modify f : IM PUnit) := fun s => (wlp_modify _ _ _).mpr (hf s)

theorem check (c : Prop) [Decidable c] : KeepsCache (Crosstalk.check c : IM Unit) :=
  fun _ => (wlp_check _ _ _).mpr fun _ => rfl

theorem ite {c : Prop} [Decidable c] {x y : IM α} (hx : KeepsCache x) (hy : KeepsCache y) :
    KeepsCache (if c then x else y) := fun s => (wlp_ite _ _ _ _ _).mpr ⟨fun _ => hx s, fun _ => hy s⟩

theorem inMemory (x : OM α) : KeepsCache (inMemory x) := by
  intro s a s' h
  rw [Crosstalk.inMemory, onHost] at h
  split at h
  · cases h
  · cases h
    rfl

theorem storeInteger (i : Int) (p : Nat) (v : Int) :
    KeepsCache (storeIntegerOfObjectWithValue i p v) :=
  ite (inMemory _) (bind (bind (modify fun _ => rfl) fun _ => .pure _) fun _ => .pure _)

theorem fetchInteger (i : Int) (p : Nat) : KeepsCache (fetchIntegerOfObject i p) :=
  bind (inMemory _) fun _ => ite (.pure _) (bind (modify fun _ => rfl) fun _ => .pure _)

theorem storeContextRegisters : KeepsCache storeContextRegisters :=
  bind get fun _ => bind (storeInteger _ _ _) fun _ => storeInteger _ _ _

theorem fetchHomeContext : KeepsCache fetchHomeContext :=
  bind get fun _ => bind (bind (inMemory _) fun _ => .pure _) fun _ => ite (inMemory _) (.pure _)

theorem fetchContextRegisters : KeepsCache fetchContextRegisters :=
  bind fetchHomeContext fun _ => bind (modify fun _ => rfl) fun _ => bind (inMemory _) fun _ =>
    bind (modify fun _ => rfl) fun _ => bind (inMemory _) fun _ => bind (modify fun _ => rfl)
      fun _ => bind get fun _ => bind (fetchInteger _ _) fun _ => bind (modify fun _ => rfl)
        fun _ => bind (fetchInteger _ _) fun _ => modify fun _ => rfl

theorem reclaimInaccessibleObjects : KeepsCache reclaimInaccessibleObjects := by
  have hprepare : KeepsCache prepareForCollection :=
    bind storeContextRegisters fun _ => bind (inMemory _) fun _ => bind get fun _ =>
      bind (inMemory _) fun _ => ite (inMemory _) (.pure _)
  have hcompleted : KeepsCache collectionCompleted :=
    bind get fun _ => bind (inMemory _) fun _ => bind fetchContextRegisters fun _ =>
      bind get fun _ => ite (inMemory _) (.pure _)
  exact bind (inMemory _) fun _ => bind (bind (inMemory _) fun _ => hprepare) fun _ =>
    bind (inMemory _) fun _ => hcompleted

theorem instantiateClassWithPointers (cls n : Nat) :
    KeepsCache (instantiateClassWithPointers cls n) := by
  have hchunk : ∀ size, KeepsCache (allocateChunk size) := fun size =>
    bind (inMemory _) fun _ => bind (ite (bind reclaimInaccessibleObjects fun _ => inMemory _)
      (.pure _)) fun _ => bind (check _) fun _ => bind (inMemory _) fun _ => .pure _
  exact bind (inMemory _) fun _ => bind (hchunk _) fun _ => bind (inMemory _) fun _ => .pure _

theorem createActualMessage : KeepsCache createActualMessage :=
  bind get fun _ => bind (instantiateClassWithPointers _ _) fun _ =>
    bind (instantiateClassWithPointers _ _) fun _ => bind (inMemory _) fun _ =>
      bind (inMemory _) fun _ => bind get fun _ => bind (inMemory _) fun _ =>
        bind (modify fun _ => rfl) fun _ =>
          bind (bind (modify fun _ => rfl) fun _ => bind get fun _ => inMemory _) fun _ =>
            modify fun _ => rfl

end KeepsCache

/-! ## One call -/

theorem inMemory_eq_some {α : Type} {x : OM α} {a : α} : inMemory x s = some (a, s') ↔
    ∃ m, x s.memory = some (a, m) ∧ s' = { s with host := { s.host with memory := m } } := by
  rw [inMemory, onHost, onMemory, Interpreter.memory]
  cases x s.host.memory with
  | none => simp
  | some r =>
      constructor
      · intro h
        cases h
        exact ⟨_, rfl, rfl⟩
      · rintro ⟨m, hm, rfl⟩
        cases hm
        rfl

theorem lookupInChain_reads {found : Nat × Nat} {m₁ : ObjectMemory}
    (h : lookupInChain messageSelector cls m = some (some found, m₁)) : m₁ = m := by
  have hsame : Unchanged m m cls found.1 := ⟨fun _ _ _ h => h, fun _ _ _ h => h,
    fun _ _ _ _ => .refl _ _, fun _ _ _ _ _ _ => .refl _ _, .refl _ _⟩
  exact (repeats_lookupInChain hsame _ _ h fun found' hf => by cases hf; rfl).1

/-- The registers after a lookup are those that the search along the chain finds
for the selector after the lookup. -/
theorem lookupMethodInClass_finds (cls : Nat) (s : Interpreter) :
    Wlp (lookupMethodInClass cls) (fun _ s' => s'.methodCache = s.methodCache ∧
      lookupInChain s'.messageSelector cls s'.memory =
        some (some (s'.newMethod, s'.primitiveIndex), s'.memory)) s := by
  refine wlp_iterate (fun _ s' => s'.methodCache = s.methodCache) ?_ rfl
  intro _ s₁ hcache
  rw [lookupOnce, wlp_bind, wlp_get, wlp_bind]
  intro r s₂ hrun
  obtain ⟨m, hlookup, rfl⟩ := inMemory_eq_some.mp hrun
  cases r with
  | none =>
      refine (wlp_bind _ _ _ _).mpr ((KeepsCache.createActualMessage _).mono fun _ s₃ h₃ => ?_)
      rw [wlp_bind, wlp_modify, wlp_pure]
      exact h₃.trans hcache
  | some found =>
      obtain rfl := lookupInChain_reads hlookup
      refine (wlp_bind _ _ _ _).mpr ((wlp_modify _ _ _).mpr ((wlp_pure _ _ _).mpr ⟨hcache, ?_⟩))
      exact hlookup

/-- From nil, which is no class, the lookup never ends. -/
theorem lookupMethodInClass_nil (s : Interpreter) :
    Wlp (lookupMethodInClass nilPointer) (fun _ _ => False) s := by
  refine wlp_iterate (fun _ _ => True) ?_ trivial
  intro _ s₁ _
  rw [lookupOnce, wlp_bind, wlp_get, wlp_bind]
  intro r s₂ hrun
  obtain ⟨m, hlookup, rfl⟩ := inMemory_eq_some.mp hrun
  have hnone : lookupInChain s₁.messageSelector nilPointer s₁.memory = some (none, s₁.memory) :=
    iterate_inr rfl
  rw [hnone] at hlookup
  cases hlookup
  refine (wlp_bind _ _ _ _).mpr fun _ s₃ _ => (wlp_bind _ _ _ _).mpr ?_
  exact (wlp_modify _ _ _).mpr ((wlp_pure _ _ _).mpr trivial)

theorem lookupMethodInClass_of_found {found : Nat × Nat}
    (h : lookupInChain s.messageSelector cls s.memory = some (some found, s.memory)) :
    lookupMethodInClass cls s =
      some (true, { s with newMethod := found.1, primitiveIndex := found.2 }) := by
  have hmem : inMemory (lookupInChain s.messageSelector cls) s = some (some found, s) :=
    inMemory_eq_some.mpr ⟨_, h, rfl⟩
  have hround : Wp (lookupOnce cls) (fun r s' => r = .inr true ∧
      s' = { s with newMethod := found.1, primitiveIndex := found.2 }) s := by
    rw [lookupOnce, wp_bind, wp_get, wp_bind]
    refine ⟨_, _, hmem, (wp_bind _ _ _ _).mpr ?_⟩
    exact (wp_modify _ _ _).mpr ((wp_pure _ _ _).mpr ⟨rfl, rfl⟩)
  obtain ⟨_, _, hrun, rfl, rfl⟩ := hround
  exact iterate_inr hrun

/-! ## The invariant -/

/-- Every entry with a class is the result of a lookup. -/
def CacheSound (s : Interpreter) : Prop :=
  ∀ k < 256, s.methodCache (4 * k + 1) ≠ nilPointer →
    lookupInChain (s.methodCache (4 * k)) (s.methodCache (4 * k + 1)) s.memory =
      some (some (s.methodCache (4 * k + 2), s.methodCache (4 * k + 3)), s.memory)

/-- What the cached lookups read is unchanged, and the cached methods are not
reclaimed. -/
def Undisturbed (s s' : Interpreter) : Prop :=
  ∀ k < 256, s.methodCache (4 * k + 1) ≠ nilPointer →
    Unchanged s.memory s'.memory (s.methodCache (4 * k + 1)) (s.methodCache (4 * k + 2))

theorem CacheSound.entry (h : CacheSound s) (hu : Undisturbed s s') {k : Nat} (hk : k < 256)
    (hne : s.methodCache (4 * k + 1) ≠ nilPointer) :
    lookupInChain (s.methodCache (4 * k)) (s.methodCache (4 * k + 1)) s'.memory =
      some (some (s.methodCache (4 * k + 2), s.methodCache (4 * k + 3)), s'.memory) :=
  (repeats_lookupInChain (hu k hk hne) _ _ (h k hk hne) fun found hf => by cases hf; rfl).2

theorem CacheSound.undisturbed (h : CacheSound s) (hu : Undisturbed s s')
    (hcache : s'.methodCache = s.methodCache) : CacheSound s' := by
  intro k hk hne
  rw [hcache] at hne ⊢
  exact h.entry hu hk hne

theorem cacheHash_eq (messageSelector cls : Nat) :
    ∃ k < 256, cacheHash messageSelector cls = 4 * k := by
  refine ⟨messageSelector &&& cls &&& 0xFF, Nat.lt_succ_of_le Nat.and_le_right, ?_⟩
  rw [cacheHash, Nat.shiftLeft_eq]
  omega

theorem findNewMethodInClass_hit
    (h : s.methodCache (cacheHash s.messageSelector cls) = s.messageSelector ∧
      s.methodCache (cacheHash s.messageSelector cls + 1) = cls) :
    findNewMethodInClass cls s = some ((), { s with
      newMethod := s.methodCache (cacheHash s.messageSelector cls + 2)
      primitiveIndex := s.methodCache (cacheHash s.messageSelector cls + 3) }) := by
  show (if _ then _ else _ : IM Unit) s = _
  rw [if_pos h]
  rfl

theorem findNewMethodInClass_miss
    (h : ¬(s.methodCache (cacheHash s.messageSelector cls) = s.messageSelector ∧
      s.methodCache (cacheHash s.messageSelector cls + 1) = cls)) :
    findNewMethodInClass cls s = (lookupMethodInClass cls s).bind fun r => some ((), { r.2 with
      methodCache := cachePut (cacheHash s.messageSelector cls) r.2.messageSelector cls
        r.2.newMethod r.2.primitiveIndex r.2.methodCache }) := by
  show (if _ then _ else _ : IM Unit) s = _
  rw [if_neg h]
  rfl

/-- The cells that a miss fills, and the others. -/
theorem cachePut_entry {h a c q p k j : Nat} {f : Nat → Nat} (hh : h = 4 * j) :
    (k = j → cachePut h a c q p f (4 * k) = a ∧ cachePut h a c q p f (4 * k + 1) = c ∧
      cachePut h a c q p f (4 * k + 2) = q ∧ cachePut h a c q p f (4 * k + 3) = p) ∧
    (k ≠ j → ∀ r < 4, cachePut h a c q p f (4 * k + r) = f (4 * k + r)) := by
  subst hh
  refine ⟨fun hk => ?_, fun hk r hr => ?_⟩
  · subst hk
    simp [cachePut]
  · rw [cachePut, if_neg (by omega), if_neg (by omega), if_neg (by omega), if_neg (by omega)]

/-- A call keeps the invariant: the entry that a miss stores under the slot of
the old selector is one for the selector after the lookup. -/
theorem CacheSound.find (h : CacheSound s) (hrun : findNewMethodInClass cls s = some ((), s'))
    (hu : Undisturbed s s') : CacheSound s' := by
  by_cases hhit : s.methodCache (cacheHash s.messageSelector cls) = s.messageSelector ∧
      s.methodCache (cacheHash s.messageSelector cls + 1) = cls
  · rw [findNewMethodInClass_hit hhit] at hrun
    obtain rfl := congrArg Prod.snd (Option.some.inj hrun)
    exact h.undisturbed hu rfl
  · rw [findNewMethodInClass_miss hhit] at hrun
    obtain ⟨⟨b, s₁⟩, hlookup, hput⟩ := Option.bind_eq_some_iff.mp hrun
    obtain rfl := congrArg Prod.snd (Option.some.inj hput)
    obtain ⟨hcache, hfinds⟩ := lookupMethodInClass_finds cls s b s₁ hlookup
    obtain ⟨j, -, hj⟩ := cacheHash_eq s.messageSelector cls
    intro k hk
    obtain ⟨hnew, hold⟩ := cachePut_entry (a := s₁.messageSelector) (c := cls) (q := s₁.newMethod)
      (p := s₁.primitiveIndex) (k := k) (f := s₁.methodCache) hj
    by_cases hkj : k = j
    · obtain ⟨h0, h1, h2, h3⟩ := hnew hkj
      intro _
      show lookupInChain (cachePut _ _ _ _ _ _ _) (cachePut _ _ _ _ _ _ _) s₁.memory =
        some (some (cachePut _ _ _ _ _ _ _, cachePut _ _ _ _ _ _ _), s₁.memory)
      rw [h0, h1, h2, h3]
      exact hfinds
    · have hold' := hold hkj
      rw [hcache] at hold'
      show cachePut _ _ _ _ _ _ _ ≠ _ → lookupInChain (cachePut _ _ _ _ _ _ _)
        (cachePut _ _ _ _ _ _ _) s₁.memory =
          some (some (cachePut _ _ _ _ _ _ _, cachePut _ _ _ _ _ _ _), s₁.memory)
      rw [hcache, hold' 1 (by omega), hold' 2 (by omega), hold' 3 (by omega),
        show 4 * k = 4 * k + 0 from rfl, hold' 0 (by omega)]
      exact h.entry hu hk

/-- The states since the last `initializeMethodCache`: calls, and other steps of
the interpreter. -/
inductive CacheRun : Interpreter → Prop
  | cleared {s s' : Interpreter} : initializeMethodCache s = some ((), s') → CacheRun s'
  | find {s s' : Interpreter} {cls : Nat} : CacheRun s →
      findNewMethodInClass cls s = some ((), s') → Undisturbed s s' → CacheRun s'
  | other {s s' : Interpreter} : CacheRun s → s'.methodCache = s.methodCache →
      Undisturbed s s' → CacheRun s'

theorem CacheRun.sound (h : CacheRun s) : CacheSound s := by
  induction h with
  | cleared hrun =>
      cases hrun
      exact fun k _ hne => absurd rfl hne
  | find _ hrun hu ih => exact ih.find hrun hu
  | other _ hcache hu ih => exact ih.undisturbed hu hcache

/-- Apart from the cache, a call does what the lookup does. Nil is no class: from
there the lookup never ends. -/
theorem findNewMethodInClass_coherent (s : Interpreter) (cls : Nat) (h : CacheRun s) :
    (∀ b s', lookupMethodInClass cls s = some (b, s') →
      ∃ cache, findNewMethodInClass cls s = some ((), { s' with methodCache := cache })) ∧
    (cls ≠ nilPointer → ∀ s'', findNewMethodInClass cls s = some ((), s'') →
      ∃ b s', lookupMethodInClass cls s = some (b, s') ∧
        s'' = { s' with methodCache := s''.methodCache }) := by
  by_cases hhit : s.methodCache (cacheHash s.messageSelector cls) = s.messageSelector ∧
      s.methodCache (cacheHash s.messageSelector cls + 1) = cls
  · -- the entry is what the lookup would find
    have hlookup : cls ≠ nilPointer → lookupMethodInClass cls s = some (true, { s with
        newMethod := s.methodCache (cacheHash s.messageSelector cls + 2)
        primitiveIndex := s.methodCache (cacheHash s.messageSelector cls + 3) }) := by
      intro hne
      obtain ⟨k, hk, hhash⟩ := cacheHash_eq s.messageSelector cls
      rw [hhash] at hhit ⊢
      have hentry := h.sound k hk (by rwa [hhit.2])
      rw [hhit.1, hhit.2] at hentry
      exact lookupMethodInClass_of_found hentry
    rw [findNewMethodInClass_hit hhit]
    refine ⟨fun b s' hrun => ?_, fun hne s'' hrun => ?_⟩
    · by_cases hne : cls = nilPointer
      · subst hne
        exact absurd (lookupMethodInClass_nil s b s' hrun) id
      · rw [hlookup hne] at hrun
        cases hrun
        exact ⟨s.methodCache, rfl⟩
    · cases hrun
      exact ⟨_, _, hlookup hne, rfl⟩
  · rw [findNewMethodInClass_miss hhit]
    refine ⟨fun b s' hrun => ?_, fun _ s'' hrun => ?_⟩
    · rw [hrun]
      exact ⟨_, rfl⟩
    · obtain ⟨⟨b, s'⟩, hlookup, hput⟩ := Option.bind_eq_some_iff.mp hrun
      cases hput
      exact ⟨b, s', hlookup, rfl⟩

/-- A class at oop 4 with one method, at oop 10, under the selector 20. -/
def oneMethod : ObjectMemory :=
  (((ObjectMemory.blank.place 4 256 0 [4, 0, 2, 6]).place 6 256 10 [5, 0, 1, 8, 20]).place 8 256 20
    [3, 0, 10]).place 10 256 30 [3, 34, 1]

/-- Before the first send of the selector. -/
def beforeSend : Interpreter where
  host := ⟨oneMethod, ⟨[], 0, fun _ => none, 0⟩, fun _ => 0, 0, 0⟩
  activeContext := nilPointer
  homeContext := nilPointer
  method := nilPointer
  receiver := nilPointer
  instructionPointer := 0
  stackPointer := 0
  messageSelector := 20
  argumentCount := 0
  newMethod := nilPointer
  primitiveIndex := 0
  successFlag := true
  newProcessWaiting := false
  newProcess := nilPointer
  methodCache := fun _ => nilPointer

theorem lookupInChain_oneMethod :
    lookupInChain 20 4 oneMethod = some (some (10, 0), oneMethod) := by
  have hdictionary : lookupMethodInDictionary 20 6 oneMethod = some (some (10, 0), oneMethod) := by
    have hprobe : probeDictionary 20 6 3 (2, false) oneMethod =
        some (.inr (some (10, 0)), oneMethod) := rfl
    exact iterate_inr hprobe
  have hread : fetchPointerOfObject messageDictionaryIndex 4 oneMethod = some (6, oneMethod) := rfl
  have hround : Wp (lookupRound 20 4) (fun r m => r = .inr (some (10, 0)) ∧ m = oneMethod)
      oneMethod := by
    rw [lookupRound, if_neg (by decide), wp_bind]
    refine ⟨_, _, hread, (wp_bind _ _ _ _).mpr ⟨_, _, hdictionary, ?_⟩⟩
    exact (wp_pure _ _ _).mpr ⟨rfl, rfl⟩
  obtain ⟨_, _, hrun, rfl, rfl⟩ := hround
  exact iterate_inr hrun

/-- The first send misses the cache, the second one hits it. -/
theorem findNewMethodInClass_twice : ∃ cache cache',
    findNewMethodInClass 4 beforeSend = some ((), { beforeSend with
      newMethod := 10, primitiveIndex := 0, methodCache := cache }) ∧
    findNewMethodInClass 4 { beforeSend with
      newMethod := 10, primitiveIndex := 0, methodCache := cache } = some ((), { beforeSend with
      newMethod := 10, primitiveIndex := 0, methodCache := cache' }) := by
  have hclear : CacheRun beforeSend := .cleared (s := beforeSend) rfl
  obtain ⟨cache, hfirst⟩ := (findNewMethodInClass_coherent beforeSend 4 hclear).1 true _
    (lookupMethodInClass_of_found lookupInChain_oneMethod)
  have hempty : ∀ s', Undisturbed beforeSend s' := fun s' k _ hne => absurd rfl hne
  have hagain : CacheRun { beforeSend with
      newMethod := 10, primitiveIndex := 0, methodCache := cache } :=
    .find hclear hfirst (hempty _)
  obtain ⟨cache', hsecond⟩ := (findNewMethodInClass_coherent _ 4 hagain).1 true _
    (lookupMethodInClass_of_found lookupInChain_oneMethod)
  exact ⟨cache, cache', hfirst, hsecond⟩

end Crosstalk
