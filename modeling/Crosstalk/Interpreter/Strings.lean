import Crosstalk.Interpreter.ByteObjects

/-!
# Strings of C and of Smalltalk

`stringObjectFor` copies a C string into a new String, `stringFromObject` the
bytes of a String into a `std::string`. A `char` is signed: from 128 on the first
of the two passes negative values to a store that accepts none.
-/

namespace Crosstalk

open ObjectMemory

/-! ## The code -/

/-- The bytes before the terminating zero. -/
structure CString where
  bytes : List UInt8
  ne_zero : ∀ b ∈ bytes, b ≠ 0

/-- The promotion of a `char` to `int` reads the byte in two's complement. -/
def charToInt (b : UInt8) : Int := Int.bmod b.toNat 256

/-- `none` is the null pointer. -/
def stringObjectFor : Option CString → IM Nat
  | none => return nilPointer
  | some s => do
      let length := s.bytes.length
      let objectPointer ← instantiateClassWithBytes classStringPointer length
      inMemory (forN length fun i =>
        storeByteOfObjectWithInt i objectPointer (charToInt (s.bytes.getD i 0)))
      return objectPointer

/-- The first `n` bytes of the object. -/
def firstBytes (objectPointer : Nat) : Nat → OM (List UInt8)
  | 0 => return []
  | n + 1 => do
      let s ← firstBytes objectPointer n
      let ch ← fetchByteOfObject n objectPointer
      return s ++ [UInt8.ofNat ch]

def stringFromObject (stringOrSymbolPointer : Nat) : IM (List UInt8) :=
  inMemory do
    let len ← fetchByteLengthOf stringOrSymbolPointer
    firstBytes stringOrSymbolPointer len.toNat

/-! ## The round trip -/

/-- The conversion ends with a String of the length of `s`, and the conversion
back with the bytes of `s`. -/
def RoundTrips (s : CString) (i : Interpreter) : Prop :=
  Wp (stringObjectFor (some s)) (fun p i' =>
    IsByteObject i'.memory p classStringPointer s.bytes.length ∧
      Wp (stringFromObject p) (fun bytes i'' => bytes = s.bytes ∧ i'' = i') i') i

variable {m m' : ObjectMemory} {p c n k : Nat} {data : Nat → UInt8} {i j : Interpreter}

theorem lt_128_iff (b : UInt8) : b < 128 ↔ b.toNat < 128 := by
  have h : (128 : UInt8).toNat = 128 := by simp
  rw [UInt8.lt_iff_toNat_lt, h]

theorem bmod_byte {l : Nat} (hl : l < 256) :
    Int.bmod l 256 = if l < 128 then (l : Int) else l - 256 := by
  rw [Int.bmod_def]
  split <;> split <;> omega

theorem charToInt_eq (b : UInt8) :
    charToInt b = if b.toNat < 128 then (b.toNat : Int) else b.toNat - 256 :=
  bmod_byte b.toNat_lt

theorem charToInt_nonneg (b : UInt8) : 0 ≤ charToInt b ↔ b < 128 := by
  have hb := b.toNat_lt
  rw [lt_128_iff, charToInt_eq]
  split
  · omega
  · omega

theorem charToInt_toNat {b : UInt8} (hb : b < 128) : (charToInt b).toNat = b.toNat := by
  rw [charToInt_eq, if_pos ((lt_128_iff b).1 hb), Int.toNat_natCast]

theorem wp_firstBytes (h : IsByteObject m p c n) (hs : StoredBytes m p n data m') (hk : k ≤ n) :
    Wp (firstBytes p k) (fun s t => s = (List.range k).map data ∧ t = m') m' := by
  have h' := h.of_storedBytes hs
  induction k with
  | zero =>
      rw [firstBytes, wp_pure]
      exact ⟨rfl, rfl⟩
  | succ k ih =>
      rw [firstBytes, wp_bind]
      refine (ih (by omega)).mono ?_
      rintro _ _ ⟨rfl, rfl⟩
      rw [wp_bind, h'.wp_fetchByte (by omega), h.byte_of_storedBytes hs (by omega), wp_pure,
        UInt8.ofNat_toNat, List.range_succ, List.map_append]
      exact ⟨rfl, rfl⟩

theorem roundTrips_of_lt {s : CString}
    (h : Allocates i classStringPointer (headerSize + (s.bytes.length + 1) / 2) p j)
    (hs : ∀ b ∈ s.bytes, b < 128) : RoundTrips s i := by
  rw [RoundTrips, stringObjectFor, wp_bind]
  refine (wp_instantiateClassWithBytes h (by decide)).mono ?_
  rintro p _ ⟨rfl, t, rfl, hobject⟩
  rw [wp_bind, wp_inMemory]
  refine (wp_forN (fun k => StoredBytes t p k fun k => s.bytes.getD k 0) (fun k t' hk ht' => ?_)
    (StoredBytes.refl t p _)).mono fun _ t' ht' => ?_
  · have hb : s.bytes.getD k 0 < 128 := hs _ (by simp [hk])
    have hnext := hobject.wp_storeNext ht' hk
    rw [storeByteOfObjectWithInt, wp_bind, wp_check, charToInt_toNat hb]
    refine ⟨(charToInt_nonneg _).2 hb, ?_⟩
    exact hnext
  · rw [wp_pure]
    refine ⟨hobject.of_storedBytes ht', ?_⟩
    rw [stringFromObject, wp_inMemory, wp_bind]
    refine ((hobject.of_storedBytes ht').wp_fetchByteLength).2 ?_
    refine (wp_firstBytes hobject ht' (by simp)).mono ?_
    rintro _ _ ⟨rfl, rfl⟩
    refine ⟨?_, rfl⟩
    refine List.ext_getElem (by simp) fun k hk _ => ?_
    have hlt : k < s.bytes.length := by simpa using hk
    simp [hlt]

theorem lt_of_roundTrips {s : CString}
    (h : Allocates i classStringPointer (headerSize + (s.bytes.length + 1) / 2) p j)
    (hr : RoundTrips s i) : ∀ b ∈ s.bytes, b < 128 := by
  rw [RoundTrips, stringObjectFor, wp_bind] at hr
  obtain ⟨q, i', -, hr, -⟩ := hr.and_wlp (wp_instantiateClassWithBytes h (by decide)).toWlp
  rw [wp_bind, wp_inMemory] at hr
  intro b hb
  obtain ⟨k, hk, rfl⟩ := List.getElem_of_mem hb
  obtain ⟨t, ht⟩ := wp_round_of_forN hr k hk
  rw [storeByteOfObjectWithInt, wp_bind, wp_check, charToInt_nonneg] at ht
  simpa [hk] using ht.1

/-- A C string comes back from the String object that is made for it exactly if it has no byte
from 128 on: the characters are signed, and the others halt the machine. -/
theorem roundTrips_iff {s : CString}
    (h : Allocates i classStringPointer (headerSize + (s.bytes.length + 1) / 2) p j) :
    RoundTrips s i ↔ ∀ b ∈ s.bytes, b < 128 :=
  ⟨lt_of_roundTrips h, roundTrips_of_lt h⟩

/-! ## Two file names -/

/-- One free chunk of three words in segment 0, and the class of strings. -/
def oneChunk : Interpreter :=
  { beforeTime with
    host := { beforeTime.host with
      memory := { ((ObjectMemory.blank.place 100 0 200 [3, nonPointer]).place
          classStringPointer 256 300 [2, 0]).setWord 0 (firstFreeChunkList + 3) 100 with
        freeWords := 100 } } }

theorem allocates_oneChunk : ∃ j, Allocates oneChunk classStringPointer 3 100 j :=
  ⟨_, rfl, by decide, by decide, by decide⟩

/-- Two letters. -/
def plainName : CString := ⟨[97, 98], by simp⟩

/-- A letter and a byte from 128 on. -/
def accentedName : CString := ⟨[97, 233], by simp⟩

theorem roundTrips_plainName : RoundTrips plainName oneChunk :=
  allocates_oneChunk.elim fun _ h => (roundTrips_iff h).mpr (by simp [plainName])

theorem not_roundTrips_accentedName :
    (∃ j, Allocates oneChunk classStringPointer 3 100 j) ∧ ¬RoundTrips accentedName oneChunk :=
  ⟨allocates_oneChunk, fun hr =>
    allocates_oneChunk.elim fun _ h => absurd (lt_of_roundTrips h hr) (by simp [accentedName])⟩

end Crosstalk
