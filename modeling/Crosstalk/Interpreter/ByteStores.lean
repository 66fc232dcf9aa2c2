import Crosstalk.Interpreter.Registers

/-!
# Primitives that store bytes

`storeByteOfObjectWithValue` does not compare the index with the length of the
object. The bytes that a primitive stores stay in the field area of its argument
where this is long enough.
-/

namespace Crosstalk

abbrev descriptorIndex : Nat := 8
abbrev pageNumberIndex : Nat := 3
abbrev pageInPageIndex : Nat := 1
abbrev bytesInPageIndex : Nat := 4
abbrev pageSize : Nat := 512

def storeByteOfObjectWithValue (byteIndex objectPointer valueByte : Nat) : OM Unit :=
  heapChunkOfBytePut objectPointer (headerSize * 2 + byteIndex) valueByte

/-- Byte `i` of a 32-bit number, the low one first. -/
def timeByte (time : UInt32) (i : Nat) : UInt8 := UInt8.ofNat (time.toNat >>> (8 * i))

/-- The first four bytes of the argument, which is popped. -/
def storeTimeWords (time : UInt32) : IM Unit := do
  let byteIndexObject ← popStack
  inMemory do
    storeByteOfObjectWithValue 0 byteIndexObject (timeByte time 0).toNat
    storeByteOfObjectWithValue 1 byteIndexObject (timeByte time 1).toNat
    storeByteOfObjectWithValue 2 byteIndexObject (timeByte time 2).toNat
    storeByteOfObjectWithValue 3 byteIndexObject (timeByte time 3).toNat

/-- The seconds since 1901. -/
def primitiveTimeWordsInto (smalltalkEpochTime : UInt32) : IM Unit :=
  storeTimeWords smalltalkEpochTime

/-- The milliseconds of the clock. -/
def primitiveTickWordsInto (msclock : UInt32) : IM Unit := storeTimeWords msclock

/-- The values that the file system supplies: the result of `seek_to`, and that
of `read` with the bytes it left in the buffer. -/
structure PageFile where
  seekTo : Int → Int → Int
  read : Int → Int × (Nat → UInt8)

def storePage (byteArray : Nat) (bytesInPage : Int) (pageBuffer : Nat → UInt8) : OM Unit :=
  forN bytesInPage.toNat fun i => storeByteOfObjectWithValue i byteArray (pageBuffer i).toNat

def finishPage (page : Nat) (bytesInPage : Int) : IM Unit := do
  storeIntegerOfObjectWithValue bytesInPageIndex page bytesInPage
  push truePointer

/-- The page-read code of `primitivePosixFileOperation`, from the descriptor on. -/
def readPage (fileSystem : PageFile) (fd : Int) (page : Nat) : IM Unit := do
  let pageNumber ← fetchIntegerOfObject pageNumberIndex page
  check (pageNumber ≥ 1)
  let byteArray ← inMemory (fetchPointerOfObject pageInPageIndex page)
  let position := (pageNumber - 1) * pageSize
  if fileSystem.seekTo fd position ≠ position then
    push falsePointer
  else
    inMemory (storePage byteArray (fileSystem.read fd).1 (fileSystem.read fd).2)
    finishPage page (fileSystem.read fd).1

/-! ## Bytes of a segment -/

namespace ObjectMemory

variable {m m' : ObjectMemory} {p s k n w : Nat}

/-- Byte `k` of a segment. -/
def byte (m : ObjectMemory) (s k : Nat) : Nat := field (m.word s (k / 2)) (8 * (k % 2)) 8

theorem word_eq_bytes (m : ObjectMemory) (s w : Nat) :
    m.word s w = m.byte s (2 * w) + 256 * m.byte s (2 * w + 1) := by
  have hw := m.word_lt s w
  have h0 : 2 * w / 2 = w := by omega
  have h1 : (2 * w + 1) / 2 = w := by omega
  have h2 : 2 * w % 2 = 0 := by omega
  have h3 : (2 * w + 1) % 2 = 1 := by omega
  have hmask : fieldMask 8 = 2 ^ 8 - 1 := rfl
  rw [byte, byte, h0, h1, h2, h3, field, field, hmask, Nat.and_two_pow_sub_one_eq_mod,
    Nat.and_two_pow_sub_one_eq_mod, Nat.shiftRight_eq_div_pow, Nat.shiftRight_eq_div_pow]
  omega

theorem word_eq_iff : m'.word s w = m.word s w ↔
    m'.byte s (2 * w) = m.byte s (2 * w) ∧ m'.byte s (2 * w + 1) = m.byte s (2 * w + 1) := by
  constructor
  · intro h
    have h0 : 2 * w / 2 = w := by omega
    have h1 : (2 * w + 1) / 2 = w := by omega
    rw [byte, byte, byte, byte, h0, h1, h]
    exact ⟨rfl, rfl⟩
  · rintro ⟨h0, h1⟩
    rw [word_eq_bytes, word_eq_bytes, h0, h1]

/-- A store of one byte. -/
theorem byte_setWord {b v s' : Nat} (hb : b < 2) (hv : v < 256) :
    (m.setWord s w (putField (m.word s w) (8 * b) 8 v)).byte s' k =
      if s' = s ∧ k = 2 * w + b then v else m.byte s' k := by
  have hput := putField_lt (x := m.word s w) (k := 8 * b) (n := 8) (v := v) (m.word_lt _ _) hv
    (by omega)
  rw [byte, word_setWord, Nat.mod_eq_of_lt hput]
  by_cases hsame : s' = s ∧ k / 2 = w
  · rw [if_pos hsame]
    by_cases hk : k = 2 * w + b
    · have hmod : k % 2 = b := by omega
      rw [if_pos ⟨hsame.1, hk⟩, hmod]
      exact field_putField_same hv (by omega)
    · rw [if_neg fun h => hk h.2, byte, hsame.1, hsame.2]
      exact field_putField_disjoint hv (by omega) (by omega)
  · rw [if_neg hsame, if_neg fun h => hsame ⟨h.1, by omega⟩, byte]

/-- The first byte of the field area of `p`. -/
def firstByte (m : ObjectMemory) (p : Nat) : Nat := 2 * m.location p + 4

/-- The bytes `data` have been stored into `p` from the first one on. -/
def StoredBytes (m : ObjectMemory) (p n : Nat) (data : Nat → UInt8) (m' : ObjectMemory) : Prop :=
  ∀ s k, m'.byte s k = if s = (m.entry p).segment ∧ m.firstByte p ≤ k ∧ k < m.firstByte p + n then
    (data (k - m.firstByte p)).toNat else m.byte s k

theorem StoredBytes.refl (m : ObjectMemory) (p : Nat) (data : Nat → UInt8) :
    StoredBytes m p 0 data m := fun s k => (if_neg (by omega)).symm

theorem StoredBytes.word {data : Nat → UInt8} (h : StoredBytes m p n data m')
    (hs : s ≠ (m.entry p).segment) : m'.word s w = m.word s w := by
  rw [word_eq_iff, h, h, if_neg fun h' => hs h'.1, if_neg fun h' => hs h'.1]
  exact ⟨rfl, rfl⟩

end ObjectMemory

open ObjectMemory

variable {m m' : ObjectMemory} {p n i v : Nat} {data : Nat → UInt8}

theorem wlp_storeByte {R : Unit → ObjectMemory → Prop} :
    Wlp (storeByteOfObjectWithValue i p v) R m ↔ (IsEntry p →
      m.location p + (4 + i) / 2 < 65536 → v < 65536 →
        R () (m.setWord (m.entry p).segment (m.location p + (4 + i) / 2)
          (putField (m.word (m.entry p).segment (m.location p + (4 + i) / 2)) (8 * ((4 + i) % 2)) 8
            (v % 256)))) := by
  have hs := m.segment_lt p
  have hbyte : (4 + i) % 2 = 1 ∨ (4 + i) % 2 = 0 := by omega
  simp only [storeByteOfObjectWithValue, heapChunkOfBytePut, segmentWordBytePut, wlp_bind,
    wlp_segmentBitsOf, wlp_locationBitsOf, wlp_check, wlp_modify, headerSize, segmentCount,
    segmentSize]
  constructor
  · intro h he hw hv
    exact h he he hs hw hv hbyte
  · intro h he _ _ hw hv _
    exact h he hw hv

/-- Storing the next byte. -/
theorem StoredBytes.next (hseg : (m.entry p).segment ≠ objectTableSegment)
    (h : StoredBytes m p n data m') :
    Wlp (storeByteOfObjectWithValue n p (data n).toNat) (fun _ => StoredBytes m p (n + 1) data)
      m' := by
  have hentry : m'.entry p = m.entry p := by
    rw [entry, entry, h.word hseg.symm]
  have hloc : m'.location p = m.location p := h.word hseg.symm
  rw [wlp_storeByte]
  intro _ _ _ s k
  have hlt : (data n).toNat < 256 := (data n).toNat_lt
  rw [Nat.mod_eq_of_lt hlt, byte_setWord (by omega) hlt, hentry, hloc, h]
  have haddr : 2 * (m.location p + (4 + n) / 2) + (4 + n) % 2 = m.firstByte p + n := by
    rw [firstByte]
    omega
  rw [haddr]
  by_cases hk : s = (m.entry p).segment ∧ k = m.firstByte p + n
  · rw [if_pos hk, if_pos ⟨hk.1, by omega, by omega⟩, hk.2, Nat.add_sub_cancel_left]
  · rw [if_neg hk]
    by_cases hin : s = (m.entry p).segment ∧ m.firstByte p ≤ k ∧ k < m.firstByte p + n
    · rw [if_pos hin, if_pos ⟨hin.1, hin.2.1, by omega⟩]
    · rw [if_neg hin, if_neg fun h' => hin ⟨h'.1, h'.2.1, by
        have hne : k ≠ m.firstByte p + n := fun hk' => hk ⟨h'.1, hk'⟩
        omega⟩]

theorem wlp_storePage {bytesInPage : Int} (hseg : (m.entry p).segment ≠ objectTableSegment) :
    Wlp (storePage p bytesInPage data) (fun _ => StoredBytes m p bytesInPage.toNat data) m :=
  wlp_forN (fun i => StoredBytes m p i data) (fun _ _ _ h => StoredBytes.next hseg h) (.refl m p data)

/-! ## Isolation -/

/-- Only words in the field area of `p` have changed. -/
def Isolated (m : ObjectMemory) (p : Nat) (m' : ObjectMemory) : Prop :=
  ∀ s w, m'.word s w ≠ m.word s w → s = (m.entry p).segment ∧ m.location p + 2 ≤ w ∧
    w < m.location p + m.chunkWord p 0

/-- Where the bytes go beyond the field area, they are there already. -/
def FitsFields (m : ObjectMemory) (p n : Nat) (data : Nat → UInt8) : Prop :=
  ∀ i < n, m.chunkWord p 0 ≤ 2 + i / 2 →
    m.byte (m.entry p).segment (m.firstByte p + i) = (data i).toNat

theorem StoredBytes.isolated_iff (h : StoredBytes m p n data m') :
    Isolated m p m' ↔ FitsFields m p n data := by
  constructor
  · intro hi i hn hsize
    have haddr : m.firstByte p + i = 2 * (m.location p + 2 + i / 2) + i % 2 := by
      rw [firstByte]
      omega
    have hword : m'.word (m.entry p).segment (m.location p + 2 + i / 2) =
        m.word (m.entry p).segment (m.location p + 2 + i / 2) := by
      by_contra hne
      have := (hi _ _ hne).2.2
      omega
    have hbyte : m'.byte (m.entry p).segment (m.firstByte p + i) =
        m.byte (m.entry p).segment (m.firstByte p + i) := by
      have hboth := word_eq_iff.mp hword
      have hmod : i % 2 = 0 ∨ i % 2 = 1 := by omega
      rcases hmod with h0 | h1
      · rw [haddr, h0]
        exact hboth.1
      · rw [haddr, h1]
        exact hboth.2
    rw [← hbyte, h, if_pos ⟨rfl, by omega, by omega⟩, Nat.add_sub_cancel_left]
  · intro hf s w hne
    -- one of the two bytes has changed
    have hbyte : ∀ k, k / 2 = w → m'.byte s k ≠ m.byte s k → s = (m.entry p).segment ∧
        m.location p + 2 ≤ w ∧ w < m.location p + m.chunkWord p 0 := by
      intro k hk hchange
      rw [h] at hchange
      by_cases hin : s = (m.entry p).segment ∧ m.firstByte p ≤ k ∧ k < m.firstByte p + n
      · rw [if_pos hin] at hchange
        have hkeep := hf (k - m.firstByte p) (by omega)
        rw [firstByte] at hin hchange hkeep
        have hadd : 2 * m.location p + 4 + (k - (2 * m.location p + 4)) = k := by omega
        rw [hadd] at hkeep
        refine ⟨hin.1, by omega, ?_⟩
        by_contra hout
        refine hchange ?_
        rw [hin.1]
        exact (hkeep (by omega)).symm
      · rw [if_neg hin] at hchange
        exact absurd rfl hchange
    by_cases h0 : m'.byte s (2 * w) = m.byte s (2 * w)
    · exact hbyte (2 * w + 1) (by omega) fun h1 => hne (word_eq_iff.mpr ⟨h0, h1⟩)
    · exact hbyte (2 * w) (by omega) h0

theorem wlp_inMemory {α : Type} {x : OM α} {Q : α → Interpreter → Prop} {s : Interpreter} :
    Wlp (inMemory x) Q s ↔
      Wlp x (fun a m => Q a { s with host := { s.host with memory := m } }) s.memory := by
  rw [Wlp, Wlp, Interpreter.memory]
  constructor
  · intro h a m hx
    refine h a _ ?_
    rw [inMemory, onHost, onMemory, hx]
  · intro h a s' hx
    rw [inMemory, onHost, onMemory] at hx
    cases hxm : x s.host.memory with
    | none =>
        rw [hxm] at hx
        cases hx
    | some r =>
        rw [hxm] at hx
        cases hx
        exact h _ _ hxm

/-- The object on top of the stack. -/
def Interpreter.stackTop (s : Interpreter) : Nat :=
  s.memory.chunkWord s.activeContext (headerSize + s.stackPointer.toNat)

theorem wlp_popStack {Q : Nat → Interpreter → Prop} {s : Interpreter}
    (h : Q s.stackTop { s with stackPointer := s.stackPointer - 1 }) : Wlp popStack Q s := by
  rw [popStack, wlp_bind, wlp_get, wlp_bind, wlp_inMemory]
  intro a m₁ hread
  have hw : Wp (fetchPointerOfObject s.stackPointer s.activeContext)
      (fun a' t => a' = a ∧ t = m₁) s.memory := ⟨a, m₁, hread, rfl, rfl⟩
  rw [fetchPointerOfObject_eq, wp_fetchWordOfObject] at hw
  obtain ⟨-, rfl, rfl⟩ := hw
  exact (wlp_bind _ _ _ _).mpr ((wlp_modify _ _ _).mpr ((wlp_pure _ _ _).mpr h))

theorem wlp_storeTimeWords {s : Interpreter} {time : UInt32}
    (hseg : (s.memory.entry s.stackTop).segment ≠ objectTableSegment) :
    Wlp (storeTimeWords time) (fun _ s' =>
      StoredBytes s.memory s.stackTop 4 (timeByte time) s'.memory) s := by
  rw [storeTimeWords, wlp_bind]
  refine wlp_popStack (wlp_inMemory.mpr ((wlp_bind _ _ _ _).mpr ?_))
  refine (StoredBytes.next hseg (.refl _ _ _)).mono fun _ _ h1 => (wlp_bind _ _ _ _).mpr ?_
  refine (StoredBytes.next hseg h1).mono fun _ _ h2 => (wlp_bind _ _ _ _).mpr ?_
  exact (StoredBytes.next hseg h2).mono fun _ _ h3 => StoredBytes.next hseg h3

theorem wlp_fetchPointer {Q : Nat → Interpreter → Prop} {s : Interpreter} {j : Int}
    (h : Q (s.memory.chunkWord p (headerSize + j.toNat)) s) :
    Wlp (inMemory (fetchPointerOfObject j p)) Q s := by
  rw [wlp_inMemory]
  intro a m₁ hread
  have hw : Wp (fetchPointerOfObject j p) (fun a' t => a' = a ∧ t = m₁) s.memory :=
    ⟨a, m₁, hread, rfl, rfl⟩
  rw [fetchPointerOfObject_eq, wp_fetchWordOfObject] at hw
  obtain ⟨-, rfl, rfl⟩ := hw
  exact h

/-- A field that holds no integer gives 0, and resets the flag. -/
theorem wlp_fetchIntegerOfObject (j : Int) (p : Nat) (s : Interpreter) :
    Wlp (fetchIntegerOfObject j p)
      (fun v s' => s' = s ∨ v = 0 ∧ s' = { s with successFlag := false }) s := by
  rw [fetchIntegerOfObject, wlp_bind]
  refine wlp_fetchPointer ?_
  rw [wlp_ite]
  refine ⟨fun _ => (wlp_pure _ _ _).mpr (.inl rfl), fun _ => ?_⟩
  rw [primitiveFail, wlp_bind, wlp_modify, wlp_pure]
  exact .inr ⟨rfl, rfl⟩

theorem fetchInteger_memory (j : Int) (p : Nat) (s : Interpreter) :
    Wlp (fetchIntegerOfObject j p) (fun _ s' => s'.memory = s.memory) s := by
  refine (wlp_fetchIntegerOfObject j p s).mono ?_
  rintro _ _ (rfl | ⟨-, rfl⟩)
  · rfl
  · rfl

/-- A run of the page-read code answers false or stores bytes into the contents
of the page, from the state that it started with. -/
theorem wlp_readPage (fileSystem : PageFile) (fd : Int) (page : Nat) (s : Interpreter) :
    Wlp (readPage fileSystem fd page) (fun _ s' => push falsePointer s = some ((), s') ∨
      ∃ m₁, storePage (s.memory.chunkWord page (headerSize + pageInPageIndex))
          (fileSystem.read fd).1 (fileSystem.read fd).2 s.memory = some ((), m₁) ∧
        finishPage page (fileSystem.read fd).1
          { s with host := { s.host with memory := m₁ } } = some ((), s')) s := by
  rw [readPage, wlp_bind]
  refine (wlp_fetchIntegerOfObject _ _ s).mono fun pageNumber s₁ hread => ?_
  rw [wlp_bind, wlp_check]
  intro hpositive
  have hnumber : pageNumber ≠ 0 := by omega
  obtain rfl : s₁ = s := hread.resolve_right fun h => hnumber h.1
  rw [wlp_bind]
  refine wlp_fetchPointer ?_
  rw [wlp_ite]
  refine ⟨fun _ _ s' hrun => .inl hrun, fun _ => ?_⟩
  rw [wlp_bind, wlp_inMemory]
  exact fun _ m₁ hstore _ s' hrun => .inr ⟨m₁, hstore, hrun⟩

/-- The chunk of the object is in a heap segment. -/
def InHeapSegment (m : ObjectMemory) (p : Nat) : Prop := (m.entry p).segment ≠ objectTableSegment

/-- For an argument in a heap segment, the two clock primitives change only words of its
field area exactly where this has room for the four bytes, or what lies behind it has these
bytes already. The page-read code answers false from the memory that it started with, or
stores the bytes that were read into the contents of the page, under the same condition, and
then the number of bytes and the answer. -/
theorem byteStores_isolated (s : Interpreter) (time : UInt32) (fileSystem : PageFile) (fd : Int)
    (page byteArray : Nat) :
    (InHeapSegment s.memory s.stackTop →
      Wlp (primitiveTimeWordsInto time) (fun _ s' => Isolated s.memory s.stackTop s'.memory ↔
        FitsFields s.memory s.stackTop 4 (timeByte time)) s ∧
      Wlp (primitiveTickWordsInto time) (fun _ s' => Isolated s.memory s.stackTop s'.memory ↔
        FitsFields s.memory s.stackTop 4 (timeByte time)) s) ∧
    (byteArray = s.memory.chunkWord page (headerSize + pageInPageIndex) →
      InHeapSegment s.memory byteArray →
        Wlp (readPage fileSystem fd page) (fun _ s' => push falsePointer s = some ((), s') ∨
          ∃ m₁, storePage byteArray (fileSystem.read fd).1 (fileSystem.read fd).2 s.memory =
              some ((), m₁) ∧
            (Isolated s.memory byteArray m₁ ↔
              FitsFields s.memory byteArray (fileSystem.read fd).1.toNat (fileSystem.read fd).2) ∧
            finishPage page (fileSystem.read fd).1
              { s with host := { s.host with memory := m₁ } } = some ((), s')) s) := by
  refine ⟨fun hseg => ?_, fun hpage hseg => ?_⟩
  · have hstored : Wlp (storeTimeWords time) (fun _ s' => Isolated s.memory s.stackTop s'.memory ↔
        FitsFields s.memory s.stackTop 4 (timeByte time)) s :=
      (wlp_storeTimeWords hseg).mono fun _ _ h => StoredBytes.isolated_iff h
    exact ⟨hstored, hstored⟩
  · subst hpage
    refine (wlp_readPage fileSystem fd page s).mono fun _ s' hrun => ?_
    refine hrun.imp_right fun ⟨m₁, hstore, hfinish⟩ => ⟨m₁, hstore, ?_, hfinish⟩
    exact StoredBytes.isolated_iff (wlp_storePage hseg () m₁ hstore)

/-- A context with an argument of one field word, and an object of four words
behind it. -/
def shortArgument : ObjectMemory :=
  ((blank.place 4 256 0 [3, 22, 6]).place 6 256 10 [3, 28, 0]).place 8 256 13 [4, 16, 2, 2]

def beforeTime : Interpreter where
  host := ⟨shortArgument, ⟨[], 0, fun _ => none, 0⟩, fun _ => 0, 0, 0⟩
  activeContext := 4
  homeContext := 4
  method := nilPointer
  receiver := nilPointer
  instructionPointer := 0
  stackPointer := 0
  messageSelector := nilPointer
  argumentCount := 0
  newMethod := nilPointer
  primitiveIndex := 0
  successFlag := true
  newProcessWaiting := false
  newProcess := nilPointer
  methodCache := fun _ => nilPointer

/-- A page with contents of four bytes, and a context whose stack holds integers. -/
def onePage : ObjectMemory :=
  ((blank.place 4 256 0 [10, 22, 1, 1, 1, 1, 1, 1, 1, 1]).place 14 320 10
    [7, 0, 1, 16, 1, 3, 1]).place 16 256 17 [4, 28, 0, 0]

def beforePage : Interpreter :=
  { beforeTime with host := { beforeTime.host with memory := onePage }, stackPointer := 6 }

/-- A file of four bytes. -/
def shortFile : PageFile := ⟨fun _ position => position, fun _ => (4, fun i => .ofNat (i + 1))⟩

/-- The page has room for the bytes that are read, and the argument none for the time. -/
theorem byteStores_isolated_shortFile :
    (∃ s' m₁, readPage shortFile 3 14 beforePage = some ((), s') ∧
      storePage 16 4 (shortFile.read 3).2 onePage = some ((), m₁) ∧ Isolated onePage 16 m₁ ∧
      s'.memory.chunkWord 16 3 = 0x403 ∧ s'.memory.chunkWord 14 6 = 9) ∧
    ∃ s', primitiveTimeWordsInto 65536 beforeTime = some ((), s') ∧
      ¬Isolated beforeTime.memory 6 s'.memory := by
  constructor
  · have hvalues : (readPage shortFile 3 14 beforePage).map (fun r =>
        (r.2.memory.chunkWord 16 3, r.2.memory.chunkWord 14 6)) = some (0x403, 9) := by
      decide +kernel
    obtain ⟨⟨⟨⟩, s'⟩, hrun, hwords⟩ := Option.map_eq_some_iff.mp hvalues
    obtain ⟨hbytes, hnumber⟩ := Prod.mk.inj hwords
    obtain hfalse | ⟨m₁, hstore, hisolated, -⟩ :=
      (byteStores_isolated beforePage 0 shortFile 3 14 16).2 rfl (fun h => absurd h (by decide))
        () s' hrun
    · have hkept : (push falsePointer beforePage).map (fun r => r.2.memory.chunkWord 14 6) =
          some 1 := by decide +kernel
      rw [hfalse, Option.map_some, hnumber] at hkept
      cases hkept
    · refine ⟨s', m₁, hrun, hstore, hisolated.mpr fun i hi hout => ?_, hbytes, hnumber⟩
      have hi : i < 4 := hi
      have hout : 4 ≤ 2 + i / 2 := hout
      omega
  · obtain ⟨s', hrun⟩ : ∃ s', primitiveTimeWordsInto 65536 beforeTime = some ((), s') := ⟨_, rfl⟩
    have hfits := ((byteStores_isolated beforeTime 65536 shortFile 3 14 16).1
      (fun h => absurd h (by decide))).1
      () s' hrun
    exact ⟨s', hrun, fun h => absurd (hfits.mp h 2 (by decide) (by decide)) (by decide)⟩

/-- The time overwrites the size of the object behind the argument. -/
theorem not_isolated_beforeTime : ∃ s', primitiveTimeWordsInto 65536 beforeTime = some ((), s') ∧
    beforeTime.stackTop = 6 ∧ beforeTime.memory.chunkWord 8 0 = 4 ∧ s'.memory.chunkWord 8 0 = 1 :=
  ⟨_, rfl, rfl, rfl, rfl⟩

end Crosstalk
