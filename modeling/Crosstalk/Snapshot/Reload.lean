import Crosstalk.Snapshot.Packing

/-!
# Loading a saved snapshot

On files that do not fail, what `saveSnapshot` has written is read back by
`loadSnapshot`. The running heap may be packed more tightly than next fit can
pack it, so that the loader can run out of segments.
-/

namespace Crosstalk

open ObjectMemory

variable {m : ObjectMemory} {L : Layout} {p n k : Nat} {f : File} {h h' g : Host}

/-! ## Objects of a tiled heap -/

namespace ObjectMemory

theorem Heap.allocated_of_object (hheap : Heap m L) (hp : IsOop p)
    (hobj : m.holdsObject p = true) : Allocated m L p := by
  obtain ⟨hfree, hcount⟩ : (m.entry p).free = 0 ∧ (m.entry p).count ≠ 0 := of_decide_eq_true hobj
  exact ⟨⟨hp, hfree⟩, fun s k => hheap.not_chunk_of_count hcount⟩

theorem Heap.space_le (hheap : Heap m L) (hp : IsOop p) (hobj : m.holdsObject p = true) :
    m.space p ≤ 65515 := by
  have hallocated := hheap.allocated_of_object hp hobj
  have hinside := hheap.tiled.inside p hallocated.inUse
  rw [hheap.extent_allocated p hallocated] at hinside
  omega

theorem Heap.sized (hheap : Heap m L) : m.Sized := by
  intro p hp hobj
  have htwo := hheap.two_le_space (hheap.allocated_of_object hp hobj)
  unfold space at htwo
  split at htwo
  · exact htwo
  · next hhuge =>
      have hge : ¬m.chunkWord p 0 < hugeSize := fun hlt => hhuge (.inl hlt)
      simp only [hugeSize] at hge
      omega

end ObjectMemory

/-! ## Saving without faults -/

/-- A file system that does not fail. -/
def File.Faithful (f : File) : Prop := ∀ n, f.faults n = none

theorem File.Faithful.answers (hf : f.Faithful) : f.Answers := fun e he => by
  rw [File.fault, hf] at he
  cases he

theorem File.Faithful.takes (hf : f.Faithful) (chunks : List (List UInt8)) : f.Takes chunks :=
  File.takes_of_no_faults fun c _ _ => hf c

theorem File.Faithful.complete (hf : f.Faithful) : Complete m f n k := by
  have hsaved : (savedFile m f n k).Faithful := hf
  have hnone : ∀ (g : File), g.Faithful → g.fault = none := fun g hg => hg g.calls
  refine ⟨⟨hsaved.answers, fun e he => ?_, fun e he => ?_⟩,
    File.Faithful.answers (f := headedFile f) hf,
    .inl (File.Faithful.answers (f := objectsFile m f n) hf)⟩
  · rw [hnone _ (show (savedFile m f n k).called.Faithful from hf)] at he
    cases he
  · rw [hnone _ (show (savedFile m f n k).called.called.Faithful from hf)] at he
    cases he

/-- A save that answers true has written the image. -/
theorem saved_image (hf : h.file.Faithful) (hsave : saveSnapshot h = some (true, h')) :
    h.memory.Saveable ∧ h'.file.bytes = h.memory.image := by
  obtain ⟨n, hn⟩ := (headedFile h.file.opened).exists_padsTo
  obtain ⟨k, hk⟩ := (objectsFile h.memory h.file.opened n).exists_padsTo
  obtain ⟨hreported, rfl⟩ := (saveSnapshot_eq_true hn hk).mp hsave
  have hopened : h.file.opened.Faithful := hf
  exact ⟨hreported.saveable,
    finalFile_bytes_eq_of_complete hreported.saveable hn hk hopened.complete⟩

theorem exists_save (hf : h.file.Faithful) (hm : h.memory.Saveable) :
    ∃ h', saveSnapshot h = some (true, h') := by
  obtain ⟨n, hn⟩ := (headedFile h.file.opened).exists_padsTo
  obtain ⟨k, hk⟩ := (objectsFile h.memory h.file.opened n).exists_padsTo
  have hopened : h.file.opened.Faithful := hf
  refine ⟨_, (saveSnapshot_eq_true hn hk).mpr ⟨⟨hf.answers, hm, ?_, ?_, ?_⟩, rfl⟩⟩
  · exact hopened.takes _
  · exact File.Faithful.takes (f := (headedFile h.file.opened).called) hopened _
  · exact File.Faithful.takes (f := (objectsFile h.memory h.file.opened n).called) hopened _

/-! ## Loading -/

/-- What the program answers, if it does not halt. -/
def answer {σ α : Type} (x : StateT σ Option α) (s : σ) : Option α := (x s).map Prod.fst

theorem answer_of_wp {σ α : Type} {x : StateT σ Option α} {s : σ} {a : α}
    (hx : Wp x (fun r _ => r = a) s) : answer x s = some a := by
  obtain ⟨r, s', hrun, rfl⟩ := hx
  rw [answer, hrun]
  rfl

/-- The memory can be loaded back: it has been saved, and its table is not full
but for nil. -/
structure Reloadable (m : ObjectMemory) : Prop where
  saveable : m.Saveable
  sized : m.Sized
  space_le : ∀ p, IsOop p → m.holdsObject p → m.space p ≤ 65515
  moreThanNil : MoreThanNil m

theorem Reloadable.wp_unpack (hm : Reloadable m) {s : ObjectMemory} :
    Wp (unpack m.image) (fun r _ => r = decide m.Packs) s := by
  refine (wp_unpack_image (R := fun _ => True) hm.saveable hm.sized hm.space_le
    fun m₁ d s h₁ htracks hu _ => ?_).mono fun _ _ h => h.1
  obtain ⟨l, hready⟩ := hu.ready hm.saveable h₁ hm.moreThanNil
  exact (wp_buildFreeChunks hready htracks.bounds).mono fun _ _ _ => trivial

/-- The loader does what the program on the memory alone does. -/
theorem wp_loadImage {bootmode : Nat} {bytes : List UInt8} {Q : Bool → ObjectMemory → Prop}
    (hreadable : Readable bytes) (hfits : bootmode ≠ 1 → bytes.length ≤ sizeofFilesSnapshotIm)
    (hg : Holds bytes bootmode g) (hunpack : Wp (unpack bytes) Q g.memory) :
    Wp (loadImage bootmode) (fun r g' => Q r g'.memory) g := by
  obtain ⟨a, m', hrun, hQ⟩ := hunpack
  rcases refines_loadImage hfits hreadable g hg with ⟨hnone, -⟩ | ⟨b, g', hload, hsome, -⟩
  · rw [hnone] at hrun
    cases hrun
  · rw [hsome] at hrun
    cases hrun
    exact ⟨_, g', hload, hQ⟩

theorem unpack_of_loadImage {bootmode : Nat} {bytes : List UInt8} {g' : Host} {r : Bool}
    (hreadable : Readable bytes) (hfits : bootmode ≠ 1 → bytes.length ≤ sizeofFilesSnapshotIm)
    (hg : Holds bytes bootmode g) (hload : loadImage bootmode g = some (r, g')) :
    unpack bytes g.memory = some (r, g'.memory) := by
  have heq := (refines_loadImage hfits hreadable).map_eq hg
  rw [hload] at heq
  exact heq.symm

section LoadSnapshot

variable {bytes : List UInt8} {Q : Bool → ObjectMemory → Prop}

theorem wp_loadSnapshot_one (hreadable : Readable bytes) (hbytes : g.file.bytes = bytes)
    (hg : g.file.Faithful) (hunpack : Wp (unpack bytes) Q g.memory) :
    Wp (loadSnapshot 1) (fun r g' => Q r g'.memory) g := by
  have hholds : Holds bytes 1 { g with file.position := 0 } :=
    ⟨by omega, fun _ => hbytes, fun _ => hg, fun hne => absurd rfl hne,
      fun h01 => absurd h01 (by omega)⟩
  rw [loadSnapshot, if_pos (.inl rfl), wp_bind, wp_modify, if_neg (by omega), if_neg (by omega)]
  exact wp_loadImage hreadable (fun hne => absurd rfl hne) hholds hunpack

theorem wp_loadSnapshot_two (hreadable : Readable bytes) (hbytes : g.file.bytes = bytes)
    (hunpack : Wp (unpack bytes) Q g.memory) : Wp (loadSnapshot 2) (fun r g' =>
      (bytes.length ≤ sizeofFilesSnapshotIm → Q r g'.memory) ∧
        (¬bytes.length ≤ sizeofFilesSnapshotIm → r = false)) g := by
  rw [loadSnapshot, if_pos (.inr rfl), wp_bind, wp_modify, if_neg (by omega), if_pos rfl, wp_bind]
  by_cases hfits : bytes.length ≤ sizeofFilesSnapshotIm
  · refine (wp_readImageIntoArray (h := { g with file.position := 0 }) hfits hbytes
      rfl).mono fun r g' ⟨hr, hmemory, hholds⟩ => ?_
    subst hr
    rw [if_pos rfl]
    refine (wp_loadImage hreadable (fun _ => hfits) hholds (Q := Q) ?_).mono fun r _ hQ => ?_
    · rw [hmemory]
      exact hunpack
    · exact ⟨fun _ => hQ, fun hn => absurd hfits hn⟩
  · have hsize : g.file.fileSize > sizeofFilesSnapshotIm := by
      rw [File.fileSize, hbytes]
      omega
    rw [readImageIntoArray, wp_bind, wp_get]
    dsimp only
    rw [if_pos (show File.fileSize { g.file with position := 0 } > _ from hsize), wp_pure,
      if_neg Bool.false_ne_true, wp_pure]
    exact ⟨fun hy => absurd hy hfits, fun _ => rfl⟩

/-- A load that answers true has unpacked the image in the memory. -/
theorem unpack_of_loadSnapshot {g' : Host} {bootmode : Nat} (hreadable : Readable bytes)
    (hbytes : g.file.bytes = bytes) (hg : g.file.Faithful) (hmode : bootmode = 1 ∨ bootmode = 2)
    (hload : loadSnapshot bootmode g = some (true, g')) :
    unpack bytes g.memory = some (true, g'.memory) := by
  have hrun : Wp (loadSnapshot bootmode) (fun r t => r = true ∧ t = g') g :=
    ⟨true, g', hload, rfl, rfl⟩
  rw [loadSnapshot, if_pos hmode, wp_bind, wp_modify] at hrun
  rcases hmode with rfl | rfl
  · rw [if_neg (by decide), if_neg (by decide)] at hrun
    obtain ⟨_, _, himage, rfl, rfl⟩ := hrun
    have hholds : Holds bytes 1 { g with file.position := 0 } :=
      ⟨by omega, fun _ => hbytes, fun _ => hg, fun hne => absurd rfl hne,
        fun h01 => absurd h01 (by omega)⟩
    exact unpack_of_loadImage (g := { g with file.position := 0 }) hreadable
      (fun hne => absurd rfl hne) hholds himage
  · rw [if_neg (by decide), if_pos rfl, wp_bind] at hrun
    by_cases hfits : bytes.length ≤ sizeofFilesSnapshotIm
    · obtain ⟨_, g₁, -, hrun, rfl, hmemory, hholds⟩ := hrun.and_wlp
        (wp_readImageIntoArray (h := { g with file.position := 0 }) hfits hbytes rfl).toWlp
      rw [if_pos rfl] at hrun
      obtain ⟨_, _, himage, rfl, rfl⟩ := hrun
      rw [← hmemory]
      exact unpack_of_loadImage hreadable (fun _ => hfits) hholds himage
    · have hsize : g.file.fileSize > sizeofFilesSnapshotIm := by
        rw [File.fileSize, hbytes]
        omega
      rw [readImageIntoArray, wp_bind, wp_get] at hrun
      dsimp only at hrun
      rw [if_pos (show File.fileSize { g.file with position := 0 } > _ from hsize), wp_pure,
        if_neg Bool.false_ne_true, wp_pure] at hrun
      exact absurd hrun.1 Bool.false_ne_true

end LoadSnapshot

theorem answer_loadSnapshot_one (hm : Reloadable m) (hbytes : g.file.bytes = m.image)
    (hg : g.file.Faithful) : answer (loadSnapshot 1) g = some (decide m.Packs) := by
  refine answer_of_wp ?_
  generalize hpacks : decide m.Packs = packs
  have hunpack := hm.wp_unpack (s := g.memory)
  rw [hpacks] at hunpack
  exact wp_loadSnapshot_one (readable_image hm.saveable hm.sized) hbytes hg hunpack

theorem answer_loadSnapshot_two (hm : Reloadable m) (hbytes : g.file.bytes = m.image) :
    answer (loadSnapshot 2) g =
      some (decide (g.file.bytes.length ≤ sizeofFilesSnapshotIm ∧ m.Packs)) := by
  refine answer_of_wp ?_
  rw [hbytes, Bool.decide_and]
  generalize hpacks : decide m.Packs = packs
  have hunpack := hm.wp_unpack (s := g.memory)
  rw [hpacks] at hunpack
  refine (wp_loadSnapshot_two (readable_image hm.saveable hm.sized) hbytes
    hunpack).mono fun r _ ⟨hfit, hlong⟩ => ?_
  by_cases hfits : m.image.length ≤ sizeofFilesSnapshotIm
  · rw [hfit hfits, decide_eq_true hfits, Bool.true_and]
  · rw [hlong hfits, decide_eq_false hfits, Bool.false_and]

/-- Loading what a save of a tiled heap has written: the slow mode answers whether
next fit can pack the objects, the fast mode also whether the file fits the array. -/
theorem answer_loadSnapshot_saved (hheap : Heap h.memory L) (hnil : MoreThanNil h.memory)
    (hf : h.file.Faithful) (hsave : saveSnapshot h = some (true, h'))
    (hbytes : g.file.bytes = h'.file.bytes) (hg : g.file.Faithful) :
    answer (loadSnapshot 1) g = some (decide h.memory.Packs) ∧
    answer (loadSnapshot 2) g =
      some (decide (g.file.bytes.length ≤ sizeofFilesSnapshotIm ∧ h.memory.Packs)) := by
  obtain ⟨hsaveable, himage⟩ := saved_image hf hsave
  have hm : Reloadable h.memory :=
    ⟨hsaveable, hheap.sized, fun p hp hobj => hheap.space_le hp hobj, hnil⟩
  rw [himage] at hbytes
  exact ⟨answer_loadSnapshot_one hm hbytes hg, answer_loadSnapshot_two hm hbytes⟩

/-! ## A full heap -/

/-- Each heap segment holds an object of 40000 words, with oop 2 to 30, and one
of 25515 words, with oop 32 to 60. -/
def crowdedWord (s w : Nat) : Nat :=
  if s = 15 then
    if w = 65534 then 62
    else if w % 2 = 0 then
      if w < 2 then 32
      else if w ≤ 30 then 256 + (w / 2 - 1)
      else if w ≤ 60 then 256 + (w / 2 - 16)
      else 32
    else if w ≤ 31 then 0
    else if w ≤ 61 then 40000
    else if w < 65533 then w + 1
    else 65535
  else if w = 0 then 40000
  else if w = 40000 then 25515
  else if 65515 ≤ w then 65535
  else 2

theorem crowdedWord_lt (s w : Nat) : crowdedWord s w < 65536 := by
  unfold crowdedWord
  split
  · split
    · omega
    · split
      · split
        · omega
        · split
          · omega
          · split <;> omega
      · split
        · omega
        · split
          · omega
          · split <;> omega
  · split
    · omega
    · split
      · omega
      · split <;> omega

def crowded : ObjectMemory := ⟨⟨crowdedWord, crowdedWord_lt⟩, 0, 0, 32736⟩

def crowdedExtent (p : Nat) : Nat := if p ≤ 30 then 40000 else 25515

def crowdedSegment (p : Nat) : Nat := if p ≤ 30 then p / 2 - 1 else p / 2 - 16

def crowdedLayout : Layout where
  freePointers := List.range' 62 32736 2
  chunks _ _ := []
  extent := crowdedExtent

section Crowded

theorem decodeEntry_crowded : ∀ s < 15, decodeEntry (256 + s) = ⟨1, 0, 0, 0, s⟩ := by decide

theorem entry_crowded (hp : IsOop p) : crowded.entry p =
    if p ≤ 60 then ⟨1, 0, 0, 0, crowdedSegment p⟩ else ⟨0, 0, 0, 1, 0⟩ := by
  obtain ⟨heven, htwo, hle⟩ := hp
  show decodeEntry (crowdedWord 15 p) = _
  rw [crowdedWord, if_pos rfl, if_neg (by omega), if_pos heven, if_neg (by omega), crowdedSegment]
  by_cases h30 : p ≤ 30
  · rw [if_pos h30, if_pos (by omega), if_pos h30, decodeEntry_crowded _ (by omega)]
  · rw [if_neg h30, if_neg h30]
    by_cases h60 : p ≤ 60
    · rw [if_pos h60, if_pos h60, decodeEntry_crowded _ (by omega)]
    · rw [if_neg h60, if_neg h60]
      rfl

theorem location_crowded (hp : IsOop p) : crowded.location p =
    if p ≤ 30 then 0 else if p ≤ 60 then 40000 else if p < 65532 then p + 2 else 65535 := by
  obtain ⟨heven, htwo, hle⟩ := hp
  show crowdedWord 15 (p + 1) = _
  rw [crowdedWord, if_pos rfl, if_neg (by omega), if_neg (by omega)]
  refine if_congr (by omega) rfl (if_congr (by omega) rfl (if_congr (by omega) rfl rfl))

theorem inUse_crowded : InUse crowded p ↔ IsOop p ∧ p ≤ 60 := by
  refine and_congr_right fun hp => ?_
  rw [entry_crowded hp]
  by_cases h60 : p ≤ 60
  · rw [if_pos h60]
    exact iff_of_true rfl h60
  · rw [if_neg h60]
    exact iff_of_false (by decide) h60

theorem segment_crowded (hp : IsOop p) (h60 : p ≤ 60) :
    (crowded.entry p).segment = crowdedSegment p := by
  rw [entry_crowded hp, if_pos h60]

theorem crowdedSegment_lt (hp : IsOop p) (h60 : p ≤ 60) : crowdedSegment p < 15 := by
  unfold crowdedSegment
  split <;> omega

theorem size_crowded (hp : IsOop p) (h60 : p ≤ 60) : crowded.chunkWord p 0 = crowdedExtent p := by
  have hseg := crowdedSegment_lt hp h60
  show crowdedWord (crowded.entry p).segment (crowded.location p + 0) = _
  rw [segment_crowded hp h60, location_crowded hp, crowdedWord, if_neg (by omega), crowdedExtent]
  by_cases h30 : p ≤ 30
  · rw [if_pos h30, if_pos rfl, if_pos h30]
  · rw [if_neg h30, if_pos h60, if_neg (by decide), if_pos rfl, if_neg h30]

theorem space_crowded (hp : IsOop p) (h60 : p ≤ 60) : crowded.space p = crowdedExtent p := by
  rw [ObjectMemory.space, size_crowded hp h60, entry_crowded hp, if_pos h60, if_pos (.inr rfl)]

theorem holdsObject_crowded (hp : IsOop p) : crowded.holdsObject p = decide (p ≤ 60) := by
  rw [holdsObject, entry_crowded hp]
  by_cases h60 : p ≤ 60
  · rw [if_pos h60, decide_eq_true h60]
    rfl
  · rw [if_neg h60, decide_eq_false h60]
    rfl

theorem location_add_extent (hp : IsOop p) (h60 : p ≤ 60) :
    crowded.location p + crowdedExtent p ≤ 65515 := by
  rw [location_crowded hp, crowdedExtent]
  by_cases h30 : p ≤ 30
  · rw [if_pos h30, if_pos h30]
    omega
  · rw [if_neg h30, if_pos h60, if_neg h30]

theorem tiled_crowded : Tiled crowded crowdedExtent := by
  refine ⟨fun p hp => ?_, fun p _ => ?_, fun p hp => ?_, fun p q hp hq hne hs => ?_,
    fun s w hs hw => ?_⟩
  · obtain ⟨hp, h60⟩ := inUse_crowded.mp hp
    rw [segment_crowded hp h60]
    exact crowdedSegment_lt hp h60
  · unfold crowdedExtent
    split <;> omega
  · obtain ⟨hp, h60⟩ := inUse_crowded.mp hp
    exact location_add_extent hp h60
  · obtain ⟨hp, hp60⟩ := inUse_crowded.mp hp
    obtain ⟨hq, hq60⟩ := inUse_crowded.mp hq
    rw [segment_crowded hp hp60, segment_crowded hq hq60] at hs
    rw [location_crowded hp, location_crowded hq]
    unfold crowdedSegment at hs
    unfold crowdedExtent
    by_cases hp30 : p ≤ 30
    · by_cases hq30 : q ≤ 30
      · rw [if_pos hp30, if_pos hq30] at hs
        omega
      · rw [if_pos hp30, if_pos hp30, if_neg hq30, if_pos hq60, if_neg hq30]
        omega
    · by_cases hq30 : q ≤ 30
      · rw [if_neg hp30, if_pos hp60, if_neg hp30, if_pos hq30, if_pos hq30]
        omega
      · rw [if_neg hp30, if_neg hq30] at hs
        omega
  · by_cases hlow : w < 40000
    · have hp : IsOop (2 * (s + 1)) := ⟨by omega, by omega, by omega⟩
      have h30 : 2 * (s + 1) ≤ 30 := by omega
      refine ⟨2 * (s + 1), inUse_crowded.mpr ⟨hp, by omega⟩, ?_⟩
      rw [segment_crowded hp (by omega), location_crowded hp, crowdedSegment, crowdedExtent,
        if_pos h30, if_pos h30, if_pos h30]
      omega
    · have hp : IsOop (2 * (s + 16)) := ⟨by omega, by omega, by omega⟩
      have h30 : ¬2 * (s + 16) ≤ 30 := by omega
      have h60 : 2 * (s + 16) ≤ 60 := by omega
      refine ⟨2 * (s + 16), inUse_crowded.mpr ⟨hp, h60⟩, ?_⟩
      rw [segment_crowded hp h60, location_crowded hp, crowdedSegment, crowdedExtent,
        if_neg h30, if_neg h30, if_pos h60, if_neg h30]
      omega

theorem linked_crowded : ∀ {n p : Nat}, p % 2 = 0 → 62 ≤ p → p + 2 * n = 65534 →
    Linked crowded.location nonPointer (if n = 0 then 65535 else p) (List.range' p n 2)
  | 0, _, _, _, _ => rfl
  | n + 1, p, heven, hge, hsum => by
      have ih := linked_crowded (n := n) (p := p + 2) (by omega) (by omega) (by omega)
      have hlocation : crowded.location p = if n = 0 then 65535 else p + 2 := by
        rw [location_crowded ⟨heven, by omega, by omega⟩, if_neg (by omega), if_neg (by omega)]
        by_cases hn : n = 0
        · rw [if_pos hn, if_neg (by omega)]
        · rw [if_neg hn, if_pos (by omega)]
      rw [List.range'_succ, if_neg (Nat.succ_ne_zero n)]
      refine ⟨rfl, by simp only [nonPointer]; omega, ?_⟩
      rw [hlocation]
      exact ih

theorem heap_crowded : Heap crowded crowdedLayout := by
  have hlinked := linked_crowded (n := 32736) (p := 62) rfl le_rfl rfl
  rw [if_neg (by omega)] at hlinked
  refine ⟨tiled_crowded, ⟨hlinked, fun p => ?_, fun s k hs hk _ => ?_,
    fun _ _ _ hp => absurd hp List.not_mem_nil, fun _ _ _ _ hp => absurd hp List.not_mem_nil⟩,
    fun _ _ _ hp => absurd hp List.not_mem_nil, fun p hp => ?_⟩
  · show p ∈ List.range' 62 32736 2 ↔ _
    rw [List.mem_range']
    constructor
    · rintro ⟨i, hi, rfl⟩
      have hoop : IsOop (62 + 2 * i) := ⟨by omega, by omega, by omega⟩
      rw [entry_crowded hoop, if_neg (by omega)]
      exact ⟨hoop, rfl⟩
    · rintro ⟨hoop, hfree⟩
      have h60 : ¬p ≤ 60 := fun h60 => by
        rw [entry_crowded hoop, if_pos h60] at hfree
        cases hfree
      obtain ⟨heven, -, hle⟩ := hoop
      exact ⟨(p - 62) / 2, by omega, by omega⟩
  · show crowdedWord s (firstFreeChunkList + k) = 65535
    have hfirst : firstFreeChunkList = 65515 := rfl
    rw [crowdedWord, if_neg (by omega), if_neg (by omega), if_neg (by omega), if_pos (by omega)]
  · obtain ⟨hoop, h60⟩ := inUse_crowded.mp hp.inUse
    exact (space_crowded hoop h60).symm

theorem holdsObject_crowded_nil : crowded.holdsObject nilPointer = true :=
  holdsObject_crowded ⟨rfl, le_rfl, by decide⟩

theorem wordsBefore_crowded (n : Nat) (hn : n ≤ 32766) : crowded.wordsBefore n ≤
    40000 * min n 15 + 25515 * (min n 30 - 15) := by
  induction n with
  | zero => exact le_rfl
  | succ n ih =>
      have hp : IsOop (2 * (n + 1)) := ⟨by omega, by omega, by omega⟩
      have ih := ih (by omega)
      rw [wordsBefore, objectWords, holdsObject_crowded hp]
      by_cases h60 : 2 * (n + 1) ≤ 60
      · rw [if_pos (decide_eq_true h60), size_crowded hp h60, crowdedExtent]
        split <;> omega
      · rw [decide_eq_false h60, if_neg Bool.false_ne_true]
        omega

theorem saveable_crowded : crowded.Saveable := by
  have hlast := lastUsed_le_of_object holdsObject_crowded_nil ⟨rfl, le_rfl, by decide⟩
  constructor
  · intro i hi
    rw [storedObjectTableLength] at hi
    have hp : IsOop (2 * (i + 1)) := ⟨by omega, by omega, by omega⟩
    refine ⟨hp.isEntry, fun hobj => ?_⟩
    rw [holdsObject_crowded hp] at hobj
    have h60 := of_decide_eq_true hobj
    have hinside := location_add_extent hp h60
    have htwo := tiled_crowded.two_le _ (inUse_crowded.mpr ⟨hp, h60⟩)
    rw [size_crowded hp h60]
    omega
  · intro i hi
    rw [storedObjectTableLength] at hi
    refine ⟨⟨by omega, by omega⟩, fun _ _ => ?_⟩
    have hwords := wordsBefore_crowded (i - 1) (by omega)
    omega

/-- The loader leaves segments before they are full. -/
theorem not_packs_crowded : ¬crowded.Packs := by
  have h30 : 15 ≤ (crowded.packed 30).bin := by decide +kernel
  exact Nat.not_lt.mpr (h30.trans (bin_packed_le (by omega)))

def crowdedHost : Host where
  memory := crowded
  file := ⟨[], 0, fun _ => none, 0⟩
  filesSnapshotIm _ := 0
  filesSnapshotImLen := 0
  offset := 0

theorem exists_save_crowded : ∃ h', saveSnapshot crowdedHost = some (true, h') :=
  exists_save (h := crowdedHost) (fun _ => rfl) saveable_crowded

end Crowded

theorem answer_loadSnapshot_crowded : ∃ h', saveSnapshot crowdedHost = some (true, h') ∧
    answer (loadSnapshot 1) { crowdedHost with file.bytes := h'.file.bytes } = some false := by
  obtain ⟨h', hsave⟩ := exists_save_crowded
  refine ⟨h', hsave, ?_⟩
  have hload := (answer_loadSnapshot_saved (h := crowdedHost) heap_crowded
    (.inl holdsObject_crowded_nil) (fun _ => rfl) hsave
    (g := { crowdedHost with file.bytes := h'.file.bytes }) rfl fun _ => rfl).1
  rw [hload]
  exact congrArg some (decide_eq_false not_packs_crowded)

/-- A saved snapshot that cannot be loaded. -/
theorem not_loadable : ¬∀ (h h' g : Host) (L : Layout), Heap h.memory L → h.file.Faithful →
    saveSnapshot h = some (true, h') → g.file.bytes = h'.file.bytes → g.file.Faithful →
      answer (loadSnapshot 1) g = some true := by
  intro hall
  obtain ⟨h', hsave⟩ := exists_save_crowded
  have htrue := hall crowdedHost h' { crowdedHost with file.bytes := h'.file.bytes } crowdedLayout
    heap_crowded (fun _ => rfl) hsave rfl fun _ => rfl
  have hm : Reloadable crowded := ⟨saveable_crowded, heap_crowded.sized,
    fun p hp hobj => heap_crowded.space_le hp hobj, .inl holdsObject_crowded_nil⟩
  have hfalse := answer_loadSnapshot_one (g := { crowdedHost with file.bytes := h'.file.bytes }) hm
    (saved_image (h := crowdedHost) (fun _ => rfl) hsave).2 fun _ => rfl
  rw [hfalse, decide_eq_false not_packs_crowded] at htrue
  cases htrue

end Crosstalk
