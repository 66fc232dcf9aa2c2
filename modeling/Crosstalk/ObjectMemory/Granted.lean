import Crosstalk.ObjectMemory.Compacted

/-!
# A chunk from one segment

What an attempt to allocate a chunk in the current segment does to the memory: it
takes a chunk of the size from its list, or a part of a larger chunk. It fails only
where no chunk on the lists will do, and leaves the memory as it was.
-/

namespace Crosstalk

namespace ObjectMemory

variable {m u : ObjectMemory} {L L' : Layout} {p q s k w i size : Nat}

theorem chunk_ne_nil (hnil : Allocated m L nilPointer) (hp : p ∈ L.chunks s k) :
    p ≠ nilPointer :=
  fun hpn => hnil.2 s k (hpn ▸ hp)

/-! ## The objects stay -/

/-- The objects of `m` are still there, and `p` may be new. -/
structure Retained (m : ObjectMemory) (L : Layout) (p : Nat) (L' : Layout) (u : ObjectMemory) :
    Prop where
  old : ∀ q, Allocated m L q → Allocated u L' q
  new : ∀ q, Allocated u L' q → Allocated m L q ∨ q = p
  entry : ∀ q, Allocated m L q → u.word objectTableSegment q = m.word objectTableSegment q
  content : ∀ q, Allocated m L q → ∀ i < m.space q, u.chunkWord q i = m.chunkWord q i
  reserved : u.word objectTableSegment 0 = m.word objectTableSegment 0

/-- An attempt has answered `p`: nil, or the entry of a chunk of `size` words. The
space of its object is not known yet, as its pointer bit is to be set. -/
structure Granted (m : ObjectMemory) (L : Layout) (size p : Nat) (L' : Layout)
    (u : ObjectMemory) : Prop where
  tiled : Tiled u L'.extent
  lists : FreeLists u L'
  extent_chunk : ∀ s k q, q ∈ L'.chunks s k → L'.extent q = u.chunkWord q 0
  extent_allocated : ∀ q, Allocated u L' q → q ≠ p ∨ p = nilPointer → L'.extent q = u.space q
  retained : Retained m L p L' u
  granted : p ≠ nilPointer → ¬Allocated m L p ∧ Allocated u L' p ∧ L'.extent p = size ∧
    u.chunkWord p 0 = size ∧ (u.entry p).count = 0

theorem Retained.refl : Retained m L p L m :=
  ⟨fun _ h => h, fun _ h => .inl h, fun _ _ => rfl, fun _ _ _ _ => rfl, rfl⟩

theorem Retained.space_eq (h : Retained m L p L' u) (hq : Allocated m L q)
    (htwo : 2 ≤ m.space q) : u.space q = m.space q := by
  have hentry : u.entry q = m.entry q := congrArg decodeEntry (h.entry q hq)
  exact space_congr (by rw [hentry]) (h.content q hq 0 (by omega))

/-- Nothing is granted. -/
theorem Heap.refused (hm : Heap m L) : Granted m L size nilPointer L m :=
  ⟨hm.tiled, hm.lists, hm.extent_chunk, fun q hq _ => hm.extent_allocated q hq, .refl,
    fun h => absurd rfl h⟩

theorem Granted.heap (h : Granted m L size nilPointer L' u) : Heap u L' :=
  ⟨h.tiled, h.lists, h.extent_chunk, fun q hq => h.extent_allocated q hq (.inr rfl)⟩

/-! ## A chunk of the size -/

/-- The layout without the free chunk `p` of the list `k`. -/
def Layout.erase (L : Layout) (s k p : Nat) : Layout :=
  { L with chunks := fun s' k' =>
      if s' = s ∧ k' = k then (L.chunks s k).filter (· ≠ p) else L.chunks s' k' }

theorem Layout.mem_erase {s' k' : Nat} : q ∈ (L.erase s k p).chunks s' k' ↔
    q ∈ L.chunks s' k' ∧ ¬(q = p ∧ s' = s ∧ k' = k) := by
  rw [Layout.erase]
  by_cases h : s' = s ∧ k' = k
  · obtain ⟨rfl, rfl⟩ := h
    simp
  · simp only [if_neg h]
    exact ⟨fun hq => ⟨hq, fun hall => h hall.2⟩, fun hall => hall.1⟩

/-- A free chunk is taken from its list. -/
theorem Heap.erased (hm : Heap m L) (hnil : Allocated m L nilPointer) (hp : p ∈ L.chunks s k)
    (hsize : m.chunkWord p 0 = size) (htable : ∀ w, u.word 15 w = m.word 15 w)
    (hzero : ∀ q, InUse m q → u.chunkWord q 0 = m.chunkWord q 0)
    (hcontent : ∀ q, Allocated m L q → ∀ i < L.extent q, u.chunkWord q i = m.chunkWord q i)
    (hchunks : ∀ s' k', s' < 15 → 2 ≤ k' → k' ≤ 20 →
      Linked (u.chunkWord · 1) nonPointer (u.chunkHead s' k') ((L.erase s k p).chunks s' k')) :
    Granted m L size p (L.erase s k p) u := by
  have hentry : ∀ q, u.entry q = m.entry q := fun q => congrArg decodeEntry (htable q)
  have hlocation : ∀ q, u.location q = m.location q := fun q => htable (q + 1)
  have huse : ∀ q, InUse u q ↔ InUse m q := fun q => by rw [InUse, InUse, hentry]
  have hallocated : ∀ q, Allocated u (L.erase s k p) q ↔ Allocated m L q ∨ q = p := fun q => by
    constructor
    · rintro ⟨hq, hout⟩
      by_cases hqp : q = p
      · exact .inr hqp
      · exact .inl ⟨(huse q).mp hq, fun s' k' hk =>
          hout s' k' (Layout.mem_erase.mpr ⟨hk, fun hall => hqp hall.1⟩)⟩
    · rintro (hq | rfl)
      · exact ⟨(huse q).mpr hq.inUse, fun s' k' hk => hq.2 s' k' (Layout.mem_erase.mp hk).1⟩
      · refine ⟨(huse q).mpr (hm.chunk_inUse hp), fun s' k' hk => ?_⟩
        obtain ⟨hk, hout⟩ := Layout.mem_erase.mp hk
        exact hout ⟨rfl, (hm.listed_once hp).2 s' k' hk⟩
  have hpnil := chunk_ne_nil hnil hp
  refine ⟨hm.tiled.congr (fun _ _ => by rw [hentry]) (fun _ _ => by rw [hentry])
    fun _ _ => hlocation _, ⟨?_, fun q => ?_, hchunks, fun s' k' q hq => ?_,
    fun s' k' k'' q hq hq' => ?_⟩, fun s' k' q hq => ?_, fun q hq hqp => ?_,
    ⟨fun q hq => (hallocated q).mpr (.inl hq), fun q hq => (hallocated q).mp hq,
      fun q _ => htable q, fun q hq i hi => ?_, htable 0⟩, fun _ => ⟨?_, ?_, ?_, ?_, ?_⟩⟩
  · have hhead : u.freeHead = m.freeHead := htable 65534
    rw [hhead]
    exact hm.lists.pointers.congr fun q _ => hlocation q
  · rw [hentry]
    exact hm.lists.mem_pointers q
  · obtain ⟨hq, -⟩ := Layout.mem_erase.mp hq
    have hc := hm.lists.freeChunk s' k' q hq
    refine ⟨(huse q).mpr hc.inUse, by rw [hentry]; exact hc.segment, hc.segment_lt, hc.two_le,
      hc.le_bigSize, ?_, by rw [hentry]; exact hc.count⟩
    rw [hzero q hc.inUse]
    exact hc.size
  · exact hm.lists.unique s' k' k'' q (Layout.mem_erase.mp hq).1 (Layout.mem_erase.mp hq').1
  · obtain ⟨hq, -⟩ := Layout.mem_erase.mp hq
    rw [hzero q (hm.chunk_inUse hq)]
    exact hm.extent_chunk s' k' q hq
  · have hq' := ((hallocated q).mp hq).resolve_right (hqp.resolve_right hpnil)
    rw [space_congr (by rw [hentry]) (hzero q hq'.inUse)]
    exact hm.extent_allocated q hq'
  · rw [← hm.extent_allocated q hq] at hi
    exact hcontent q hq i hi
  · exact fun hq => hq.2 s k hp
  · exact (hallocated p).mpr (.inr rfl)
  · exact (hm.extent_chunk s k p hp).trans hsize
  · rw [hzero p (hm.chunk_inUse hp)]
    exact hsize
  · rw [hentry]
    exact (hm.lists.freeChunk s k p hp).count

theorem filter_ne_middle {a b : List Nat} (h : (a ++ p :: b).Nodup) :
    (a ++ p :: b).filter (· ≠ p) = a ++ b := by
  obtain ⟨-, hb, hab⟩ := List.nodup_append.mp h
  have ha : ∀ x ∈ a, x ≠ p := fun x hx => hab x hx p List.mem_cons_self
  have hb' : ∀ x ∈ b, x ≠ p := fun x hx hxp => (List.nodup_cons.mp hb).1 (hxp ▸ hx)
  rw [List.filter_append, List.filter_cons_of_neg (by simp),
    List.filter_eq_self.mpr (by simpa using ha), List.filter_eq_self.mpr (by simpa using hb')]

section Unlink

variable (hm : Heap m L) (hnil : Allocated m L nilPointer) (hs : s < 15) (hk : 2 ≤ k ∧ k ≤ 20)
  {l l' : List Nat}

include hm hnil hs hk

/-- The chunk is the head of its list. -/
theorem Heap.granted_head (hl : L.chunks s k = p :: l) (hsize : m.chunkWord p 0 = size) :
    Granted m L size p (L.erase s k p) (m.setChunkHead s k (m.chunkWord p 1)) := by
  have hs15 : s ≠ 15 := by omega
  have hlt := m.chunkWord_lt p 1
  have hlinked := hm.lists.chunks s k hs hk.1 hk.2
  have hfilter := filter_ne_middle (a := []) (hl ▸ hlinked.nodup)
  rw [List.nil_append, List.nil_append] at hfilter
  have hword : ∀ q, InUse m q → ∀ i < L.extent q,
      (m.setChunkHead s k (m.chunkWord p 1)).chunkWord q i = m.chunkWord q i := fun q hq i hi =>
    chunkWord_setChunkHead hs15 (hm.tiled.word_lt hq hi)
  have htwo := hm.tiled.two_le
  refine hm.erased hnil (hl ▸ List.mem_cons_self) hsize
    (fun w => by rw [setChunkHead, word_setWord, if_neg (by omega)])
    (fun q hq => hword q hq 0 (by have := htwo q hq; omega)) (fun q hq => hword q hq.inUse)
    fun s' k' hs' h2 h20 => ?_
  rw [chunkHead_setChunkHead hlt, Layout.erase]
  have hlink : ∀ q ∈ L.chunks s' k',
      (m.setChunkHead s k (m.chunkWord p 1)).chunkWord q 1 = m.chunkWord q 1 := fun q hq =>
    hword q (hm.chunk_inUse hq) 1 (by have := htwo q (hm.chunk_inUse hq); omega)
  by_cases hsk : s' = s ∧ k' = k
  · obtain ⟨rfl, rfl⟩ := hsk
    rw [hl] at hlinked
    simp only [and_self, if_true, hl, hfilter]
    exact hlinked.2.2.congr fun q hq => hlink q (hl ▸ List.mem_cons_of_mem _ hq)
  · simp only [if_neg hsk]
    exact (hm.lists.chunks s' k' hs' h2 h20).congr hlink

/-- The chunk comes after `q` on its list. -/
theorem Heap.granted_after (hl : L.chunks s k = l ++ q :: p :: l')
    (hsize : m.chunkWord p 0 = size) :
    Granted m L size p (L.erase s k p) (m.setChunkWord q 1 (m.chunkWord p 1)) := by
  have hlt := m.chunkWord_lt p 1
  have hlinked := hm.lists.chunks s k hs hk.1 hk.2
  rw [hl] at hlinked
  have hsplit : l ++ q :: p :: l' = (l ++ [q]) ++ p :: l' := by simp
  have hfilter := filter_ne_middle (hsplit ▸ hlinked.nodup)
  rw [← hsplit, List.append_assoc, List.singleton_append] at hfilter
  have hqmem : q ∈ L.chunks s k := hl ▸ by simp
  have hq := hm.chunk_inUse hqmem
  have hqh := hm.onHeap hq
  have hpmem : p ∈ L.chunks s k := hl ▸ by simp
  have htwo := hm.tiled.two_le
  have hword : ∀ x, InUse m x → ∀ i < L.extent x, x ≠ q ∨ i ≠ 1 →
      (m.setChunkWord q 1 (m.chunkWord p 1)).chunkWord x i = m.chunkWord x i :=
    fun x hx i hi hne => by
      rw [hm.tiled.chunkWord_setChunkWord hq hx (by have := htwo q hq; omega) hi hlt,
        if_neg (by omega)]
  refine hm.erased hnil hpmem hsize (fun w => ?_)
    (fun x hx => hword x hx 0 (by have := htwo x hx; omega) (.inr (by omega)))
    (fun x hx i hi => hword x hx.inUse i hi (.inl fun hxq => hx.2 s k (hxq ▸ hqmem)))
    fun s' k' hs' h2 h20 => ?_
  · rw [word_setChunkWord, if_neg fun hall => hqh hall.1.symm]
  · have hnext : (m.setChunkWord q 1 (m.chunkWord p 1)).chunkWord q 1 = m.chunkWord p 1 := by
      rw [hm.tiled.chunkWord_setChunkWord hq hq (by have := htwo q hq; omega)
        (by have := htwo q hq; omega) hlt, if_pos ⟨rfl, rfl⟩]
    have hlink : ∀ x, InUse m x → x ≠ q →
        (m.setChunkWord q 1 (m.chunkWord p 1)).chunkWord x 1 = m.chunkWord x 1 := fun x hx hne =>
      hword x hx 1 (by have := htwo x hx; omega) (.inl hne)
    rw [chunkHead_setChunkWord hlt (hm.tiled.word_lt hq (by have := htwo q hq; omega)),
      Layout.erase]
    by_cases hsk : s' = s ∧ k' = k
    · obtain ⟨rfl, rfl⟩ := hsk
      simp only [and_self, if_true, hl, hfilter]
      exact hlinked.unlink hnext fun x hx hne =>
        hlink x (hm.chunk_inUse (s := s') (k := k') (hl ▸ hx)) hne
    · simp only [if_neg hsk]
      refine (hm.lists.chunks s' k' hs' h2 h20).congr fun x hx => ?_
      exact hlink x (hm.chunk_inUse hx) fun hxq => hsk ((hm.listed_once hqmem).2 s' k' (hxq ▸ hx))

end Unlink

/-! ## A part of a chunk -/

/-- The last `size` words of the free chunk `p` have the entry `q`, and `e` words remain. -/
def parted (m : ObjectMemory) (p q s size e : Nat) : ObjectMemory :=
  ((taken m q s (m.location p + e)).setChunkWord q 0 size).setChunkWord p 0 e

def Layout.parted (L : Layout) (l : List Nat) (p q size e : Nat) : Layout where
  freePointers := l
  chunks := L.chunks
  extent x := if x = q then size else if x = p then e else L.extent x

section Parted

variable {e : Nat} {l : List Nat} (hm : Heap m L) (hs : s < 15) (hp : p ∈ L.chunks s 20)
  (hl : L.freePointers = q :: l)

include hm hl

theorem Heap.next_free : IsOop q ∧ (m.entry q).free = 1 ∧ m.freeHead = q ∧
    Linked m.location nonPointer (m.location q) l ∧ q ∉ l := by
  obtain ⟨hq, h1⟩ := (hm.lists.mem_pointers q).mp (hl ▸ List.mem_cons_self)
  have hlinked := hm.lists.pointers
  rw [hl] at hlinked
  exact ⟨hq, h1, hlinked.1, hlinked.2.2, (List.nodup_cons.mp hlinked.nodup).1⟩

theorem Heap.next_free_ne (hx : InUse m k) : k ≠ q := fun hkq => by
  have h1 := (hm.next_free hl).2.1
  have h0 := hx.2
  rw [hkq] at h0
  omega

include hs hp

/-- The entry of the chunk that is parted stays as it is. -/
theorem Heap.entry_part :
    ((taken m q s (m.location p + e)).setChunkWord q 0 size).entry p = m.entry p := by
  have hq := (hm.next_free hl).1
  have hpuse := hm.chunk_inUse hp
  rw [entry_sized hq hs, entry_taken hq hs hpuse.1, if_neg (hm.next_free_ne hl hpuse)]

theorem Heap.part_onHeap :
    (((taken m q s (m.location p + e)).setChunkWord q 0 size).entry p).segment ≠ 15 := by
  rw [hm.entry_part hs hp hl]
  exact hm.onHeap (hm.chunk_inUse hp)

theorem Heap.entry_parted {x : Nat} (hx : IsOop x) : (m.parted p q s size e).entry x =
    if x = q then ⟨0, 0, 0, 0, s⟩ else m.entry x := by
  have hq := (hm.next_free hl).1
  rw [ObjectMemory.parted, entry_setChunkWord (hm.part_onHeap hs hp hl), entry_sized hq hs,
    entry_taken hq hs hx]

variable (hsum : size + e = m.chunkWord p 0) (h2 : 2 ≤ size)

include hsum h2

theorem Heap.location_parted {x : Nat} (hx : IsOop x) : (m.parted p q s size e).location x =
    if x = q then m.location p + e else m.location x := by
  have hq := (hm.next_free hl).1
  have hin := hm.tiled.inside p (hm.chunk_inUse hp)
  have hext := hm.extent_chunk s 20 p hp
  rw [ObjectMemory.parted, location_setChunkWord (hm.part_onHeap hs hp hl), location_sized hq hs,
    location_taken hq (by omega) hx]

theorem Heap.word_parted {s' : Nat} (hs' : s' < 15) : (m.parted p q s size e).word s' w =
    if s' = s ∧ w = m.location p then e
    else if s' = s ∧ w = m.location p + e then size
    else m.word s' w := by
  have hq := (hm.next_free hl).1
  have hpuse := hm.chunk_inUse hp
  have hne := hm.next_free_ne hl hpuse
  have hin := hm.tiled.inside p hpuse
  have hext := hm.extent_chunk s 20 p hp
  have hseg := (hm.lists.freeChunk s 20 p hp).segment
  have hploc : ((taken m q s (m.location p + e)).setChunkWord q 0 size).location p =
      m.location p := by
    rw [location_sized hq hs, location_taken hq (by omega) hpuse.1, if_neg hne]
  rw [ObjectMemory.parted, word_setChunkWord, hm.entry_part hs hp hl, hploc, hseg,
    Nat.mod_eq_of_lt (by omega), word_sized hq hs (by omega) (by omega) (by omega)]
  rfl

omit h2 hsum in
theorem Heap.table_parted (hw : w < 65534) (h1 : w ≠ q) (h2 : w ≠ q + 1) :
    (m.parted p q s size e).word 15 w = m.word 15 w := by
  have hq := (hm.next_free hl).1
  have hseg := hm.onHeap (hm.chunk_inUse hp)
  rw [ObjectMemory.parted, word_setChunkWord, hm.entry_part hs hp hl, if_neg (by omega),
    table_sized hq hs hw h1 h2]

omit h2 hsum in
theorem Heap.freeHead_parted : (m.parted p q s size e).freeHead = m.location q := by
  have hq := (hm.next_free hl).1
  rw [ObjectMemory.parted, freeHead_setChunkWord (hm.part_onHeap hs hp hl), freeHead_sized hq hs]

variable (he : 2 ≤ e)

include he

/-- The words of the chunks there were, the size of `p` apart. -/
theorem Heap.chunkWord_parted {x : Nat} (hx : InUse m x) (hi : i < L.extent x)
    (hne : x ≠ p ∨ i ≠ 0 ∧ i < e) :
    (m.parted p q s size e).chunkWord x i = m.chunkWord x i := by
  have hpuse := hm.chunk_inUse hp
  have hxq := hm.next_free_ne hl hx
  have hseg := (hm.lists.freeChunk s 20 p hp).segment
  have hext := hm.extent_chunk s 20 p hp
  rw [chunkWord, hm.entry_parted hs hp hl hx.1, if_neg hxq,
    hm.location_parted hs hp hl hsum h2 hx.1, if_neg hxq,
    hm.word_parted hs hp hl hsum h2 (hm.tiled.segment_lt x hx)]
  have hword : ∀ j < L.extent p, (m.entry x).segment = s → m.location x + i = m.location p + j →
      x = p ∧ i = j := fun j hj hxs hw =>
    hm.tiled.eq_of_word hpuse hx hj hi (hxs.trans hseg.symm) hw
  have h0 : ¬((m.entry x).segment = s ∧ m.location x + i = m.location p) := fun hall => by
    have := hword 0 (by omega) hall.1 (by omega)
    omega
  have h1 : ¬((m.entry x).segment = s ∧ m.location x + i = m.location p + e) := fun hall => by
    have := hword e (by omega) hall.1 hall.2
    omega
  rw [if_neg h0, if_neg h1, chunkWord]

omit h2 hsum he in
theorem Heap.inUse_parted {x : Nat} : InUse (m.parted p q s size e) x ↔ x = q ∨ InUse m x := by
  have hq := (hm.next_free hl).1
  constructor
  · rintro ⟨hx, hfree⟩
    by_cases hxq : x = q
    · exact .inl hxq
    · rw [hm.entry_parted hs hp hl hx, if_neg hxq] at hfree
      exact .inr ⟨hx, hfree⟩
  · rintro (rfl | hx)
    · refine ⟨hq, ?_⟩
      rw [hm.entry_parted hs hp hl hq, if_pos rfl]
    · refine ⟨hx.1, ?_⟩
      rw [hm.entry_parted hs hp hl hx.1, if_neg (hm.next_free_ne hl hx)]
      exact hx.2

theorem Heap.tiled_parted : Tiled (m.parted p q s size e) (L.parted l p q size e).extent := by
  have hq := (hm.next_free hl).1
  have hpuse := hm.chunk_inUse hp
  have hpq := hm.next_free_ne hl hpuse
  have hseg := (hm.lists.freeChunk s 20 p hp).segment
  have hext := hm.extent_chunk s 20 p hp
  have hin := hm.tiled.inside p hpuse
  have hself : (m.parted p q s size e).entry q = ⟨0, 0, 0, 0, s⟩ := by
    rw [hm.entry_parted hs hp hl hq, if_pos rfl]
  have hplace : (m.parted p q s size e).location q = m.location p + e := by
    rw [hm.location_parted hs hp hl hsum h2 hq, if_pos rfl]
  have hentry : ∀ x, InUse m x → (m.parted p q s size e).entry x = m.entry x := fun x hx => by
    rw [hm.entry_parted hs hp hl hx.1, if_neg (hm.next_free_ne hl hx)]
  have hlocation : ∀ x, InUse m x → (m.parted p q s size e).location x = m.location x :=
    fun x hx => by
      rw [hm.location_parted hs hp hl hsum h2 hx.1, if_neg (hm.next_free_ne hl hx)]
  have hextq : (L.parted l p q size e).extent q = size := if_pos rfl
  have hextp : (L.parted l p q size e).extent p = e := (if_neg hpq).trans (if_pos rfl)
  have hextx : ∀ x, InUse m x → x ≠ p → (L.parted l p q size e).extent x = L.extent x :=
    fun x hx hxp => (if_neg (hm.next_free_ne hl hx)).trans (if_neg hxp)
  -- an old chunk keeps its place, and takes no more words than before
  have hold : ∀ x, InUse m x → 2 ≤ (L.parted l p q size e).extent x ∧
      (L.parted l p q size e).extent x ≤ L.extent x := fun x hx => by
    by_cases hxp : x = p
    · rw [hxp, hextp]
      omega
    · rw [hextx x hx hxp]
      exact ⟨hm.tiled.two_le x hx, le_rfl⟩
  have hnew : ∀ x, InUse m x → (m.entry x).segment = s →
      m.location x + (L.parted l p q size e).extent x ≤ m.location p + e ∨
        m.location p + e + size ≤ m.location x := fun x hx hxs => by
    by_cases hxp : x = p
    · rw [hxp, hextp]
      exact .inl le_rfl
    · rw [hextx x hx hxp]
      rcases hm.tiled.apart x p hx hpuse hxp (hxs.trans hseg.symm) with h' | h' <;> omega
  refine ⟨fun x hx => ?_, fun x hx => ?_, fun x hx => ?_, fun x y hx hy hxy hxs => ?_,
    fun s' w hs' hw => ?_⟩
  · rcases (hm.inUse_parted hs hp hl).mp hx with rfl | hx
    · rw [hself]
      exact hs
    · rw [hentry x hx]
      exact hm.tiled.segment_lt x hx
  · rcases (hm.inUse_parted hs hp hl).mp hx with rfl | hx
    · rw [hextq]
      exact h2
    · exact (hold x hx).1
  · rcases (hm.inUse_parted hs hp hl).mp hx with rfl | hx
    · rw [hextq, hplace]
      omega
    · have hle := (hold x hx).2
      have hinx := hm.tiled.inside x hx
      rw [hlocation x hx]
      omega
  · rcases (hm.inUse_parted hs hp hl).mp hx with hxq | hx
    · rcases (hm.inUse_parted hs hp hl).mp hy with hyq | hy
      · exact absurd (hxq.trans hyq.symm) hxy
      · rw [hxq, hself, hentry y hy] at hxs
        rw [hxq, hplace, hextq, hlocation y hy]
        exact (hnew y hy hxs.symm).symm
    · rcases (hm.inUse_parted hs hp hl).mp hy with hyq | hy
      · rw [hyq, hself, hentry x hx] at hxs
        rw [hyq, hplace, hextq, hlocation x hx]
        exact hnew x hx hxs
      · rw [hentry x hx, hentry y hy] at hxs
        have hxle := (hold x hx).2
        have hyle := (hold y hy).2
        rw [hlocation x hx, hlocation y hy]
        rcases hm.tiled.apart x y hx hy hxy hxs with h' | h' <;> omega
  · obtain ⟨x, hx, hxs, hle, hlt⟩ := hm.tiled.cover s' w hs' hw
    by_cases hxp : x = p ∧ m.location p + e ≤ w
    · obtain ⟨rfl, hwe⟩ := hxp
      refine ⟨q, (hm.inUse_parted hs hp hl).mpr (.inl rfl), ?_⟩
      rw [hself, hplace, hextq]
      exact ⟨hseg.symm.trans hxs, hwe, by omega⟩
    · refine ⟨x, (hm.inUse_parted hs hp hl).mpr (.inr hx), ?_⟩
      rw [hentry x hx, hlocation x hx]
      refine ⟨hxs, hle, ?_⟩
      by_cases hxp' : x = p
      · rw [hxp', hextp]
        have : w < m.location p + e := by
          by_contra hge
          exact hxp ⟨hxp', by omega⟩
        exact this
      · rw [hextx x hx hxp']
        exact hlt

theorem Heap.granted_part (hnil : Allocated m L nilPointer) :
    Granted m L size q (L.parted l p q size e) (m.parted p q s size e) := by
  obtain ⟨hq, hq1, hqhead, hlinked, hqout⟩ := hm.next_free hl
  have hpuse := hm.chunk_inUse hp
  have hpq := hm.next_free_ne hl hpuse
  have hext := hm.extent_chunk s 20 p hp
  have hpc := hm.lists.freeChunk s 20 p hp
  have hin := hm.tiled.inside p hpuse
  have htwo := hm.tiled.two_le
  have hfirst : firstFreeChunkList = 65515 := rfl
  have hself : (m.parted p q s size e).entry q = ⟨0, 0, 0, 0, s⟩ := by
    rw [hm.entry_parted hs hp hl hq, if_pos rfl]
  have hplace : (m.parted p q s size e).location q = m.location p + e := by
    rw [hm.location_parted hs hp hl hsum h2 hq, if_pos rfl]
  have hentry : ∀ x, IsOop x → x ≠ q → (m.parted p q s size e).entry x = m.entry x :=
    fun x hx hxq => by rw [hm.entry_parted hs hp hl hx, if_neg hxq]
  have hlocation : ∀ x, IsOop x → x ≠ q → (m.parted p q s size e).location x = m.location x :=
    fun x hx hxq => by rw [hm.location_parted hs hp hl hsum h2 hx, if_neg hxq]
  have hword : ∀ x, InUse m x → x ≠ p → ∀ i < L.extent x,
      (m.parted p q s size e).chunkWord x i = m.chunkWord x i := fun x hx hxp i hi =>
    hm.chunkWord_parted hs hp hl hsum h2 he hx hi (.inl hxp)
  have hpsize : (m.parted p q s size e).chunkWord p 0 = e := by
    rw [chunkWord, hentry p hpuse.1 hpq, hlocation p hpuse.1 hpq, hpc.segment,
      hm.word_parted hs hp hl hsum h2 hs, if_pos ⟨rfl, rfl⟩]
  have hqsize : (m.parted p q s size e).chunkWord q 0 = size := by
    rw [chunkWord, hself, hplace, hm.word_parted hs hp hl hsum h2 hs, if_neg (by omega),
      if_pos ⟨rfl, rfl⟩]
  have hlink : ∀ s' k' x, x ∈ L.chunks s' k' →
      (m.parted p q s size e).chunkWord x 1 = m.chunkWord x 1 := fun s' k' x hx => by
    have hxuse := hm.chunk_inUse hx
    exact hm.chunkWord_parted hs hp hl hsum h2 he hxuse (by have := htwo x hxuse; omega)
      (.inr (by omega))
  have hqchunk : ∀ s' k', q ∉ L.chunks s' k' := fun s' k' hk =>
    hm.next_free_ne hl (hm.chunk_inUse hk) rfl
  have hallocated : ∀ x, Allocated (m.parted p q s size e) (L.parted l p q size e) x ↔
      Allocated m L x ∨ x = q := fun x => by
    constructor
    · rintro ⟨hx, hout⟩
      rcases (hm.inUse_parted hs hp hl).mp hx with hxq | hx
      · exact .inr hxq
      · exact .inl ⟨hx, hout⟩
    · rintro (hx | rfl)
      · exact ⟨(hm.inUse_parted hs hp hl).mpr (.inr hx.inUse), hx.2⟩
      · exact ⟨(hm.inUse_parted hs hp hl).mpr (.inl rfl), hqchunk⟩
  have hpne : ∀ x, Allocated m L x → x ≠ p := fun x hx hxp => hx.2 s 20 (hxp ▸ hp)
  refine ⟨hm.tiled_parted hs hp hl hsum h2 he, ⟨?_, fun x => ?_, fun s' k' hs' hk2 h20 => ?_,
    fun s' k' x hx => ?_, hm.lists.unique⟩, fun s' k' x hx => ?_, fun x hx hxq => ?_,
    ⟨fun x hx => (hallocated x).mpr (.inl hx), fun x hx => (hallocated x).mp hx, fun x hx => ?_,
      fun x hx i hi => ?_, ?_⟩,
    fun _ => ⟨?_, (hallocated q).mpr (.inr rfl), if_pos rfl, hqsize, ?_⟩⟩
  · rw [hm.freeHead_parted hs hp hl]
    refine hlinked.congr fun x hx => hlocation x ?_ fun hxq => hqout (hxq ▸ hx)
    exact ((hm.lists.mem_pointers x).mp (hl ▸ List.mem_cons_of_mem _ hx)).1
  · show x ∈ l ↔ _
    constructor
    · intro hx
      obtain ⟨hxo, h1⟩ := (hm.lists.mem_pointers x).mp (hl ▸ List.mem_cons_of_mem _ hx)
      refine ⟨hxo, ?_⟩
      rw [hentry x hxo fun hxq => hqout (hxq ▸ hx)]
      exact h1
    · rintro ⟨hxo, h1⟩
      have hxq : x ≠ q := fun hxq => by
        rw [hxq, hself] at h1
        have h01 : (0 : Nat) = 1 := h1
        omega
      rw [hentry x hxo hxq] at h1
      have hx := (hm.lists.mem_pointers x).mpr ⟨hxo, h1⟩
      rw [hl] at hx
      exact (List.mem_cons.mp hx).resolve_left hxq
  · have hhead : (m.parted p q s size e).chunkHead s' k' = m.chunkHead s' k' := by
      rw [chunkHead, hm.word_parted hs hp hl hsum h2 hs', if_neg (by omega), if_neg (by omega),
        chunkHead]
    rw [hhead]
    exact (hm.lists.chunks s' k' hs' hk2 h20).congr fun x hx => hlink s' k' x hx
  · have hc := hm.lists.freeChunk s' k' x hx
    have hxq := hm.next_free_ne hl hc.inUse
    refine ⟨(hm.inUse_parted hs hp hl).mpr (.inr hc.inUse), ?_, hc.segment_lt, hc.two_le,
      hc.le_bigSize, fun hlt => ?_, ?_⟩
    · rw [hentry x hc.inUse.1 hxq]
      exact hc.segment
    · have hxp : x ≠ p := fun hxp => by
        have := ((hm.listed_once hp).2 s' k' (hxp ▸ hx)).2
        omega
      rw [hword x hc.inUse hxp 0 (by have := htwo x hc.inUse; omega)]
      exact hc.size hlt
    · rw [hentry x hc.inUse.1 hxq]
      exact hc.count
  · have hxuse := hm.chunk_inUse hx
    by_cases hxp : x = p
    · rw [hxp, hpsize]
      exact (if_neg hpq).trans (if_pos rfl)
    · rw [hword x hxuse hxp 0 (by have := htwo x hxuse; omega), ← hm.extent_chunk s' k' x hx]
      exact (if_neg (hm.next_free_ne hl hxuse)).trans (if_neg hxp)
  · rcases (hallocated x).mp hx with hx' | hx'
    · have hxq' := hm.next_free_ne hl hx'.inUse
      have hxp := hpne x hx'
      rw [space_congr (by rw [hentry x hx'.inUse.1 hxq'])
        (hword x hx'.inUse hxp 0 (by have := htwo x hx'.inUse; omega)), ← hm.extent_allocated x hx']
      exact (if_neg hxq').trans (if_neg hxp)
    · rcases hxq with hxq | hqn
      · exact absurd hx' hxq
      · exact absurd hqn (hm.next_free_ne hl hnil.inUse).symm
  · have hxq := hm.next_free_ne hl hx.inUse
    have hxe := hx.inUse.1
    exact hm.table_parted hs hp hl (by omega) hxq (by have := hq.1; omega)
  · rw [← hm.extent_allocated x hx] at hi
    exact hword x hx.inUse (hpne x hx) i hi
  · exact hm.table_parted hs hp hl (by omega) (by have := hq.2.1; omega) (by omega)
  · exact fun hx => hm.next_free_ne hl hx.inUse rfl
  · rw [hself]

end Parted

/-! ## An attempt -/

/-- No free chunk of segment `s` has room for an object of `size` words. -/
structure NoRoom (m : ObjectMemory) (L : Layout) (s size : Nat) : Prop where
  small : size < 20 → L.chunks s size = []
  big : ∀ p ∈ L.chunks s 20, m.chunkWord p 0 ≠ size ∧ m.chunkWord p 0 < size + 2

/-- An attempt has answered `p`. It is nil where there is no chunk with room, or no entry
for a part of one. -/
structure Attempted (m : ObjectMemory) (L : Layout) (size : Nat) (room : Prop) (p : Nat)
    (u : ObjectMemory) : Prop where
  granted : ∃ L', Granted m L size p L' u
  currentSegment : u.currentSegment = m.currentSegment
  refused : p = nilPointer → u = m ∧ (L.freePointers ≠ [] → room)

section Attempt

variable (hm : Heap m L) (hnil : Allocated m L nilPointer) (hs : s < 15)
  (hcurrent : m.currentSegment = s) (h2 : 2 ≤ size)

include hm hnil hs hcurrent h2

theorem wp_splitChunk {e : Nat} {room : Prop} (hp : p ∈ L.chunks s 20)
    (hsize : size + e = m.chunkWord p 0) (he : 2 ≤ e) :
    Wp (splitChunk p size e) (Attempted m L size room) m := by
  have huse := hm.chunk_inUse hp
  have hoop := huse.1
  have hin := hm.tiled.inside p huse
  have hext := hm.extent_chunk s 20 p hp
  rw [splitChunk, wp_bind, wp_locationBitsOf, and_iff_right hoop.isEntry, wp_bind]
  cases hl : L.freePointers with
  | nil =>
      have hlinked := hm.lists.pointers
      rw [hl] at hlinked
      rw [wp_obtainPointerLocation_none (by omega) hlinked, if_neg (by simp), wp_pure]
      exact ⟨⟨L, hm.refused⟩, rfl, fun _ => ⟨rfl, fun hne => absurd hl hne⟩⟩
  | cons q l =>
      obtain ⟨hq, -, hhead, -, -⟩ := hm.next_free hl
      have hqnil : q ≠ nilPointer := (hm.next_free_ne hl hnil.inUse).symm
      have hne := hm.next_free_ne hl huse
      have hplace : ((taken m q s (m.location p + e)).setChunkWord q 0 size).location p =
          m.location p := by
        rw [location_sized hq hs, location_taken hq (by omega) hoop, if_neg hne]
      rw [wp_obtainPointerLocation_taken hq hs hcurrent (by omega) (by omega) hhead hqnil,
        if_pos hqnil, wp_bind, wp_sizeBitsOfPut, and_iff_right ⟨hoop.isEntry, by omega, by omega⟩,
        wp_pure]
      exact ⟨⟨_, hm.granted_part hs hp hl hsize h2 he hnil⟩, rfl, fun hqn => absurd hqn hqnil⟩

/-- The search through the big chunks, those before the next one apart. -/
theorem wp_searchRounds {a r : Nat} {l l' : List Nat} (hr : r = nonPointer ∧ l' = [] ∨
      ∃ b, l' = b ++ [r]) (hlist : L.chunks s 20 = l' ++ l)
    (hlinked : Linked (m.chunkWord · 1) nonPointer a l) :
    Wp (iterate (searchRound size) (r, a)) (Attempted m L size
      (∀ p ∈ l, m.chunkWord p 0 ≠ size ∧ m.chunkWord p 0 < size + 2)) m := by
  induction l generalizing a r l' with
  | nil =>
      have ha : a = nonPointer := hlinked
      refine wp_iterate_of_round ?_
      rw [searchRound, if_pos ha, wp_pure, loopPost_inr]
      exact ⟨⟨L, hm.refused⟩, rfl, fun _ => ⟨rfl, fun _ => by simp⟩⟩
  | cons p l ih =>
      obtain ⟨rfl, hne, hlinked⟩ := hlinked
      have hp : a ∈ L.chunks s 20 := hlist ▸ by simp
      have huse := hm.chunk_inUse hp
      have hoop := huse.1
      have htwo := hm.tiled.two_le a huse
      have hin := hm.tiled.inside a huse
      have hanil := chunk_ne_nil hnil hp
      have hheader : headerSize = 2 := rfl
      refine wp_iterate_of_round ?_
      rw [searchRound, if_neg hne, wp_bind]
      dsimp only
      rw [wp_sizeBitsOf, and_iff_right ⟨hoop.isEntry, by omega⟩, wp_ite]
      refine ⟨fun heq => ?_, fun hsize => ?_⟩
      · rw [wp_bind, unlinkChunk, wp_bind, wp_classBitsOf, and_iff_right ⟨hoop.isEntry, by omega⟩,
          wp_ite]
        have hnext := m.chunkWord_lt a 1
        refine ⟨fun hrn => ?_, fun hrn => ?_⟩
        · have hnil' : l' = [] := by
            rcases hr with ⟨-, hl'⟩ | ⟨b, rfl⟩
            · exact hl'
            · have hr' : r ∈ L.chunks s 20 := hlist ▸ by simp
              have := (hm.chunk_inUse hr').le
              rw [hrn] at this
              exact absurd this (by decide)
          rw [hnil', List.nil_append] at hlist
          rw [wp_bind, wp_get, hcurrent, Int.toNat_natCast, wp_headOfFreeChunkListInSegmentPut,
            and_iff_right ⟨by decide, by decide, by omega, hnext⟩, wp_pure, loopPost_inr]
          exact ⟨⟨_, hm.granted_head hnil hs (by decide) hlist heq⟩, rfl,
            fun hn => absurd hn hanil⟩
        · obtain ⟨b, rfl⟩ := hr.resolve_left fun hall => hrn hall.1
          have hrp : r ∈ L.chunks s 20 := hlist ▸ by simp
          have hruse := hm.chunk_inUse hrp
          have hrin := hm.tiled.inside r hruse
          have hrtwo := hm.tiled.two_le r hruse
          rw [List.append_assoc, List.singleton_append] at hlist
          rw [wp_classBitsOfPut, and_iff_right ⟨hruse.isEntry, by omega, hnext⟩, wp_pure,
            loopPost_inr]
          exact ⟨⟨_, hm.granted_after hnil hs (by decide) hlist heq⟩, rfl,
            fun hn => absurd hn hanil⟩
      · rw [wp_ite]
        refine ⟨fun hge => ?_, fun hlt => ?_⟩
        · rw [wp_bind]
          have hsplit : Wp (splitChunk a size (m.chunkWord a 0 - size)) (Attempted m L size
              (∀ p ∈ a :: l, m.chunkWord p 0 ≠ size ∧ m.chunkWord p 0 < size + 2)) m :=
            wp_splitChunk hm hnil hs hcurrent h2 hp (by omega) (by omega)
          refine hsplit.mono fun x u hx => ?_
          rw [wp_pure, loopPost_inr]
          exact hx
        · rw [wp_bind, wp_classBitsOf, and_iff_right ⟨hoop.isEntry, by omega⟩, wp_pure,
            loopPost_inl]
          refine (ih (.inr ⟨l', rfl⟩) (by simpa using hlist) hlinked).mono ?_
          rintro x u ⟨hgranted, hcur, hrefused⟩
          refine ⟨hgranted, hcur, fun hx => ⟨(hrefused hx).1, fun hfree q hq => ?_⟩⟩
          rcases List.mem_cons.mp hq with rfl | hq
          · exact ⟨hsize, by omega⟩
          · exact (hrefused hx).2 hfree q hq

theorem wp_attemptToAllocateChunkInCurrentSegment :
    Wp (attemptToAllocateChunkInCurrentSegment size)
      (Attempted m L size (NoRoom m L s size)) m := by
  have hbig : bigSize = 20 := rfl
  have hsearch : Wp (iterate (searchRound size) (nonPointer, m.chunkHead s 20))
      (Attempted m L size
        (∀ p ∈ L.chunks s 20, m.chunkWord p 0 ≠ size ∧ m.chunkWord p 0 < size + 2)) m :=
    wp_searchRounds hm hnil hs hcurrent h2 (.inl ⟨rfl, rfl⟩) rfl
      (hm.lists.chunks s 20 hs (by omega) le_rfl)
  rw [attemptToAllocateChunkInCurrentSegment, wp_bind, wp_checkCurrentSegment,
    and_iff_right (by omega)]
  -- the search is the same whether or not there is a list for the size
  have hrest : (size < 20 → L.chunks s size = []) →
      Wp (do
        let head ← headOfFreeChunkListInSegment bigSize (← get).currentSegment.toNat
        iterate (searchRound size) (nonPointer, head))
          (Attempted m L size (NoRoom m L s size)) m := fun hsmall => by
    rw [wp_bind, wp_get, hcurrent, Int.toNat_natCast, wp_bind, wp_headOfFreeChunkListInSegment,
      and_iff_right ⟨by decide, by decide, by omega⟩]
    refine hsearch.mono ?_
    rintro x u ⟨hgranted, hcur, hrefused⟩
    exact ⟨hgranted, hcur, fun hx => ⟨(hrefused hx).1, fun hfree =>
      ⟨hsmall, (hrefused hx).2 hfree⟩⟩⟩
  dsimp only
  rw [wp_ite]
  refine ⟨fun hlt => ?_, fun hge => ?_⟩
  · have hlinked := hm.lists.chunks s size hs h2 (by omega)
    rw [wp_bind, removeFromFreeChunkList, wp_bind, wp_checkCurrentSegment,
      and_iff_right (by omega), wp_bind,
      wp_get, hcurrent, Int.toNat_natCast, wp_bind, wp_headOfFreeChunkListInSegment,
      and_iff_right ⟨h2, by omega, by omega⟩, wp_ite]
    refine ⟨fun hnon => ?_, fun hne => ?_⟩
    · rw [wp_pure, if_neg (by simp)]
      exact hrest fun _ => hlinked.head_eq_stop.mp hnon
    · obtain ⟨p, l, hl⟩ := List.exists_cons_of_ne_nil fun hempty =>
        hne (hlinked.head_eq_stop.mpr hempty)
      have hp : p ∈ L.chunks s size := hl ▸ List.mem_cons_self
      have huse := hm.chunk_inUse hp
      have htwo := hm.tiled.two_le p huse
      have hin := hm.tiled.inside p huse
      have hpnil := chunk_ne_nil hnil hp
      have hnext := m.chunkWord_lt p 1
      have hhead : m.chunkHead s size = p := by
        rw [hl] at hlinked
        exact hlinked.1
      have hsize := (hm.lists.freeChunk s size p hp).size (by omega)
      rw [hhead, wp_bind, wp_classBitsOf, and_iff_right ⟨huse.isEntry, by omega⟩, wp_bind,
        wp_headOfFreeChunkListInSegmentPut, and_iff_right ⟨h2, by omega, by omega, hnext⟩, wp_pure,
        if_pos hpnil, wp_pure]
      exact ⟨⟨_, hm.granted_head hnil hs ⟨h2, by omega⟩ hl hsize⟩, rfl,
        fun hn => absurd hn hpnil⟩
  · rw [wp_bind, wp_pure, if_neg (by simp)]
    exact hrest fun hlt => absurd hlt hge

end Attempt

end ObjectMemory

end Crosstalk
