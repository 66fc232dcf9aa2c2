import Crosstalk.Interpreter.Blocks
import Crosstalk.ObjectMemory.Rooted
import Mathlib.Logic.Function.Basic

/-!
# The lists of processes

A list has its first and its last process, and each process the next one and the
list that it is on. `addLastLinkToList` and `removeFirstLinkOfList` store these
pointers one by one, each with its reference counts, and leave the processes of
the list in their order: a queue.
-/

namespace Crosstalk

open ObjectMemory

/-! ## Queues in the words of the memory -/

/-- The objects that the list operations store into. -/
structure Kinds (m : ObjectMemory) (L : Layout) (lists processes : Nat → Prop) : Prop where
  list : ∀ l, lists l → PointerField m L l (headerSize + lastLinkIndex)
  process : ∀ p, processes p → PointerField m L p (headerSize + myListIndex)
  apart : ∀ p, processes p → ¬lists p
  nil : ¬processes nilPointer

/-- The fields that they store into. -/
def Link (lists processes : Nat → Prop) (c i : Nat) : Prop :=
  lists c ∧ (i = headerSize + firstLinkIndex ∨ i = headerSize + lastLinkIndex) ∨
    processes c ∧ (i = headerSize + nextLinkIndex ∨ i = headerSize + myListIndex)

/-- Each list has the processes of `queue`, in this order. A process that is on no list has
no next one, which `addLastLinkToList` relies on. -/
structure Queued (lists processes : Nat → Prop) (g : Nat → Nat → Nat) (queue : Nat → List Nat) :
    Prop where
  linked : ∀ l, lists l → Linked (g · (headerSize + nextLinkIndex)) nilPointer
    (g l (headerSize + firstLinkIndex)) (queue l)
  last : ∀ l, lists l → ∀ p ∈ (queue l).getLast?, g l (headerSize + lastLinkIndex) = p
  process : ∀ l, lists l → ∀ p ∈ queue l, processes p
  myList : ∀ l, lists l → ∀ p ∈ queue l, g p (headerSize + myListIndex) = l
  idle : ∀ p, processes p → (∀ l, lists l → p ∉ queue l) →
    g p (headerSize + nextLinkIndex) = nilPointer

/-- The words when `p` has been added at the end of the list `l` of the processes `q`. -/
def linkLast (g : Nat → Nat → Nat) (q : List Nat) (p l : Nat) : Nat → Nat → Nat :=
  put (put (put g (q.getLastD l) (headerSize + nextLinkIndex) p)
    l (headerSize + lastLinkIndex) p) p (headerSize + myListIndex) l

/-- The words when `p` has been removed from the front of `l`, which leaves the processes `q`. -/
def unlinkFirst (g : Nat → Nat → Nat) (p l : Nat) : List Nat → Nat → Nat → Nat
  | [] => put (put (put g l (headerSize + firstLinkIndex) nilPointer)
      l (headerSize + lastLinkIndex) nilPointer) p (headerSize + nextLinkIndex) nilPointer
  | _ :: _ => put (put g l (headerSize + firstLinkIndex) (g p (headerSize + nextLinkIndex)))
      p (headerSize + nextLinkIndex) nilPointer

section Words

variable {m : ObjectMemory} {L : Layout} {lists processes : Nat → Prop} {g : Nat → Nat → Nat}
  {queue : Nat → List Nat} {a l l' p : Nat} {q : List Nat}

theorem linkLast_next : linkLast g q p l a (headerSize + nextLinkIndex) =
    if a = q.getLastD l then p else g a (headerSize + nextLinkIndex) := by
  simp [linkLast, put]

theorem linkLast_last : linkLast g q p l a (headerSize + lastLinkIndex) =
    if a = l then p else g a (headerSize + lastLinkIndex) := by
  simp [linkLast, put]

theorem linkLast_myList : linkLast g q p l a (headerSize + myListIndex) =
    if a = p then l else g a (headerSize + myListIndex) := by
  simp [linkLast, put]

theorem unlinkFirst_next
    (hnil : q = [] → g p (headerSize + nextLinkIndex) = nilPointer) :
    unlinkFirst g p l q a (headerSize + nextLinkIndex) =
      if a = p then nilPointer else if a = l then g p (headerSize + nextLinkIndex)
        else g a (headerSize + nextLinkIndex) := by
  cases q with
  | nil =>
      rw [hnil rfl]
      simp [unlinkFirst, put]
  | cons b q => simp [unlinkFirst, put]

theorem unlinkFirst_last : unlinkFirst g p l q a (headerSize + lastLinkIndex) =
    if a = l ∧ q = [] then nilPointer else g a (headerSize + lastLinkIndex) := by
  cases q with
  | nil => simp [unlinkFirst, put]
  | cons b q => simp [unlinkFirst, put]

theorem unlinkFirst_myList : unlinkFirst g p l q a (headerSize + myListIndex) =
    g a (headerSize + myListIndex) := by
  cases q with
  | nil => simp [unlinkFirst, put]
  | cons b q => simp [unlinkFirst, put]

/-- The last process of the list, or the list itself where it is empty. -/
theorem end_or_head (q : List Nat) (l : Nat) : q.getLastD l = l ∨ q.getLastD l ∈ q := by
  rcases List.eq_nil_or_concat q with rfl | ⟨q, b, rfl⟩
  · exact .inl rfl
  · right
    rw [List.concat_eq_append, List.getLastD_concat]
    simp

theorem mem_update_append {b : Nat}
    (hb : b ∈ Function.update queue l (queue l ++ [p]) l') : b ∈ queue l' ∨ l' = l ∧ b = p := by
  by_cases hll : l' = l
  · subst hll
    rw [Function.update_self, List.mem_append, List.mem_singleton] at hb
    exact hb.imp_right fun hbp => ⟨rfl, hbp⟩
  · rw [Function.update_of_ne hll] at hb
    exact .inl hb

namespace Queued

variable (hk : Kinds m L lists processes) (h : Queued lists processes g queue)

include hk h

theorem ne_list (hl : lists l) (hl' : lists l') (ha : a ∈ queue l) : a ≠ l' := by
  rintro rfl
  exact hk.apart a (h.process l hl a ha) hl'

omit hk in
theorem eq_of_mem (hl : lists l) (hl' : lists l') (ha : a ∈ queue l) (ha' : a ∈ queue l') :
    l = l' :=
  (h.myList l hl a ha).symm.trans (h.myList l' hl' a ha')

/-- The end of one list is no part of another. -/
theorem ne_end (hl : lists l) (hl' : lists l') (hll : l' ≠ l) (ha : a = l' ∨ a ∈ queue l') :
    a ≠ (queue l).getLastD l := by
  rintro heq
  rcases end_or_head (queue l) l with hend | hend
  · rw [hend] at heq
    rcases ha with rfl | ha
    · exact hll heq
    · exact h.ne_list hk hl' hl ha heq
  · rcases ha with rfl | ha
    · exact h.ne_list hk hl hl' hend heq.symm
    · exact hll (h.eq_of_mem hl' hl ha (heq ▸ hend))

omit h in
/-- A process that does not wait is no end of a list. -/
theorem ne_end_of_out (hl : lists l) (hp : processes p) (hout : p ∉ queue l) :
    p ≠ (queue l).getLastD l := by
  rintro heq
  rcases end_or_head (queue l) l with hend | hend
  · exact hk.apart p hp (by rw [heq, hend]; exact hl)
  · exact hout (heq ▸ hend)

theorem linked_append (hl : lists l) (hp : processes p) (hout : ∀ l', lists l' → p ∉ queue l') :
    Linked (linkLast g (queue l) p l · (headerSize + nextLinkIndex)) nilPointer
      (linkLast g (queue l) p l l (headerSize + firstLinkIndex)) (queue l ++ [p]) := by
  have hpn : p ≠ nilPointer := by
    rintro rfl
    exact hk.nil hp
  have hnext : linkLast g (queue l) p l p (headerSize + nextLinkIndex) = nilPointer := by
    rw [linkLast_next, if_neg (ne_end_of_out hk hl hp (hout l hl)), h.idle p hp hout]
  have hfirst : firstLinkIndex = nextLinkIndex := rfl
  rcases List.eq_nil_or_concat (queue l) with hq | ⟨q, b, hq⟩
  · rw [hfirst, linkLast_next, hq, List.getLastD_nil, if_pos rfl]
    rw [hq] at hnext
    exact ⟨rfl, hpn, hnext⟩
  · rw [List.concat_eq_append] at hq
    have hlast : (queue l).getLastD l = b := by rw [hq, List.getLastD_concat]
    have hb : b ∈ queue l := by rw [hq]; simp
    have hlinked := h.linked l hl
    have hnodup := hlinked.nodup
    rw [hfirst, linkLast_next, hlast, if_neg (h.ne_list hk hl hl hb).symm]
    rw [hq] at hlinked hnodup
    have hbp : linkLast g (queue l) p l b (headerSize + nextLinkIndex) = p := by
      rw [linkLast_next, hlast, if_pos rfl]
    have hconcat : Linked (linkLast g (queue l) p l · (headerSize + nextLinkIndex)) nilPointer
        (g l (headerSize + firstLinkIndex)) (q ++ [b] ++ [p]) := by
      refine hlinked.concat hbp hpn hnext fun a ha => ?_
      have hab : a ≠ b := by
        rintro rfl
        exact List.disjoint_of_nodup_append hnodup ha (List.mem_singleton_self a)
      rw [linkLast_next, hlast, if_neg hab]
    rwa [← hq] at hconcat

/-- The other lists are linked as they were. -/
theorem linked_other (hl : lists l) (hl' : lists l') (hll : l' ≠ l) :
    Linked (linkLast g (queue l) p l · (headerSize + nextLinkIndex)) nilPointer
      (linkLast g (queue l) p l l' (headerSize + firstLinkIndex)) (queue l') := by
  have hfirst : firstLinkIndex = nextLinkIndex := rfl
  rw [hfirst, linkLast_next, if_neg (h.ne_end hk hl hl' hll (.inl rfl))]
  refine (h.linked l' hl').congr fun a ha => ?_
  rw [linkLast_next, if_neg (h.ne_end hk hl hl' hll (.inr ha))]

omit hk in
/-- The first of several processes is not the last. -/
theorem last_ne {b : Nat} (hl : lists l) (hq : queue l = p :: b :: q) :
    g l (headerSize + lastLinkIndex) ≠ p := by
  rintro heq
  have hlast := h.last l hl _ (by rw [hq, List.getLast?_cons_cons,
    List.getLast?_eq_some_getLast (List.cons_ne_nil b q)]; rfl)
  have hnodup := (h.linked l hl).nodup
  have hmem : p ∈ b :: q := by
    rw [← heq, hlast]
    exact List.getLast_mem _
  rw [hq] at hnodup
  exact (List.nodup_cons.mp hnodup).1 hmem

theorem append (hl : lists l) (hp : processes p) (hout : ∀ l', lists l' → p ∉ queue l') :
    Queued lists processes (linkLast g (queue l) p l)
      (Function.update queue l (queue l ++ [p])) := by
  refine ⟨fun l' hl' => ?_, fun l' hl' b hb => ?_, fun l' hl' b hb => ?_, fun l' hl' b hb => ?_,
    fun b hb hno => ?_⟩
  · by_cases hll : l' = l
    · subst hll
      rw [Function.update_self]
      exact h.linked_append hk hl hp hout
    · rw [Function.update_of_ne hll]
      exact h.linked_other hk hl hl' hll
  · rw [linkLast_last]
    by_cases hll : l' = l
    · subst hll
      rw [Function.update_self, List.getLast?_concat] at hb
      rw [if_pos rfl]
      exact Option.some.inj hb
    · rw [Function.update_of_ne hll] at hb
      rw [if_neg hll]
      exact h.last l' hl' b hb
  · rcases mem_update_append hb with hb | ⟨rfl, rfl⟩
    · exact h.process l' hl' b hb
    · exact hp
  · rw [linkLast_myList]
    rcases mem_update_append hb with hmem | ⟨rfl, rfl⟩
    · rw [if_neg (by rintro rfl; exact hout l' hl' hmem)]
      exact h.myList l' hl' b hmem
    · rw [if_pos rfl]
  · have hno' : ∀ l', lists l' → b ∉ queue l' := fun l' hl' hmem => by
      refine hno l' hl' ?_
      by_cases hll : l' = l
      · subst hll
        rw [Function.update_self]
        exact List.mem_append_left _ hmem
      · rwa [Function.update_of_ne hll]
    rw [linkLast_next, if_neg (ne_end_of_out hk hl hb (hno' l hl)), h.idle b hb hno']

omit hk in
/-- Only the links matter, and of the processes those that wait. -/
theorem congr {processes' : Nat → Prop} {g' : Nat → Nat → Nat}
    (hsub : ∀ p, processes' p → processes p) (hmem : ∀ l, lists l → ∀ p ∈ queue l, processes' p)
    (hg : ∀ c i, Link lists processes' c i → g' c i = g c i) :
    Queued lists processes' g' queue := by
  refine ⟨fun l hl => ?_, fun l hl p hp => ?_, hmem, fun l hl p hp => ?_, fun p hp hno => ?_⟩
  · rw [hg l _ (.inl ⟨hl, .inl rfl⟩)]
    exact (h.linked l hl).congr fun p hp => hg p _ (.inr ⟨hmem l hl p hp, .inl rfl⟩)
  · rw [hg l _ (.inl ⟨hl, .inr rfl⟩)]
    exact h.last l hl p hp
  · rw [hg p _ (.inr ⟨hmem l hl p hp, .inr rfl⟩)]
    exact h.myList l hl p hp
  · rw [hg p _ (.inr ⟨hp, .inl rfl⟩)]
    exact h.idle p (hsub p hp) hno

theorem tail (hl : lists l) (hq : queue l = p :: q) :
    Queued lists processes (unlinkFirst g p l q) (Function.update queue l q) := by
  have hp : p ∈ queue l := hq ▸ List.mem_cons_self
  have hpl := h.ne_list hk hl hl hp
  have hlinked := h.linked l hl
  have hnodup := hlinked.nodup
  rw [hq] at hlinked hnodup
  obtain ⟨hfirst, hpn, hrest⟩ := hlinked
  have hnil : q = [] → g p (headerSize + nextLinkIndex) = nilPointer := by
    rintro rfl
    exact hrest
  have hnext : ∀ a, unlinkFirst g p l q a (headerSize + nextLinkIndex) =
      if a = p then nilPointer else if a = l then g p (headerSize + nextLinkIndex)
        else g a (headerSize + nextLinkIndex) := fun a => unlinkFirst_next hnil
  have hmem : ∀ l' b, lists l' → b ∈ Function.update queue l q l' → b ∈ queue l' := by
    intro l' b _ hb
    by_cases hll : l' = l
    · subst hll
      rw [Function.update_self] at hb
      rw [hq]
      exact List.mem_cons_of_mem _ hb
    · rwa [Function.update_of_ne hll] at hb
  refine ⟨fun l' hl' => ?_, fun l' hl' b hb => ?_, fun l' hl' b hb =>
    h.process l' hl' b (hmem l' b hl' hb), fun l' hl' b hb => ?_, fun b hb hno => ?_⟩
  · by_cases hll : l' = l
    · subst hll
      rw [Function.update_self, show headerSize + firstLinkIndex = headerSize + nextLinkIndex
        from rfl, hnext, if_neg hpl.symm, if_pos rfl]
      refine hrest.congr fun a ha => ?_
      have hap : a ≠ p := by
        rintro rfl
        exact (List.nodup_cons.mp hnodup).1 ha
      rw [hnext, if_neg hap, if_neg (h.ne_list hk hl' hl' (hq ▸ List.mem_cons_of_mem _ ha))]
    · have hlp : l' ≠ p := (h.ne_list hk hl hl' hp).symm
      rw [Function.update_of_ne hll, show headerSize + firstLinkIndex = headerSize + nextLinkIndex
        from rfl, hnext, if_neg hlp, if_neg hll]
      refine (h.linked l' hl').congr fun a ha => ?_
      have hap : a ≠ p := by
        rintro rfl
        exact hll (h.eq_of_mem hl' hl ha hp)
      rw [hnext, if_neg hap, if_neg (h.ne_list hk hl' hl ha)]
  · rw [unlinkFirst_last]
    by_cases hll : l' = l
    · subst hll
      rw [Function.update_self] at hb
      have hne : q ≠ [] := by
        rintro rfl
        cases hb
      rw [if_neg fun hall => hne hall.2]
      refine h.last l' hl' b ?_
      rw [hq]
      cases q with
      | nil => exact absurd rfl hne
      | cons c q => rwa [List.getLast?_cons_cons]
    · rw [Function.update_of_ne hll] at hb
      rw [if_neg fun hall => hll hall.1]
      exact h.last l' hl' b hb
  · rw [unlinkFirst_myList]
    exact h.myList l' hl' b (hmem l' b hl' hb)
  · rw [hnext]
    by_cases hbp : b = p
    · rw [if_pos hbp]
    · have hbl : b ≠ l := by
        rintro rfl
        exact hk.apart b hb hl
      rw [if_neg hbp, if_neg hbl]
      refine h.idle b hb fun l' hl' hmem' => hno l' hl' ?_
      by_cases hll : l' = l
      · subst hll
        rw [hq] at hmem'
        rw [Function.update_self]
        exact (List.mem_cons.mp hmem').resolve_left hbp
      · rwa [Function.update_of_ne hll]

end Queued

end Words

/-! ## The operations -/

section Operations

variable {m u : ObjectMemory} {L L' : Layout} {regs : Nat → Nat} {roots : Nat → Prop}
  {lists processes : Nat → Prop} {g : Nat → Nat → Nat} {queue : Nat → List Nat} {s : Interpreter}
  {l p : Nat} {q : List Nat}

/-- The links lead from a list that the roots reach to its processes. -/
theorem rooted_of_linked (hk : Kinds m L lists processes) : ∀ (q : List Nat) {head : Nat},
    Linked (g · (headerSize + nextLinkIndex)) nilPointer head q →
    (q ≠ [] → Rooted m L roots g (fun _ _ => False) head) → (∀ p ∈ q, processes p) →
    ∀ p ∈ q, Rooted m L roots g (fun _ _ => False) p
  | [], _, _, _, _ => by simp
  | a :: q, _, h, hhead, hq => by
      obtain ⟨heq, -, hrest⟩ := h
      have hroot := heq ▸ hhead (by simp)
      have hfield := (hk.process _ (hq _ List.mem_cons_self)).below (k := headerSize + nextLinkIndex)
        (by decide) (by decide)
      have hnext : q ≠ [] → Rooted m L roots g (fun _ _ => False)
          (g a (headerSize + nextLinkIndex)) := by
        intro hne
        refine .field hroot hfield id ?_
        cases q with
        | nil => exact absurd rfl hne
        | cons b q =>
            rw [show g a (headerSize + nextLinkIndex) = b from hrest.1]
            exact (hk.process b (hq b (by simp))).allocated.inUse.even
      rintro p hp
      rcases List.mem_cons.mp hp with rfl | hp
      · exact hroot
      · exact rooted_of_linked hk q hrest hnext (fun p hp => hq p (List.mem_cons_of_mem _ hp)) p hp

variable (hk : Kinds m L lists processes) (hroots : ∀ p, roots p → 1 ≤ regs p)
  (h : Written m L regs g L' u) (hq : Queued lists processes g queue) (hl : lists l)

include hk hq hl

theorem Queued.rooted (hlr : Rooted m L roots g (fun _ _ => False) l) (hp : p ∈ queue l) :
    Rooted m L roots g (fun _ _ => False) p := by
  refine rooted_of_linked hk (queue l) (hq.linked l hl) (fun hne => ?_) (hq.process l hl) p hp
  refine .field hlr ((hk.list l hl).below (by decide) (by decide)) id ?_
  have hlinked := hq.linked l hl
  cases hql : queue l with
  | nil => exact absurd hql hne
  | cons a q =>
      rw [hql] at hlinked
      rw [hlinked.1]
      exact (hk.process a (hq.process l hl a (hql ▸ List.mem_cons_self))).allocated.inUse.even

include hroots h

theorem wp_isEmptyList {Q : Bool → Interpreter → Prop}
    (hlr : Rooted m L roots g (Link lists processes) l) :
    Wp (isEmptyList l) Q (s.withMemory u) ↔ Q (decide (queue l = [])) (s.withMemory u) := by
  rw [isEmptyList, wp_bind, wp_fetchField h (h.rooted hroots hlr)
    ((hk.list l hl).below (by decide) (by decide)) (by rfl), wp_pure]
  rw [decide_eq_decide.mpr (hq.linked l hl).head_eq_stop]

omit hk hq hl in
/-- A link that is stored reaches the process. -/
theorem wp_storeLink {c i : Nat} (hcr : Rooted m L roots g (fun _ _ => False) c)
    (hc : PointerField m L c (headerSize + i)) (hpu : Allocated u L' p) :
    Wp (inMemory (storePointerOfObjectWithValue i c p)) (fun _ t => ∃ L₁ u₁,
      t = s.withMemory u₁ ∧ Written m L regs (put g c (headerSize + i) p) L₁ u₁ ∧
      Rooted m L roots (put g c (headerSize + i) p) (fun _ _ => False) p) (s.withMemory u) := by
  rw [wp_inMemory]
  refine (h.wp_store_rooted (f := i) hroots hcr hc (by omega) hpu.lt
    (Nat.pos_of_ne_zero hpu.ne_zero) fun _ => hpu).mono ?_
  rintro _ u₁ ⟨L₁, h₁⟩
  refine ⟨L₁, u₁, rfl, h₁, ?_⟩
  have hcr₁ : Rooted m L roots (put g c (headerSize + i) p) (fun a _ => a = c) c :=
    hcr.avoid_self.congr fun a j ha => by rw [put, if_neg fun hall => ha hall.1]
  have hno : Rooted m L roots (put g c (headerSize + i) p) (fun _ _ => False) c :=
    hcr₁.mono fun _ _ hf => hf.elim
  have hpr := Rooted.field hno hc id
    (by rw [put, if_pos ⟨rfl, rfl⟩]; exact hpu.inUse.even)
  rwa [put, if_pos ⟨rfl, rfl⟩] at hpr

omit h hq in
/-- The end of `addLastLinkToList`. -/
theorem wp_closeLinks {g₁ : Nat → Nat → Nat} {L₁ : Layout} {u₁ : ObjectMemory}
    (h₁ : Written m L regs g₁ L₁ u₁) (hlr : Rooted m L roots g₁ (Link lists processes) l)
    (hp : processes p) (hpr : Rooted m L roots g₁ (fun _ _ => False) p) :
    Wp (do
      inMemory (storePointerOfObjectWithValue lastLinkIndex l p)
      inMemory (storePointerOfObjectWithValue myListIndex p l)) (fun _ t => ∃ L'' u',
      t = s.withMemory u' ∧ Written m L regs (put (put g₁ l (headerSize + lastLinkIndex) p)
        p (headerSize + myListIndex) l) L'' u') (s.withMemory u₁) := by
  have hlr₂ : Rooted m L roots (put g₁ l (headerSize + lastLinkIndex) p) (Link lists processes)
      l := by
    refine hlr.congr fun c i hc => ?_
    rw [put, if_neg]
    rintro ⟨rfl, rfl⟩
    exact hc (.inl ⟨hl, .inr rfl⟩)
  rw [wp_bind]
  refine (wp_storeLink hroots h₁ (hlr.mono fun _ _ hf => hf.elim) (hk.list l hl)
    (h₁.rooted hroots hpr)).mono ?_
  rintro _ _ ⟨L₂, u₂, rfl, h₂, hpr₂⟩
  refine (wp_storeLink hroots h₂ hpr₂ (hk.process p hp) (h₂.rooted hroots hlr₂)).mono ?_
  rintro _ _ ⟨L₃, u₃, rfl, h₃, -⟩
  exact ⟨L₃, u₃, rfl, h₃⟩

/-- The process is the last one of the list. -/
theorem wp_addLastLinkToList (hlr : Rooted m L roots g (Link lists processes) l)
    (hp : processes p) (hpu : Allocated u L' p) :
    Wp (addLastLinkToList p l) (fun _ t => ∃ L'' u', t = s.withMemory u' ∧
      Written m L regs (linkLast g (queue l) p l) L'' u') (s.withMemory u) := by
  have hfirst := (hk.list l hl).below (k := headerSize + firstLinkIndex) (by decide) (by decide)
  have hlu := h.rooted hroots hlr
  have hlno : Rooted m L roots g (fun _ _ => False) l := hlr.mono fun _ _ hf => hf.elim
  -- the link to the process is in the list or in its last process
  have hlr₁ : Rooted m L roots (put g ((queue l).getLastD l) (headerSize + nextLinkIndex) p)
      (Link lists processes) l := by
    refine hlr.congr fun c i hc => ?_
    rw [put, if_neg]
    rintro ⟨rfl, rfl⟩
    refine hc ?_
    rcases end_or_head (queue l) l with hend | hend
    · exact .inl ⟨by rw [hend]; exact hl, .inl rfl⟩
    · exact .inr ⟨hq.process l hl _ hend, .inl rfl⟩
  rw [addLastLinkToList, wp_bind, wp_isEmptyList hk hroots h hq hl hlr]
  dsimp only
  rcases List.eq_nil_or_concat (queue l) with hnil | ⟨q, b, hqb⟩
  · rw [decide_eq_true hnil, if_pos rfl, wp_bind]
    refine (wp_storeLink hroots h hlno hfirst hpu).mono ?_
    rintro _ _ ⟨L₁, u₁, rfl, h₁, hpr⟩
    rw [hnil, List.getLastD_nil] at hlr₁
    rw [linkLast, hnil, List.getLastD_nil]
    exact wp_closeLinks hk hroots hl h₁ hlr₁ hp hpr
  · rw [List.concat_eq_append] at hqb
    have hne : queue l ≠ [] := by simp [hqb]
    have hb : b ∈ queue l := by rw [hqb]; simp
    have hbfield := (hk.process b (hq.process l hl b hb)).below
      (k := headerSize + nextLinkIndex) (by decide) (by decide)
    have hlast : g l (headerSize + lastLinkIndex) = b :=
      hq.last l hl b (by rw [hqb, List.getLast?_concat]; rfl)
    rw [decide_eq_false hne, if_neg Bool.false_ne_true, wp_bind,
      wp_fetchField h hlu (hk.list l hl) (by rfl), hlast, wp_bind]
    refine (wp_storeLink hroots h (hq.rooted hk hl hlno hb) hbfield hpu).mono ?_
    rintro _ _ ⟨L₁, u₁, rfl, h₁, hpr⟩
    rw [hqb, List.getLastD_concat] at hlr₁
    rw [linkLast, hqb, List.getLastD_concat]
    exact wp_closeLinks hk hroots hl h₁ hlr₁ hp hpr

/-- The first process of the list is answered, with a reference for the caller. -/
theorem wp_removeFirstLinkOfList (hlr : Rooted m L roots g (Link lists processes) l)
    (hnil : Allocated m L nilPointer ∧ roots nilPointer) (hql : queue l = p :: q) :
    Wp (removeFirstLinkOfList l) (fun r t => r = p ∧ ∃ L'' u', t = s.withMemory u' ∧
      Written m L (held regs p) (unlinkFirst g p l q) L'' u') (s.withMemory u) := by
  have hp : p ∈ queue l := hql ▸ List.mem_cons_self
  have hprocess := hq.process l hl p hp
  have hfield := hk.process p hprocess
  have hnextfield := hfield.below (k := headerSize + nextLinkIndex) (by decide) (by decide)
  have hfirst := (hk.list l hl).below (k := headerSize + firstLinkIndex) (by decide) (by decide)
  have hlu := h.rooted hroots hlr
  have hlno : Rooted m L roots g (fun _ _ => False) l := hlr.mono fun _ _ hf => hf.elim
  have hpu := h.rooted hroots (hq.rooted hk hl hlno hp)
  have hlinked := hq.linked l hl
  rw [hql] at hlinked
  obtain ⟨hhead, -, hrest⟩ := hlinked
  -- from here on the caller's reference keeps the process
  have h₁ := h.countedUp hpu
  have hroots₁ : ∀ r, roots r ∨ r = p → 1 ≤ held regs p r := by
    rintro r (hr | rfl)
    · exact held_le _ _ _ (hroots r hr)
    · exact one_le_held _ _
  have hnil₁ : ∀ {g₂ : Nat → Nat → Nat} {L₂ : Layout} {u₂ : ObjectMemory},
      Written m L (held regs p) g₂ L₂ u₂ → Allocated u₂ L₂ nilPointer := fun h₂ =>
    h₂.root _ hnil.1 (hroots₁ _ (.inl hnil.2))
  have hwiden : ∀ {cut : Nat → Nat → Prop} {g₂ : Nat → Nat → Nat} {c : Nat},
      Rooted m L roots g₂ cut c → Rooted m L (fun r => roots r ∨ r = p) g₂ cut c := fun hc =>
    hc.widen fun _ => .inl
  have hpr : ∀ g₂, Rooted m L (fun r => roots r ∨ r = p) g₂ (fun _ _ => False) p := fun g₂ =>
    .root hfield.allocated (.inr rfl)
  have hl₂ : ∀ v, Rooted m L (fun r => roots r ∨ r = p)
      (put g l (headerSize + firstLinkIndex) v) (Link lists processes) l := by
    intro v
    refine (hwiden hlr).congr fun c i hc => ?_
    rw [put, if_neg]
    rintro ⟨rfl, rfl⟩
    exact hc (.inl ⟨hl, .inl rfl⟩)
  -- the end of both branches
  have hend : ∀ {g₂ : Nat → Nat → Nat} {L₂ : Layout} {u₂ : ObjectMemory},
      Written m L (held regs p) g₂ L₂ u₂ →
      put g₂ p (headerSize + nextLinkIndex) nilPointer = unlinkFirst g p l q →
      Wp (do
        storePointerOfObjectWithValue nextLinkIndex p nilPointer
        return p) (fun r t => r = p ∧ ∃ L'' u', (s.withMemory u).withMemory t = s.withMemory u' ∧
          Written m L (held regs p) (unlinkFirst g p l q) L'' u') u₂ := by
    intro g₂ L₂ u₂ h₂ hg
    rw [wp_bind]
    refine (h₂.wp_store_rooted (f := nextLinkIndex) hroots₁ (hpr g₂) hnextfield (by omega)
      (by decide) (by decide) fun _ => hnil₁ h₂).mono ?_
    rintro _ u₃ ⟨L₃, h₃⟩
    rw [wp_pure]
    exact ⟨rfl, L₃, u₃, rfl, hg ▸ h₃⟩
  rw [removeFirstLinkOfList, wp_inMemory, wp_bind,
    show (s.withMemory u).memory = u from rfl,
    h.wp_fetch (f := firstLinkIndex) hlu hfirst (by omega),
    show g l (headerSize + Int.toNat firstLinkIndex) = p from hhead, wp_bind,
    increaseReferencesTo, wp_countUp]
  refine ⟨fun _ => hfield.allocated.lt, ?_⟩
  rw [wp_bind, h₁.wp_fetch (f := lastLinkIndex) (h₁.rooted hroots₁ (hwiden hlr)) (hk.list l hl)
    (by omega)]
  dsimp only
  cases q with
  | nil =>
      have hlast : g l (headerSize + Int.toNat lastLinkIndex) = p :=
        hq.last l hl p (by rw [hql]; rfl)
      rw [if_pos hlast, wp_bind]
      refine (h₁.wp_store_rooted (f := firstLinkIndex) hroots₁ (hwiden hlr) hfirst (by omega)
        (by decide) (by decide) fun _ => hnil₁ h₁).mono ?_
      rintro _ u₂ ⟨L₂, h₂⟩
      rw [wp_bind]
      refine (h₂.wp_store_rooted (f := lastLinkIndex) hroots₁ (hl₂ _) (hk.list l hl) (by omega)
        (by decide) (by decide) fun _ => hnil₁ h₂).mono ?_
      rintro _ u₃ ⟨L₃, h₃⟩
      exact hend h₃ rfl
  | cons b q =>
      have hlast : g l (headerSize + Int.toNat lastLinkIndex) ≠ p := hq.last_ne hl hql
      have hb : processes b := hq.process l hl b (by rw [hql]; simp)
      have hnext : g p (headerSize + Int.toNat nextLinkIndex) = b := hrest.1
      have hpu₁ := h₁.rooted hroots₁ (hpr g)
      have hbu : Allocated (u.countedUp p) L' b := by
        have hvalue := h₁.value hpu₁ hnextfield
          (by rw [show g p (headerSize + nextLinkIndex) = b from hnext]
              exact (hk.process b hb).allocated.inUse.even)
        rwa [show g p (headerSize + nextLinkIndex) = b from hnext] at hvalue
      rw [if_neg hlast, wp_bind, h₁.wp_fetch (f := nextLinkIndex) hpu₁ hnextfield (by omega), hnext,
        wp_bind]
      refine (h₁.wp_store_rooted (f := firstLinkIndex) hroots₁ (hwiden hlr) hfirst (by omega)
        hbu.lt (Nat.pos_of_ne_zero hbu.ne_zero) fun _ => hbu).mono ?_
      rintro _ u₂ ⟨L₂, h₂⟩
      refine hend h₂ ?_
      rw [unlinkFirst, show g p (headerSize + nextLinkIndex) = b from hnext]
      rfl

end Operations

end Crosstalk
