import Crosstalk.Snapshot.Save
import Crosstalk.Snapshot.Table

/-!
# Programs that append to a file

`Saves` describes a program whose calls on the file are checked, `Writes` one
that only appends: it answers unless one of its calls fails or falls short.
-/

namespace Crosstalk

variable {α β : Type} {m : ObjectMemory} {c d : Prop} {f g : File} {h : Host}
  {data : List UInt8} {chunks chunks' : List (List UInt8)}

/-! ## Successful calls -/

/-- A write of `n` bytes under fault `e` gets them all to the file, and says so. -/
def Succeeds (e : Option Fault) (n : Nat) : Prop :=
  ∀ e', e = some e' → e'.error = false ∧ n ≤ e'.written

namespace File

def AtEnd (f : File) : Prop := f.position = f.bytes.length

def append (f : File) (chunks : List (List UInt8)) : File :=
  { f with
    bytes := f.bytes ++ chunks.flatten
    position := f.position + chunks.flatten.length
    calls := f.calls + chunks.length }

/-- All of the writes succeed. -/
def Takes (f : File) : List (List UInt8) → Prop
  | [] => True
  | data :: chunks => Succeeds f.fault data.length ∧ Takes (f.append [data]) chunks

@[simp] theorem append_nil (f : File) : f.append [] = f := by
  simp [append]

theorem append_append (f : File) (chunks chunks' : List (List UInt8)) :
    (f.append chunks).append chunks' = f.append (chunks ++ chunks') := by
  simp [append, Nat.add_assoc]

theorem AtEnd.append (h : f.AtEnd) (chunks : List (List UInt8)) : (f.append chunks).AtEnd := by
  have h' : f.position = f.bytes.length := h
  simp only [AtEnd, File.append, List.length_append, h']

theorem takes_append : f.Takes (chunks ++ chunks') ↔
    f.Takes chunks ∧ (f.append chunks).Takes chunks' := by
  induction chunks generalizing f with
  | nil => simp [Takes]
  | cons data chunks ih =>
      rw [List.cons_append, Takes, Takes, ih, append_append, and_assoc]
      rfl

theorem takes_of_no_faults (h : ∀ c, f.calls ≤ c → c < f.calls + chunks.length → f.faults c = none) :
    f.Takes chunks := by
  induction chunks generalizing f with
  | nil => trivial
  | cons data chunks ih =>
      refine ⟨fun e he => ?_, ih fun c hle hlt => h c ?_ ?_⟩
      · rw [fault, h f.calls le_rfl (by simp)] at he
        cases he
      · have hle' : f.calls + 1 ≤ c := hle
        omega
      · have hlt' : c < f.calls + 1 + chunks.length := hlt
        rw [List.length_cons]
        omega

theorem write_of_succeeds (h : f.AtEnd) (hs : Succeeds f.fault data.length) :
    f.write data = ((data.length : Int), f.append [data]) := by
  have hput : ∀ n, data.length ≤ n → (f.put (data.take n)).called = f.append [data] := by
    intro n hn
    have hpos : f.position = f.bytes.length := h
    rw [List.take_of_length_le hn]
    simp [put, called, File.append, hpos]
  unfold write
  cases he : f.fault with
  | none =>
      have := hput data.length le_rfl
      rw [List.take_length] at this
      simp only [this]
  | some e =>
      obtain ⟨h1, h2⟩ := hs e he
      have hmin : min (e.written : Int) data.length = data.length := by
        omega
      simp only [h1, hput e.written h2, Bool.false_eq_true, if_false, hmin]

theorem write_of_not_succeeds (hs : ¬Succeeds f.fault data.length) :
    (f.write data).1 ≠ data.length := by
  unfold write
  cases he : f.fault with
  | none => exact absurd (fun e' h' => by rw [he] at h'; cases h') hs
  | some e =>
      by_cases herror : e.error
      · simp only [herror, if_true]
        omega
      · simp only [herror, Bool.false_eq_true, if_false]
        have hlt : ¬data.length ≤ e.written := fun hle => hs fun e' h' => by
          rw [he] at h'
          obtain rfl := Option.some.inj h'
          exact ⟨by simpa using herror, hle⟩
        omega

end File

/-! ## Readers and writers -/

/-- `x` reads `v` off the memory, or halts where `c` does not hold. -/
def Reads (m : ObjectMemory) (c : Prop) (x : OM α) (v : α) : Prop :=
  (c → x m = some (v, m)) ∧ (¬c → x m = none)

theorem reads_of_wp {x : OM α} {v : α} (h : ∀ Q : α → ObjectMemory → Prop,
    Wp x Q m ↔ c ∧ Q v m) : Reads m c x v := by
  refine ⟨fun hc => ?_, fun hc => ?_⟩
  · obtain ⟨a, m', hx, rfl, rfl⟩ := (h fun a m' => a = v ∧ m' = m).mpr ⟨hc, rfl, rfl⟩
    exact hx
  · cases hx : x m with
    | none => rfl
    | some r => exact absurd ((h fun _ _ => True).mp ⟨r.1, r.2, hx, trivial⟩).1 hc

/-- On a memory `m` and a file `f`, `x` answers `a` and leaves the file `g` if
`ok`, and `none` otherwise. Where `c` does not hold it does not answer. -/
structure Saves (m : ObjectMemory) (c : Prop) (x : HM (Option α)) (f : File) (ok : Prop) (a : α)
    (g : File) : Prop where
  total : c → ∀ h : Host, h.memory = m → h.file = f → Wp x (fun r h' =>
    (ok → r = some a ∧ h' = { h with file := g }) ∧ (¬ok → r = none)) h
  halts : ¬c → ∀ h : Host, h.memory = m → h.file = f → Wlp x (fun r _ => r = none) h

namespace Saves

variable {ok ok' : Prop} {g' : File}

theorem congr {x : HM (Option α)} {a : α} (h : Saves m c x f ok a g) (hcd : c ↔ d)
    (hok : ok ↔ ok') (hg : g = g') : Saves m d x f ok' a g' := by
  rw [← hg]
  refine ⟨fun hd h' hm hf => ?_, fun hd => h.halts fun hc => hd (hcd.mp hc)⟩
  rw [← hok]
  exact h.total (hcd.mpr hd) h' hm hf

/-- One after the other. -/
theorem andThen {x : HM (Option α)} {y : α → HM (Option β)} {a : α} {b : β}
    (hx : Saves m c x f ok a g) (hy : Saves m d (y a) g ok' b g') :
    Saves m (c ∧ d) (andThen x y) f (ok ∧ ok') b g' := by
  refine ⟨fun hcd h hm hf => ?_, fun hcd h hm hf => ?_⟩
  · rw [Crosstalk.andThen, wp_bind]
    refine (hx.total hcd.1 h hm hf).mono fun r h' ⟨hyes, hno⟩ => ?_
    by_cases ht : ok
    · obtain ⟨rfl, rfl⟩ := hyes ht
      refine (hy.total hcd.2 { h with file := g } hm rfl).mono fun r' h'' ⟨hyes', hno'⟩ => ?_
      exact ⟨fun hall => hyes' hall.2, fun hall => hno' fun ht' => hall ⟨ht, ht'⟩⟩
    · rw [hno ht]
      exact (wp_pure _ _ _).mpr ⟨fun hall => absurd hall.1 ht, fun _ => rfl⟩
  · rw [Crosstalk.andThen, wlp_bind]
    by_cases hc : c
    · refine (hx.total hc h hm hf).toWlp.mono fun r h' ⟨hyes, hno⟩ => ?_
      by_cases ht : ok
      · obtain ⟨rfl, rfl⟩ := hyes ht
        exact hy.halts (fun hd => hcd ⟨hc, hd⟩) { h with file := g } hm rfl
      · rw [hno ht]
        exact (wlp_pure _ _ _).mpr rfl
    · refine (hx.halts hc h hm hf).mono fun r h' hr => ?_
      rw [hr]
      exact (wlp_pure _ _ _).mpr rfl

end Saves

/-- `x` appends `chunks`, one call each, and answers `a`. -/
def Writes (m : ObjectMemory) (c : Prop) (x : HM (Option α)) (chunks : List (List UInt8))
    (a : α) : Prop :=
  ∀ f : File, f.AtEnd → Saves m c x f (f.Takes chunks) a (f.append chunks)

namespace Writes

theorem congr {x : HM (Option α)} {a : α} (h : Writes m c x chunks a) (hcd : c ↔ d)
    (hchunks : chunks = chunks') : Writes m d x chunks' a := by
  rw [← hchunks]
  exact fun f hf => (h f hf).congr hcd Iff.rfl rfl

protected theorem pure (a : α) : Writes m True (pure (some a)) [] a := by
  refine fun f _ => ⟨fun _ h _ hf => (wp_pure _ _ _).mpr ⟨fun _ => ⟨rfl, ?_⟩,
    fun hn => absurd trivial hn⟩, fun hn => absurd trivial hn⟩
  rw [File.append_nil, ← hf]

theorem writeBytes (data : List UInt8) : Writes m True (writeBytes data) [data] () := by
  refine fun f hend => ⟨fun _ h _ hf => ?_, fun hn => absurd trivial hn⟩
  subst hf
  rw [Crosstalk.writeBytes, wp_bind, wp_onFile]
  by_cases hs : Succeeds h.file.fault data.length
  · rw [File.write_of_succeeds hend hs, if_pos rfl, wp_pure]
    exact ⟨fun _ => ⟨rfl, rfl⟩, fun hn => absurd ⟨hs, trivial⟩ hn⟩
  · rw [if_neg (File.write_of_not_succeeds hs), wp_pure]
    exact ⟨fun ht => absurd ht.1 hs, fun _ => rfl⟩

/-- One writer after the other. -/
theorem andThen {x : HM (Option α)} {y : α → HM (Option β)} {a : α} {b : β}
    (hx : Writes m c x chunks a) (hy : Writes m d (y a) chunks' b) :
    Writes m (c ∧ d) (andThen x y) (chunks ++ chunks') b := by
  intro f hf
  exact ((hx f hf).andThen (hy _ (hf.append chunks))).congr Iff.rfl File.takes_append.symm
    (File.append_append f chunks chunks')

theorem ite_true {x y : HM (Option α)} {a : α} (hx : Writes m c x chunks a) :
    Writes m c (if true = true then x else y) chunks a := by
  rwa [if_pos rfl]

theorem ite_false {x y : HM (Option α)} {a : α} (hy : Writes m c y chunks a) :
    Writes m c (if false = true then x else y) chunks a := by
  rwa [if_neg Bool.false_ne_true]

/-- A loop of writers whose `i`-th round starts from `a i`. -/
theorem foldN {body : Nat → α → HM (Option α)} {c : Nat → Prop}
    {chunks : Nat → List (List UInt8)} {a : Nat → α} :
    ∀ {n : Nat}, (∀ i < n, Writes m (c i) (body i (a i)) (chunks i) (a (i + 1))) →
      Writes m (∀ i < n, c i) (foldN n body (a 0)) ((List.range n).flatMap chunks) (a n)
  | 0, _ => by
      refine (Writes.pure (a 0)).congr ⟨fun _ i hi => absurd hi (Nat.not_lt_zero i),
        fun _ => trivial⟩ rfl
  | n + 1, h => by
      have ih := foldN fun i hi => h i (Nat.lt_succ_of_lt hi)
      refine (ih.andThen (h n (Nat.lt_succ_self n))).congr ⟨fun hc i hi => ?_, fun hc => ?_⟩ ?_
      · rcases Nat.lt_succ_iff_lt_or_eq.mp hi with hi | rfl
        · exact hc.1 i hi
        · exact hc.2
      · exact ⟨fun i hi => hc i (Nat.lt_succ_of_lt hi), hc n (Nat.lt_succ_self n)⟩
      · rw [List.range_succ, List.flatMap_append, List.flatMap_singleton]

end Writes

/-- A reader before a writer. -/
theorem Reads.writes {x : OM α} {y : α → HM (Option β)} {v : α} {b : β} (hx : Reads m c x v)
    (hy : Writes m d (y v) chunks b) : Writes m (c ∧ d) (onMemory x >>= y) chunks b := by
  refine fun f hend => ⟨fun hcd h hm hf => ?_, fun hcd h hm hf => ?_⟩
  · rw [wp_bind, wp_onMemory, hm]
    refine ⟨v, m, hx.1 hcd.1, ?_⟩
    rw [← hm]
    exact (hy f hend).total hcd.2 h hm hf
  · rw [wlp_bind]
    intro a h' hrun
    rw [onMemory, hm] at hrun
    by_cases hc : c
    · rw [hx.1 hc] at hrun
      cases hrun
      rw [← hm]
      exact (hy f hend).halts (fun hd => hcd ⟨hc, hd⟩) h hm hf
    · rw [hx.2 hc] at hrun
      cases hrun

end Crosstalk
