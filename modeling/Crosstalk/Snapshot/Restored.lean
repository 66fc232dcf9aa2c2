import Crosstalk.Snapshot.Report

/-!
# Saving leaves the memory alone

Whatever the calls on the file answer, a save that ends has restored every
object table entry that it rewrote: the entry is restored before the write that
may fail.
-/

namespace Crosstalk

open ObjectMemory

/-- Every run of `x` that ends, leaves the memory as it was. -/
def KeepsMemory {α : Type} (x : HM α) : Prop :=
  ∀ h, Wlp x (fun _ h' => h'.memory = h.memory) h

namespace KeepsMemory

variable {α β : Type}

protected theorem pure (a : α) : KeepsMemory (pure a) := fun _ => (wlp_pure _ _ _).mpr rfl

theorem bind {x : HM α} {f : α → HM β} (hx : KeepsMemory x) (hf : ∀ a, KeepsMemory (f a)) :
    KeepsMemory (x >>= f) := fun h => (wlp_bind _ _ _ _).mpr <|
  (hx h).mono fun a h' hmem => (hf a h').mono fun _ _ hmem' => hmem'.trans hmem

theorem ite {c : Prop} [Decidable c] {x y : HM α} (hx : KeepsMemory x) (hy : KeepsMemory y) :
    KeepsMemory (if c then x else y) := fun h =>
  (wlp_ite _ _ _ _ _).mpr ⟨fun _ => hx h, fun _ => hy h⟩

theorem onFile (x : File → α × File) : KeepsMemory (onFile x) := fun _ _ _ hrun => by
  cases hrun
  rfl

/-- A reader of the memory. -/
theorem reads {x : OM α} {c : ObjectMemory → Prop} {v : ObjectMemory → α}
    (hx : ∀ m, Reads m (c m) x (v m)) : KeepsMemory (onMemory x) := fun h a h' hrun => by
  have hread := hx h.memory
  cases hxm : x h.memory with
  | none => simp [onMemory, hxm] at hrun
  | some r =>
      by_cases hc : c h.memory
      · rw [hread.1 hc] at hxm
        cases hxm
        simp only [onMemory, hread.1 hc, Option.some.injEq, Prod.mk.injEq] at hrun
        rw [← hrun.2]
      · rw [hread.2 hc] at hxm
        cases hxm

theorem andThen {x : HM (Option α)} {f : α → HM (Option β)} (hx : KeepsMemory x)
    (hf : ∀ a, KeepsMemory (f a)) : KeepsMemory (andThen x f) :=
  hx.bind fun r => by
    cases r with
    | none => exact .pure none
    | some a => exact hf a

theorem foldN {body : Nat → α → HM (Option α)} (hbody : ∀ i a, KeepsMemory (body i a)) :
    ∀ (n : Nat) (a : α), KeepsMemory (foldN n body a)
  | 0, a => .pure (some a)
  | n + 1, a => (foldN hbody n a).bind fun r => by
      cases r with
      | none => exact .pure none
      | some a' => exact hbody n a'

/-! ## The parts of a save -/

theorem writeBytes (data : List UInt8) : KeepsMemory (writeBytes data) :=
  (onFile _).bind fun _ => .ite (.pure _) (.pure _)

theorem padToPage : KeepsMemory padToPage :=
  (onFile _).bind fun _ => foldN (fun _ _ => writeBytes _) _ _

variable {p : Nat}

theorem saveObject (hp : p % 2 = 0) (n : Int) : KeepsMemory (saveObject p n) := by
  have hsize : KeepsMemory (onMemory (sizeBitsOf p)) :=
    reads fun _ => reads_of_wp fun _ => wp_sizeBitsOf
  have hclass : KeepsMemory (onMemory (fetchClassOf p)) :=
    reads fun _ => reads_of_wp fun _ => wp_fetchClassOf hp
  have hlength : KeepsMemory (onMemory (fetchWordLengthOf p)) :=
    reads fun _ => reads_of_wp fun _ => wp_fetchWordLengthOf
  have hword (i : Nat) : KeepsMemory (onMemory (fetchWordOfObject i p)) :=
    reads fun _ => reads_of_wp fun _ => wp_fetchWordOfObject
  have hheader : KeepsMemory (writeHeader p) :=
    hsize.bind fun _ => hclass.bind fun _ => (writeBytes _).andThen fun _ => .pure _
  have hfields : KeepsMemory (writeFields p) :=
    hlength.bind fun _ => foldN (fun i _ => (hword i).bind fun _ => writeBytes _) _ _
  exact (reads fun _ => reads_hasObject).bind fun _ =>
    .ite (hheader.andThen fun _ => hfields.andThen fun _ => .pure _) (.pure _)

/-- The entry is restored before it is written. -/
theorem saveEntry (hp : p % 2 = 0) (a : Nat) : KeepsMemory (saveEntry p a) :=
  (reads fun _ => reads_assembleEntry hp).bind fun _ => (writeBytes _).andThen fun _ => .pure _

theorem saveContents (n : Nat) : KeepsMemory (saveContents n) :=
  (writeBytes _).andThen fun _ => (writeBytes _).andThen fun _ => padToPage.andThen fun _ =>
  (foldN (fun _ _ => saveObject (Nat.mul_mod_right 2 _) _) _ _).andThen fun _ =>
  padToPage.andThen fun _ =>
  (foldN (fun _ _ => saveEntry (Nat.mul_mod_right 2 _) _) _ _).andThen fun _ => .pure _

theorem saveHeader (n k : Int) : KeepsMemory (saveHeader n k) :=
  (onFile _).bind fun _ => (onFile _).bind fun _ => (onFile _).bind fun _ => .pure _

theorem saveObjects : KeepsMemory saveObjects :=
  (reads fun _ => reads_lastUsedObjectPointer).bind fun _ => (saveContents _).bind fun r => by
    cases r with
    | none => exact .pure false
    | some n => exact (saveHeader n _).bind fun _ => .pure true

theorem saveSnapshot : KeepsMemory saveSnapshot :=
  (onFile _).bind fun _ => .ite (.pure _) saveObjects

end KeepsMemory

/-- On every way out of a save, with whatever calls on the file that fail, the running
image is what it was. -/
theorem saveObjects_undisturbed (h : Host) :
    Wlp saveObjects (fun _ h' => (∀ s w, h'.memory.word s w = h.memory.word s w) ∧
      h'.memory.currentSegment = h.memory.currentSegment ∧
      h'.memory.freeWords = h.memory.freeWords ∧ h'.memory.freeOops = h.memory.freeOops) h ∧
    Wlp saveSnapshot (fun _ h' => (∀ s w, h'.memory.word s w = h.memory.word s w) ∧
      h'.memory.currentSegment = h.memory.currentSegment ∧
      h'.memory.freeWords = h.memory.freeWords ∧ h'.memory.freeOops = h.memory.freeOops) h := by
  constructor
  · refine (KeepsMemory.saveObjects h).mono fun _ h' hmem => ?_
    rw [hmem]
    exact ⟨fun _ _ => rfl, rfl, rfl, rfl⟩
  · refine (KeepsMemory.saveSnapshot h).mono fun _ h' hmem => ?_
    rw [hmem]
    exact ⟨fun _ _ => rfl, rfl, rfl, rfl⟩

end Crosstalk
