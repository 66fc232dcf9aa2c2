import Crosstalk.ObjectMemory.FreeLists

/-!
# Files and the in-memory image

What a snapshot is read from and written to: the one open file of an
`IFileSystem`, and the static array that can hold an image. A call that writes,
seeks or tells may fail: which one, and how, is the fault pattern of the file.
Reads are faithful.
-/

namespace Crosstalk

/-! ## Words and bytes -/

/-- The bytes of a word in memory order. -/
def wordBytes (w : Nat) : List UInt8 := [UInt8.ofNat w, UInt8.ofNat (w / 256)]

/-- The bytes of an `int32_t`. -/
def int32Bytes (v : Int) : List UInt8 :=
  wordBytes (v % 65536).toNat ++ wordBytes (v / 65536 % 65536).toNat

/-- Past the end, where the program has no value, this is 0. -/
def byteAt (bytes : List UInt8) (k : Nat) : Nat := (bytes.getD k 0).toNat

def wordAt (bytes : List UInt8) (k : Nat) : Nat := byteAt bytes k + 256 * byteAt bytes (k + 1)

def int32At (bytes : List UInt8) (k : Nat) : Int :=
  Int.bmod (wordAt bytes k + 65536 * wordAt bytes (k + 2) : Nat) 4294967296

/-! ## The state -/

/-- How a call on a file goes wrong: a write gets `written` bytes to the file at
most, and an `error` is answered with -1. -/
structure Fault where
  written : Nat
  error : Bool
  deriving DecidableEq, Repr

structure File where
  bytes : List UInt8
  position : Nat
  /-- The fault of each call that may fail, in the order of the calls. -/
  faults : Nat → Option Fault
  calls : Nat

/-- The size of the array `___files_snapshot_im`. -/
abbrev sizeofFilesSnapshotIm : Nat := 1000000

structure Host where
  memory : ObjectMemory
  file : File
  filesSnapshotIm : Nat → UInt8
  filesSnapshotImLen : Int
  offset : Int

abbrev HM := StateT Host Option

variable {α : Type}

/-- A program on the object memory of the host. -/
def onMemory (x : OM α) : HM α := fun h =>
  match x h.memory with
  | none => none
  | some (a, m) => some (a, { h with memory := m })

/-! ## The calls of the file system -/

namespace File

/-- `data` at the position, over what is there. -/
def put (f : File) (data : List UInt8) : File :=
  { f with
    bytes := f.bytes.take f.position ++ data ++ f.bytes.drop (f.position + data.length)
    position := f.position + data.length }

def fault (f : File) : Option Fault := f.faults f.calls

def called (f : File) : File := { f with calls := f.calls + 1 }

def write (f : File) (data : List UInt8) : Int × File :=
  match f.fault with
  | none => (data.length, (f.put data).called)
  | some e =>
      (if e.error then -1 else min e.written data.length, (f.put (data.take e.written)).called)

/-- A seek that fails leaves the position where it is. -/
def seekTo (f : File) (position : Int) : Int × File :=
  if 0 ≤ position ∧ f.fault.all (!·.error) then
    (position, { f.called with position := position.toNat })
  else (-1, f.called)

def tell (f : File) : Int × File :=
  (if f.fault.all (!·.error) then f.position else -1, f.called)

def read (f : File) (n : Nat) : List UInt8 × File :=
  let data := (f.bytes.drop f.position).take n
  (data, { f with position := f.position + data.length })

def fileSize (f : File) : Int := f.bytes.length

end File

/-- A call on the open file. -/
def onFile (x : File → α × File) : HM α := fun h =>
  some ((x h.file).1, { h with file := (x h.file).2 })

theorem wp_onFile {x : File → α × File} {Q : α → Host → Prop} {h : Host} :
    Wp (onFile x) Q h ↔ Q (x h.file).1 { h with file := (x h.file).2 } :=
  ⟨by rintro ⟨_, _, ⟨⟩, hQ⟩; exact hQ, fun hQ => ⟨_, _, rfl, hQ⟩⟩

theorem wp_onMemory {x : OM α} {Q : α → Host → Prop} {h : Host} :
    Wp (onMemory x) Q h ↔ Wp x (fun a m => Q a { h with memory := m }) h.memory := by
  constructor
  · rintro ⟨a, h', hx, hQ⟩
    cases hxm : x h.memory with
    | none => simp [onMemory, hxm] at hx
    | some r =>
        simp only [onMemory, hxm, Option.some.injEq, Prod.mk.injEq] at hx
        obtain ⟨rfl, rfl⟩ := hx
        exact ⟨_, _, hxm, hQ⟩
  · rintro ⟨a, m, hx, hQ⟩
    exact ⟨a, _, by rw [onMemory, hx], hQ⟩

/-- Copy `n` bytes of the array from `offset`. -/
def copyImage (offset : Int) (n : Nat) : HM (List UInt8) := fun h =>
  if 0 ≤ offset ∧ offset + n ≤ sizeofFilesSnapshotIm then
    some ((List.range n).map fun i => h.filesSnapshotIm (offset.toNat + i), h)
  else none

end Crosstalk
