import Mathlib.Algebra.Ring.Nat

/-!
# A file and the stream on it

A file is absent or a list of bytes, with one stream on it in the manner of the C++ standard
library: a stream remembers a failure, and opening one that is open already fails. The medium itself
never fails.
-/

namespace Data

variable {β : Type*}

/-- Replace what stands at a position; a gap before the position is filled. -/
def overwrite [Inhabited β] (bytes : List β) (position : Nat) (data : List β) : List β :=
  bytes.take position ++ List.replicate (position - bytes.length) default ++ data ++
    bytes.drop (position + data.length)

theorem overwrite_append_length [Inhabited β] (start rest data : List β) :
    overwrite (start ++ rest) start.length data = start ++ data ++ rest.drop data.length := by
  simp [overwrite]

theorem overwrite_zero [Inhabited β] (old rest data : List β) (h : data.length = old.length) :
    overwrite (old ++ rest) 0 data = data ++ rest := by
  simp [overwrite, h]

/-- A file, absent or with its bytes, and the stream that is used on it. -/
structure FileStream (β : Type*) where
  file : Option (List β)
  isOpen : Bool
  good : Bool
  position : Nat

namespace FileStream

/-- A new stream on a file. -/
def attach (file : Option (List β)) : FileStream β := ⟨file, false, true, 0⟩

/-- Open for reading and writing; the file has to exist. -/
def openBoth (s : FileStream β) : FileStream β :=
  if s.isOpen || s.file.isNone then
    { s with good := false }
  else
    { s with isOpen := true, good := true, position := 0 }

/-- Open for writing; the file is created or emptied. -/
def openOut (s : FileStream β) : FileStream β :=
  if s.isOpen then
    { s with good := false }
  else
    ⟨some [], true, true, 0⟩

/-- Close; earlier failures are kept. -/
def close (s : FileStream β) : FileStream β :=
  if s.isOpen then
    { s with isOpen := false }
  else
    { s with good := false }

/-- Go to a position. -/
def seek (s : FileStream β) (position : Nat) : FileStream β :=
  if s.good && s.isOpen then
    { s with position := position }
  else
    { s with good := false }

/-- The position, if the stream has not failed. -/
def tell (s : FileStream β) : Option Nat := if s.good && s.isOpen then some s.position else none

/-- Write at the position. -/
def write [Inhabited β] (s : FileStream β) (data : List β) : FileStream β :=
  if s.good && s.isOpen then
    { s with
      file := s.file.map fun bytes => overwrite bytes s.position data
      position := s.position + data.length }
  else
    { s with good := false }

/-- The bytes from the position on. -/
def remaining (s : FileStream β) : List β := (s.file.getD []).drop s.position

/-- Read a number of bytes; a read that cannot be served in full fails. -/
def read (s : FileStream β) (count : Nat) : List β × FileStream β :=
  if s.good && s.isOpen && count ≤ s.remaining.length then
    (s.remaining.take count, { s with position := s.position + count })
  else
    (s.remaining.take count, { s with good := false })

/-- An open stream without failures. -/
def ready (bytes : List β) (position : Nat) : FileStream β := ⟨some bytes, true, true, position⟩

variable (bytes data : List β) (p q : Nat)

@[simp] theorem good_ready : (ready bytes p).good = true := rfl

@[simp] theorem file_ready : (ready bytes p).file = some bytes := rfl

@[simp] theorem openBoth_attach : (attach (some bytes)).openBoth = ready bytes 0 := rfl

@[simp] theorem seek_ready : (ready bytes p).seek q = ready bytes q := rfl

@[simp] theorem tell_ready : (ready bytes p).tell = some p := rfl

@[simp] theorem remaining_ready : (ready bytes p).remaining = bytes.drop p := rfl

@[simp] theorem write_ready [Inhabited β] :
    (ready bytes p).write data = ready (overwrite bytes p data) (p + data.length) := rfl

theorem read_of_append (start rest : List β) :
    (ready (start ++ data ++ rest) start.length).read data.length =
      (data, ready (start ++ data ++ rest) (start.length + data.length)) := by
  simp [read, ready, remaining]

end FileStream

/-- Where records of the given lengths begin when the first one begins at `position`. -/
def starts (position : Nat) : List Nat → List Nat
  | [] => []
  | length :: lengths => position :: starts (position + length) lengths

@[simp] theorem length_starts (position : Nat) (lengths : List Nat) :
    (starts position lengths).length = lengths.length := by
  induction lengths generalizing position with
  | nil => rfl
  | cons length lengths ih => exact congrArg (· + 1) (ih _)

theorem starts_append (position : Nat) (lengths more : List Nat) :
    starts position (lengths ++ more) = starts position lengths ++ starts
    (position + lengths.sum) more := by
  induction lengths generalizing position with
  | nil => rfl
  | cons length lengths ih =>
    simp [starts, ih, Nat.add_assoc]

theorem getElem?_starts {position i : Nat} {lengths : List Nat} (h : i < lengths.length) :
    (starts position lengths)[i]? = some (position + (lengths.take i).sum) := by
  induction lengths generalizing position i with
  | nil => cases h
  | cons length lengths ih =>
    cases i with
    | zero => rfl
    | succ i =>
      rw [starts, List.getElem?_cons_succ, ih (Nat.lt_of_succ_lt_succ h), List.take_succ_cons,
        List.sum_cons, Nat.add_assoc]

end Data
