import Mathlib.Tactic.Ring

/-!
# Serialisers that write and read

One description of a record serves both directions, and what is read first may decide what is read
next. A layout has a writer, a reader and the values that are read back; records and their proofs
are composed.
-/

namespace Data

/-- A writer and a reader, and the values that are read back. The reader fails with `none`. -/
structure Layout (β α : Type*) where
  write : α → List β
  read : List β → Option (α × List β)
  Fits : α → Prop
  read_write : ∀ a, Fits a → ∀ rest, read (write a ++ rest) = some (a, rest)

namespace Layout

variable {β α γ : Type*}

/-- The end of a record. -/
def done (c : γ) : Layout β γ where
  write _ := []
  read input := some (c, input)
  Fits other := other = c
  read_write := by
    rintro _ rfl rest
    rfl

/-- Nothing is read. -/
def fail : Layout β γ := ⟨fun _ => [], fun _ => none, fun _ => False, fun _ h => h.elim⟩

/-- A field, and the rest of the record, which may depend on what the field holds. -/
def field (codec : Layout β α) (proj : γ → α) (rest : α → Layout β γ) : Layout β γ where
  write c := codec.write (proj c) ++ (rest (proj c)).write c
  read input := (codec.read input).bind fun result => (rest result.1).read result.2
  Fits c := codec.Fits (proj c) ∧ (rest (proj c)).Fits c
  read_write := by
    rintro c ⟨hfield, hrest⟩ more
    rw [List.append_assoc, codec.read_write _ hfield]
    exact (rest (proj c)).read_write c hrest more

@[simp] theorem write_done (c other : γ) : (done c : Layout β γ).write other = [] := rfl

@[simp] theorem write_field (codec : Layout β α) (proj : γ → α) (rest : α → Layout β γ) (c : γ) :
    (field codec proj rest).write c = codec.write (proj c) ++ (rest (proj c)).write c := rfl

/-- What is read is checked. -/
def check (codec : Layout β α) (p : α → Prop) [DecidablePred p] : Layout β α where
  write := codec.write
  read input := (codec.read input).filter fun result => p result.1
  Fits a := codec.Fits a ∧ p a
  read_write := by
    rintro a ⟨hfits, hp⟩ rest
    rw [codec.read_write a hfits, Option.filter_some, if_pos (decide_eq_true hp)]

/-- Values of another type in the place of those of a codec. -/
def map (codec : Layout β α) (value : α → γ) (source : γ → α) : Layout β γ where
  write c := codec.write (source c)
  read input := (codec.read input).map fun result => (value result.1, result.2)
  Fits c := codec.Fits (source c) ∧ value (source c) = c
  read_write := by
    rintro c ⟨hfits, hc⟩ rest
    rw [codec.read_write _ hfits, Option.map_some, hc]

/-- A value that may be missing, behind a flag. -/
def option (flag : Layout β Bool) (codec : Layout β α) : Layout β (Option α) where
  write
    | none => flag.write false
    | some a => flag.write true ++ codec.write a
  read input := (flag.read input).bind fun result =>
    if result.1 then (codec.read result.2).map fun value => (some value.1, value.2)
      else some (none, result.2)
  Fits
    | none => flag.Fits false
    | some a => flag.Fits true ∧ codec.Fits a
  read_write := by
    rintro (_ | a) h rest
    · rw [flag.read_write _ h]
      rfl
    · rw [List.append_assoc, flag.read_write _ h.1, Option.bind_some, if_pos rfl,
        codec.read_write a h.2, Option.map_some]

/-- A number of elements. -/
def readMany (codec : Layout β α) : Nat → List β → Option (List α × List β)
  | 0, input => some ([], input)
  | n + 1, input =>
    (codec.read input).bind fun first =>
      (readMany codec n first.2).map fun others => (first.1 :: others.1, others.2)

theorem readMany_flatMap (codec : Layout β α) {elements : List α} (h : ∀ a ∈ elements, codec.Fits a)
    (rest : List β) : codec.readMany elements.length (elements.flatMap codec.write ++ rest) =
    some (elements, rest) := by
  induction elements with
  | nil => rfl
  | cons a elements ih =>
    obtain ⟨hhead, htail⟩ := List.forall_mem_cons.mp h
    rw [List.length_cons, readMany, List.flatMap_cons, List.append_assoc, codec.read_write a hhead,
      Option.bind_some, ih htail, Option.map_some]

/-- Elements behind their number. -/
def array (size : Layout β Nat) (codec : Layout β α) : Layout β (List α) where
  write elements := size.write elements.length ++ elements.flatMap codec.write
  read input := (size.read input).bind fun result => codec.readMany result.1 result.2
  Fits elements := size.Fits elements.length ∧ ∀ a ∈ elements, codec.Fits a
  read_write := by
    rintro elements ⟨hsize, helements⟩ rest
    rw [List.append_assoc, size.read_write _ hsize]
    exact codec.readMany_flatMap helements rest

end Layout

namespace LittleEndian

/-- The number in a given number of bytes; what does not fit is lost. -/
def encode : Nat → Nat → List UInt8
  | 0, _ => []
  | width + 1, n => UInt8.ofNat n :: encode width (n / 256)

/-- The number the bytes stand for. -/
def decode (bytes : List UInt8) : Nat := bytes.foldr (fun byte acc => byte.toNat + 256 * acc) 0

@[simp] theorem length_encode (width n : Nat) : (encode width n).length = width := by
  induction width generalizing n with
  | zero => rfl
  | succ width ih => exact congrArg (· + 1) (ih _)

theorem decode_encode_eq_mod (width n : Nat) : decode (encode width n) = n % 256 ^ width := by
  induction width generalizing n with
  | zero => rw [pow_zero, Nat.mod_one]; rfl
  | succ width ih =>
    change (UInt8.ofNat n).toNat + 256 * decode (encode width (n / 256)) = n % 256 ^ (width + 1)
    have hmod : n % (256 * 256 ^ width) = n % 256 + 256 * (n / 256 % 256 ^ width) := Nat.mod_mul
    rw [ih, UInt8.toNat_ofNat', pow_succ' 256, hmod]

theorem decode_encode {width n : Nat} (h : n < 256 ^ width) : decode (encode width n) = n := by
  rw [decode_encode_eq_mod, Nat.mod_eq_of_lt h]

end LittleEndian

end Data
