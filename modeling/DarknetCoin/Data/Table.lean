import Mathlib.Algebra.BigOperators.Group.Finset.Basic
import Mathlib.Tactic.Abel

/-!
# Tables of rows that grow and shrink at the end

A row is created by the first entry pushed to it and disappears with the last entry popped, so that
a pop undoes a push exactly on a table without empty rows.
-/

namespace Data

/-- Rows by key; `none` is an absent row. -/
abbrev Table (κ α : Type*) := κ → Option (List α)

namespace Table

variable {κ α : Type*} [DecidableEq κ]

/-- The table without rows. -/
def empty : Table κ α := fun _ => none

/-- A row as a list, empty when it is absent. -/
def row (t : Table κ α) (k : κ) : List α := (t k).getD []

/-- Append an entry, creating the row if needed. -/
def push (t : Table κ α) (k : κ) (a : α) : Table κ α :=
  Function.update t k (some (t.row k ++ [a]))

/-- Remove the last entry, and the row with its only entry. -/
def pop (t : Table κ α) (k : κ) : Table κ α :=
  Function.update t k (if (t.row k).dropLast.length = 0 then none else some (t.row k).dropLast)

/-- Change one entry. -/
def modifyAt (t : Table κ α) (k : κ) (i : Nat) (f : α → α) : Table κ α :=
  Function.update t k ((t k).map fun entries => entries.modify i f)

/-- No row is present and empty. -/
def NoEmptyRow (t : Table κ α) : Prop := ∀ k, t k ≠ some []

omit [DecidableEq κ] in
theorem noEmptyRow_empty : (empty : Table κ α).NoEmptyRow := by
  intro k h
  cases h

@[simp] theorem row_push_self (t : Table κ α) (k : κ) (a : α) :
    (t.push k a).row k = t.row k ++ [a] := by
  simp [row, push]

theorem row_push_of_ne (t : Table κ α) {k k' : κ} (a : α) (h : k' ≠ k) :
    (t.push k a).row k' = t.row k' := by
  simp [row, push, h]

@[simp] theorem row_modifyAt_self (t : Table κ α) (k : κ) (i : Nat) (f : α → α) :
    (t.modifyAt k i f).row k = (t.row k).modify i f := by
  cases h : t k with
  | none => simp [row, modifyAt, h]
  | some entries => simp [row, modifyAt, h]

theorem row_modifyAt_of_ne (t : Table κ α) {k k' : κ} (i : Nat) (f : α → α) (h : k' ≠ k) :
    (t.modifyAt k i f).row k' = t.row k' := by
  simp [row, modifyAt, h]

theorem NoEmptyRow.push {t : Table κ α} (h : t.NoEmptyRow) (k : κ) (a : α) :
    (t.push k a).NoEmptyRow := by
  intro k'
  by_cases hk : k' = k
  · subst hk
    simp [Table.push]
  · simpa [Table.push, hk] using h k'

/-- Popping undoes pushing in a table without empty rows. -/
theorem pop_push {t : Table κ α} (h : t.NoEmptyRow) (k : κ) (a : α) : (t.push k a).pop k = t := by
  funext k'
  by_cases hk : k' = k
  · subst hk
    cases hrow : t k' with
    | none => simp [push, pop, row, hrow]
    | some entries =>
      have hne : entries ≠ [] := by
        rintro rfl
        exact h k' hrow
      simp [push, pop, row, hrow, hne]
  · simp [push, pop, hk]

end Table

/-! ### Weights

A weight of entries, summed up over the rows. Every update changes the sum by what it does to one
entry. -/

open List

namespace Table

variable {κ α : Type*} [DecidableEq κ] {keys : Finset κ} {t : Table κ α} {k : κ}

/-- The weight of the entries in the rows of `keys`. -/
def weight (keys : Finset κ) (w : α → Nat) (t : Table κ α) : Nat :=
  ∑ k ∈ keys, ((t.row k).map w).sum

variable {w : α → Nat}

/-- An update that leaves all rows but one changes the weight by the change of that row. -/
theorem weight_of_row {t' : Table κ α} (hk : k ∈ keys)
    (hsame : ∀ k', k' ≠ k → t'.row k' = t.row k') :
    t'.weight keys w + ((t.row k).map w).sum = t.weight keys w + ((t'.row k).map w).sum := by
  have hrest : ∑ k' ∈ keys.erase k, ((t'.row k').map w).sum = ∑ k' ∈ keys.erase k,
      ((t.row k').map w).sum := by
    refine Finset.sum_congr rfl fun k' hk' => ?_
    rw [hsame k' (Finset.ne_of_mem_erase hk')]
  rw [weight, weight, ← Finset.add_sum_erase _ _ hk, ← Finset.add_sum_erase _ _ hk, hrest]
  abel

theorem weight_push (hk : k ∈ keys) (a : α) : (t.push k a).weight keys w =
    t.weight keys w + w a := by
  have hrow := @weight_of_row _ _ _ keys t k w (t.push k a) hk fun k' hne => t.row_push_of_ne a hne
  rw [row_push_self, map_append, sum_append, map_singleton, sum_singleton] at hrow
  omega

theorem sum_map_modify {l : List α} {i : Nat} {a : α} (f : α → α) (h : l[i]? = some a) :
    ((l.modify i f).map w).sum + w a = (l.map w).sum + w (f a) := by
  induction l generalizing i with
  | nil => cases h
  | cons b l ih =>
    cases i with
    | zero =>
      obtain rfl : b = a := by simpa using h
      simp only [modify_zero_cons, map_cons, sum_cons]
      omega
    | succ i =>
      have hrest := ih (i := i) h
      simp only [modify_succ_cons, map_cons, sum_cons]
      omega

theorem weight_modifyAt {i : Nat} {a : α} (f : α → α) (hk : k ∈ keys) (h : (t.row k)[i]? = some a) :
    (t.modifyAt k i f).weight keys w + w a = t.weight keys w + w (f a) := by
  have hrow := @weight_of_row _ _ _ keys t k w (t.modifyAt k i f) hk
    fun k' hne => t.row_modifyAt_of_ne i f hne
  have hone := @sum_map_modify _ w _ _ _ f h
  rw [row_modifyAt_self] at hrow
  omega

omit [DecidableEq κ] in
/-- Keys whose rows are empty do not count. -/
theorem weight_subset {more : Finset κ} (hsub : keys ⊆ more) (hempty : ∀ k ∉ keys, t.row k = []) :
    t.weight more w = t.weight keys w := by
  refine (Finset.sum_subset hsub fun k _ hk => ?_).symm
  rw [hempty k hk]
  rfl

omit [DecidableEq κ] in
/-- Only the weights of the entries in the table count. -/
theorem weight_congr {w' : α → Nat} (h : ∀ k ∈ keys, ∀ a ∈ t.row k, w a = w' a) :
    t.weight keys w = t.weight keys w' := by
  refine Finset.sum_congr rfl fun k hk => ?_
  rw [map_congr_left (h k hk)]

end Table

end Data
