import Mathlib.Data.List.GetD
import Mathlib.Data.List.Sort
import Mathlib.Data.List.Zip

/-!
# Order statistics

The element at a place of a sorted list, and how far it moves when some of the elements are
replaced. It is at most a bound if enough elements are, and replacing an element changes the number
of those by one.
-/

namespace Data

open List

variable {α : Type*} [LinearOrder α] {l l' : List α} {i k n : ℕ} {x default : α}

/-- The number of places at which two lists differ. -/
def replaced (l l' : List α) : ℕ := (l.zip l').countP fun p => p.1 ≠ p.2

theorem countP_le_countP_add_replaced (p : α → Bool) (h : l.length = l'.length) :
    l.countP p ≤ l'.countP p + replaced l l' := by
  induction l generalizing l' with
  | nil => simp
  | cons a l ih =>
    cases l' with
    | nil => cases h
    | cons b l' =>
      have hrest := ih (Nat.succ.inj h)
      simp only [replaced, zip_cons_cons, countP_cons] at hrest ⊢
      -- an element that fulfils `p` and is not counted on the right was replaced
      by_cases hab : a = b
      · subst hab
        omega
      · rw [if_pos (decide_eq_true hab)]
        split <;> omega

theorem replaced_comm : replaced l' l = replaced l l' := by
  rw [replaced, ← zip_swap, countP_map]
  congr 1
  funext p
  exact decide_eq_decide.mpr ne_comm

theorem replaced_take_le : replaced (l.take n) (l'.take n) ≤ replaced l l' := by
  rw [replaced, zip, ← take_zipWith]
  exact (take_sublist n _).countP_le

theorem getD_le_iff_of_pairwise (hl : l.Pairwise (· ≤ ·)) (hi : i < l.length) :
    l.getD i default ≤ x ↔ i < l.countP (· ≤ x) := by
  induction l generalizing i with
  | nil => exact absurd hi (Nat.not_lt_zero i)
  | cons a l ih =>
    obtain ⟨hle, hl⟩ := pairwise_cons.mp hl
    by_cases ha : a ≤ x
    · simp only [countP_cons, ha]
      cases i with
      | zero => simpa using ha
      | succ i => simpa using ih hl (Nat.lt_of_succ_lt_succ hi)
    · -- nothing in the list is below the bound
      have hnone : ∀ b ∈ a :: l, ¬ b ≤ x :=
        forall_mem_cons.mpr ⟨ha, fun b hb hbx => ha ((hle b hb).trans hbx)⟩
      rw [countP_eq_zero.mpr fun b hb => by simpa using hnone b hb, getD_eq_getElem _ _ hi]
      exact iff_of_false (hnone _ (getElem_mem hi)) (Nat.not_lt_zero i)

theorem getD_insertionSort_le_iff (hi : i < l.length) :
    (l.insertionSort (· ≤ ·)).getD i default ≤ x ↔ i < l.countP (· ≤ x) := by
  have hperm := perm_insertionSort (· ≤ ·) l
  rw [getD_le_iff_of_pairwise (pairwise_insertionSort _ l) (hperm.length_eq ▸ hi), hperm.countP_eq]

/-- The order statistics move by at most as many places as elements were replaced. -/
theorem getD_insertionSort_le_of_replaced (hlen : l.length = l'.length)
    (hreplaced : replaced l l' ≤ k) (hi : i + k < l.length) :
    (l'.insertionSort (· ≤ ·)).getD i default ≤ (l.insertionSort (· ≤ ·)).getD (i + k) default := by
  rw [getD_insertionSort_le_iff (by omega)]
  have hcount := countP_le_countP_add_replaced
    (· ≤ (l.insertionSort (· ≤ ·)).getD (i + k) default) hlen
  have hself := (getD_insertionSort_le_iff hi).mp
    (le_refl ((l.insertionSort (· ≤ ·)).getD (i + k) default))
  omega

/-- The order statistics rise with the elements. -/
theorem getD_insertionSort_le_of_forall₂ (h : Forall₂ (· ≤ ·) l l') :
    (l.insertionSort (· ≤ ·)).getD i default ≤ (l'.insertionSort (· ≤ ·)).getD i default := by
  have hcount (x : α) : l'.countP (· ≤ x) ≤ l.countP (· ≤ x) := by
    induction h with
    | nil => exact le_rfl
    | @cons a b _ _ hab _ ih =>
      have hbound : b ≤ x → a ≤ x := hab.trans
      grind
  by_cases hi : i < l.length
  · rw [getD_insertionSort_le_iff hi]
    exact ((getD_insertionSort_le_iff (h.length_eq ▸ hi)).mp le_rfl).trans_le (hcount _)
  · rw [getD_eq_default _ _ (by simpa using hi),
      getD_eq_default _ _ (by simpa [← h.length_eq] using hi)]

end Data
