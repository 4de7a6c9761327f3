import Mathlib.Data.List.Basic

/-!
# Search for the point where a list changes

The search of `std::lower_bound` and `std::upper_bound`: a list whose first entries satisfy a
predicate and whose other entries do not is halved until the first of the others is found.
-/

namespace Data

namespace BinarySearch

/-- The search among `count` positions from `first` on; every round at least halves the count. -/
def search (p : Nat → Bool) : Nat → Nat → Nat → Nat
  | 0, first, _ => first
  | fuel + 1, first, count =>
    if count = 0 then first
    else
      let step := count / 2
      if p (first + step) then search p fuel (first + step + 1) (count - (step + 1))
      else search p fuel first step

variable {α : Type*}

/-- The position of the first entry of a list that does not satisfy a predicate. -/
def partitionPoint (p : α → Bool) (l : List α) : Nat :=
  search (fun i => (l[i]?).any p) l.length 0 l.length

/-- The search finds the position where the predicate changes. -/
theorem search_eq {p : Nat → Bool} {point : Nat} (fuel : Nat) :
    ∀ first count, count ≤ fuel → first ≤ point → point ≤ first + count →
    (∀ i, first ≤ i → i < point → p i = true) →
      (∀ i, point ≤ i → i < first + count → p i = false) → search p fuel first count = point := by
  induction fuel with
  | zero =>
    intro first count hcount hlow hhigh _ _
    change first = point
    omega
  | succ fuel ih =>
    intro first count hcount hlow hhigh hbefore hafter
    unfold search
    by_cases hzero : count = 0
    · rw [if_pos hzero]
      omega
    rw [if_neg hzero]
    -- the probed entry tells on which side of it the change is
    by_cases hside : first + count / 2 < point
    · rw [if_pos (hbefore _ (by omega) hside)]
      apply ih
      · omega
      · omega
      · omega
      · exact fun i hi => hbefore i (by omega)
      · exact fun i hi hlt => hafter i hi (by omega)
    · have hprobe := hafter (first + count / 2) (by omega) (by omega)
      rw [if_neg (by rw [hprobe]; exact Bool.false_ne_true)]
      apply ih
      · omega
      · omega
      · omega
      · exact hbefore
      · exact fun i hi hlt => hafter i hi (by omega)

/-- Whatever the entries are, the search ends in its range, and behind an entry that satisfies the
predicate unless it ends where it started. -/
theorem search_spec {p : Nat → Bool} (fuel : Nat) : ∀ first count, count ≤ fuel →
      first ≤ search p fuel first count ∧ search p fuel first count ≤ first + count ∧
        (first < search p fuel first count → p (search p fuel first count - 1) = true) := by
  induction fuel with
  | zero =>
    intro first count hcount
    exact ⟨Nat.le_refl _, Nat.le_add_right _ _, fun h => (Nat.lt_irrefl _ h).elim⟩
  | succ fuel ih =>
    intro first count hcount
    unfold search
    by_cases hzero : count = 0
    · rw [if_pos hzero]
      exact ⟨Nat.le_refl _, Nat.le_add_right _ _, fun h => (Nat.lt_irrefl _ h).elim⟩
    rw [if_neg hzero]
    by_cases hprobe : p (first + count / 2) = true
    · obtain ⟨hlow, hhigh, hbehind⟩ :=
        ih (first + count / 2 + 1) (count - (count / 2 + 1)) (by omega)
      simp only [hprobe, if_true]
      refine ⟨by omega, by omega, fun _ => ?_⟩
      -- the search went on right behind the probed entry, and ended there or further on
      rcases Nat.lt_or_eq_of_le hlow with hlater | hhere
      · exact hbehind hlater
      · rwa [← hhere, Nat.add_sub_cancel]
    · obtain ⟨hlow, hhigh, hbehind⟩ := ih first (count / 2) (by omega)
      rw [if_neg hprobe]
      exact ⟨hlow, by omega, hbehind⟩

theorem partitionPoint_le (p : α → Bool) (l : List α) : partitionPoint p l ≤ l.length := by
  have hspec := (search_spec (p := fun i => (l[i]?).any p) l.length 0 l.length (Nat.le_refl _)).2.1
  rwa [Nat.zero_add] at hspec

/-- The entry before the position satisfies the predicate. -/
theorem any_of_partitionPoint_pos {p : α → Bool} {l : List α} (h : 0 < partitionPoint p l) :
    (l[partitionPoint p l - 1]?).any p = true :=
  (search_spec (p := fun i => (l[i]?).any p) l.length 0 l.length (Nat.le_refl _)).2.2 h

/-- In a list of entries that satisfy the predicate, followed by entries that do not, the point is
the length of the first part. -/
theorem partitionPoint_eq {p : α → Bool} {front back : List α} (hfront : ∀ a ∈ front, p a = true)
    (hback : ∀ a ∈ back, p a = false) : partitionPoint p (front ++ back) = front.length := by
  apply search_eq
  · exact Nat.le_refl _
  · exact Nat.zero_le _
  · rw [List.length_append]
    omega
  · intro i _ hi
    rw [List.getElem?_append_left hi, List.getElem?_eq_getElem hi]
    exact hfront _ (List.getElem_mem hi)
  · intro i hi hlt
    rw [List.getElem?_append_right hi]
    cases hentry : back[i - front.length]? with
    | none => rfl
    | some a => exact hback a (List.mem_of_getElem? hentry)

end BinarySearch

end Data
