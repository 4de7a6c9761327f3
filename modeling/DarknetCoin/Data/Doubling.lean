import Mathlib.Data.List.Pairwise

/-!
# Loops that double

The numbers `1, 2, 4, …` up to a limit, as a loop counts them, and what is left of a list when only
the entries at these places are kept: whatever lies at some distance, there is a kept entry before
twice that distance.
-/

namespace Data

open List

namespace Doubling

/-- The loop from `i` on; it doubles in every round, so the limit bounds the rounds. -/
def upToFrom (limit : Nat) : Nat → Nat → List Nat
  | 0, _ => []
  | rounds + 1, i => if i ≤ limit then i :: upToFrom limit rounds (i * 2) else []

/-- The numbers `1, 2, 4, …` up to a limit. -/
def upTo (limit : Nat) : List Nat := upToFrom limit limit 1

variable {limit : Nat} {rounds p : Nat}

theorem le_of_mem_upToFrom {i : Nat} (h : p ∈ upToFrom limit rounds i) : i ≤ p ∧ p ≤ limit := by
  induction rounds generalizing i with
  | zero => cases h
  | succ rounds ih =>
    rw [upToFrom] at h
    split at h
    · rename_i hle
      rcases mem_cons.mp h with rfl | hrest
      · exact ⟨Nat.le_refl _, hle⟩
      · have hp := ih hrest
        omega
    · cases h

theorem pairwise_upToFrom {i : Nat} (hi : 0 < i) : (upToFrom limit rounds i).Pairwise (· < ·) := by
  induction rounds generalizing i with
  | zero => exact .nil
  | succ rounds ih =>
    rw [upToFrom]
    split
    · refine pairwise_cons.mpr ⟨fun p hp => ?_, ih (by omega)⟩
      have hle := (le_of_mem_upToFrom hp).1
      omega
    · exact .nil

theorem le_of_mem_upTo (h : p ∈ upTo limit) : 1 ≤ p ∧ p ≤ limit := le_of_mem_upToFrom h

theorem pairwise_upTo : (upTo limit).Pairwise (· < ·) := pairwise_upToFrom Nat.one_pos

theorem upTo_eq_cons (h : 0 < limit) : ∃ rest, upTo limit = 1 :: rest := by
  cases limit with
  | zero => omega
  | succ limit => exact ⟨upToFrom (limit + 1) limit 2, by rw [upTo, upToFrom, if_pos (by omega)]⟩

/-- The first number that reaches a bound is where the loop started, or less than twice the
bound. -/
theorem find?_upToFrom_le {i m : Nat}
    (h : (upToFrom limit rounds i).find? (fun p => decide (m ≤ p)) = some p) :
    p = i ∨ p + 2 ≤ 2 * m := by
  induction rounds generalizing i with
  | zero => cases h
  | succ rounds ih =>
    rw [upToFrom] at h
    split at h
    · rw [find?_cons] at h
      split at h
      · exact .inl (Option.some.inj h).symm
      · rename_i hless
        have hlt : i < m := by simpa using hless
        rcases ih h with rfl | hp
        · exact .inr (by omega)
        · exact .inr hp
    · cases h

variable {α : Type*}

/-- Entries picked at increasing places are in the order of the list. -/
theorem filterMap_getElem?_sublist (l : List α) {places : List Nat} {start : Nat}
    (hplaces : places.Pairwise (· < ·)) (hstart : ∀ p ∈ places, start ≤ p) :
    (places.filterMap fun p => l[p]?).Sublist (l.drop start) := by
  induction places generalizing start with
  | nil => exact nil_sublist _
  | cons p places ih =>
    obtain ⟨hlater, hplaces⟩ := pairwise_cons.mp hplaces
    have hp := hstart p mem_cons_self
    have hrest := @ih (p + 1) hplaces fun q hq => hlater q hq
    rw [filterMap_cons]
    cases hget : l[p]? with
    | none => exact hrest.trans (drop_sublist_drop_left l (by omega))
    | some a =>
      obtain ⟨hlt, rfl⟩ := List.getElem?_eq_some_iff.mp hget
      refine .trans ?_ (drop_sublist_drop_left l hp)
      rw [drop_eq_getElem_cons hlt]
      exact hrest.cons_cons _

/-- The entries of a list at the places `1, 2, 4, …`, counted from 1. -/
def thin (l : List α) : List α := (upTo l.length).filterMap fun i => l[i - 1]?

theorem thin_sublist (l : List α) : (thin l).Sublist l := by
  have hplaces : ((upTo l.length).map (· - 1)).Pairwise (· < ·) := by
    rw [pairwise_map]
    refine pairwise_upTo.imp_of_mem fun hp _ hlt => ?_
    have hpos := (le_of_mem_upTo hp).1
    omega
  have hsub := @filterMap_getElem?_sublist _ l _ 0 hplaces fun _ _ => Nat.zero_le _
  rwa [filterMap_map] at hsub

end Doubling

end Data
