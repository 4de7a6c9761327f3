import Mathlib.Data.List.Induction

/-!
# Lists grown at the end

A list that grows entry by entry, where each entry was checked against those already there. Such
a property survives the removal of the last entry, and it gives an induction rule from the front
to the end.
-/

namespace Data

open List

variable {α : Type*} {Q : List α → α → Prop} {l : List α}

/-- Every entry is related to the part of the list before it. -/
def Grown (Q : List α → α → Prop) (l : List α) : Prop :=
  ∀ below a above, l = below ++ a :: above → Q below a

namespace Grown

theorem nil : Grown Q [] := by
  intro below a above h
  cases below with
  | nil => cases h
  | cons => cases h

theorem left {above : List α} (h : Grown Q (l ++ above)) : Grown Q l := by
  intro below a rest hl
  apply h below a (rest ++ above)
  rw [hl, append_assoc, cons_append]

theorem last {a : α} (h : Grown Q (l ++ [a])) : Q l a := h l a [] rfl

theorem concat {a : α} (h : Grown Q l) (ha : Q l a) : Grown Q (l ++ [a]) := by
  intro below b above heq
  -- the entry is the new one, or it stands in the old list
  rcases eq_nil_or_concat above with rfl | ⟨above', c, rfl⟩
  · obtain ⟨rfl, hab⟩ := append_inj' heq rfl
    cases hab
    exact ha
  · rw [concat_eq_append, ← cons_append, ← append_assoc] at heq
    exact h below b above' (append_inj' heq rfl).1

theorem dropLast (h : Grown Q l) : Grown Q l.dropLast := by
  rcases eq_nil_or_concat l with rfl | ⟨l', a, rfl⟩
  · exact h
  · rw [concat_eq_append] at h ⊢
    rw [dropLast_concat]
    exact h.left

theorem getElem? {k : Nat} {a : α} (h : Grown Q l) (hk : l[k]? = some a) : Q (l.take k) a := by
  obtain ⟨hlt, rfl⟩ := List.getElem?_eq_some_iff.mp hk
  apply h (l.take k) _ (l.drop (k + 1))
  rw [getElem_cons_drop, take_append_drop]

end Grown

end Data
