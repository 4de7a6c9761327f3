import Mathlib.Data.List.Perm.Basic
import Mathlib.Data.List.Pairwise

/-!
# Containers with unique indices

A container of records in which no two may clash: under several unique indices those clash that
agree on one of the keys. An insertion that would clash is refused. The newest record of a key
stands first.
-/

namespace Data

open List

/-- Records of which no two clash. -/
@[ext] structure HashedIndex {α : Type*} (clash : α → α → Prop) where
  toList : List α
  distinct : toList.Pairwise fun a b => ¬clash a b

namespace HashedIndex

variable {α : Type*} {clash : α → α → Prop} {index : HashedIndex clash}

def empty : HashedIndex clash := ⟨[], .nil⟩

/-- Insert a record, unless it clashes with one that is there. -/
def emplace [DecidableRel clash] (a : α) (index : HashedIndex clash) : HashedIndex clash :=
  if h : ∀ b ∈ index.toList, ¬clash a b then ⟨a :: index.toList, .cons h index.distinct⟩ else index

/-- Keep the records that satisfy `p`. -/
def filter (p : α → Bool) (index : HashedIndex clash) : HashedIndex clash :=
  ⟨index.toList.filter p, index.distinct.filter p⟩

/-- Replace every record in place by one with the same keys. -/
def update (f : α → α) (hf : ∀ a b, clash (f a) (f b) → clash a b) (index : HashedIndex clash) :
    HashedIndex clash :=
  ⟨index.toList.map f, List.pairwise_map.mpr (index.distinct.imp fun h h' => h (hf _ _ h'))⟩

/-- The container that results from inserting records in the order given. -/
def ofList [DecidableRel clash] (records : List α) : HashedIndex clash :=
  records.foldl (fun index a => index.emplace a) empty

@[simp] theorem toList_empty : (empty : HashedIndex clash).toList = [] := rfl

@[simp] theorem toList_filter (p : α → Bool) : (index.filter p).toList = index.toList.filter p :=
  rfl

@[simp] theorem toList_update (f : α → α) (hf : ∀ a b, clash (f a) (f b) → clash a b) :
    (index.update f hf).toList = index.toList.map f := rfl

section Emplace

variable [DecidableRel clash] {a b : α} {index : HashedIndex clash}

theorem toList_emplace_of_fresh (h : ∀ b ∈ index.toList, ¬clash a b) :
    (index.emplace a).toList = a :: index.toList := by
  rw [emplace, dif_pos h]

theorem emplace_of_clash (hb : b ∈ index.toList) (h : clash a b) : index.emplace a = index := by
  rw [emplace, dif_neg fun hfresh => hfresh b hb h]

theorem eq_or_mem_of_mem_emplace (hb : b ∈ (index.emplace a).toList) :
    b = a ∨ b ∈ index.toList := by
  by_cases h : ∀ b ∈ index.toList, ¬clash a b
  · rw [toList_emplace_of_fresh h] at hb
    exact mem_cons.mp hb
  · rw [emplace, dif_neg h] at hb
    exact .inr hb

/-- An insertion does not touch a selection of other records. -/
theorem filter_toList_emplace {q : α → Bool} (h : q a = false) :
    (index.emplace a).toList.filter q = index.toList.filter q := by
  by_cases hfresh : ∀ b ∈ index.toList, ¬clash a b
  · rw [toList_emplace_of_fresh hfresh, filter_cons, if_neg (by simp [h])]
  · rw [emplace, dif_neg hfresh]

end Emplace

/-- A removal does not touch a selection of records that stay. -/
theorem filter_toList_filter {p q : α → Bool} (h : ∀ a ∈ index.toList, q a = true → p a = true) :
    (index.filter p).toList.filter q = index.toList.filter q := by
  rw [toList_filter, filter_filter]
  refine filter_congr fun a ha => ?_
  cases hq : q a with
  | false => rfl
  | true => rw [h a ha hq, Bool.and_true]

theorem eq_of_clash (hsymm : ∀ a b, clash a b → clash b a) {a b : α}
    (ha : a ∈ index.toList) (hb : b ∈ index.toList) (h : clash a b) : a = b := by
  have : Std.Symm fun a b => ¬clash a b := ⟨fun x y hxy hyx => hxy (hsymm y x hyx)⟩
  by_contra hne
  exact index.distinct.forall ha hb hne h

/-- Records that do not clash are all inserted; the last of them comes first. -/
theorem toList_ofList [DecidableRel clash] (hsymm : ∀ a b, clash a b → clash b a)
    {records : List α} (h : records.Perm index.toList) :
    (ofList records : HashedIndex clash).toList = records.reverse := by
  have hdist : records.Pairwise fun a b => ¬clash a b :=
    (h.pairwise_iff fun hab hba => hab (hsymm _ _ hba)).mpr index.distinct
  -- the records inserted so far come before those of the container that is extended
  suffices ∀ (start : HashedIndex clash), (∀ a ∈ start.toList, ∀ b ∈ records, ¬clash b a) →
      (records.foldl (fun index a => index.emplace a) start).toList =
          records.reverse ++ start.toList by
    simpa [ofList] using this empty (by simp)
  clear h
  induction records with
  | nil =>
    intro start _
    rfl
  | cons a records ih =>
    intro start hstart
    obtain ⟨hhead, htail⟩ := pairwise_cons.mp hdist
    have hfresh : ∀ b ∈ start.toList, ¬clash a b := fun b hb =>
      hstart b hb a mem_cons_self
    rw [foldl_cons, ih htail, toList_emplace_of_fresh hfresh]
    · simp
    · intro b hb
      rw [toList_emplace_of_fresh hfresh] at hb
      rcases mem_cons.mp hb with rfl | hb
      · exact fun c hc hclash => hhead c hc (hsymm _ _ hclash)
      · exact fun c hc => hstart b hb c (mem_cons_of_mem a hc)

end HashedIndex

end Data
