import Mathlib.Data.List.Sublists

/-!
# Least recently used

A cache keeps a map of items and, beside it, the keys in the order of their last use; that the two
agree is an invariant. It is faithful to a partial function if every item in it is the function's
value at its key.
-/

namespace Data

/-- A map of items and the keys from the least to the most recently used. -/
structure LruCache (κ α : Type*) where
  items : List (κ × α)
  order : List κ

namespace LruCache

variable {κ α : Type*}

/-- The cache without items. -/
def empty : LruCache κ α := ⟨[], []⟩

section

variable {c : LruCache κ α}

/-- The items and the order have the same keys, and no key twice. -/
structure Linked (c : LruCache κ α) : Prop where
  nodup : c.order.Nodup
  perm : (c.items.map Prod.fst).Perm c.order

theorem Linked.empty : (empty : LruCache κ α).Linked := ⟨List.nodup_nil, List.Perm.nil⟩

theorem Linked.length_eq (h : c.Linked) : c.items.length = c.order.length := by
  rw [← List.length_map (f := Prod.fst), h.perm.length_eq]

end

variable [DecidableEq κ] {c : LruCache κ α} {k : κ} {a : α}

/-- The item at a key. -/
def find? (c : LruCache κ α) (k : κ) : Option α := c.items.lookup k

/-- Make a key the most recently used one. -/
def touch (c : LruCache κ α) (k : κ) : LruCache κ α :=
  if c.order.getLast? = some k then c else { c with order := c.order.erase k ++ [k] }

/-- Forget a key. -/
def erase (c : LruCache κ α) (k : κ) : LruCache κ α :=
  ⟨c.items.filter fun item => item.1 ≠ k, c.order.erase k⟩

/-- Forget the least recently used key. -/
def evict (c : LruCache κ α) : LruCache κ α :=
  match c.order with
  | [] => c
  | k :: _ => c.erase k

/-- Store an item as the most recently used one; a full cache makes room first. -/
def store (c : LruCache κ α) (capacity : Nat) (k : κ) (a : α) : LruCache κ α :=
  let c := if c.items.length = capacity then c.evict else c
  ⟨(k, a) :: c.items.filter fun item => item.1 ≠ k, c.order ++ [k]⟩

@[simp] theorem items_touch : (c.touch k).items = c.items := by
  unfold touch
  split <;> rfl

/-- The keys of the items that are left when one key is dropped. -/
theorem map_fst_filter (items : List (κ × α)) :
    (items.filter fun item => item.1 ≠ k).map Prod.fst = (items.map Prod.fst).filter fun key =>
    key ≠ k := by
  rw [List.filter_map]
  rfl

theorem find?_eq_none_iff : c.find? k = none ↔ k ∉ c.items.map Prod.fst := by
  rw [find?, List.lookup_eq_none_iff]
  simp only [List.mem_map, not_exists, not_and, bne_iff_ne]
  constructor <;> exact fun h item hitem hkey => h item hitem hkey.symm

theorem mem_items_of_find? (h : c.find? k = some a) : (k, a) ∈ c.items := by
  obtain ⟨items, order⟩ := c
  change items.lookup k = some a at h
  induction items with
  | nil => cases h
  | cons item items ih =>
    rw [List.lookup_cons] at h
    split at h
    · rename_i hkey
      cases h
      rw [beq_iff_eq] at hkey
      rw [hkey]
      exact List.mem_cons_self
    · exact List.mem_cons_of_mem item (ih h)

theorem order_evict_subset (c : LruCache κ α) : c.evict.order ⊆ c.order := by
  unfold evict
  split
  · exact fun _ h => h
  · exact fun _ h => List.mem_of_mem_erase h

namespace Linked

variable (h : c.Linked)
include h

theorem notMem_order (hfind : c.find? k = none) : k ∉ c.order := by
  intro hmem
  exact find?_eq_none_iff.mp hfind (h.perm.mem_iff.mpr hmem)

theorem mem_order (hfind : c.find? k = some a) : k ∈ c.order := by
  apply Classical.byContradiction
  intro hmem
  have hnone : c.find? k = none := find?_eq_none_iff.mpr fun hkey => hmem (h.perm.mem_iff.mp hkey)
  rw [hfind] at hnone
  cases hnone

theorem touch (hk : k ∈ c.order) : (c.touch k).Linked := by
  unfold LruCache.touch
  split
  · exact h
  · -- moving a key to the end permutes the order
    have hmoved : (c.order.erase k ++ [k]).Perm c.order :=
      (List.perm_append_singleton k _).trans (List.perm_cons_erase hk).symm
    exact ⟨hmoved.nodup_iff.mpr h.nodup, h.perm.trans hmoved.symm⟩

theorem erase (k : κ) : (c.erase k).Linked := by
  constructor
  · exact h.nodup.erase k
  · change ((c.items.filter fun item => item.1 ≠ k).map Prod.fst).Perm (c.order.erase k)
    rw [map_fst_filter, h.nodup.erase_eq_filter]
    have hfilter := h.perm.filter fun key => decide (key ≠ k)
    simpa [bne, beq_eq_decide] using hfilter

/-- Forgetting a key that is not there changes nothing. -/
theorem erase_of_find?_eq_none (hfind : c.find? k = none) : c.erase k = c := by
  have hitems : (c.items.filter fun item => item.1 ≠ k) = c.items := by
    rw [List.filter_eq_self]
    intro item hitem
    apply decide_eq_true
    rintro rfl
    exact find?_eq_none_iff.mp hfind (List.mem_map_of_mem hitem)
  rw [LruCache.erase, hitems, List.erase_of_not_mem (h.notMem_order hfind)]

theorem evict : c.evict.Linked := by
  unfold LruCache.evict
  split
  · exact h
  · exact h.erase _

/-- Making room in a cache that is not empty removes one item. -/
theorem length_evict (hc : c.items ≠ []) : c.evict.items.length + 1 = c.items.length := by
  have hlen := h.length_eq
  cases horder : c.order with
  | nil =>
    rw [horder] at hlen
    exact absurd (List.length_eq_zero_iff.mp hlen) hc
  | cons k rest =>
    have hevict : c.evict = c.erase k := by simp only [LruCache.evict, horder]
    rw [hevict, (h.erase k).length_eq, hlen]
    change (c.order.erase k).length + 1 = c.order.length
    simp [horder]

theorem store (capacity : Nat) (hk : k ∉ c.order) (a : α) : (c.store capacity k a).Linked := by
  -- what is left after making room is linked and still does not have the key
  obtain ⟨left, hleft, hnew, hstore⟩ : ∃ left : LruCache κ α, left.Linked ∧ k ∉ left.order ∧
      c.store capacity k a = ⟨(k, a) :: left.items.filter fun item => item.1 ≠ k,
          left.order ++ [k]⟩ := by
    by_cases hfull : c.items.length = capacity
    · exact ⟨c.evict, h.evict, fun hmem => hk (order_evict_subset c hmem),
        by simp only [LruCache.store, if_pos hfull]⟩
    · exact ⟨c, h, hk, by simp only [LruCache.store, if_neg hfull]⟩
  rw [hstore]
  constructor
  · exact List.nodup_append.mpr ⟨hleft.nodup, List.nodup_singleton k, by
      rintro x hx y hy rfl
      rw [List.mem_singleton] at hy
      exact hnew (hy ▸ hx)⟩
  · have hkeys : (left.items.filter fun item => item.1 ≠ k) = left.items := by
      rw [List.filter_eq_self]
      intro item hitem
      have hmem : item.1 ∈ left.order := hleft.perm.mem_iff.mp (List.mem_map_of_mem hitem)
      exact decide_eq_true fun hkey => hnew (hkey ▸ hmem)
    rw [hkeys]
    exact (hleft.perm.cons k).trans (List.perm_append_singleton k left.order).symm

/-- A cache that respects a positive capacity does so after storing. -/
theorem length_store {capacity : Nat} (hpos : 0 < capacity) (hle : c.items.length ≤ capacity)
    (k : κ) (a : α) : (c.store capacity k a).items.length ≤ capacity := by
  by_cases hfull : c.items.length = capacity
  · have hne : c.items ≠ [] := by
      intro hnil
      rw [hnil, List.length_nil] at hfull
      omega
    have hevict := h.length_evict hne
    have hfilter := List.length_filter_le (fun item => decide (item.1 ≠ k)) c.evict.items
    simp only [LruCache.store, if_pos hfull, List.length_cons]
    omega
  · have hfilter := List.length_filter_le (fun item => decide (item.1 ≠ k)) c.items
    simp only [LruCache.store, if_neg hfull, List.length_cons]
    omega

end Linked

/-- Every item is the value of `f` at its key. -/
def Faithful (f : κ → Option α) (c : LruCache κ α) : Prop :=
  ∀ item ∈ c.items, f item.1 = some item.2

namespace Faithful

variable {f : κ → Option α}

omit [DecidableEq κ] in
theorem empty : (empty : LruCache κ α).Faithful f := by
  intro item hitem
  cases hitem

variable (h : c.Faithful f)
include h

theorem find? (hfind : c.find? k = some a) : f k = some a :=
  h (k, a) (mem_items_of_find? hfind)

omit [DecidableEq κ] in
theorem mono {g : κ → Option α}
    (hg : ∀ item ∈ c.items, f item.1 = some item.2 → g item.1 = some item.2) :
    c.Faithful g :=
  fun item hitem => hg item hitem (h item hitem)

theorem touch (k : κ) : (c.touch k).Faithful f := by
  intro item hitem
  rw [items_touch] at hitem
  exact h item hitem

theorem erase (k : κ) : (c.erase k).Faithful f := by
  intro item hitem
  exact h item (List.mem_of_mem_filter hitem)

theorem evict : c.evict.Faithful f := by
  unfold LruCache.evict
  split
  · exact h
  · exact h.erase _

theorem store (capacity : Nat) (hk : f k = some a) : (c.store capacity k a).Faithful f := by
  have hleft : (if c.items.length = capacity then c.evict else c).Faithful f := by
    split
    · exact h.evict
    · exact h
  intro item hitem
  cases hitem with
  | head => exact hk
  | tail _ hitem => exact hleft item (List.mem_of_mem_filter hitem)

end Faithful

/-- A key that was dropped is not among the items. -/
theorem ne_of_mem_items_erase {item : κ × α} (h : item ∈ (c.erase k).items) : item.1 ≠ k := by
  have hkept := (List.mem_filter.mp h).2
  simpa using hkept

end LruCache

end Data
