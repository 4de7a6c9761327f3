import Mathlib.Data.List.Nodup
import Mathlib.Data.List.TakeWhile

/-!
# Containers ordered by a rank

A container of records with a unique key, ordered by a rank that several records may share. A new
record comes after those of its rank, so that records of one rank stand in the order of insertion.
-/

namespace Data

open List

/-- Records with pairwise different keys, in the order of their ranks. -/
@[ext] structure OrderedIndex {α κ : Type*} (key : α → κ) (rank : α → Nat) where
  toList : List α
  nodup : (toList.map key).Nodup
  sorted : toList.Pairwise fun a b => rank a ≤ rank b

namespace OrderedIndex

variable {α κ : Type*} {key : α → κ} {rank : α → Nat} {records : List α}

def empty : OrderedIndex key rank := ⟨[], .nil, .nil⟩

/-- A list with `a` put after the elements of no greater rank. -/
def place (rank : α → Nat) (a : α) (records : List α) : List α :=
  records.takeWhile (fun b => rank b ≤ rank a) ++ a :: records.dropWhile (fun b => rank b ≤ rank a)

theorem place_perm (a : α) (records : List α) : (place rank a records).Perm (a :: records) := by
  have hsplit := @takeWhile_append_dropWhile α (rank · ≤ rank a) records
  have hmiddle : (place rank a records).Perm (a :: (records.takeWhile (fun b => rank b ≤ rank a) ++
      records.dropWhile (fun b => rank b ≤ rank a))) := perm_middle
  rwa [hsplit] at hmiddle

theorem sublist_place (a : α) (records : List α) : records.Sublist (place rank a records) := by
  have hsplit := @takeWhile_append_dropWhile α (rank · ≤ rank a) records
  nth_rewrite 1 [← hsplit]
  exact (List.Sublist.refl _).append (sublist_cons_self a _)

section

variable (h : records.Pairwise fun a b => rank a ≤ rank b)

include h

/-- Past the first greater rank, all ranks of a sorted list are greater. -/
theorem lt_rank_of_mem_dropWhile
    {bound : Nat} {b : α} (hb : b ∈ records.dropWhile fun b => rank b ≤ bound) :
    bound < rank b := by
  induction records with
  | nil => cases hb
  | cons c records ih =>
    obtain ⟨hhead, htail⟩ := pairwise_cons.mp h
    by_cases hc : rank c ≤ bound
    · exact ih htail (by simpa [hc] using hb)
    have hmem : b ∈ c :: records := by simpa [hc] using hb
    rcases mem_cons.mp hmem with rfl | hb'
    · omega
    · have := hhead b hb'
      omega

theorem mem_takeWhile_of_le {bound : Nat} {b : α} (hb : b ∈ records) (hle : rank b ≤ bound) :
    b ∈ records.takeWhile fun b => rank b ≤ bound := by
  rw [← @takeWhile_append_dropWhile α (rank · ≤ bound) records] at hb
  rcases mem_append.mp hb with hmem | hmem
  · exact hmem
  · have := lt_rank_of_mem_dropWhile h hmem
    omega

theorem pairwise_place (a : α) : (place rank a records).Pairwise fun a b => rank a ≤ rank b := by
  have hsplit := @takeWhile_append_dropWhile α (rank · ≤ rank a) records
  have hbefore : ∀ b ∈ records.takeWhile fun b => rank b ≤ rank a, rank b ≤ rank a := fun b hb => by
    simpa using mem_takeWhile_imp hb
  have hafter : ∀ b ∈ records.dropWhile fun b => rank b ≤ rank a, rank a < rank b := fun b hb =>
    lt_rank_of_mem_dropWhile h hb
  rw [← hsplit, pairwise_append] at h
  refine pairwise_append.mpr ⟨h.1, pairwise_cons.mpr ⟨fun b hb => ?_, h.2.1⟩, ?_⟩
  · exact (hafter b hb).le
  · intro b hb c hc
    rcases mem_cons.mp hc with rfl | hc
    · exact hbefore b hb
    · exact h.2.2 b hb c hc

end

/-- The place of an element between those of no greater and those of greater rank. -/
theorem place_append_of_le_of_lt {a : α} {before after : List α}
    (hbefore : ∀ b ∈ before, rank b ≤ rank a) (hafter : ∀ b ∈ after, rank a < rank b) :
    place rank a (before ++ after) = before ++ a :: after := by
  have htake : after.takeWhile (fun b => rank b ≤ rank a) = [] := by
    cases after with
    | nil => rfl
    | cons b after =>
      have := hafter b mem_cons_self
      simp [show ¬rank b ≤ rank a by omega]
  have hsplit := @takeWhile_append_dropWhile α (rank · ≤ rank a) after
  rw [htake, nil_append] at hsplit
  have hall : ∀ b ∈ before, decide (rank b ≤ rank a) = true := fun b hb =>
    decide_eq_true (hbefore b hb)
  rw [place, takeWhile_append_of_pos hall, dropWhile_append_of_pos hall, htake, append_nil, hsplit]

/-- Keep the records that satisfy `p`. -/
def filter (p : α → Bool) (index : OrderedIndex key rank) : OrderedIndex key rank where
  toList := index.toList.filter p
  nodup := index.nodup.sublist (filter_sublist.map key)
  sorted := index.sorted.filter p

/-- The number of records of rank at most `bound`: the position of the first greater one. -/
def upperBound (bound : Nat) (index : OrderedIndex key rank) : Nat :=
  (index.toList.takeWhile fun a => rank a ≤ bound).length

/-- The records from one position up to another. -/
def between (start stop : Nat) (index : OrderedIndex key rank) : List α :=
  (index.toList.take stop).drop start

@[simp] theorem toList_empty : (empty : OrderedIndex key rank).toList = [] := rfl

/-- The records between two positions, by their ranks. -/
theorem between_eq_filter (lower upper : Nat) (index : OrderedIndex key rank) :
    index.between (index.upperBound lower) (index.upperBound upper) =
      index.toList.filter fun a => lower < rank a ∧ rank a ≤ upper := by
  have hsorted := index.sorted
  simp only [between, upperBound]
  generalize index.toList = records at hsorted
  induction records with
  | nil => rfl
  | cons a records ih =>
    obtain ⟨hhead, htail⟩ := pairwise_cons.mp hsorted
    have ih := ih htail
    by_cases hupper : rank a ≤ upper
    · by_cases hlower : rank a ≤ lower
      · have hnot : ¬lower < rank a := by omega
        simpa [filter_cons, hupper, hlower] using ih
      have hlt : lower < rank a := by omega
      have hnone : (records.takeWhile fun b => rank b ≤ lower) = [] := by
        cases records with
        | nil => rfl
        | cons b _ =>
          have := hhead b mem_cons_self
          simp [show ¬rank b ≤ lower by omega]
      rw [hnone] at ih
      simpa [filter_cons, hupper, hlt] using ih
    · -- nothing behind `a` is within the bound either
      have hempty : (a :: records).filter (fun b => lower < rank b ∧ rank b ≤ upper) = [] := by
        rw [filter_eq_nil_iff]
        intro b hb
        rcases mem_cons.mp hb with rfl | hb
        · simp [hupper]
        · have := hhead b hb
          simp [show ¬rank b ≤ upper by omega]
      rw [hempty]
      simp [hupper]

theorem upperBound_mono {index : OrderedIndex key rank} {lower upper : Nat} (h : lower ≤ upper) :
    index.upperBound lower ≤ index.upperBound upper := by
  have hprefix : (index.toList.takeWhile fun a => rank a ≤ lower).length ≤
      (index.toList.takeWhile fun a => rank a ≤ upper).length := by
    induction index.toList with
    | nil => exact le_rfl
    | cons a records ih =>
      by_cases hlower : rank a ≤ lower
      · have hupper : rank a ≤ upper := hlower.trans h
        simpa [hlower, hupper] using ih
      · simp [hlower]
  exact hprefix

theorem upperBound_eq_zero {index : OrderedIndex key rank} {bound : Nat}
    (h : ∀ a ∈ index.toList, bound < rank a) : index.upperBound bound = 0 := by
  unfold upperBound
  cases hlist : index.toList with
  | nil => rfl
  | cons a _ =>
    have := h a (by simp [hlist])
    simp [show ¬rank a ≤ bound by omega]

/-- In an ordered container the record of the smaller rank comes first. -/
theorem sublist_of_rank_lt {index : OrderedIndex key rank} {a b : α} (ha : a ∈ index.toList)
    (hb : b ∈ index.toList) (h : rank a < rank b) : [a, b].Sublist index.toList := by
  obtain ⟨before, after, hsplit⟩ := append_of_mem ha
  have hsorted := index.sorted
  rw [hsplit] at hsorted hb ⊢
  rcases mem_append.mp hb with hmem | hmem
  · have hle := (pairwise_append.mp hsorted).2.2 b hmem a mem_cons_self
    omega
  rcases mem_cons.mp hmem with rfl | hafter
  · omega
  · have hpair : [a, b].Sublist (a :: after) := (singleton_sublist.mpr hafter).cons_cons a
    exact hpair.trans (sublist_append_right before _)

variable [DecidableEq κ]

/-- A record comes out of records of different keys. -/
theorem perm_cons_filter_key (h : (records.map key).Nodup) {a : α}
    (ha : a ∈ records) : records.Perm (a :: records.filter fun b => key b ≠ key a) := by
  induction records with
  | nil => cases ha
  | cons b records ih =>
    obtain ⟨hhead, htail⟩ := nodup_cons.mp h
    rcases mem_cons.mp ha with rfl | ha
    · have hself : records.filter (fun b => key b ≠ key a) = records := by
        rw [filter_eq_self]
        exact fun b hb => decide_eq_true fun heq => hhead (heq ▸ mem_map_of_mem hb)
      rw [filter_cons, if_neg (by simp), hself]
    · have hne : key b ≠ key a := fun heq => hhead (heq ▸ mem_map_of_mem ha)
      rw [filter_cons, if_pos (by simpa using hne)]
      exact ((ih htail ha).cons b).trans (.swap a b _)

/-- Insert a record, unless its key is taken. -/
def emplace (a : α) (index : OrderedIndex key rank) : OrderedIndex key rank :=
  if h : key a ∈ index.toList.map key then index
  else
    { toList := place rank a index.toList
      nodup := ((place_perm a index.toList).map key).nodup_iff.mpr (nodup_cons.mpr ⟨h, index.nodup⟩)
      sorted := pairwise_place index.sorted a }

/-- The record with a key. -/
def find? (k : κ) (index : OrderedIndex key rank) : Option α :=
  index.toList.find? fun a => key a = k

/-- Remove the record with a key. -/
def erase (k : κ) (index : OrderedIndex key rank) : OrderedIndex key rank :=
  index.filter fun a => key a ≠ k

/-- Replace the record with the key of `a` by `a`, which takes the place of a new record. -/
def replace (a : α) (index : OrderedIndex key rank) : OrderedIndex key rank :=
  (index.erase (key a)).emplace a

/-- The container that results from inserting records in the order given. -/
def ofList (records : List α) : OrderedIndex key rank :=
  records.foldl (fun index a => index.emplace a) empty

@[simp] theorem toList_erase (k : κ) (index : OrderedIndex key rank) :
    (index.erase k).toList = index.toList.filter fun a => key a ≠ k := rfl

variable {index : OrderedIndex key rank} {a b : α} {k : κ} (h : key a ∉ index.toList.map key)
include h

theorem toList_emplace : (index.emplace a).toList = place rank a index.toList := by
  rw [emplace, dif_neg h]

omit h in
theorem emplace_of_mem (h : key a ∈ index.toList.map key) : index.emplace a = index := by
  rw [emplace, dif_pos h]

theorem toList_emplace_perm : (index.emplace a).toList.Perm (a :: index.toList) := by
  rw [toList_emplace h]
  exact place_perm a index.toList

omit h in
theorem sublist_emplace_self (a : α) (index : OrderedIndex key rank) :
    index.toList.Sublist (index.emplace a).toList := by
  by_cases h : key a ∈ index.toList.map key
  · rw [emplace_of_mem h]
  · rw [toList_emplace h]
    exact sublist_place a index.toList

/-- A new record comes after every record of no greater rank. -/
theorem sublist_emplace (hb : b ∈ index.toList)
    (hle : rank b ≤ rank a) : [b, a].Sublist (index.emplace a).toList := by
  rw [toList_emplace h]
  have hbefore : [b].Sublist (index.toList.takeWhile fun c => rank c ≤ rank a) :=
    singleton_sublist.mpr (mem_takeWhile_of_le index.sorted hb hle)
  have hafter : [a].Sublist (a :: index.toList.dropWhile fun c => rank c ≤ rank a) :=
    singleton_sublist.mpr mem_cons_self
  exact hbefore.append hafter

omit h

theorem find?_eq_some : index.find? k = some a ↔ a ∈ index.toList ∧ key a = k := by
  constructor
  · intro h
    exact ⟨mem_of_find?_eq_some h, by simpa using find?_some h⟩
  · rintro ⟨ha, rfl⟩
    have hsome : (index.find? (key a)).isSome := by
      rw [find?, find?_isSome]
      exact ⟨a, ha, by simp⟩
    obtain ⟨b, hb⟩ := Option.isSome_iff_exists.mp hsome
    have hmem : b ∈ index.toList := mem_of_find?_eq_some hb
    have hkey : key b = key a := by simpa using find?_some hb
    rw [hb, inj_on_of_nodup_map index.nodup hmem ha hkey]

theorem find?_eq_none : index.find? k = none ↔ k ∉ index.toList.map key := by
  simp [find?]

theorem toList_replace_perm (a : α) (index : OrderedIndex key rank) :
    (index.replace a).toList.Perm (a :: index.toList.filter fun b => key b ≠ key a) := by
  have hfresh : key a ∉ (index.erase (key a)).toList.map key := by simp
  exact toList_emplace_perm hfresh

/-- Records of different keys are all inserted. -/
theorem toList_ofList_perm (h : (records.map key).Nodup) :
    (ofList records : OrderedIndex key rank).toList.Perm records := by
  suffices ∀ start : OrderedIndex key rank, (∀ a ∈ records, key a ∉ start.toList.map key) →
      (records.foldl (fun index a => index.emplace a) start).toList.Perm
          (start.toList ++ records) by
    simpa [ofList] using this empty (by simp)
  induction records with
  | nil =>
    intro start _
    simp
  | cons a records ih =>
    intro start hstart
    obtain ⟨hhead, htail⟩ := nodup_cons.mp h
    have hplaced := toList_emplace_perm (hstart a mem_cons_self)
    refine (ih htail (start.emplace a) fun b hb hmem => ?_).trans ?_
    · rcases mem_cons.mp ((hplaced.map key).mem_iff.mp hmem) with heq | hold
      · exact hhead (mem_map.mpr ⟨b, hb, heq⟩)
      · exact hstart b (mem_cons_of_mem a hb) hold
    · exact (hplaced.append_right records).trans perm_middle.symm

variable (start : OrderedIndex key rank)

/-- Insertions keep the order of the records that are there. -/
theorem sublist_foldl_emplace (records : List α) :
    start.toList.Sublist (records.foldl (fun index a => index.emplace a) start).toList := by
  induction records generalizing start with
  | nil => exact .refl _
  | cons a records ih => exact (sublist_emplace_self a start).trans (ih _)

/-- Only what is inserted is there. -/
theorem mem_of_mem_ofList {records : List α}
    (h : a ∈ (ofList records : OrderedIndex key rank).toList) : a ∈ records := by
  suffices ∀ start : OrderedIndex key rank,
      a ∈ (records.foldl (fun index a => index.emplace a) start).toList → a ∈ start.toList ∨
        a ∈ records from
    (this empty h).resolve_left (by simp)
  clear h
  induction records with
  | nil => exact fun start h => .inl h
  | cons b records ih =>
    intro start h
    rcases ih (start.emplace b) h with h | h
    · by_cases hmem : key b ∈ start.toList.map key
      · exact .inl (emplace_of_mem hmem ▸ h)
      · rcases mem_cons.mp ((toList_emplace_perm hmem).mem_iff.mp h) with rfl | h
        · exact .inr mem_cons_self
        · exact .inl h
    · exact .inr (mem_cons_of_mem b h)

/-- Records whose keys are there already are not inserted. -/
theorem foldl_emplace_of_mem {records : List α} (h : ∀ a ∈ records, key a ∈ start.toList.map key) :
    records.foldl (fun index a => index.emplace a) start = start := by
  induction records with
  | nil => rfl
  | cons a records ih =>
    obtain ⟨hhead, htail⟩ := forall_mem_cons.mp h
    rw [foldl_cons, emplace_of_mem hhead, ih htail]

/-- The key of every record that is inserted is there. -/
theorem mem_keys_foldl_emplace {records : List α} (ha : a ∈ records) :
    key a ∈ (records.foldl (fun index a => index.emplace a) start).toList.map key := by
  induction records generalizing start with
  | nil => cases ha
  | cons b records ih =>
    rw [foldl_cons]
    rcases mem_cons.mp ha with rfl | ha
    · refine ((sublist_foldl_emplace _ records).map key).subset ?_
      by_cases hmem : key a ∈ start.toList.map key
      · rwa [emplace_of_mem hmem]
      · exact mem_map_of_mem ((toList_emplace_perm hmem).mem_iff.mpr mem_cons_self)
    · exact ih _ ha

/-- The first of the records to be inserted has a new key, and those after it still have. -/
theorem nodup_emplace_append (h : ((start.toList ++ a :: records).map key).Nodup) :
    key a ∉ start.toList.map key ∧ (((start.emplace a).toList ++ records).map key).Nodup := by
  have hfresh : key a ∉ start.toList.map key := by
    rw [map_append, nodup_append] at h
    exact fun hmem => h.2.2 _ hmem (key a) (by simp) rfl
  refine ⟨hfresh, (List.Perm.map key ?_).nodup_iff.mp h⟩
  exact perm_middle.trans ((toList_emplace_perm hfresh).append_right records).symm

/-- A record of no smaller rank that is inserted later comes later. -/
theorem sublist_ofList (h : (records.map key).Nodup) (hpair : [a, b].Sublist records)
    (hle : rank a ≤ rank b) : [a, b].Sublist (ofList records : OrderedIndex key rank).toList := by
  -- once the first record is there, the second comes after it
  have hsecond : ∀ (records : List α) (start : OrderedIndex key rank), a ∈ start.toList →
      b ∈ records → ((start.toList ++ records).map key).Nodup →
      [a, b].Sublist (records.foldl (fun index a => index.emplace a) start).toList := by
    intro records
    induction records with
    | nil =>
      intro start _ hb
      cases hb
    | cons c records ih =>
      intro start ha hb hnodup
      obtain ⟨hfresh, hrest⟩ := nodup_emplace_append start hnodup
      rcases mem_cons.mp hb with rfl | hb
      · exact (sublist_emplace hfresh ha hle).trans (sublist_foldl_emplace _ records)
      · exact ih (start.emplace c) ((sublist_emplace_self c start).subset ha) hb hrest
  suffices ∀ (records : List α) (start : OrderedIndex key rank), [a, b].Sublist records →
      ((start.toList ++ records).map key).Nodup →
      [a, b].Sublist (records.foldl (fun index a => index.emplace a) start).toList from
    this records empty hpair h
  intro records
  induction records with
  | nil =>
    intro start hsublist
    cases hsublist
  | cons c records ih =>
    intro start hsublist hnodup
    obtain ⟨hfresh, hrest⟩ := nodup_emplace_append start hnodup
    cases hsublist with
    | cons _ hlater => exact ih (start.emplace c) hlater hrest
    | cons_cons _ hlater =>
      exact hsecond records (start.emplace a)
        ((toList_emplace_perm hfresh).mem_iff.mpr mem_cons_self) (singleton_sublist.mp hlater) hrest

end OrderedIndex

end Data
