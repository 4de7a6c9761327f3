import DarknetCoin.Model.BlockQueries
import DarknetCoin.Theorems.AtomicPush
import DarknetCoin.Theorems.ThreadedChain

/-!
# Finding a common block

The heights of a sparse chain double their distance from the end, so the first identifier the
responder knows lies at most twice as far from the end as the last common block. From an alternative
block the list is a part of its path to genesis, which a failed switch can take away.
-/

namespace DarknetCoin

open Semantics Data DarknetCoin.Core Doubling BlockIndex List

variable {height : Nat}

/-- The heights whose distance from the end doubles. -/
def doublingHeights (start : Nat) : List Nat := (upTo (start + 1)).map (start + 1 - ·)

/-- The heights of the sparse chain from a height down. -/
def sparseHeights (start : Nat) : List Nat :=
  if (doublingHeights start).getLast? = some 0 then doublingHeights start
    else doublingHeights start ++ [0]

variable (start : Nat)

theorem pairwise_doublingHeights : (doublingHeights start).Pairwise (· > ·) := by
  refine pairwise_map.mpr (pairwise_upTo.imp_of_mem fun hp hq hlt => ?_)
  have hle := (le_of_mem_upTo hq).2
  omega

theorem le_of_mem_doublingHeights {start : Nat} (h : height ∈ doublingHeights start) :
    height ≤ start := by
  obtain ⟨p, hp, rfl⟩ := mem_map.mp h
  have hpos := (le_of_mem_upTo hp).1
  omega

theorem le_of_mem_sparseHeights {start : Nat} (h : height ∈ sparseHeights start) :
    height ≤ start := by
  rw [sparseHeights] at h
  split at h
  · exact le_of_mem_doublingHeights h
  rcases mem_append.mp h with hold | hzero
  · exact le_of_mem_doublingHeights hold
  · rw [mem_singleton.mp hzero]
    exact Nat.zero_le _

theorem pairwise_sparseHeights : (sparseHeights start).Pairwise (· > ·) := by
  rw [sparseHeights]
  split
  · exact pairwise_doublingHeights start
  rename_i hlast
  refine pairwise_append.mpr ⟨pairwise_doublingHeights start, pairwise_singleton _ _, ?_⟩
  intro k hk last hlast'
  rw [mem_singleton.mp hlast']
  -- a height that goes down to 0 before the end would be the last one
  by_contra hnot
  obtain rfl : k = 0 := by omega
  apply hlast
  obtain ⟨front, back, hsplit⟩ := append_of_mem hk
  have hpairwise := pairwise_doublingHeights start
  rw [hsplit] at hpairwise ⊢
  have hback : back = [] := by
    refine eq_nil_iff_forall_not_mem.mpr fun j hj => ?_
    have hlt := (pairwise_cons.mp (pairwise_append.mp hpairwise).2.1).1 j hj
    omega
  rw [hback, getLast?_concat]

theorem getLast?_sparseHeights : (sparseHeights start).getLast? = some 0 := by
  rw [sparseHeights]
  split
  · rename_i hlast
    exact hlast
  · exact getLast?_concat

theorem head?_sparseHeights : (sparseHeights start).head? = some start := by
  obtain ⟨rest, hrest⟩ := upTo_eq_cons (Nat.succ_pos start)
  rw [sparseHeights, doublingHeights, hrest]
  split
  · rfl
  · rfl

/-- The first height at or below a bound lies at most twice as far from the start as the bound,
unless it is 0. -/
theorem find?_sparseHeights_le {start bound : Nat} (hbound : bound ≤ start)
    (h : (sparseHeights start).find? (fun k => decide (k ≤ bound)) = some height) :
    start - height ≤ 2 * (start - bound) ∨ height = 0 := by
  have hmap (height : Nat) (h : (doublingHeights start).find? (fun k => decide (k ≤ bound)) =
      some height) : start - height ≤ 2 * (start - bound) := by
    rw [doublingHeights, find?_map] at h
    obtain ⟨p, hp, rfl⟩ := Option.map_eq_some_iff.mp h
    have hsame : ((fun k => decide (k ≤ bound)) ∘ (start + 1 - ·)) =
        fun p => decide (start + 1 - bound ≤ p) := by
      funext p
      dsimp only [Function.comp]
      rw [decide_eq_decide]
      omega
    rw [hsame] at hp
    rcases find?_upToFrom_le hp with rfl | hle
    · omega
    · omega
  rw [sparseHeights] at h
  split at h
  · exact .inl (hmap height h)
  rw [find?_append] at h
  cases hfirst : (doublingHeights start).find? (fun k => decide (k ≤ bound)) with rw [hfirst] at h
  | some k =>
    obtain rfl : k = height := Option.some.inj h
    exact .inl (hmap k hfirst)
  | none =>
    refine .inr ?_
    have hzero : some 0 = some height := h
    exact (Option.some.inj hzero).symm

/-- The identifier at a height. -/
def idAt (index : BlockIndex) (height : Nat) : Hash := index[height]?.getD nullHash

variable {crypto : Crypto} {main main' : MainChain} {start : Nat}

theorem getElem?_eq_idAt {index : BlockIndex} (h : height < index.length) :
    index[height]? = some (idAt index height) := by
  rw [idAt, getElem?_eq_getElem h]
  rfl

theorem exists_idAt {index : BlockIndex} {id : Hash} (h : id ∈ index) :
    ∃ height < index.length, idAt index height = id := by
  obtain ⟨height, hheight⟩ := getElem?_of_mem h
  exact ⟨height, (List.getElem?_eq_some_iff.mp hheight).1, by rw [idAt, hheight]; rfl⟩

theorem MainChain.Threaded.idAt_inj (h : main.Threaded crypto) {height' : Nat}
    (hlt : height < main.blockIndex.length) (hlt' : height' < main.blockIndex.length)
    (hsame : idAt main.blockIndex height = idAt main.blockIndex height') : height = height' := by
  have hfound := h.blockHeight?_eq_some_iff.mpr (getElem?_eq_idAt hlt)
  rw [hsame, h.blockHeight?_eq_some_iff.mpr (getElem?_eq_idAt hlt')] at hfound
  exact (Option.some.inj hfound).symm

/-- Identifiers differ, so the last one is that of genesis exactly when the last height is 0. -/
theorem MainChain.Threaded.getLast?_idAt (h : main.Threaded crypto) {heights : List Nat}
    (hlt : ∀ height ∈ heights, height < main.blockIndex.length) (hne : heights ≠ []) :
    (heights.map (idAt main.blockIndex)).getLast? = main.blockIndex[0]? ↔
    heights.getLast? = some 0 := by
  obtain ⟨front, last, rfl⟩ : ∃ front last, heights = front ++ [last] :=
    ⟨_, _, (dropLast_append_getLast hne).symm⟩
  have hlast : last < main.blockIndex.length := hlt last (by simp)
  have hgen : 0 < main.blockIndex.length := by omega
  rw [map_append, map_singleton, getLast?_concat, getLast?_concat,
    getElem?_eq_idAt hgen, Option.some.injEq, Option.some.injEq]
  exact ⟨h.idAt_inj hlast hgen, fun heq => by rw [heq]⟩

/-- The identifiers of a sparse chain are those at its heights. -/
theorem BlockIndex.buildSparseChain_eq (h : main.Threaded crypto)
    (hstart : start < main.blockIndex.length) :
    main.blockIndex.buildSparseChain (idAt main.blockIndex start) =
      .ok ((sparseHeights start).map (idAt main.blockIndex)) := by
  have hheight : main.blockIndex.blockHeight? (idAt main.blockIndex start) = some start :=
    h.blockHeight?_eq_some_iff.mpr (getElem?_eq_idAt hstart)
  have hin : ∀ height ∈ doublingHeights start, height < main.blockIndex.length :=
    fun height hmem => (le_of_mem_doublingHeights hmem).trans_lt hstart
  have hres : ((upTo (start + 1)).filterMap fun i => main.blockIndex[start + 1 - i]?) =
      (doublingHeights start).map (idAt main.blockIndex) := by
    rw [doublingHeights, map_map, ← filterMap_eq_map]
    refine filterMap_congr fun p hp => ?_
    exact getElem?_eq_idAt (hin _ (mem_map_of_mem hp))
  have hne : doublingHeights start ≠ [] := by
    exact cons_ne_nil _ _
  have hgen : main.blockIndex[0]? = some (idAt main.blockIndex 0) := getElem?_eq_idAt (by omega)
  unfold buildSparseChain
  rw [hheight, sparseHeights]
  dsimp only
  rw [hres]
  by_cases hlast : (doublingHeights start).getLast? = some 0
  · rw [if_pos hlast, if_neg (not_not.mpr ((h.getLast?_idAt hin hne).mpr hlast))]
  · rw [if_neg hlast, if_pos fun hsame => hlast ((h.getLast?_idAt hin hne).mp hsame),
      hgen, map_append]
    rfl

/-- The last block of `main` that `other` has as well stands at `last`. -/
structure LastCommon (main other : MainChain) (last : Nat) : Prop where
  lt : last < main.blockIndex.length
  mem : idAt main.blockIndex last ∈ other.blockIndex
  greatest : ∀ height < main.blockIndex.length, idAt main.blockIndex height ∈ other.blockIndex →
    height ≤ last

section Common

variable {last : Nat} (hcommon : LastCommon main main' last) (h : main.Threaded crypto)
  (h' : main'.Threaded crypto) (hfree : MainChain.Threaded.NoCollision crypto main main')
include hcommon h h' hfree

/-- The responder finds the blocks up to the last common one, each at its own height, and no
others. -/
theorem LastCommon.blockHeight? (hheight : height < main.blockIndex.length) :
    main'.blockIndex.blockHeight? (idAt main.blockIndex height) = if height ≤ last then some height
    else none := by
  obtain ⟨position, hposition⟩ := getElem?_of_mem hcommon.mem
  have hlast := getElem?_eq_idAt hcommon.lt
  obtain rfl := h.height_eq h' hfree hlast hposition
  split
  · rename_i hle
    rw [h'.blockHeight?_eq_some_iff, ← h.agree h' hfree hlast hposition height hle]
    exact getElem?_eq_idAt hheight
  · rename_i hgt
    rw [BlockIndex.blockHeight?, findIdx?_eq_none_iff]
    intro id hid
    refine beq_eq_false_iff_ne.mpr fun heq => hgt ?_
    exact hcommon.greatest height hheight (heq ▸ hid)

theorem findSupplement_sparseChain (hstart : start < main.blockIndex.length) :
    main'.blockIndex.findSupplement ((sparseHeights start).map (idAt main.blockIndex)) =
      (sparseHeights start).find? fun height => decide (height ≤ last) := by
  have hall : ∀ height ∈ sparseHeights start, height < main.blockIndex.length :=
    fun height hheight => lt_of_le_of_lt (le_of_mem_sparseHeights hheight) hstart
  unfold findSupplement
  generalize sparseHeights start = heights at hall
  induction heights with
  | nil => rfl
  | cons height heights ih =>
    obtain ⟨hfirst, hrest⟩ := forall_mem_cons.mp hall
    rw [map_cons, findSome?_cons, hcommon.blockHeight? h h' hfree hfirst, ih hrest]
    by_cases hle : height ≤ last
    · simp [hle]
    · simp [hle]

/-- The responder's answer is the first height at or below the last common block. -/
theorem LastCommon.findBlockchainSupplement (hstart : start < main.blockIndex.length) :
    ∃ height, main'.findBlockchainSupplement ((sparseHeights start).map (idAt main.blockIndex)) =
    .ok height ∧
      (sparseHeights start).find? (fun height => decide (height ≤ last)) = some height := by
  have hzero : 0 ∈ sparseHeights start := mem_of_getLast? (getLast?_sparseHeights start)
  obtain ⟨height, hfound⟩ : ∃ height,
      (sparseHeights start).find? (fun height => decide (height ≤ last)) = some height :=
    Option.isSome_iff_exists.mp (find?_isSome.mpr ⟨0, hzero, decide_eq_true (Nat.zero_le _)⟩)
  refine ⟨height, ?_, hfound⟩
  unfold MainChain.findBlockchainSupplement
  rw [findSupplement_sparseChain hcommon h h' hfree hstart, hfound]

end Common

namespace Core

variable {core : Core} {chain : List Hash} {id ancestor : Hash}

/-- The second block is the one the first names below it. -/
inductive ParentOf (crypto : Crypto) (core : Core) : Hash → Hash → Prop
  | alternative {id : Hash} {entry : BlockEntry} (h : core.findAlternative id = some entry) :
      ParentOf crypto core id entry.bl.previousBlockHash
  | main {block : BlockEntry} (h : block ∈ core.main.blocks) :
      ParentOf crypto core (crypto.getBlockHash block.bl) block.bl.previousBlockHash

/-- The second block lies somewhere below the first. -/
abbrev Above (crypto : Crypto) (core : Core) : Hash → Hash → Prop :=
  Relation.TransGen (ParentOf crypto core)

/-- The alternative blocks from `id` down, which end on the block `ancestor` of the main chain. -/
inductive LeadsToMain (core : Core) : List Hash → Hash → Hash → Prop
  | main {id : Hash} (h : core.findAlternative id = none) (hmain : id ∈ core.main.blockIndex) :
      LeadsToMain core [] id id
  | alternative {id ancestor : Hash} {entry : BlockEntry} {chain : List Hash}
      (h : core.findAlternative id = some entry)
      (hrest : LeadsToMain core chain entry.bl.previousBlockHash ancestor) :
      LeadsToMain core (id :: chain) id ancestor

namespace LeadsToMain

section

variable (h : LeadsToMain core chain id ancestor)

include h

theorem mem_blockIndex : ancestor ∈ core.main.blockIndex := by
  induction h with
  | main h hmain => exact hmain
  | alternative h hrest ih => exact ih

theorem unique {chain' : List Hash} {ancestor' : Hash}
    (h' : LeadsToMain core chain' id ancestor') : chain = chain' := by
  induction h generalizing chain' with
  | main hnone hmain =>
    cases h' with
    | main => rfl
    | alternative hsome => rw [hnone] at hsome; cases hsome
  | alternative hsome hrest ih =>
    cases h' with
    | main hnone => rw [hnone] at hsome; cases hsome
    | alternative hsome' hrest' =>
      rw [hsome, Option.some.injEq] at hsome'
      subst hsome'
      rw [ih hrest']

theorem exists_suffix {other : Hash} (hother : other ∈ chain) :
    ∃ rest, LeadsToMain core (other :: rest) other ancestor ∧ rest.length < chain.length := by
  induction h with
  | main => cases hother
  | @alternative id ancestor entry chain hsome hrest ih =>
    rcases mem_cons.mp hother with rfl | hlater
    · exact ⟨chain, .alternative hsome hrest, Nat.lt_succ_self _⟩
    · obtain ⟨rest, hsuffix, hlen⟩ := ih hlater
      exact ⟨rest, hsuffix, Nat.lt_succ_of_lt hlen⟩

/-- No block occurs twice: the way down from it would be shorter than itself. -/
theorem nodup : chain.Nodup := by
  induction h with
  | main => exact nodup_nil
  | @alternative id ancestor entry chain hsome hrest ih =>
    refine nodup_cons.mpr ⟨fun hmem => ?_, ih⟩
    obtain ⟨rest, hsuffix, hlen⟩ := hrest.exists_suffix hmem
    have hsame := congrArg length (hsuffix.unique (.alternative hsome hrest))
    rw [length_cons, length_cons] at hsame
    omega

theorem length_le : chain.length ≤ core.alternativeChains.length := by
  have hsub : chain ⊆ core.alternativeChains.map Prod.fst := by
    intro other hother
    obtain ⟨rest, hsuffix, -⟩ := h.exists_suffix hother
    cases hsuffix with
    | alternative hsome => exact mem_map_of_mem (mem_of_findAlternative hsome)
  have hle := (h.nodup.subperm hsub).length_le
  rwa [length_map] at hle

theorem alternativeAncestry_eq {steps : Nat} (hsteps : chain.length ≤ steps) :
    core.alternativeAncestry steps id = .ok (chain, ancestor) := by
  induction h generalizing steps with
  | main hnone =>
    unfold alternativeAncestry
    rw [hnone]
  | alternative hsome hrest ih =>
    cases steps with
    | zero => cases hsteps
    | succ steps =>
      unfold alternativeAncestry
      rw [hsome]
      dsimp only
      rw [ih (Nat.le_of_succ_le_succ hsteps)]

/-- Every alternative block of the way lies above its end and above those after it. -/
theorem above : (∀ other ∈ chain, Above crypto core other ancestor) ∧
    chain.Pairwise (Above crypto core) ∧
      (id = ancestor ∨ Above crypto core id ancestor) ∧ ∀ other ∈ chain, id = other ∨
      Above crypto core id other := by
  induction h with
  | main =>
    exact ⟨forall_mem_nil _, .nil, .inl rfl, forall_mem_nil _⟩
  | @alternative id ancestor entry chain hsome hrest ih =>
    obtain ⟨hends, hpairwise, hend, hlater⟩ := ih
    have hparent : ParentOf crypto core id entry.bl.previousBlockHash := .alternative hsome
    have hstep {other : Hash} (hbelow : entry.bl.previousBlockHash = other ∨
        Above crypto core entry.bl.previousBlockHash other) : Above crypto core id other := by
      rcases hbelow with rfl | hbelow
      · exact .single hparent
      · exact .head hparent hbelow
    refine ⟨?_, ?_, .inr (hstep hend), ?_⟩
    · exact forall_mem_cons.mpr ⟨hstep hend, hends⟩
    · exact pairwise_cons.mpr ⟨fun other hother => hstep (hlater other hother), hpairwise⟩
    · exact forall_mem_cons.mpr ⟨.inl rfl, fun other hother =>
        .inr (hstep (hlater other hother))⟩

end

end LeadsToMain

theorem above_of_lt (h : core.main.Threaded crypto) {low high : Nat} (hlt : low < high)
    (hhigh : high < core.main.blockIndex.length) :
    Above crypto core (idAt core.main.blockIndex high) (idAt core.main.blockIndex low) := by
  have hparent (height : Nat) (hheight : height + 1 < core.main.blockIndex.length) :
      ParentOf crypto core (idAt core.main.blockIndex (height + 1))
          (idAt core.main.blockIndex height) := by
    obtain ⟨block, hblock, hid⟩ := h.exists_block (getElem?_eq_idAt hheight)
    obtain ⟨below, hbelow, hid'⟩ := h.exists_block (getElem?_eq_idAt (Nat.lt_of_succ_lt hheight))
    rw [← hid, ← hid', ← h.previous_eq hbelow hblock]
    exact .main (mem_of_getElem? hblock)
  induction high with
  | zero => omega
  | succ high ih =>
    rcases Nat.lt_succ_iff_lt_or_eq.mp hlt with hless | rfl
    · exact .head (hparent high hhigh) (ih hless (Nat.lt_of_succ_lt hhigh))
    · exact .single (hparent low hhigh)

theorem mainSparseChain (h : core.main.Threaded crypto)
    (hheight : height < core.main.blockIndex.length) :
    ((sparseHeights height).map (idAt core.main.blockIndex)).head? =
    some (idAt core.main.blockIndex height) ∧
      ((sparseHeights height).map (idAt core.main.blockIndex)).getLast? =
      core.main.blockIndex.head? ∧
      ((sparseHeights height).map (idAt core.main.blockIndex)).Pairwise (Above crypto core) := by
  refine ⟨?_, ?_, ?_⟩
  · rw [head?_map, head?_sparseHeights]
    rfl
  · rw [getLast?_map, getLast?_sparseHeights, head?_eq_getElem?,
      getElem?_eq_idAt (Nat.zero_lt_of_lt hheight)]
    rfl
  · rw [pairwise_map]
    refine (pairwise_sparseHeights height).imp_of_mem fun hhigh _ hgt => ?_
    exact above_of_lt h hgt (lt_of_le_of_lt (le_of_mem_sparseHeights hhigh) hheight)

/-- A block from which the way down through the alternative blocks ends on the main chain, or
which is itself a block of the main chain. -/
def Anchored (core : Core) (id : Hash) : Prop :=
  id ∈ core.main.blockIndex ∨ ∃ chain ancestor, LeadsToMain core chain id ancestor

/-- The sparse chain from an anchored block starts with the block, ends with genesis, and every
entry lies above those after it. -/
theorem doBuildSparseChain_of_anchored (h : core.main.Threaded crypto)
    (hanchored : core.Anchored id) :
    ∃ ids, core.doBuildSparseChain id = .ok ids ∧ ids.head? = some id ∧
      ids.getLast? = core.main.blockIndex.head? ∧ ids.Pairwise (Above crypto core) := by
  unfold doBuildSparseChain hasBlock
  by_cases hmem : id ∈ core.main.blockIndex
  · obtain ⟨height, hlt, rfl⟩ := exists_idAt hmem
    refine ⟨_, ?_, mainSparseChain h hlt⟩
    rw [if_pos (decide_eq_true hmem)]
    exact buildSparseChain_eq h hlt
  obtain ⟨chain, ancestor, hleads⟩ := hanchored.resolve_left hmem
  obtain ⟨height, hlt, rfl⟩ := exists_idAt hleads.mem_blockIndex
  obtain ⟨hhead, hlast, hmain⟩ := mainSparseChain h hlt
  obtain ⟨hends, hchain, -⟩ := @LeadsToMain.above crypto _ _ _ _ hleads
  have hthin := thin_sublist chain
  refine ⟨thin chain ++ (sparseHeights height).map (idAt core.main.blockIndex), ?_, ?_, ?_, ?_⟩
  · rw [if_neg (by rw [decide_eq_false hmem]; exact Bool.false_ne_true),
      hleads.alternativeAncestry_eq hleads.length_le]
    dsimp only
    rw [buildSparseChain_eq h hlt]
    rfl
  · rw [head?_append]
    cases hleads with
    | main _ hmain => exact absurd hmain hmem
    | alternative => rfl
  · rw [getLast?_append, hlast, head?_eq_getElem?, getElem?_eq_idAt (Nat.zero_lt_of_lt hlt)]
    rfl
  · refine pairwise_append.mpr ⟨hchain.sublist hthin, hmain, fun upper hupper lower hlower => ?_⟩
    have hupper := hends upper (hthin.subset hupper)
    obtain ⟨low, hlow, rfl⟩ := mem_map.mp hlower
    rcases Nat.lt_or_eq_of_le (le_of_mem_sparseHeights hlow) with hless | rfl
    · exact hupper.trans (above_of_lt h hless hlt)
    · exact hupper

end Core

theorem exists_lastCommon {genesis : Hash} (hgen : main.blockIndex[0]? = some genesis)
    (hgenesis' : main'.blockIndex[0]? = some genesis) : ∃ last, LastCommon main main' last := by
  have hlt : 0 < main.blockIndex.length := (List.getElem?_eq_some_iff.mp hgen).1
  have hzero : idAt main.blockIndex 0 ∈ main'.blockIndex := by
    rw [idAt, hgen]
    exact mem_of_getElem? hgenesis'
  have hfound := Nat.findGreatest_spec (P := fun height =>
    height < main.blockIndex.length ∧ idAt main.blockIndex height ∈ main'.blockIndex)
    (Nat.zero_le main.blockIndex.length) ⟨hlt, hzero⟩
  refine ⟨_, hfound.1, hfound.2, fun height hheight hmem => ?_⟩
  exact Nat.le_findGreatest hheight.le ⟨hheight, hmem⟩

theorem Core.buildSparseChain_eq {core : Core} (h : core.main.Threaded crypto)
    (hpos : 0 < core.main.blockIndex.length) :
    core.buildSparseChain = .ok ((sparseHeights (core.main.blockIndex.length - 1)).map
      (idAt core.main.blockIndex)) := by
  have hlt : core.main.blockIndex.length - 1 < core.main.blockIndex.length := by omega
  have htail : core.main.blockIndex.getTailId = idAt core.main.blockIndex
      (core.main.blockIndex.length - 1) := by
    rw [getTailId, getLast?_eq_getElem?]
    rfl
  have hmem : idAt core.main.blockIndex (core.main.blockIndex.length - 1) ∈
      core.main.blockIndex := mem_of_getElem? (getElem?_eq_idAt hlt)
  rw [buildSparseChain, htail, doBuildSparseChain,
    if_pos (show hasBlock _ _ = true from decide_eq_true hmem)]
  exact BlockIndex.buildSparseChain_eq h hlt

/-- Two nodes whose chains share the genesis block. The responder answers with the height of a
common block at most twice as far from the requester's last block as the last common block is, or of
genesis. The heights of the sparse chain decrease down to genesis, and the list from any anchored
block goes down to genesis block by block. -/
theorem synchronisation_of_runs {net : Network} {Ok Ok' : Nat → Nat → Core → Call → Prop}
    {clock clock' : Nat} {requester responder : Core} {genesis : Hash}
    (hrun : Run net Ok clock requester) (hrun' : Run net Ok' clock' responder)
    (hfree : MainChain.Threaded.NoCollision net.crypto requester.main responder.main)
    (hgenesis : requester.main.blockIndex[0]? = some genesis)
    (hgenesis' : responder.main.blockIndex[0]? = some genesis) :
    (∃ (last : Nat) (heights : List Nat) (height : Nat),
      LastCommon requester.main responder.main last ∧
      requester.buildSparseChain = .ok (heights.map (idAt requester.main.blockIndex)) ∧
      heights.Pairwise (· > ·) ∧ heights.getLast? = some 0 ∧
      responder.main.findBlockchainSupplement (heights.map (idAt requester.main.blockIndex)) =
      .ok height ∧
      requester.main.blockIndex[height]? = some (idAt requester.main.blockIndex height) ∧
      responder.main.blockIndex[height]? = some (idAt requester.main.blockIndex height) ∧
      height ≤ last ∧
      (requester.main.blockIndex.length - 1 - height ≤
        2 * (requester.main.blockIndex.length - 1 - last) ∨ height = 0)) ∧
    ∀ id, requester.Anchored id → ∃ ids, requester.doBuildSparseChain id = .ok ids ∧
    ids.head? = some id ∧
        ids.getLast? = some genesis ∧ ids.Pairwise (Above net.crypto requester) := by
  have h := threaded_of_run hrun
  have h' := threaded_of_run hrun'
  have hpos : 0 < requester.main.blockIndex.length := (List.getElem?_eq_some_iff.mp hgenesis).1
  refine ⟨?_, fun id hid => ?_⟩
  · obtain ⟨last, hcommon⟩ := exists_lastCommon hgenesis hgenesis'
    have hlt : requester.main.blockIndex.length - 1 < requester.main.blockIndex.length := by omega
    obtain ⟨height, hanswer, hfirst⟩ := hcommon.findBlockchainSupplement h h' hfree hlt
    have hle : height ≤ last := by simpa using find?_some hfirst
    have hheight : height < requester.main.blockIndex.length := lt_of_le_of_lt hle hcommon.lt
    have hlast : last ≤ requester.main.blockIndex.length - 1 := by have := hcommon.lt; omega
    refine ⟨last, _, height, hcommon, buildSparseChain_eq h hpos, pairwise_sparseHeights _,
      getLast?_sparseHeights _, hanswer, getElem?_eq_idAt hheight, ?_, hle,
      find?_sparseHeights_le hlast hfirst⟩
    -- the responder has the block at the same height
    rw [← h'.blockHeight?_eq_some_iff, hcommon.blockHeight? h h' hfree hheight, if_pos hle]
  · rw [← hgenesis, ← head?_eq_getElem?]
    exact doBuildSparseChain_of_anchored h hid

/-- A block on `modestBlock`. -/
def secondBlock (nonce : Nat) : Block := numberedBlock nonce 1 2 [⟨200 * Currency.coin, .key 1⟩] []

/-- A node with two blocks on the genesis block. -/
def twoBlockCore (nonce : Nat) : Core :=
  Core.perform numberedNetwork 40000 (.addNewBlock (secondBlock nonce)) onModestBlock

/-- A node with an alternative to its second block. -/
def forkedCore : Core :=
  Core.perform numberedNetwork 40000 (.addNewBlock (secondBlock 8)) (twoBlockCore 2)

/-- The entry of the alternative block. -/
def forkedEntry : BlockEntry := ⟨secondBlock 8, 2, 0, 3, 0, []⟩

theorem synchronisation_of_runs_forked :
    (∃ (heights : List Nat) (height : Nat),
      forkedCore.buildSparseChain = .ok (heights.map (idAt forkedCore.main.blockIndex)) ∧
      (twoBlockCore 7).main.findBlockchainSupplement
      (heights.map (idAt forkedCore.main.blockIndex)) = .ok height ∧
      forkedCore.main.blockIndex[height]? = (twoBlockCore 7).main.blockIndex[height]?) ∧
    ∃ ids, forkedCore.doBuildSparseChain 9 = .ok ids ∧ ids.head? = some 9 ∧
      ids.getLast? = some 421 ∧ ids.Pairwise (Above Crypto.numbered forkedCore) := by
  have hmodest : Run numberedNetwork (fun _ _ _ _ => True) 0 onModestBlock :=
    .step (.start onGenesis_initial) trivial (step_perform (by decide +kernel))
  have hrequester : Run numberedNetwork (fun _ _ _ _ => True) 40000 forkedCore :=
    .step (.step hmodest trivial (step_perform (by decide +kernel))) trivial
      (step_perform (by decide +kernel))
  have hresponder : Run numberedNetwork (fun _ _ _ _ => True) 40000 (twoBlockCore 7) :=
    .step hmodest trivial (step_perform (by decide +kernel))
  have hfree : MainChain.Threaded.NoCollision .numbered forkedCore.main (twoBlockCore 7).main := by
    unfold MainChain.Threaded.NoCollision
    decide +kernel
  have hgen : forkedCore.main.blockIndex[0]? = some 421 := by decide +kernel
  have hanchored : forkedCore.Anchored 9 := by
    have hentry : forkedCore.findAlternative 9 = some forkedEntry := by decide +kernel
    exact .inr ⟨_, _, .alternative hentry (.main (by decide +kernel) (by decide +kernel))⟩
  obtain ⟨⟨last, heights, height, -, hsparse, -, -, hanswer, hid, hid', -⟩, hanchor⟩ :=
    synchronisation_of_runs hrequester hresponder hfree hgen (by decide +kernel)
  exact ⟨⟨heights, height, hsparse, hanswer, hid.trans hid'.symm⟩, hanchor 9 hanchored⟩

/-- Two blocks on the genesis block, and an alternative chain of three that starts with a block
whose transaction nobody has. Its second block has a sibling, with nonce four. The last call tries
the switch and fails. -/
def orphaningCalls : List (Nat × Call) :=
  [(40000, .addNewBlock modestBlock), (40000, .addNewBlock (secondBlock 2)),
    (40000, .addNewBlock (numberedBlock 3 420 1 [⟨5, .key 1⟩] [99])),
    (40000, .addNewBlock (numberedBlock 4 3 2 [⟨200 * Currency.coin, .key 1⟩] [])),
    (40000, .addNewBlock (numberedBlock 5 3 2 [⟨200 * Currency.coin, .key 1⟩] [])),
    (40000, .addNewBlock (numberedBlock 6 5 3 [⟨200 * Currency.coin, .key 1⟩] []))]

/-- The failed switch takes away the block its sibling stands on: no sparse chain can be built from
the sibling, which is still an alternative block. -/
theorem orphaned_block_has_no_sparse_chain :
    ∃ clock core, Run numberedNetwork (fun _ _ _ _ => True) clock core ∧
      (core.findAlternative 5).isSome = true ∧ core.doBuildSparseChain 5 = .error .undefined := by
  apply exists_run_of_genesis numberedNetwork orphaningCalls _ onGenesis_initial
  decide +kernel

end DarknetCoin
