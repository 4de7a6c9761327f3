import DarknetCoin.Theorems.WrittenBlock
import DarknetCoin.Theorems.PushBlock

/-!
# The main chain as a thread of blocks

Every block of a main chain names the one below it and its own height, and the index of the blocks
lists their identifiers in order. This holds in every state of a node, and it makes two chains with
a common block agree on everything below it.
-/

namespace DarknetCoin

open Semantics Data List BlockIndex

/-- The identifiers of blocks. -/
def idsOfBlocks (crypto : Crypto) (blocks : List BlockEntry) : List Hash :=
  blocks.map fun block => crypto.getBlockHash block.bl

/-- The block fits on the blocks below it: it names the last of them and its own height. -/
structure Follows (crypto : Crypto) (below : List BlockEntry) (block : BlockEntry) : Prop where
  previous : block.bl.previousBlockHash = (idsOfBlocks crypto below).getLast?.getD nullHash
  getBlockHeight_eq : getBlockHeight block.bl = below.length
  height : block.height = below.length

namespace MainChain

/-- The index lists the identifiers of the blocks, no two of them equal, and every block fits on
those below it. -/
structure Threaded (crypto : Crypto) (main : MainChain) : Prop where
  blockIndex : main.blockIndex = idsOfBlocks crypto main.blocks
  nodup : main.blockIndex.Nodup
  follows : Grown (Follows crypto) main.blocks

namespace Threaded

variable {crypto : Crypto} {main main' : MainChain} {block block' : BlockEntry}
  {height height' : Nat} {id : Hash}

theorem empty (crypto : Crypto) : Threaded crypto empty :=
  ⟨rfl, nodup_nil, .nil⟩

section

variable (h : Threaded crypto main)

include h

variable (hblock : main.blocks[height]? = some block)
include hblock

theorem getElem?_blockIndex : main.blockIndex[height]? = some (crypto.getBlockHash block.bl) := by
  rw [h.blockIndex, idsOfBlocks, getElem?_map, hblock]
  rfl

omit hblock in
theorem exists_block (hid : main.blockIndex[height]? = some id) :
    ∃ block, main.blocks[height]? = some block ∧ crypto.getBlockHash block.bl = id := by
  rw [h.blockIndex, idsOfBlocks, getElem?_map] at hid
  exact Option.map_eq_some_iff.mp hid

omit hblock in
theorem blockHeight?_eq_some_iff :
    main.blockIndex.blockHeight? id = some height ↔ main.blockIndex[height]? = some id := by
  unfold blockHeight?
  rw [findIdx?_eq_some_iff_getElem]
  constructor
  · rintro ⟨hlt, hfound, -⟩
    rw [getElem?_eq_getElem hlt]
    exact beq_iff_eq.mp hfound
  · intro hget
    obtain ⟨hlt, rfl⟩ := List.getElem?_eq_some_iff.mp hget
    refine ⟨hlt, beq_self_eq_true _, fun j hj => ?_⟩
    have hne := nodup_iff_getElem?_ne_getElem?.mp h.nodup j height hj hlt
    rw [getElem?_eq_getElem (hj.trans hlt), getElem?_eq_getElem hlt, ne_eq] at hne
    simpa using hne

theorem previous_eq (hbelow : main.blocks[height + 1]? = some block') :
    block'.bl.previousBlockHash = crypto.getBlockHash block.bl := by
  obtain ⟨hlt, rfl⟩ := List.getElem?_eq_some_iff.mp hblock
  rw [(h.follows.getElem? hbelow).previous, idsOfBlocks, getLast?_map,
    take_succ_eq_append_getElem hlt, getLast?_concat]
  rfl

theorem getBlockHeight_eq : getBlockHeight block.bl = height := by
  have hlt := (List.getElem?_eq_some_iff.mp hblock).1
  rw [(h.follows.getElem? hblock).getBlockHeight_eq, length_take]
  omega

omit hblock

/-- The blocks of two chains, over which the identifiers are taken to be free of collisions. -/
def NoCollision (crypto : Crypto) (main main' : MainChain) : Prop :=
  ∀ block ∈ main.blocks, ∀ block' ∈ main'.blocks,
    crypto.getBlockHash block.bl = crypto.getBlockHash block'.bl → block.bl = block'.bl

variable (h' : Threaded crypto main') (hfree : NoCollision crypto main main')
  (hid : main.blockIndex[height]? = some id)
include h' hfree hid

theorem exists_blocks (hid' : main'.blockIndex[height']? = some id) :
    ∃ block block', main.blocks[height]? = some block ∧
      main'.blocks[height']? = some block' ∧ block.bl = block'.bl := by
  obtain ⟨block, hblock, rfl⟩ := h.exists_block hid
  obtain ⟨block', hblock', hsame⟩ := h'.exists_block hid'
  exact ⟨block, block', hblock, hblock', hfree block (mem_of_getElem? hblock) block'
    (mem_of_getElem? hblock') hsame.symm⟩

theorem height_eq (hid' : main'.blockIndex[height']? = some id) : height = height' := by
  obtain ⟨block, block', hblock, hblock', hbl⟩ := h.exists_blocks h' hfree hid hid'
  rw [← h.getBlockHeight_eq hblock, ← h'.getBlockHeight_eq hblock', hbl]

theorem agree (hid' : main'.blockIndex[height]? = some id) :
    ∀ k ≤ height, main.blockIndex[k]? = main'.blockIndex[k]? := by
  induction height generalizing id with
  | zero =>
    intro k hk
    rw [Nat.le_zero.mp hk, hid, hid']
  | succ height ih =>
    intro k hk
    rcases Nat.lt_or_eq_of_le hk with hlt | rfl
    · obtain ⟨block, block', hblock, hblock', hbl⟩ := h.exists_blocks h' hfree hid hid'
      -- the two blocks are one, so they name the same block below
      have hin : height < main.blocks.length :=
        Nat.lt_of_succ_lt (List.getElem?_eq_some_iff.mp hblock).1
      have hin' : height < main'.blocks.length :=
        Nat.lt_of_succ_lt (List.getElem?_eq_some_iff.mp hblock').1
      have hbelow := getElem?_eq_getElem hin
      have hbelow' := getElem?_eq_getElem hin'
      have hprev := h.previous_eq hbelow hblock
      have hprevious' := h'.previous_eq hbelow' hblock'
      rw [hbl, hprevious'] at hprev
      refine ih (h.getElem?_blockIndex hbelow) ?_ k (by omega)
      rw [h'.getElem?_blockIndex hbelow', hprev]
    · rw [hid, hid']

end

end Threaded

end MainChain

/-- Pushes and pops keep the main chain threaded. -/
theorem threaded_invariant (net : Network) (supply : Supply) :
    MainInvariant net supply (MainChain.Threaded net.crypto) := by
  apply storage_invariant
  · intro main main' hstorage h
    refine ⟨?_, ?_, ?_⟩
    · rw [hstorage.blockIndex, hstorage.blocks]
      exact h.blockIndex
    · rw [hstorage.blockIndex]
      exact h.nodup
    · rw [hstorage.blocks]
      exact h.follows
  · intro now blockData transactions main block main' _ _ hwritten h
    have hbl := hwritten.appended.bl
    have hfresh : net.crypto.getBlockHash blockData ∉ main.blockIndex := by
      simpa [hasBlock] using hwritten.header.fresh
    have hidx : main'.blockIndex = main.blockIndex ++ [net.crypto.getBlockHash blockData] := by
      rw [hwritten.appended.blockIndex, push_of_notMem hfresh]
    refine ⟨?_, ?_, ?_⟩
    · rw [hidx, hwritten.appended.blocks, h.blockIndex, idsOfBlocks, idsOfBlocks, map_append,
        map_singleton, hbl]
    · rw [hidx]
      exact h.nodup.append (nodup_singleton _) (disjoint_singleton.mpr hfresh)
    · rw [hwritten.appended.blocks]
      refine h.follows.concat ⟨?_, ?_, hwritten.appended.height⟩
      · rw [hbl, hwritten.header.previous, MainChain.getTailId]
        split
        · rename_i hnil
          rw [hnil]
          rfl
        · rw [getTailId, h.blockIndex]
      · rw [hbl]
        exact hwritten.header.getBlockHeight_eq
  · intro main main' hunwritten h
    refine ⟨?_, ?_, ?_⟩
    · rw [hunwritten.blockIndex, hunwritten.blocks, pop, h.blockIndex, idsOfBlocks, idsOfBlocks,
        map_dropLast]
    · rw [hunwritten.blockIndex]
      exact h.nodup.sublist (dropLast_sublist _)
    · rw [hunwritten.blocks]
      exact h.follows.dropLast

/-- Any blocks and transactions. -/
def anySupply : Supply where
  Good _ := True
  Tx := SemanticallyValid
  semantic _ h := h

variable {net : Network} {core : Core}

theorem anySupply_admits {now : Nat} (call : Call) : anySupply.Admits net now core call := by
  cases call with
  | addNewBlock bl => exact fun _ => trivial
  | handleIncomingTransaction tx kept => exact semanticallyValid_of_checkTxSemantic
  | onIdle => trivial
  | getBlockTemplate => trivial

variable {Ok : Nat → Nat → Core → Call → Prop} {clock : Nat}

/-- Whatever calls were made, the main chain is threaded and the pool supplied. -/
theorem supplied_of_run (hrun : Core.Run net Ok clock core) :
    core.Supplied net anySupply (MainChain.Threaded net.crypto) :=
  .of_run (threaded_invariant net anySupply) (.empty _) (fun _ => trivial) hrun
    (fun _ => anySupply_admits _) fun _ => anySupply_admits _

theorem threaded_of_run (hrun : Core.Run net Ok clock core) : core.main.Threaded net.crypto :=
  (supplied_of_run hrun).main

end DarknetCoin
