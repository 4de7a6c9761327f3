import DarknetCoin.Theorems.ThreadedChain

/-!
# Checkpoints are final

Every block that is written at the height of a checkpoint is compared with it. A chain that leaves
the main chain below a checkpoint would have to contain its block once more, so as long as that
block is not stored as an alternative block too, no switch can disconnect it.
-/

namespace DarknetCoin

open Semantics Data DarknetCoin.Core List MainChain

/-- The blocks of a set, and any transactions that pass the checks of the core. -/
def Supply.ofBlocks (U : Set Block) : Supply where
  Good b := b ∈ U
  Tx := SemanticallyValid
  semantic _ h := h

namespace Checkpoints

variable {points : Checkpoints} {c height : Nat}

/-- An alternative block stands above every checkpoint the chain has reached. -/
theorem lt_of_isAlternativeBlockAllowed {blockchainHeight : Nat}
    (hallowed : points.isAlternativeBlockAllowed blockchainHeight height = true)
    (hpoint : (points.point? c).isSome = true) (hreached : c ≤ blockchainHeight) : c < height := by
  obtain ⟨hash, hhash⟩ := Option.isSome_iff_exists.mp hpoint
  obtain ⟨front, back, hsplit, -⟩ := lookup_eq_some_iff.mp hhash
  have hmem : (c, hash) ∈ points := by
    rw [hsplit]
    simp
  have hall := all_eq_true.mp (Bool.and_eq_true_iff.mp hallowed).2 (c, hash) hmem
  simpa [hreached] using hall

/-- The block that is compared with a checkpoint lies inside the checkpoint zone. -/
theorem checkBlock_of_workDone {crypto : Crypto} {difficulty : Nat} {b : Block}
    (h : workDone crypto points height difficulty b = true) :
    points.checkBlock height (crypto.getBlockHash b) = true := by
  unfold workDone at h
  split at h
  · exact h
  rename_i hzone
  unfold checkBlock
  cases hpoint : points.point? height with
  | none => rfl
  | some expected =>
    obtain ⟨front, back, hsplit, -⟩ := lookup_eq_some_iff.mp hpoint
    -- a height with a checkpoint is in the zone
    refine absurd (any_eq_true.mpr ⟨(height, expected), ?_, by simp⟩) hzone
    rw [hsplit]
    simp

end Checkpoints

/-- The block is the one a checkpoint fixes at the height of its place in the chain. -/
def CheckedBlock (net : Network) (below : List BlockEntry) (block : BlockEntry) : Prop :=
  net.checkpoints.checkBlock below.length (net.crypto.getBlockHash block.bl) = true

theorem checked_invariant (net : Network) (supply : Supply) :
    MainInvariant net supply fun main => Grown (CheckedBlock net) main.blocks := by
  apply grown_invariant
  intro now blockData transactions main block main' _ _ hwritten
  unfold CheckedBlock
  rw [hwritten.appended.bl]
  exact Checkpoints.checkBlock_of_workDone hwritten.header.work

/-- What is known of the main chain: it is threaded, and has the checkpointed blocks. -/
def MainChain.Fixed (net : Network) (main : MainChain) : Prop :=
  main.Threaded net.crypto ∧ Grown (CheckedBlock net) main.blocks

theorem fixed_invariant (net : Network) (supply : Supply) : MainInvariant net supply (Fixed net) :=
  (threaded_invariant net supply).and (checked_invariant net supply)

namespace Core

variable {net : Network} {U : Set Block} {core : Core}

/-- An alternative block is stored under its own identifier at the height it says; it is the block a
checkpoint fixes there, and the block below it is one height lower. -/
structure Charted (net : Network) (U : Set Block) (entry : AlternativeBlock) : Prop where
  id_eq : entry.1 = net.crypto.getBlockHash entry.2.bl
  height_eq : entry.2.height = getBlockHeight entry.2.bl
  checked : net.checkpoints.checkBlock entry.2.height entry.1 = true
  parent : ∃ below ∈ U, net.crypto.getBlockHash below = entry.2.bl.previousBlockHash ∧
    getBlockHeight below + 1 = entry.2.height

/-- The second block names the first. -/
def Linked (below above : AlternativeBlock) : Prop :=
  above.2.bl.previousBlockHash = below.1

theorem linked_of_alternativeChainTo {steps : Nat} {id : Hash}
    {above result : List AlternativeBlock}
    (h : core.alternativeChainTo steps id above = .ok result) :
    ∃ chain, result = chain ++ above ∧ chain.IsChain Linked ∧ ∀ last ∈ chain.getLast?,
    last.1 = id := by
  induction steps generalizing id above with unfold alternativeChainTo at h
  | zero =>
    split at h
    · cases h
      exact ⟨[], rfl, .nil, by simp⟩
    · cases h
  | succ steps ih =>
    split at h
    · cases h
      exact ⟨[], rfl, .nil, by simp⟩
    rename_i entry hfound
    obtain ⟨chain, rfl, hchain, hlast⟩ := ih h
    refine ⟨chain ++ [(id, entry)], by simp, ?_, by simp⟩
    refine isChain_append.mpr ⟨hchain, .singleton _, fun below hbelow top htop => ?_⟩
    cases htop
    exact (hlast below hbelow).symm

/-- Linked blocks stand one above the other: the identifiers decide which block is meant. -/
theorem Charted.height_succ (hunique : Set.InjOn net.crypto.getBlockHash U)
    {below above : AlternativeBlock} (hbelow : Charted net U below) (hmem : below.2.bl ∈ U)
    (habove : Charted net U above) (hlinked : Linked below above) :
    below.2.height + 1 = above.2.height := by
  obtain ⟨parent, hparent, hhash, hheight⟩ := habove.parent
  have hsame : parent = below.2.bl := by
    apply hunique hparent hmem
    rw [hhash, hlinked, hbelow.id_eq]
  rw [← hheight, hsame, hbelow.height_eq]

theorem lt_height_of_linked (hunique : Set.InjOn net.crypto.getBlockHash U) {c : Nat}
    {chain : List AlternativeBlock} (hchain : chain.IsChain Linked)
    (hcharted : ∀ entry ∈ chain, Charted net U entry ∧ entry.2.bl ∈ U ∧ entry.2.height ≠ c)
    (hlast : ∀ last ∈ chain.getLast?, c < last.2.height) : ∀ entry ∈ chain, c < entry.2.height := by
  induction chain with
  | nil => exact forall_mem_nil _
  | cons below rest ih =>
    obtain ⟨⟨hbelow, hmem, hne⟩, hrest⟩ := forall_mem_cons.mp hcharted
    cases rest with
    | nil =>
      intro entry hentry
      rw [mem_singleton.mp hentry]
      exact hlast below rfl
    | cons above rest =>
      obtain ⟨hlinked, hchain⟩ := isChain_cons_cons.mp hchain
      have hlower := ih hchain hrest fun last h => hlast last (by rw [getLast?_cons_cons]; exact h)
      refine forall_mem_cons.mpr ⟨?_, hlower⟩
      have hheight := hbelow.height_succ hunique hmem (hrest above mem_cons_self).1 hlinked
      have habove := hlower above mem_cons_self
      omega

section Accepted

variable {b : Block} {bei : BlockEntry} {parent : AlternativeParent} {isACheckpoint : Bool}

section

variable {id : Hash} (h : Accepted net core b id bei parent isACheckpoint)
include h

theorem Accepted.height_eq : bei.height = getBlockHeight b := by
  rw [h.entry, getBlockHeight, inputs_of_prevalidateMinerTransaction h.miner]
  rfl

theorem Accepted.bl_eq : bei.bl = b := by
  rw [h.entry]
  rfl

theorem Accepted.isChain : (parent.altChain ++ [(id, bei)]).IsChain Linked := by
  obtain ⟨chain, hres, hchain, hlast⟩ := linked_of_alternativeChainTo h.chain
  rw [append_nil] at hres
  rw [hres]
  refine isChain_append.mpr ⟨hchain, .singleton _, fun below hbelow top htop => ?_⟩
  cases htop
  unfold Linked
  rw [h.bl_eq]
  exact (hlast below hbelow).symm

end

variable (h : Accepted net core b (net.crypto.getBlockHash b) bei parent isACheckpoint)
include h

/-- An accepted block is charted: its parent is a block of the main chain, which stands at its
place, or an alternative block. -/
theorem Accepted.charted (hmain : core.main.Threaded net.crypto)
    (hblocks : ∀ block ∈ core.main.blocks, block.bl ∈ U)
    (halts : ∀ entry ∈ core.alternativeChains, Charted net U entry ∧ entry.2.bl ∈ U) :
    Charted net U (net.crypto.getBlockHash b, bei) := by
  have hbl := h.bl_eq
  have hheight : bei.height = parent.height + 1 := by
    rw [h.entry]
    rfl
  refine ⟨by rw [hbl], by rw [hbl]; exact h.height_eq, hheight ▸ h.checkpoint, ?_⟩
  rw [hbl, hheight]
  have hchain := h.chain
  cases h.attached with
  | @main height entry hfound hentry =>
    obtain ⟨entry', hentry', hhash⟩ := hmain.exists_block (hmain.blockHeight?_eq_some_iff.mp hfound)
    rw [hentry, Option.some.injEq] at hentry'
    subst hentry'
    exact ⟨entry.bl, hblocks entry (mem_of_getElem? hentry),
      hhash, by rw [hmain.getBlockHeight_eq hentry]⟩
  | @alternative altChain front prev fork hfront hprev hbelow hfork hlink =>
    obtain ⟨chain, hres, -, hlast⟩ := linked_of_alternativeChainTo hchain
    rw [append_nil] at hres
    have hmem : prev ∈ core.alternativeChains := by
      rcases mem_alternativeChainTo hchain prev (mem_of_getLast? hprev) with hnil | hmem
      · cases hnil
      · exact hmem
    obtain ⟨hcharted, hprevU⟩ := halts prev hmem
    refine ⟨prev.2.bl, hprevU, ?_, by rw [hcharted.height_eq]⟩
    rw [← hcharted.id_eq]
    exact hlast prev (hres ▸ hprev)

/-- While no alternative block stands at a checkpoint that the main chain has reached, the chain of
an accepted block lies above that checkpoint. -/
theorem Accepted.lt_height (hunique : Set.InjOn net.crypto.getBlockHash U) {c : Nat}
    (hpoint : (net.checkpoints.point? c).isSome = true) (hreached : c ≤ core.main.blocks.length)
    (halts : ∀ entry ∈ core.alternativeChains, Charted net U entry ∧ entry.2.bl ∈ U ∧
      entry.2.height ≠ c) (hb : b ∈ U) (hcharted : Charted net U (net.crypto.getBlockHash b, bei)) :
    ∀ entry ∈ parent.altChain ++ [(net.crypto.getBlockHash b, bei)], c < entry.2.height := by
  -- the new block stands above the checkpoint, and no block of the chain stands at it
  have habove : c < bei.height := by
    rw [h.height_eq]
    exact Checkpoints.lt_of_isAlternativeBlockAllowed h.allowed hpoint hreached
  refine lt_height_of_linked hunique h.isChain (fun entry hentry => ?_) fun last hlast => ?_
  · rcases mem_append.mp hentry with hold | hnew
    · rcases mem_alternativeChainTo h.chain entry hold with hnil | hmem
      · cases hnil
      · exact halts entry hmem
    · rw [mem_singleton.mp hnew]
      exact ⟨hcharted, h.bl_eq.symm ▸ hb, habove.ne'⟩
  · rw [getLast?_concat, Option.mem_some] at hlast
    rw [← hlast]
    exact habove

end Accepted

/-- `core'` is reached from `core` by calls that all meet `Ok`. -/
inductive Continues (net : Network) (Ok : Nat → Nat → Core → Call → Prop) (clock : Nat)
    (core : Core) : Nat → Core → Prop
  | refl : Continues net Ok clock core clock core
  | step {clock' now : Nat} {core' core'' : Core} {call : Call}
      (hrun : Continues net Ok clock core clock' core') (hok : Ok clock' now core' call)
      (hstep : Step net now core' call core'') : Continues net Ok clock core now core''

end Core

section Runs

variable {net : Network} {U : Set Block} {Ok : Nat → Nat → Core → Call → Prop} {clock clock' : Nat}
  {core core' : Core} (hgenesis : net.cur.genesisBlock ∈ U)
  (hblocks : ∀ clock now core bl, Ok clock now core (.addNewBlock bl) → bl ∈ U)
include hgenesis hblocks

omit hgenesis in
theorem Supply.ofBlocks_admits {now : Nat} {call : Call} (hok : Ok clock now core call) :
    (Supply.ofBlocks U).Admits net now core call := by
  cases call with
  | addNewBlock bl => exact fun _ => hblocks _ _ _ _ hok
  | handleIncomingTransaction tx kept => exact semanticallyValid_of_checkTxSemantic
  | onIdle => trivial
  | getBlockTemplate => trivial

/-- In every state of every run the main chain is threaded and has the checkpointed blocks, and the
alternative blocks are charted. -/
theorem charted_of_run (hrun : Run net Ok clock core) :
    core.Supplied net (.ofBlocks U) (Fixed net) ∧ core.Retains [] (Charted net U) := by
  have hM := fixed_invariant net (.ofBlocks U)
  induction hrun with
  | @start now core hinitial =>
    refine ⟨Supplied.of_initial hM ⟨.empty _, .nil⟩ hgenesis hinitial, ?_⟩
    have hempty : empty.Retains [] (Charted net U) := ⟨ nil_prefix, forall_mem_nil _⟩
    exact (Retains.callFrame.pushBlock net.cur.genesisBlock empty hempty).of_done hinitial
  | @step clock now core core' call _ hok hstep ih =>
    obtain ⟨fuel, hleaves⟩ := hstep
    refine (call_keeps hM Retains.callFrame ?_ fuel ih
      (Supply.ofBlocks_admits hblocks hok)).leaves hleaves
    intro core b bei parent isACheckpoint hsupplied hretains _ hacc
    refine ⟨hretains.insertAlternative ?_, fun front _ => Nat.zero_le _⟩
    exact hacc.charted hsupplied.main.1 hsupplied.good fun entry hentry =>
      ⟨hretains.alternatives entry hentry, hsupplied.alternatives entry hentry⟩

omit hgenesis in
/-- Once the main chain has a checkpoint whose block is not stored as an alternative block too, its
blocks up to the checkpoint stay. -/
theorem kept_of_continues (hunique : Set.InjOn net.crypto.getBlockHash U) {c : Nat}
    (hpoint : (net.checkpoints.point? c).isSome = true) {kept : List BlockEntry}
    (hkept : kept.length = c + 1) (hsupplied : core.Supplied net (.ofBlocks U) (Fixed net))
    (hretains : core.Retains kept fun entry => Charted net U entry ∧ entry.2.height ≠ c)
    (hrun : Continues net Ok clock core clock' core') :
    core'.Supplied net (.ofBlocks U) (Fixed net) ∧
      core'.Retains kept fun entry => Charted net U entry ∧ entry.2.height ≠ c := by
  induction hrun with
  | refl => exact ⟨hsupplied, hretains⟩
  | @step clock' now core' core'' call _ hok hstep ih =>
    obtain ⟨fuel, hleaves⟩ := hstep
    refine (call_keeps (fixed_invariant net (.ofBlocks U)) Retains.callFrame ?_ fuel ih
      (Supply.ofBlocks_admits hblocks hok)).leaves hleaves
    intro core b bei parent isACheckpoint hsupplied hretains hb hacc
    have hcharted : Charted net U (net.crypto.getBlockHash b, bei) :=
      hacc.charted hsupplied.main.1 hsupplied.good fun entry hentry =>
        ⟨(hretains.alternatives entry hentry).1, hsupplied.alternatives entry hentry⟩
    have hlen := hretains.blocks.length_le
    have habove := hacc.lt_height hunique hpoint (by omega) (fun entry hentry =>
      ⟨(hretains.alternatives entry hentry).1, hsupplied.alternatives entry hentry,
        (hretains.alternatives entry hentry).2⟩) hb hcharted
    refine ⟨hretains.insertAlternative
      ⟨hcharted, (habove _ (mem_append_right _ (mem_singleton_self _))).ne'⟩,
        fun front hfront => ?_⟩
    rw [hkept]
    exact habove front (mem_of_mem_head? hfront)

/-- In every state of every run the blocks at the heights of checkpoints are the checkpointed ones.
When the block of a checkpoint of the main chain is not stored as an alternative block as well, the
main chain keeps its blocks up to it whatever calls follow, also when they throw. -/
theorem checkpoints_final_of_run (hunique : Set.InjOn net.crypto.getBlockHash U)
    (hrun : Run net Ok clock core) : (∀ height block, core.main.blocks[height]? = some block →
      net.checkpoints.checkBlock height (net.crypto.getBlockHash block.bl) = true) ∧
    (∀ entry ∈ core.alternativeChains, entry.1 = net.crypto.getBlockHash entry.2.bl ∧
      entry.2.height = getBlockHeight entry.2.bl ∧
      net.checkpoints.checkBlock entry.2.height entry.1 = true) ∧
    ∀ c, (net.checkpoints.point? c).isSome = true → c < core.main.blocks.length →
      (∀ entry ∈ core.alternativeChains, entry.2.height ≠ c) →
      ∀ clock' core', Continues net Ok clock core clock' core' →
        core'.main.blocks.take (c + 1) = core.main.blocks.take (c + 1) := by
  obtain ⟨hsupplied, hretains⟩ := charted_of_run hgenesis hblocks hrun
  refine ⟨fun height block hblock => ?_, fun entry hentry => ?_, ?_⟩
  · have hchecked := hsupplied.main.2.getElem? hblock
    have hlt := (List.getElem?_eq_some_iff.mp hblock).1
    rw [CheckedBlock, length_take, Nat.min_eq_left hlt.le] at hchecked
    exact hchecked
  · have hcharted := hretains.alternatives entry hentry
    exact ⟨hcharted.id_eq, hcharted.height_eq, hcharted.checked⟩
  · intro c hpoint hreached hfree clock' core' hcontinues
    have hlen : (core.main.blocks.take (c + 1)).length = c + 1 := by
      rw [length_take]
      omega
    have hkept := (kept_of_continues hblocks hunique hpoint hlen hsupplied
      ⟨ take_prefix _ _, fun entry hentry =>
        ⟨hretains.alternatives entry hentry, hfree entry hentry⟩⟩ hcontinues).2.blocks
    rw [prefix_iff_eq_take, hlen] at hkept
    exact hkept.symm

end Runs

/-- An output of a number of coins. -/
def coinsOutput (coins : Nat) : TransactionOutput := ⟨coins * Currency.coin, .key 1⟩

/-- A numbered block with a timestamp, and a number of its own for the miner transaction. -/
def timedBlock (nonce previous height timestamp : Nat) (number : UInt8)
    (outputs : List TransactionOutput) (transactionHashes : List Hash) : Block :=
  { numberedBlock nonce previous height outputs transactionHashes with
    timestamp
    baseTransaction := minerTransaction height number outputs }

/-- A network with the block 1 as the checkpoint of height 1. -/
def pinnedNetwork : Network := ⟨Currency.mainnet, Crypto.numbered, [(1, 2)]⟩

/-- The blocks of a fork above the checkpoint. -/
def forkedBlocks : List Block :=
  [pinnedNetwork.cur.genesisBlock, numberedBlock 1 420 1 [⟨5, .key 1⟩] [],
    numberedBlock 2 1 2 [coinsOutput 200] [], numberedBlock 3 1 2 [coinsOutput 200] [],
    numberedBlock 4 3 3 [coinsOutput 200] []]

/-- The calls that submit only the given blocks. -/
def SubmitsOnly (blocks : List Block) (_ _ : Nat) (_ : Core) (call : Call) : Prop :=
  ∀ bl, call = .addNewBlock bl → bl ∈ blocks

/-- The calls up to the last block. -/
def forkedCalls : List (Nat × Call) :=
  ((forkedBlocks.drop 1).take 3).map fun b => (0, .addNewBlock b)

/-- The last block makes a node leave the second block for the third. -/
def SwitchesAbove (core : Core) : Prop :=
  let last := Call.addNewBlock (numberedBlock 4 3 3 [coinsOutput 200] [])
  (last.run pinnedNetwork 0 2 core).isStuck = false ∧ 1 < core.main.blocks.length ∧
    (∀ entry ∈ core.alternativeChains, entry.2.height ≠ 1) ∧
    (core.main.blocks.map fun block => block.bl.nonce) = [420, 1, 2] ∧
    ((Core.perform pinnedNetwork 0 last core).main.blocks.map fun block => block.bl.nonce) =
      [420, 1, 3, 4]

instance : DecidablePred SwitchesAbove := fun core => by
  unfold SwitchesAbove
  infer_instance

theorem injOn_of_nodup {crypto : Crypto} {blocks : List Block}
    (h : (blocks.map crypto.getBlockHash).Nodup) :
    Set.InjOn crypto.getBlockHash {b | b ∈ blocks} := fun _ hb _ hb' heq =>
  inj_on_of_nodup_map h hb hb' heq

/-- A switch above a checkpoint. -/
theorem checkpoints_final_of_run_forked :
    ∃ clock core clock' core', Run pinnedNetwork (SubmitsOnly forkedBlocks) clock core ∧
      Continues pinnedNetwork (SubmitsOnly forkedBlocks) clock core clock' core' ∧
      (core.main.blocks.map fun block => block.bl.nonce) = [420, 1, 2] ∧
      (core'.main.blocks.map fun block => block.bl.nonce) = [420, 1, 3, 4] ∧
      core'.main.blocks.take 2 = core.main.blocks.take 2 := by
  have hstart : Run pinnedNetwork (SubmitsOnly forkedBlocks) 0 (onGenesis pinnedNetwork) :=
    .start (onGenesis_initial_of (by decide +kernel))
  have hok : ∀ entry ∈ forkedCalls, ∀ clock core,
      SubmitsOnly forkedBlocks clock entry.1 core entry.2 := by
    intro entry hentry _ _ bl hbl
    obtain ⟨b, hb, rfl⟩ := mem_map.mp hentry
    cases hbl
    exact mem_of_mem_drop (mem_of_mem_take hb)
  obtain ⟨clock, core, hrun, hreturns, hreached, hfree, hbefore, hafter⟩ :=
    exists_run_of_performAll forkedCalls SwitchesAbove hok hstart (by decide +kernel)
  have hstep : Continues pinnedNetwork (SubmitsOnly forkedBlocks) clock core 0
      (perform pinnedNetwork 0 (.addNewBlock (numberedBlock 4 3 3 [coinsOutput 200] [])) core) :=
    .step .refl (by rintro bl ⟨⟩; simp [forkedBlocks]) (step_perform hreturns)
  have hunique : Set.InjOn pinnedNetwork.crypto.getBlockHash {b | b ∈ forkedBlocks} :=
    injOn_of_nodup (by decide +kernel)
  refine ⟨clock, core, 0, _, hrun, hstep, hbefore, hafter, ?_⟩
  exact (checkpoints_final_of_run (U := {b | b ∈ forkedBlocks}) mem_cons_self
    (fun _ _ _ bl h => h bl rfl) hunique hrun).2.2 1 (by decide) hreached hfree _ _ hstep

/-- A network with the block 15 as the checkpoint of height 5, on which the outputs of miner
transactions can be spent at once. -/
def lostNetwork : Network :=
  ⟨{ Currency.mainnet with lockedTxAllowedDeltaBlocks := 100 }, Crypto.numbered, [(5, 16)]⟩

/-- Spends the output of 100 coins with the given global index. -/
def keySpend (number : UInt8) (index : Nat) (image : KeyImage) : Transaction where
  version := 1
  unlockTime := 0
  inputs := [.key ⟨100 * Currency.coin, [index], image⟩]
  outputs := []
  extra := [number]
  signatures := [[0]]

/-- Spends the multisignature output of 50 coins with the given global index. -/
def multisignatureSpend (number : UInt8) (index : Nat) (signatures : List Signature) :
    Transaction where
  version := 2
  unlockTime := 0
  inputs := [.multisignature ⟨50 * Currency.coin, signatures.length, index, 0⟩]
  outputs := []
  extra := [number]
  signatures := [signatures]

/-- The main chain of the beginning. Its third block has much work, as the others come fast. -/
def fastBlocks : List Block :=
  [timedBlock 1 420 1 1000 1 [⟨5, .key 1⟩] [], timedBlock 2 1 2 1001 2 [coinsOutput 200] [],
    timedBlock 3 2 3 1002 3 [coinsOutput 200] []]

/-- The third block has an output of 100 coins and two multisignature outputs of 50, the first
without signatures; the fourth spends the former. -/
def slowBlocks : List Block :=
  [timedBlock 11 420 1 10000 11 [⟨5, .key 1⟩] [], timedBlock 12 11 2 20000 12 [coinsOutput 200] [],
    timedBlock 13 12 3 30000 13 [coinsOutput 100, ⟨50 * Currency.coin, .multisignature ⟨[], 0, 0⟩⟩,
      ⟨50 * Currency.coin, .multisignature ⟨[1], 1, 0⟩⟩] [],
    timedBlock 14 13 4 40000 14 [coinsOutput 300] [102]]

/-- A block on the fast chain whose transaction spends an output of its own miner transaction:
looking that up throws, and leaves the miner transaction entered. -/
def throwingBlock : Block :=
  timedBlock 4 3 4 1003 60 [coinsOutput 100, coinsOutput 40, coinsOutput 60] [103]

/-- The block of the checkpoint. It spends the second multisignature output. -/
def checkpointBlock : Block := timedBlock 15 14 5 50000 15 [coinsOutput 250] [106]

/-- Two blocks beside the slow chain. The second has the miner transaction of the throwing block,
and takes it out of the indices when it is popped. -/
def cleaningBlocks : List Block :=
  [timedBlock 23 12 3 30000 23 [coinsOutput 200] [],
    timedBlock 24 23 4 40000 60 [coinsOutput 100, coinsOutput 40, coinsOutput 60] []]

/-- A block above the checkpoint that spends the first multisignature output, and then throws. -/
def interruptedBlock : Block := timedBlock 16 15 6 60000 16 [coinsOutput 100] [105, 104]

/-- The block on top of it. -/
def lastBlock : Block := timedBlock 17 16 7 70000 17 [coinsOutput 200] []

/-- All these blocks, none of them with the identifier of another. -/
def lostBlocks : List Block :=
  lostNetwork.cur.genesisBlock :: (fastBlocks ++ slowBlocks ++ [throwingBlock, checkpointBlock] ++
    cleaningBlocks ++ [interruptedBlock, lastBlock])

/-- The calls after which the main chain ends in the checkpoint, which is an alternative block too.
The switch to the checkpoint throws in the fourth block of the slow chain; the cleaning blocks
repair that, and the switch to the interrupted block gets past the checkpoint before it throws. -/
def lostCalls : List Call :=
  [.handleIncomingTransaction (keySpend 101 0 7) true,
    .handleIncomingTransaction (keySpend 102 0 8) true,
    .handleIncomingTransaction (keySpend 103 1 9) true,
    .handleIncomingTransaction (multisignatureSpend 104 0 []) true,
    .handleIncomingTransaction (multisignatureSpend 105 1 [0]) true] ++
  (fastBlocks ++ slowBlocks ++ [throwingBlock, checkpointBlock] ++ cleaningBlocks).map
    .addNewBlock ++
  [.handleIncomingTransaction (keySpend 101 0 7) true, .addNewBlock interruptedBlock]

/-- The last block makes a node lose its checkpoint. -/
def LosesCheckpoint (core : Core) : Prop :=
  let last := Call.addNewBlock lastBlock
  (last.run lostNetwork 100000 2 core).isStuck = false ∧
    core.main.blocks[5]?.map BlockEntry.bl = some checkpointBlock ∧
    (Core.perform lostNetwork 100000 last core).main.blocks[5]? = none

instance : DecidablePred LosesCheckpoint := fun core => by
  unfold LosesCheckpoint
  infer_instance

/-- All calls are made at one time, and no two of the blocks have one identifier. The last switch
disconnects the checkpoint and cannot connect it again: an index that an exception left leads its
transaction to another output. -/
theorem checkpoint_lost :
    Set.InjOn lostNetwork.crypto.getBlockHash {b | b ∈ lostBlocks} ∧
    ∃ clock core core', Run lostNetwork (fun clock now core call => now = 100000 ∧
        SubmitsOnly lostBlocks clock now core call) clock core ∧
      Step lostNetwork 100000 core (.addNewBlock lastBlock) core' ∧
      core.main.blocks[5]?.map BlockEntry.bl = some checkpointBlock ∧
      lostNetwork.checkpoints.point? 5 = some (lostNetwork.crypto.getBlockHash checkpointBlock) ∧
      core'.main.blocks[5]? = none := by
  refine ⟨injOn_of_nodup (by decide +kernel), ?_⟩
  have hstart : Run lostNetwork (fun clock now core call => now = 100000 ∧
      SubmitsOnly lostBlocks clock now core call) 0 (onGenesis lostNetwork) :=
    .start (onGenesis_initial_of (by decide +kernel))
  have hok : ∀ entry ∈ lostCalls.map fun call => (100000, call), ∀ clock core,
      entry.1 = 100000 ∧ SubmitsOnly lostBlocks clock entry.1 core entry.2 := by
    intro entry hentry _ _
    obtain ⟨call, hcall, rfl⟩ := mem_map.mp hentry
    refine ⟨rfl, fun bl hbl => ?_⟩
    have hbl : .addNewBlock bl ∈ lostCalls := by
      rw [← hbl]
      exact hcall
    rcases mem_append.mp hbl with hearly | hlate
    · rcases mem_append.mp hearly with hpool | hblocks
      · simp at hpool
      obtain ⟨b, hb, heq⟩ := mem_map.mp hblocks
      cases heq
      exact mem_cons_of_mem _ (mem_append_left _ hb)
    · have hlast : bl = interruptedBlock := by simpa using hlate
      rw [hlast]
      exact mem_cons_of_mem _ (mem_append_right _ mem_cons_self)
  obtain ⟨clock, core, hrun, hreturns, hbefore, hafter⟩ :=
    exists_run_of_performAll _ LosesCheckpoint hok hstart (by decide +kernel)
  exact ⟨clock, core, _, hrun, step_perform hreturns, hbefore, by decide, hafter⟩

end DarknetCoin
