import DarknetCoin.Theorems.MinerTransaction
import DarknetCoin.Theorems.TemplateSelection

/-!
# Block templates

`pushBlock` computes size, fees and reward of a block from its transactions, `get_block_template`
from the entries of the pool. They agree. The selection is held to the largest size of a block and
the miner transaction comes on top of it, so the block fits when the selection leaves room.
-/

namespace DarknetCoin

open Semantics Data MainChain DarknetCoin.Core List

/-- The block takes the entries `selected` of the pool, no two of which have anything in common. Its
size is allowed, and its miner transaction has the reward that `validate_miner_transaction`
computes. -/
structure Block.Template (net : Network) (core : Core) (selected : List TransactionDetails)
    (b : Block) : Prop where
  subset : selected ⊆ core.mempool.transactions
  transactionHashes : b.transactionHashes = selected.map fun txd => net.crypto.getObjectHash txd.tx
  nodup : b.transactionHashes.Nodup
  independent : selected.Pairwise fun a b => a.tx.Independent b.tx
  size_le : (blockTotals net.cur b (selected.map TransactionDetails.tx)).cumulativeBlockSize ≤
    net.cur.maxBlockCumulativeSize core.main.blocks.length
  reward : ∃ emissionChange,
    net.cur.getBlockReward (medianValue (core.main.getLastNBlocksSizes net.cur.rewardBlocksWindow))
      (blockTotals net.cur b (selected.map TransactionDetails.tx)).cumulativeBlockSize
      core.main.alreadyGeneratedCoins
      (blockTotals net.cur b (selected.map TransactionDetails.tx)).feeSummary
      core.main.blocks.length = some (getOutsMoneyAmount b.baseTransaction, emissionChange)

section Totals

variable {cur : Currency} {selected : List TransactionDetails}

theorem foldl_cumulativeBlockSize (hmeasured : ∀ txd ∈ selected, txd.Measured cur)
    (totals : BlockTotals) :
    ((selected.map TransactionDetails.tx).foldl (BlockTotals.add cur) totals).cumulativeBlockSize =
        totals.cumulativeBlockSize + (selected.map TransactionDetails.blobSize).sum := by
  induction selected generalizing totals with
  | nil => rfl
  | cons txd rest ih =>
    have hsize := (hmeasured txd mem_cons_self).blobSize
    rw [map_cons, foldl_cons, ih fun other hother =>
      hmeasured other (mem_cons_of_mem _ hother)]
    simp only [BlockTotals.add, map_cons, sum_cons]
    omega

theorem foldl_feeSummary (hmeasured : ∀ txd ∈ selected, txd.Measured cur) (totals : BlockTotals) :
    ((selected.map TransactionDetails.tx).foldl (BlockTotals.add cur) totals).feeSummary =
      selected.foldl (fun fee txd => add64 fee txd.fee) totals.feeSummary := by
  rw [foldl_map]
  refine foldl_rel (r := fun totals fee => BlockTotals.feeSummary totals = fee) rfl
    fun txd hmem totals fee h => ?_
  rw [BlockTotals.add, (hmeasured txd hmem).fee_eq_sub64, ← h]

end Totals

theorem getBlockReward_max (cur : Currency) (medianSize currentBlockSize coins fee height : Nat) :
    cur.getBlockReward (max medianSize cur.blockGrantedFullRewardZone) currentBlockSize coins fee
      height = cur.getBlockReward medianSize currentBlockSize coins fee height := by
  unfold Currency.getBlockReward
  rw [max_assoc, max_self]

variable {net : Network} {b : Block}

theorem Core.getBlockTemplateFor_eq_done {now : Nat} {keys : MinerKeys} {exNonce : List UInt8}
    {core core' : Core} (h : getBlockTemplateFor net now keys exNonce core = .done (some b) core') :
    ∃ template pool', TxMemoryPool.fillBlockTemplate net.cur (core.validator net now)
        (core.currentBlockCumulSzLimit / 2)
        (net.cur.maxBlockCumulativeSize core.main.blocks.length) core.mempool =
        .done template pool' ∧
      b.transactionHashes = template.txHashes ∧ minerTransactionFor (fun attempt currentBlockSize =>
        net.cur.constructMinerTx core.main.blocks.length (core.currentBlockCumulSzLimit / 2)
          core.main.alreadyGeneratedCoins currentBlockSize template.fee keys attempt exNonce 11)
        template.totalSize = some b.baseTransaction := by
  unfold getBlockTemplateFor at h
  rw [Program.get_bind_run] at h
  split at h
  · cases h
  obtain ⟨template, filled, hfill, hrest⟩ := Program.bind_eq_done.mp h
  obtain ⟨pool', hpool, -⟩ := Outcome.mapState_eq_done.mp hfill
  obtain ⟨baseTransaction, hfit, hblock⟩ := Option.map_eq_some_iff.mp (Outcome.done.inj hrest).1
  refine ⟨template, pool', hpool, ?_⟩
  rw [← hblock]
  exact ⟨rfl, hfit⟩

/-- For a node whose size limit is that of its chain and which can select no more than leaves room
for the miner transaction. -/
theorem template_of_run {net : Network} {Ok : Nat → Nat → Core → Call → Prop} {clock now : Nat}
    {core core' : Core} {keys : MinerKeys} {exNonce : List UInt8} {b : Block}
    (hrun : Run net Ok clock core)
    (hlimit : core.currentBlockCumulSzLimit / 2 =
      max (medianValue (core.main.getLastNBlocksSizes net.cur.rewardBlocksWindow))
        net.cur.blockGrantedFullRewardZone)
    (hroom : min (net.cur.selectionLimit (core.currentBlockCumulSzLimit / 2)
        (net.cur.maxBlockCumulativeSize core.main.blocks.length))
      (core.mempool.transactions.map TransactionDetails.blobSize).sum + minerTxMaxSize exNonce ≤
        net.cur.maxBlockCumulativeSize core.main.blocks.length)
    (htemplate : getBlockTemplateFor net now keys exNonce core = .done (some b) core') :
    ∃ selected, b.Template net core selected := by
  have hpool := (supplied_of_run hrun).pool
  have hsem := hpool.bookkeeping.semantic
  obtain ⟨template, pool', hfill, hhashes, hfit⟩ := getBlockTemplateFor_eq_done htemplate
  obtain ⟨selected, hsel⟩ := TxMemoryPool.fillBlockTemplate_selects hfill
  obtain ⟨attempt, built, count, hbuilt, hpad, hsize⟩ := minerTransactionFor_eq_some
    (fun _ _ _ hconstruct => (Currency.constructMinerTx_eq_some hconstruct).1) hfit
  obtain ⟨-, ⟨emissionChange, hreward⟩, -⟩ := Currency.constructMinerTx_eq_some hbuilt
  have hmeasured : ∀ txd ∈ selected, txd.Measured net.cur := fun txd htxd =>
    (TxMemoryPool.measured_invariant net).of_run hrun txd (hsel.subset htxd)
  -- the totals that `pushBlock` computes are those of the template
  have hcumul : (blockTotals net.cur b (selected.map TransactionDetails.tx)).cumulativeBlockSize =
        template.totalSize + getObjectBinarySize b.baseTransaction := by
    unfold blockTotals
    rw [foldl_cumulativeBlockSize hmeasured, ← hsel.totalSize, add_comm]
    rfl
  have hfees : (blockTotals net.cur b (selected.map TransactionDetails.tx)).feeSummary =
      template.fee := by
    unfold blockTotals
    rw [foldl_feeSummary hmeasured, hsel.fee]
    rfl
  refine ⟨selected, hsel.subset, ?_, ?_, hsel.independent, ?_, emissionChange, ?_⟩
  · rw [hhashes, hsel.txHashes]
    exact map_congr_left fun txd htxd => (hpool.details txd (hsel.subset htxd)).2
  · rw [hhashes]
    exact hsel.txHashes_nodup hsem hpool.bookkeeping.ids_nodup
  · have hselection : template.totalSize ≤ min _ _ :=
      le_min hsel.totalSize_le (hsel.sum_le hsem)
    rw [hcumul]
    exact (add_le_add hselection hsize).trans hroom
  · -- padding does not touch the outputs
    have houts : getOutsMoneyAmount b.baseTransaction = getOutsMoneyAmount built := by
      rw [hpad]
      rfl
    rw [hcumul, hfees, houts, ← hreward, hlimit, getBlockReward_max]

/-- The keys of some miner. -/
def someMiner : MinerKeys where
  txPublicKey attempt := attempt
  outputKey _ no := some no

/-- A transaction that spends the output of the genesis block and fills a block alone. -/
def bulkyTransaction : Transaction where
  version := 1
  unlockTime := 0
  inputs := [.key ⟨100000000, [0], 7⟩]
  outputs := []
  extra := List.replicate 200 50
  signatures := [[0]]

/-- The node on its genesis block takes a transaction into its pool. -/
def pooledCalls : List (Nat × Call) := [(0, .handleIncomingTransaction bulkyTransaction false)]

/-- The block of a template made at time 1000. -/
def templateBlock? (net : Network) (core : Core) : Option Block :=
  (getBlockTemplateFor net 1000 someMiner [] core).value?.join

/-- The template made in `core` has the transaction, and `core` meets what a template needs. -/
def HasRoom (core : Core) : Prop :=
  core.currentBlockCumulSzLimit / 2 =
    max (medianValue (core.main.getLastNBlocksSizes openNetwork.cur.rewardBlocksWindow))
      openNetwork.cur.blockGrantedFullRewardZone ∧
  min (openNetwork.cur.selectionLimit (core.currentBlockCumulSzLimit / 2)
      (openNetwork.cur.maxBlockCumulativeSize core.main.blocks.length))
    (core.mempool.transactions.map TransactionDetails.blobSize).sum + minerTxMaxSize [] ≤
      openNetwork.cur.maxBlockCumulativeSize core.main.blocks.length ∧
  (templateBlock? openNetwork core).map Block.transactionHashes = some [51]

instance : DecidablePred HasRoom := fun core => by
  unfold HasRoom
  infer_instance

theorem getBlockTemplateFor_of_templateBlock? {core : Core} (h : templateBlock? net core = some b) :
    ∃ core', getBlockTemplateFor net 1000 someMiner [] core = .done (some b) core' := by
  have hvalue := Option.join_eq_some_iff.mp h
  exact ⟨_, @Outcome.eq_done_of_value? _ _ _ core _ hvalue⟩

/-- A template with the transaction. -/
theorem template_of_run_pooled :
    ∃ clock core core' b selected, Run openNetwork (fun _ _ _ _ => True) clock core ∧
      getBlockTemplateFor openNetwork 1000 someMiner [] core = .done (some b) core' ∧
      b.transactionHashes = [51] ∧ b.Template openNetwork core selected := by
  obtain ⟨clock, core, hrun, hlimit, hroom, hmade⟩ :=
    exists_run_of_genesis openNetwork pooledCalls HasRoom (onGenesis_initial_of (by decide +kernel))
      (by decide +kernel)
  obtain ⟨b, hb, hhashes⟩ := Option.map_eq_some_iff.mp hmade
  obtain ⟨core', htemplate⟩ := getBlockTemplateFor_of_templateBlock? hb
  obtain ⟨selected, hsel⟩ := template_of_run hrun hlimit hroom htemplate
  exact ⟨clock, core, core', b, selected, hrun, htemplate, hhashes, hsel⟩

/-- A network whose blocks have room for the transaction, or for a miner transaction, and not for
both. -/
def snugNetwork : Network :=
  ⟨{ Currency.mainnet with lockedTxAllowedDeltaBlocks := 100, maxBlockSizeInitial := 500 },
    Crypto.numbered, []⟩

/-- The template made in `core` has the transaction and is too large for the chain of `core`. -/
def Overfills (core : Core) : Prop :=
  core.currentBlockCumulSzLimit / 2 =
    max (medianValue (core.main.getLastNBlocksSizes snugNetwork.cur.rewardBlocksWindow))
      snugNetwork.cur.blockGrantedFullRewardZone ∧
  core.mempool.transactions.map TransactionDetails.tx = [bulkyTransaction] ∧
  ∃ b ∈ templateBlock? snugNetwork core, b.transactionHashes = [51] ∧
    getObjectBinarySize b.baseTransaction ≤
      snugNetwork.cur.maxBlockCumulativeSize core.main.blocks.length ∧
    snugNetwork.cur.maxBlockCumulativeSize core.main.blocks.length <
      (blockTotals snugNetwork.cur b [bulkyTransaction]).cumulativeBlockSize

instance : DecidablePred Overfills := fun core => by
  unfold Overfills
  infer_instance

/-- The selection fills the block, and the miner transaction no longer fits: `get_block_template`
returns a block that is larger than a block may be. -/
theorem template_overfills_block :
    ∃ clock core core' b, Run snugNetwork (fun _ _ _ _ => True) clock core ∧
      getBlockTemplateFor snugNetwork 1000 someMiner [] core = .done (some b) core' ∧
      core.mempool.transactions.map TransactionDetails.tx = [bulkyTransaction] ∧
      b.transactionHashes = [snugNetwork.crypto.getObjectHash bulkyTransaction] ∧
      snugNetwork.cur.maxBlockCumulativeSize core.main.blocks.length <
        (blockTotals snugNetwork.cur b [bulkyTransaction]).cumulativeBlockSize := by
  obtain ⟨clock, core, hrun, _, hpool, b, hb, hhashes, _, hlarge⟩ :=
    exists_run_of_genesis snugNetwork pooledCalls Overfills
      (onGenesis_initial_of (by decide +kernel)) (by decide +kernel)
  obtain ⟨core', htemplate⟩ := getBlockTemplateFor_of_templateBlock? hb
  exact ⟨clock, core, core', b, hrun, htemplate, hpool, hhashes.trans (by decide), hlarge⟩

end DarknetCoin
