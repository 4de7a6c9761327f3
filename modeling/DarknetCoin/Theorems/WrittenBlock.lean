import DarknetCoin.Data.Grown
import DarknetCoin.Theorems.Retention

/-!
# What a pushed block leaves in the storage

A successful `pushBlock` appends one entry and updates the containers that are kept once a block;
`popBlock` takes all of it back, in every state a node reaches.
-/

namespace DarknetCoin

open Semantics Data MainChain

/-- The transactions of a block after the miner transaction. -/
def BlockEntry.others (block : BlockEntry) : List Transaction :=
  (block.transactions.drop 1).map TransactionEntry.tx

/-- The totals of a block: the size of all its transactions, the fees and the interests. -/
def BlockEntry.totals (cur : Currency) (block : BlockEntry) : BlockTotals :=
  block.others.foldl (BlockTotals.add cur) (minerTotals block.bl)

/-- The coins generated up to the last of some blocks. -/
def coinsOf (blocks : List BlockEntry) : Nat :=
  (blocks.getLast?.map BlockEntry.alreadyGeneratedCoins).getD 0

/-- The median of the sizes of the last blocks, as the reward of the next one uses it. -/
def rewardMedian (cur : Currency) (blocks : List BlockEntry) : Nat :=
  medianValue ((blocks.drop (blocks.length - min blocks.length cur.rewardBlocksWindow)).map
    BlockEntry.blockCumulativeSize)

/-- The base reward of a block of a size on the blocks below it, after the penalty for its size. -/
def emissionOf (cur : Currency) (below : List BlockEntry) (size : Nat) : Nat :=
  Currency.getPenalizedAmount (cur.baseRewardFunction (coinsOf below) below.length)
    (max (rewardMedian cur below) cur.blockGrantedFullRewardZone) size

namespace MainChain

variable {cur : Currency} {crypto : Crypto} {now : Nat} {checkpoints : Checkpoints}
  {main main' : MainChain} {blockData : Block} {transactions : List Transaction}

/-- What one successful push establishes about the storage. -/
structure Written (cur : Currency) (crypto : Crypto) (now : Nat) (checkpoints : Checkpoints)
    (blockData : Block) (txs : List Transaction) (main : MainChain) (block : BlockEntry)
    (main' : MainChain) : Prop where
  appended : Appended cur crypto blockData txs main block main'
  header : HeaderAccepted cur crypto now checkpoints main blockData
    (getDifficultyForNextBlock cur main.blocks)
  depositIndex : main'.depositIndex =
    main.depositIndex.pushBlock (depositChange block) (block.totals cur).interestSummary
  votingCompleteHeight : main'.votingCompleteHeight =
    votingAfterPush cur main'.blocks main.votingCompleteHeight
  size : block.blockCumulativeSize = (block.totals cur).cumulativeBlockSize
  size_le : block.blockCumulativeSize ≤ cur.maxBlockCumulativeSize main.blocks.length
  reward_size : block.blockCumulativeSize ≤
    mul64 2 (max (rewardMedian cur main.blocks) cur.blockGrantedFullRewardZone)
  reward : 1 < main.blocks.length → getOutsMoneyAmount blockData.baseTransaction =
    add64 (emissionOf cur main.blocks block.blockCumulativeSize) (block.totals cur).feeSummary
  coins : block.alreadyGeneratedCoins =
    add64 (add64 (coinsOf main.blocks) (emissionOf cur main.blocks block.blockCumulativeSize))
      (block.totals cur).interestSummary

variable {size coins fee height emission : Nat}

/-- The reward of a block that is not too large is the penalised base reward and the fees. -/
theorem getBlockReward_eq_some {median reward : Nat}
    (h : cur.getBlockReward median size coins fee height = some (reward, emission)) :
    size ≤ mul64 2 (max median cur.blockGrantedFullRewardZone) ∧
      emission = Currency.getPenalizedAmount (cur.baseRewardFunction coins height)
        (max median cur.blockGrantedFullRewardZone) size ∧ reward = add64 emission fee := by
  unfold Currency.getBlockReward at h
  dsimp only at h
  split at h
  · cases h
  rename_i hsize
  cases h
  exact ⟨not_lt.mp hsize, rfl, rfl⟩

/-- The check of the miner transaction gives the emission, and compares from height two on. -/
theorem validateMinerTransaction_eq_some
    (h : main.validateMinerTransaction cur blockData height size coins fee = some emission) :
    size ≤ mul64 2 (max (rewardMedian cur main.blocks) cur.blockGrantedFullRewardZone) ∧
      emission = Currency.getPenalizedAmount (cur.baseRewardFunction coins height)
        (max (rewardMedian cur main.blocks) cur.blockGrantedFullRewardZone) size ∧
      (1 < height → getOutsMoneyAmount blockData.baseTransaction = add64 emission fee) := by
  unfold validateMinerTransaction at h
  dsimp only at h
  split at h
  · cases h
  rename_i reward emissionChange hreward
  obtain ⟨hsize, hemission, hpaid⟩ := getBlockReward_eq_some hreward
  split at h
  · cases h
  rename_i hcompared
  cases h
  refine ⟨hsize, hemission, fun hheight => ?_⟩
  by_contra hne
  exact hcompared ⟨hheight, fun heq => hne (heq.trans hpaid)⟩

/-- What a successful push has written. -/
theorem pushBlock_written
    (h : pushBlock cur crypto now checkpoints blockData transactions main = .done .added main') :
    ∃ block, Written cur crypto now checkpoints blockData transactions main block main' := by
  obtain ⟨difficulty, block', totals, filled, emission, hsteps, rfl⟩ := pushBlock_eq_added_iff.mp h
  have hfilled := hsteps.storage
  have hheader := checkHeader_eq_accept.mp hsteps.header
  rw [hheader.difficulty] at hheader
  -- the entry that is appended is the finished block
  obtain ⟨new, hnew⟩ : ∃ new, new = finishBlock filled block' totals difficulty emission := ⟨_, rfl⟩
  have happended := hsteps.appended
  rw [← hnew] at happended ⊢
  have htotals : new.totals cur = totals := by
    have hothers : new.others = (transactions.zip blockData.transactionHashes).map Prod.fst := by
      rw [BlockEntry.others, List.map_drop, happended.transactions]
      rfl
    rw [BlockEntry.totals, hothers, happended.bl, hsteps.totals_eq]
  have hcumul : new.blockCumulativeSize = totals.cumulativeBlockSize := by rw [hnew]; rfl
  obtain ⟨hlimit, hemission, hpaid⟩ := validateMinerTransaction_eq_some hsteps.reward
  have hcoins : filled.alreadyGeneratedCoins = coinsOf main.blocks := by
    rw [← hfilled.blocks]
    rfl
  have hsize := hsteps.size
  rw [hfilled.blocks] at hlimit hemission hpaid hsize
  rw [hcoins] at hemission
  have hemission' : emission = emissionOf cur main.blocks new.blockCumulativeSize := by
    rw [hemission, emissionOf, hcumul]
  refine ⟨new, happended, hheader, ?_, ?_, ?_, ?_, ?_, ?_, ?_⟩
  · rw [htotals, ← hfilled.depositIndex]
    rfl
  · rw [← hfilled.votingCompleteHeight]
    rfl
  · rw [hcumul, htotals]
  · rw [hcumul]
    simpa [checkCumulativeBlockSize] using hsize
  · rw [hcumul]
    exact hlimit
  · intro hheight
    rw [hpaid hheight, htotals, hemission']
  · rw [← hemission', htotals, ← hcoins, hnew]
    rfl

end MainChain

variable {net : Network} {supply : Supply} {M : MainChain → Prop}

/-- A property of the storage that every written block and every pop keep is an invariant: all
other writes leave the storage alone. -/
theorem storage_invariant (hsame : ∀ main main', SameStorage main main' → M main → M main')
    (hpush : ∀ (now : Nat) (blockData : Block) (transactions : List Transaction) (main : MainChain)
      (block : BlockEntry) (main' : MainChain), supply.Good blockData →
      (∀ tx ∈ transactions, supply.Tx tx) →
      Written net.cur net.crypto now net.checkpoints blockData transactions main block main' →
      M main → M main') (hpop : ∀ main main', MainChain.Unwritten main main' → M main → M main') :
    MainInvariant net supply M where
  push now blockData transactions hgood htx _ main hmain := by
    have hstorage : (pushBlock net.cur net.crypto now net.checkpoints blockData
        transactions main).Holds (fun result main' => result = .added ∨
          SameStorage main main') (SameStorage main) :=
      pushBlock_sameStorage
    cases ho : pushBlock net.cur net.crypto now net.checkpoints blockData transactions main with
    | stuck => trivial
    | thrown main' =>
      rw [ho] at hstorage
      exact hsame main main' hstorage hmain
    | done result main' =>
      rcases hstorage.of_done ho with rfl | hkept
      · obtain ⟨block, hwritten⟩ := pushBlock_written ho
        exact hpush _ _ _ main block main' hgood htx hwritten hmain
      · exact hsame main main' hkept hmain
  pop main _ hmain _ := by
    refine (unlinkBlock_storage _).mono ?_ fun main' h => hsame main main' h hmain
    intro _ main' hstorage
    rcases hstorage with ⟨hkept, -⟩ | hunwritten
    · exact hsame main main' hkept hmain
    · exact hpop main main' hunwritten hmain

/-- What every push of a supplied block establishes about its entry and the blocks below holds
along the main chain of a node. -/
theorem grown_invariant {Q : List BlockEntry → BlockEntry → Prop}
    (hQ : ∀ (now : Nat) (blockData : Block) (transactions : List Transaction) (main : MainChain)
      (block : BlockEntry) (main' : MainChain), supply.Good blockData →
      (∀ tx ∈ transactions, supply.Tx tx) →
      Written net.cur net.crypto now net.checkpoints blockData transactions main block main' →
      Q main.blocks block) : MainInvariant net supply fun main => Grown Q main.blocks := by
  apply storage_invariant
  · intro main main' hstorage hmain
    rw [hstorage.blocks]
    exact hmain
  · intro now blockData transactions main block main' hgood htx hwritten hmain
    rw [hwritten.appended.blocks]
    exact hmain.concat (hQ _ _ _ _ _ _ hgood htx hwritten)
  · intro main main' hunwritten hmain
    rw [hunwritten.blocks]
    exact hmain.dropLast

end DarknetCoin
