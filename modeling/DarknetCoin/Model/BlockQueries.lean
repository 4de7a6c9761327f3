import DarknetCoin.Data.Doubling
import DarknetCoin.Model.Core

/-!
# Block queries of wallets

A wallet that catches up sends the identifiers it knows and a time before which its transactions do
not interest it. It is told identifiers, up to a height found by a binary search over the
timestamps, then blocks, the later ones with their transactions. A serialised block or transaction
stands here for itself.
-/

namespace DarknetCoin

open Semantics Data

/-! ### Sparse chains

What two nodes exchange to find out where their chains part: the requester sends a sparse list of
identifiers, newest first, and the responder answers with the height of the first one it knows. The
list can start from an alternative block; its alternative part and its part in the main chain are
thinned out separately. -/

namespace BlockIndex

/-- `findSupplement`: the height of the first identifier that is in the index. -/
def findSupplement (index : BlockIndex) (ids : List Hash) : Option Nat :=
  ids.findSome? index.blockHeight?

/-- `buildSparseChain`. For an identifier that is not in the index the height is not set. -/
def buildSparseChain (index : BlockIndex) (startBlockId : Hash) : Except Fault (List Hash) :=
  match index.blockHeight? startBlockId with
  | none => .error .undefined
  | some startBlockHeight =>
    let sparseChainEnd := startBlockHeight + 1
    let result := (Doubling.upTo sparseChainEnd).filterMap fun i => index[sparseChainEnd - i]?
    .ok (if result.getLast? ≠ index[0]? then result ++ index[0]?.toList else result)

end BlockIndex

namespace MainChain

/-- `findBlockchainSupplement`. When no identifier is known the result is not set. -/
def findBlockchainSupplement (main : MainChain) (qblockIds : List Hash) : Except Fault Nat :=
  match main.blockIndex.findSupplement qblockIds with
  | none => .error .undefined
  | some blockIndex => .ok blockIndex

end MainChain

namespace Core

/-- The alternative blocks from `id` down, and the first ancestor that is none. The loop does not
end when the blocks form a cycle. -/
def alternativeAncestry (core : Core) : Nat → Hash → Except Fault (List Hash × Hash)
  | steps, id =>
    match core.findAlternative id with
    | none => .ok ([], id)
    | some entry =>
      match steps with
      | 0 => .error .undefined
      | steps + 1 =>
        match alternativeAncestry core steps entry.bl.previousBlockHash with
        | .error fault => .error fault
        | .ok (alternativeChain, blockchainAncestor) =>
          .ok (id :: alternativeChain, blockchainAncestor)

def doBuildSparseChain (core : Core) (startBlockId : Hash) : Except Fault (List Hash) :=
  if core.main.blockIndex.hasBlock startBlockId then
    core.main.blockIndex.buildSparseChain startBlockId
  else
    match core.alternativeAncestry core.alternativeChains.length startBlockId with
    | .error fault => .error fault
    | .ok (alternativeChain, blockchainAncestor) =>
      match core.main.blockIndex.buildSparseChain blockchainAncestor with
      | .error fault => .error fault
      | .ok sparseMainChain =>
        .ok ((Doubling.upTo alternativeChain.length).filterMap
          (fun i => alternativeChain[i - 1]?) ++ sparseMainChain)

/-- `buildSparseChain`, from the last block of the main chain. -/
def buildSparseChain (core : Core) : Except Fault (List Hash) :=
  core.doBuildSparseChain core.main.blockIndex.getTailId

end Core

def BlockIndex.getBlockIds (index : BlockIndex) (startBlockIndex maxCount : Nat) : List Hash :=
  (index.drop startBlockIndex).take maxCount

/-- `BLOCKS_IDS_SYNCHRONIZING_DEFAULT_COUNT`. -/
def blocksIdsSynchronizingDefaultCount : Nat := 10000

/-- `BLOCKS_SYNCHRONIZING_DEFAULT_COUNT`. -/
def blocksSynchronizingDefaultCount : Nat := 200

/-- What `getBlockByHeight` fills in. -/
structure BlockChain where
  hash : Hash
  block : Block
  size : Nat
  height : Nat
  blockCumulativeSize : Nat
  alreadyGeneratedCoins : Nat

/-- An entry of `queryBlocks`; without a body when only the identifier is known. -/
structure BlockFullInfo where
  blockId : Hash
  block : Option Block
  txs : List Transaction
  deriving DecidableEq

structure TransactionPrefixInfo where
  txHash : Hash
  txPrefix : TransactionPrefix
  deriving DecidableEq

/-- An entry of `queryBlocksLite`. -/
structure BlockShortInfo where
  blockId : Hash
  block : Option Block
  txPrefixes : List TransactionPrefixInfo
  deriving DecidableEq

/-- What a query returns. -/
structure QueryResult (ε : Type) where
  startHeight : Nat
  currentHeight : Nat
  fullOffset : Nat
  entries : List ε
  deriving DecidableEq

namespace MainChain

variable (cur : Currency) (crypto : Crypto) (main : MainChain)

/-- `getBlockByHeight`. The height above the last block passes the check. -/
def getBlockByHeight (blockHeight : Nat) : Except Fault (Option BlockChain) :=
  if main.blocks.length < blockHeight then .ok none
  else
    match main.blockIndex.getBlockId blockHeight with
    | .error fault => .error fault
    | .ok hash =>
      match main.blocks[blockHeight]? with
      | none => .error .exception
      | some entry => .ok (some ⟨hash, entry.bl, entry.blockCumulativeSize % word32, blockHeight,
          entry.blockCumulativeSize, entry.alreadyGeneratedCoins⟩)

/-- `std::lower_bound` over the timestamps from `startOffset` on, for a time that is earlier by the
limit on block times. The subtraction is one of 64-bit words. -/
def getLowerBound (timestamp startOffset : Nat) : Option Nat :=
  let bound := startOffset + BinarySearch.partitionPoint
    (fun entry => entry.bl.timestamp < sub64 timestamp cur.blockFutureTimeLimit)
    (main.blocks.drop startOffset)
  if bound = main.blocks.length then none else some bound

def getBlocks (startOffset count : Nat) : List Block :=
  ((main.blocks.drop startOffset).take count).map BlockEntry.bl

/-- `getTransactions` without the pool: the transactions that were found, and the other hashes. -/
def getTransactions : List Hash → Except Fault (List Transaction × List Hash)
  | [] => .ok ([], [])
  | txId :: txsIds =>
    match main.transactionMap txId with
    | none =>
      match getTransactions txsIds with
      | .error fault => .error fault
      | .ok (txs, missedTxs) => .ok (txs, txId :: missedTxs)
    | some index =>
      match main.transactionByIndex index with
      | .error fault => .error fault
      | .ok entry =>
        match getTransactions txsIds with
        | .error fault => .error fault
        | .ok (txs, missedTxs) => .ok (entry.tx :: txs, missedTxs)

/-- `findStartAndFullOffsets`; `none` when it refuses the identifiers. -/
def findStartAndFullOffsets (knownBlockIds : List Hash) (timestamp : Nat) :
    Except Fault (Option (Nat × Nat)) :=
  match knownBlockIds.getLast? with
  | none => .ok none
  | some last =>
    match main.blockIndex.getBlockId 0 with
    | .error fault => .error fault
    | .ok genesis =>
      if last ≠ genesis then .ok none
      else
        match main.findBlockchainSupplement knownBlockIds with
        | .error fault => .error fault
        | .ok startOffset =>
          .ok (some (startOffset, (main.getLowerBound cur timestamp startOffset).getD startOffset))

def findIdsForShortBlocks (startOffset startFullOffset : Nat) : List Hash :=
  if startOffset < startFullOffset then
    main.blockIndex.getBlockIds startOffset
      (min blocksIdsSynchronizingDefaultCount (startFullOffset - startOffset))
  else []

section Queries

variable {ε : Type} (idOnly : Hash → ε) (complete : Block → List Transaction → ε)

/-- The entry of a block that is returned in full if it is not too old. -/
def queryEntry (timestamp : Nat) (b : Block) : Except Fault ε :=
  if timestamp ≤ b.timestamp then
    match main.getTransactions b.transactionHashes with
    | .error fault => .error fault
    | .ok (txs, _) => .ok (complete b txs)
  else .ok (idOnly (crypto.getBlockHash b))

/-- The loop over the blocks. -/
def queryEntries (timestamp : Nat) : List Block → Except Fault (List ε)
  | [] => .ok []
  | b :: blocks =>
    match main.queryEntry crypto idOnly complete timestamp b with
    | .error fault => .error fault
    | .ok entry =>
      match queryEntries timestamp blocks with
      | .error fault => .error fault
      | .ok entries => .ok (entry :: entries)

/-- The two queries, for entries of any kind. -/
def query (knownBlockIds : List Hash) (timestamp : Nat) : Except Fault (Option (QueryResult ε)) :=
  match main.findStartAndFullOffsets cur knownBlockIds timestamp with
  | .error fault => .error fault
  | .ok none => .ok none
  | .ok (some (startOffset, startFullOffset)) =>
    let shortEntries := (main.findIdsForShortBlocks startOffset startFullOffset).map idOnly
    let blocksLeft := min (blocksIdsSynchronizingDefaultCount - shortEntries.length)
      blocksSynchronizingDefaultCount
    match main.queryEntries crypto idOnly complete timestamp
        (main.getBlocks startFullOffset blocksLeft) with
    | .error fault => .error fault
    | .ok entries =>
      .ok (some ⟨startOffset, main.blocks.length, startFullOffset, shortEntries ++ entries⟩)

end Queries

def queryBlocks (knownBlockIds : List Hash) (timestamp : Nat) :
    Except Fault (Option (QueryResult BlockFullInfo)) :=
  main.query cur crypto (fun id => ⟨id, none, []⟩)
    (fun b txs => ⟨crypto.getBlockHash b, some b, txs⟩) knownBlockIds timestamp

def queryBlocksLite (knownBlockIds : List Hash) (timestamp : Nat) :
    Except Fault (Option (QueryResult BlockShortInfo)) :=
  main.query cur crypto (fun id => ⟨id, none, []⟩)
    (fun b txs => ⟨crypto.getBlockHash b, some b,
      txs.map fun tx => ⟨crypto.getObjectHash tx, tx.toTransactionPrefix⟩⟩) knownBlockIds timestamp

end MainChain

end DarknetCoin
