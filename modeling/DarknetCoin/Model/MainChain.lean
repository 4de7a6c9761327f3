import DarknetCoin.Data.Table
import DarknetCoin.Model.TransactionPool

/-!
# The main chain and the checks made against it

The part of `Blockchain` that describes the main chain, with every function of `Blockchain.cpp` that
only reads it. Reading the block storage past its end throws an exception, reading a vector past its
end is undefined.
-/

namespace DarknetCoin

open Semantics Data

/-- The main chain: its blocks, and what is derived from them. -/
structure MainChain where
  blocks : List BlockEntry
  blockIndex : BlockIndex
  transactionMap : Hash → Option TransactionIndex
  spentKeys : KeyImage → Bool
  outputs : Table Nat (TransactionIndex × Nat)
  multisignatureOutputs : Table Nat MultisignatureOutputUsage
  depositIndex : DepositIndex
  paymentIdIndex : PaymentIdIndex
  timestampIndex : TimestampIndex
  generatedTransactionsIndex : GeneratedTransactionsIndex
  votingCompleteHeight : Nat

namespace MainChain

def empty : MainChain where
  blocks := []
  blockIndex := []
  transactionMap := fun _ => none
  spentKeys := fun _ => false
  outputs := Table.empty
  multisignatureOutputs := Table.empty
  depositIndex := DepositIndex.empty
  paymentIdIndex := 0
  timestampIndex := 0
  generatedTransactionsIndex := GeneratedTransactionsIndex.empty
  votingCompleteHeight := undefHeight

variable (cur : Currency) (crypto : Crypto) (now : Nat) (main : MainChain)

def getTailId : Hash := if main.blocks = [] then nullHash else main.blockIndex.getTailId

/-- `upgradeHeight` of the upgrade detector. -/
def upgradeHeight : Nat :=
  if cur.upgradeHeight = undefHeight then
    if main.votingCompleteHeight = undefHeight then undefHeight
    else cur.calculateUpgradeHeight main.votingCompleteHeight
  else cur.upgradeHeight

/-- `get_block_major_version_for_height`. -/
def getBlockMajorVersionForHeight (height : Nat) : Nat :=
  if main.upgradeHeight cur < height then 2 else 1

def checkBlockVersion (b : Block) : Bool :=
  b.majorVersion == main.getBlockMajorVersionForHeight cur (getBlockHeight b)

def isVotingComplete (blocks : List BlockEntry) (height : Nat) : Bool :=
  if height < cur.upgradeVotingWindow - 1 then false
  else
    let window := (blocks.drop (height + 1 - cur.upgradeVotingWindow)).take cur.upgradeVotingWindow
    let voteCounter := window.countP fun entry =>
      entry.bl.majorVersion == 1 && entry.bl.minorVersion == 1
    cur.upgradeVotingThreshold * cur.upgradeVotingWindow ≤ 100 * voteCounter

/-- `blockPushed` of the upgrade detector, with the new block already in `blocks`. -/
def votingAfterPush (blocks : List BlockEntry) (votingCompleteHeight : Nat) : Nat :=
  if cur.upgradeHeight ≠ undefHeight then votingCompleteHeight
  else if votingCompleteHeight ≠ undefHeight then votingCompleteHeight
  else if isVotingComplete cur blocks (blocks.length - 1) then blocks.length - 1
  else votingCompleteHeight

/-- `blockPopped` of the upgrade detector, with the block already gone from `blocks`. -/
def votingAfterPop (blocks : List BlockEntry) (votingCompleteHeight : Nat) : Nat :=
  if votingCompleteHeight ≠ undefHeight ∧ blocks.length = votingCompleteHeight then undefHeight
  else votingCompleteHeight

/-- `check_block_timestamp`. -/
def checkBlockTimestamp (timestamps : List Nat) (b : Block) : Bool :=
  if timestamps.length < cur.timestampCheckWindow then true
  else medianValue timestamps ≤ b.timestamp

/-- `check_block_timestamp_main`. -/
def checkBlockTimestampMain (b : Block) : Bool :=
  if now + cur.blockFutureTimeLimit < b.timestamp then false
  else
    let offset := main.blocks.length - cur.timestampCheckWindow
    checkBlockTimestamp cur ((main.blocks.drop offset).map fun entry => entry.bl.timestamp) b

/-- `getDifficultyForNextBlock`, a function of the blocks alone. -/
def getDifficultyForNextBlock (blocks : List BlockEntry) : Nat :=
  let offset := blocks.length - min blocks.length cur.difficultyBlocksCount
  let offset := if offset = 0 then 1 else offset
  let window := blocks.drop offset
  cur.nextDifficulty (window.map fun entry => entry.bl.timestamp)
    (window.map BlockEntry.cumulativeDifficulty)

/-- `get_last_n_blocks_sizes`. -/
def getLastNBlocksSizes (count : Nat) : List Nat :=
  (main.blocks.drop (main.blocks.length - min main.blocks.length count)).map
    BlockEntry.blockCumulativeSize

/-- `prevalidate_miner_transaction`. -/
def prevalidateMinerTransaction (b : Block) (height : Nat) : Except Fault Bool :=
  match b.baseTransaction.inputs with
  | [.base input] =>
    if input.blockIndex ≠ height then .ok false
    else if b.baseTransaction.unlockTime ≠ height + cur.minedMoneyUnlockWindow then .ok false
    else
      match checkOutsValid crypto false b.baseTransaction with
      | .error fault => .error fault
      | .ok false => .ok false
      | .ok true => .ok (checkOutsOverflow b.baseTransaction)
  | _ => .ok false

/-- `validate_miner_transaction`: the change of the emission, `none` when the check fails. -/
def validateMinerTransaction (b : Block)
    (height cumulativeBlockSize alreadyGeneratedCoins fee : Nat) : Option Nat :=
  let minerReward := getOutsMoneyAmount b.baseTransaction
  let blocksSizeMedian := medianValue (main.getLastNBlocksSizes cur.rewardBlocksWindow)
  match cur.getBlockReward blocksSizeMedian cumulativeBlockSize alreadyGeneratedCoins fee
      height with
  | none => none
  | some (reward, emissionChange) =>
    if 1 < height ∧ minerReward ≠ reward then none else some emissionChange

def checkCumulativeBlockSize (cumulativeBlockSize height : Nat) : Bool :=
  cumulativeBlockSize ≤ cur.maxBlockCumulativeSize height

/-- `check_tx_outputs`. -/
def checkTxOutputs (tx : Transaction) : Bool :=
  tx.outputs.all fun out =>
    match out.target with
    | .key _ => true
    | .multisignature target =>
      2 ≤ tx.version &&
        (target.term == 0 ||
          (cur.depositMinTerm ≤ target.term && target.term ≤ cur.depositMaxTerm &&
            cur.depositMinAmount ≤ out.amount))

/-- `is_tx_spendtime_unlocked`. -/
def isTxSpendtimeUnlocked (unlockTime : Nat) : Bool :=
  if unlockTime < cur.maxBlockHeight then
    unlockTime ≤ main.blocks.length - 1 + cur.lockedTxAllowedDeltaBlocks
  else unlockTime ≤ now + cur.lockedTxAllowedDeltaSeconds

def transactionByIndex (index : TransactionIndex) : Except Fault TransactionEntry :=
  match main.blocks[index.block]? with
  | none => .error .exception
  | some block =>
    match block.transactions[index.transaction]? with
    | none => .error .undefined
    | some entry => .ok entry

/-- The loop of `scanOutputKeysForIndexes`: the keys of the ring and the block of its last member;
`none` when a member does not exist, is locked or has no key. -/
def scanOutputKeys (outs : List (TransactionIndex × Nat)) : List Nat →
    Except Fault (Option (List PublicKey × Nat))
  | [] => .ok (some ([], 0))
  | offset :: offsets =>
    match outs[offset]? with
    | none => .ok none
    | some (index, position) =>
      match main.transactionByIndex index with
      | .error fault => .error fault
      | .ok entry =>
        match entry.tx.outputs[position]? with
        | none => .ok none
        | some out =>
          if !main.isTxSpendtimeUnlocked cur now entry.tx.unlockTime then .ok none
          else
            match out.target with
            | .multisignature _ => .ok none
            | .key key =>
              match scanOutputKeys outs offsets with
              | .error fault => .error fault
              | .ok none => .ok none
              | .ok (some (keys, lastBlock)) =>
                .ok (some (key :: keys, if offsets = [] then index.block else lastBlock))

def scanOutputKeysForIndexes (input : KeyInput) : Except Fault (Option (List PublicKey × Nat)) :=
  match main.outputs input.amount with
  | none => .ok none
  | some outs =>
    if input.outputIndexes = [] then .ok none
    else main.scanOutputKeys cur now outs (relativeOutputOffsetsToAbsolute input.outputIndexes)

/-- `check_tx_input`: the answer, and the greatest related block seen so far. -/
def checkTxInput (input : KeyInput) (prefixHash : Hash) (sig : List Signature)
    (maxUsedHeight : Nat) : Except Fault (Bool × Nat) :=
  match main.scanOutputKeysForIndexes cur now input with
  | .error fault => .error fault
  | .ok none => .ok (false, maxUsedHeight)
  | .ok (some (keys, lastBlock)) =>
    .ok (input.outputIndexes.length == keys.length && sig.length == keys.length &&
      crypto.checkRingSignature prefixHash input.keyImage keys sig, max maxUsedHeight lastBlock)

/-- The signature loop of `validateInput`: every signature must fit a later key than the one
before it. -/
def checkSignatures (prefixHash : Hash) : List PublicKey → Nat → List Signature → Except Fault Bool
  | _, 0, _ => .ok true
  | [], _ + 1, _ => .ok false
  | _ :: _, _ + 1, [] => .error .undefined
  | key :: keys, count + 1, sig :: sigs =>
    if crypto.checkSignature prefixHash key sig then checkSignatures prefixHash keys count sigs
    else checkSignatures prefixHash keys (count + 1) (sig :: sigs)

/-- The output a usage record points to. -/
def multisignatureOutputOf (usage : MultisignatureOutputUsage) (tx : Transaction) :
    Except Fault MultisignatureOutput :=
  match tx.outputs[usage.outputIndex]? with
  | none => .error .undefined
  | some out =>
    match out.target with
    | .key _ => .error .exception
    | .multisignature target => .ok target

def validateInput (input : MultisignatureInput) (prefixHash : Hash) (sigs : List Signature) :
    Except Fault Bool :=
  match (main.multisignatureOutputs.row input.amount)[input.outputIndex]? with
  | none => .ok false
  | some usage =>
    if usage.isUsed then .ok false
    else
      match main.transactionByIndex usage.transactionIndex with
      | .error fault => .error fault
      | .ok entry =>
        if !main.isTxSpendtimeUnlocked cur now entry.tx.unlockTime then .ok false
        else
          match multisignatureOutputOf usage entry.tx with
          | .error fault => .error fault
          | .ok output =>
            if input.signatureCount ≠ output.requiredSignatureCount then .ok false
            else if input.term ≠ output.term then .ok false
            else if output.term ≠ 0 ∧
                main.blocks.length < (usage.transactionIndex.block + output.term) % word32 then
              .ok false
            else checkSignatures crypto prefixHash output.keys input.signatureCount sigs

/-- The input loop of `checkTransactionInputs`. -/
def checkInputs (prefixHash : Hash) : List TransactionInput → List (List Signature) → Nat →
    Except Fault (Bool × Nat)
  | [], _, maxUsedHeight => .ok (true, maxUsedHeight)
  | .key input :: inputs, sigs, maxUsedHeight =>
    if input.outputIndexes = [] then .ok (false, maxUsedHeight)
    else if main.spentKeys input.keyImage then .ok (false, maxUsedHeight)
    else
      match sigs with
      | [] => .error .undefined
      | sig :: sigs =>
        match main.checkTxInput cur crypto now input prefixHash sig maxUsedHeight with
        | .error fault => .error fault
        | .ok (false, maxUsedHeight) => .ok (false, maxUsedHeight)
        | .ok (true, maxUsedHeight) => checkInputs prefixHash inputs sigs maxUsedHeight
  | .multisignature input :: inputs, sigs, maxUsedHeight =>
    match sigs with
    | [] => .error .undefined
    | sig :: sigs =>
      match main.validateInput cur crypto now input prefixHash sig with
      | .error fault => .error fault
      | .ok false => .ok (false, maxUsedHeight)
      | .ok true => checkInputs prefixHash inputs sigs maxUsedHeight
  | .base _ :: _, _, maxUsedHeight => .ok (false, maxUsedHeight)

/-- `checkTransactionInputs(tx, pmax_used_block_height)`. -/
def checkTransactionInputs (tx : Transaction) : Except Fault (Bool × Nat) :=
  main.checkInputs cur crypto now (crypto.getPrefixHash tx.toTransactionPrefix) tx.inputs
    tx.signatures 0

/-- `checkTransactionInputs(tx, max_used_block_height, max_used_block_id)`: a failed check has
overwritten the height but not the identifier of `info`. -/
def checkTransactionInputsInto (tx : Transaction) (info : BlockInfo) :
    Except Fault (Bool × BlockInfo) :=
  match main.checkTransactionInputs cur crypto now tx with
  | .error fault => .error fault
  | .ok (false, height) => .ok (false, ⟨height, info.id⟩)
  | .ok (true, height) =>
    match main.blocks[height]? with
    | none => .ok (false, ⟨height, info.id⟩)
    | some entry => .ok (true, ⟨height, crypto.getBlockHash entry.bl⟩)

/-- A check from scratch inside `recheckTransactionInputs`. -/
def recheckFully (tx : Transaction) (maxUsedBlock lastFailed : BlockInfo) :
    Except Fault (Bool × BlockInfo × BlockInfo) :=
  match main.checkTransactionInputsInto cur crypto now tx maxUsedBlock with
  | .error fault => .error fault
  | .ok (true, maxUsedBlock) => .ok (true, maxUsedBlock, lastFailed)
  | .ok (false, maxUsedBlock) =>
    .ok (false, maxUsedBlock, ⟨main.blocks.length - 1, main.getTailId⟩)

/-- `checkTransactionInputs(tx, maxUsedBlock, lastFailed)`. -/
def recheckTransactionInputs (tx : Transaction) (maxUsedBlock lastFailed : BlockInfo) :
    Except Fault (Bool × BlockInfo × BlockInfo) :=
  if maxUsedBlock.empty then
    if !lastFailed.empty && lastFailed.height < main.blocks.length then
      match main.blockIndex.getBlockId lastFailed.height with
      | .error fault => .error fault
      | .ok id =>
        if id = lastFailed.id then .ok (false, maxUsedBlock, lastFailed)
        else main.recheckFully cur crypto now tx maxUsedBlock lastFailed
    else main.recheckFully cur crypto now tx maxUsedBlock lastFailed
  else if main.blocks.length ≤ maxUsedBlock.height then .ok (false, maxUsedBlock, lastFailed)
  else
    match main.blockIndex.getBlockId maxUsedBlock.height with
    | .error fault => .error fault
    | .ok id =>
      if id = maxUsedBlock.id then .ok (true, maxUsedBlock, lastFailed)
      else
        match main.blockIndex.getBlockId lastFailed.height with
        | .error fault => .error fault
        | .ok failedId =>
          if lastFailed.id = failedId then .ok (false, maxUsedBlock, lastFailed)
          else main.recheckFully cur crypto now tx maxUsedBlock lastFailed

def haveTransactionKeyImagesAsSpent (tx : Transaction) : Bool :=
  tx.keyImages.any fun image => main.spentKeys image

end MainChain

/-! ### The start of the upgrade detector

`init` of `BasicUpgradeDetector` finds the height where the vote on the upgrade was complete in a
chain that was loaded from disk. With the height of the upgrade configured it only compares
versions. -/

namespace UpgradeDetector

variable (cur : Currency) (blocks : List BlockEntry)

def maxUpgradeDistance : Nat := cur.upgradeWindow

def findVotingCompleteHeight (probableUpgradeHeight : Nat) : Nat :=
  let probableVotingCompleteHeight :=
    if maxUpgradeDistance cur < probableUpgradeHeight then
      probableUpgradeHeight - maxUpgradeDistance cur
    else 0
  let heights := List.range' probableVotingCompleteHeight
    (probableUpgradeHeight + 1 - probableVotingCompleteHeight)
  (heights.find? fun i => MainChain.isVotingComplete cur blocks i).getD undefHeight

/-- The branch of `init` for a chain with blocks of the target version. -/
def initUpgraded : Option Nat :=
  let upgradeHeight := BinarySearch.partitionPoint
    (fun (entry : BlockEntry) => decide (entry.bl.majorVersion < 2)) blocks
  if (blocks[upgradeHeight]?).any (fun entry => entry.bl.majorVersion == 2) then
    let votingCompleteHeight := findVotingCompleteHeight cur blocks upgradeHeight
    if votingCompleteHeight = undefHeight then none else some votingCompleteHeight
  else none

/-- The checks of `init` on versions when the height of the upgrade is configured. -/
def initConfigured (back : BlockEntry) : Option Nat :=
  if blocks.length ≤ cur.upgradeHeight + 1 then
    if back.bl.majorVersion = 1 then some undefHeight else none
  else if (blocks[cur.upgradeHeight]?).any (fun entry => entry.bl.majorVersion == 1) &&
      (blocks[cur.upgradeHeight + 1]?).any (fun entry => entry.bl.majorVersion == 2) then
    some undefHeight
  else none

/-- `init` of a new detector: the height where the vote was complete; `none` when it fails. -/
def init : Option Nat :=
  match blocks.getLast? with
  | none => some undefHeight
  | some back =>
    if cur.upgradeHeight = undefHeight then
      if back.bl.majorVersion = 1 then
        some (findVotingCompleteHeight cur blocks (blocks.length - 1))
      else if 2 ≤ back.bl.majorVersion then initUpgraded cur blocks
      else some undefHeight
    else initConfigured cur blocks back

end UpgradeDetector

end DarknetCoin
