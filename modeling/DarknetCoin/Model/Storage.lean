import DarknetCoin.Model.MainChain

/-!
# Pushing and popping transactions and blocks

The functions of `Blockchain.cpp` that write the main chain. A block is pushed in stages: checks
that read only, then the transactions one by one, each entered into five indices before the next is
checked, then the checks that need the sizes and fees of all of them, and last the block itself. The
result of entering a transaction is ignored. The 16-bit counters of the source wrap here as they do
there.
-/

namespace DarknetCoin

open Semantics Data

namespace MainChain

variable (cur : Currency) (crypto : Crypto) (now : Nat)

/-- Enter or remove a key image. -/
def setSpent (spent : Bool) (image : KeyImage) (main : MainChain) : MainChain :=
  { main with spentKeys := Function.update main.spentKeys image spent }

/-- Enter a transaction into the payment index. -/
def addPaymentId (tx : Transaction) (main : MainChain) : MainChain :=
  { main with paymentIdIndex := main.paymentIdIndex.add crypto tx }

/-- Remove a transaction from the payment index. -/
def removePaymentId (tx : Transaction) (main : MainChain) : MainChain :=
  { main with paymentIdIndex := main.paymentIdIndex.remove crypto tx }

/-- The undo loop of `pushTransaction` over the inputs before the failing one, the last first.
It takes every one of them for a key input. -/
def eraseKeyImages : List TransactionInput → Program MainChain Unit
  | [] => pure ()
  | .key input :: inputs => do
    Program.modify (setSpent false input.keyImage)
    eraseKeyImages inputs
  | _ :: _ => Program.throw

/-- The key image loop of `pushTransaction`; `before` are the inputs already seen, the last first.
The set reserves the null image for its own use and asserts that nobody enters it. What a build
without assertions does with it is left out: the model stops there. -/
def insertKeyImages (before : List TransactionInput) :
    List TransactionInput → Program MainChain Bool
  | [] => pure true
  | .key input :: inputs => do
    let main ← Program.get
    if input.keyImage = 0 then Program.undefined
    else if main.spentKeys input.keyImage then do
      eraseKeyImages before
      pure false
    else do
      Program.modify (setSpent true input.keyImage)
      insertKeyImages (.key input :: before) inputs
  | input :: inputs => insertKeyImages (input :: before) inputs

/-- Set the `isUsed` flag of a multisignature output. -/
def setUsed (used : Bool) (amount outputIndex : Nat) (main : MainChain) : MainChain :=
  { main with
    multisignatureOutputs := main.multisignatureOutputs.modifyAt amount outputIndex
      fun usage => { usage with isUsed := used } }

/-- Set the flags of all multisignature outputs a list of inputs spends. An output that does not
exist is written out of range. -/
def markMultisignatureInputs (used : Bool) : List TransactionInput → Program MainChain Unit
  | [] => pure ()
  | .multisignature input :: inputs => do
    let main ← Program.get
    if input.outputIndex < (main.multisignatureOutputs.row input.amount).length then do
      Program.modify (setUsed used input.amount input.outputIndex)
      markMultisignatureInputs used inputs
    else Program.undefined
  | _ :: inputs => markMultisignatureInputs used inputs

/-- Append one output to the row of its amount. -/
def pushOutput (index : TransactionIndex) (position : Nat) (out : TransactionOutput)
    (main : MainChain) : MainChain :=
  match out.target with
  | .key _ => { main with outputs := main.outputs.push out.amount (index, position) }
  | .multisignature _ =>
    { main with
      multisignatureOutputs := main.multisignatureOutputs.push out.amount ⟨index, position, false⟩ }

/-- The position an output gets in the row of its amount. -/
def globalOutputIndex (out : TransactionOutput) (main : MainChain) : Nat :=
  match out.target with
  | .key _ => (main.outputs.row out.amount).length
  | .multisignature _ => (main.multisignatureOutputs.row out.amount).length

/-- The output loop of `pushTransaction`, returning the global indexes. The tables reserve the
amount zero for their own use and assert that nobody enters it. What a build without assertions does
with it (a row that is hidden as long as the table has deleted rows) is left out: the model stops
there. -/
def pushOutputs (index : TransactionIndex) (position : Nat) :
    List TransactionOutput → Program MainChain (List Nat)
  | [] => pure []
  | out :: outs => do
    let main ← Program.get
    if out.amount = 0 then Program.undefined
    else do
      Program.modify (pushOutput index position out)
      let rest ← pushOutputs index (position + 1) outs
      pure (main.globalOutputIndex out :: rest)

/-- Store the global indexes of the transaction at a position of a block. -/
def setGlobalOutputIndexes (block : BlockEntry) (position : Nat) (indexes : List Nat) :
    BlockEntry :=
  { block with
    transactions := block.transactions.modify position fun entry =>
      { entry with globalOutputIndexes := indexes } }

/-- Enter and remove a transaction of the hash map. -/
def setTransaction (transactionHash : Hash) (index : Option TransactionIndex) (main : MainChain) :
    MainChain :=
  { main with transactionMap := Function.update main.transactionMap transactionHash index }

/-- `pushTransaction`: its result, and the block with the global indexes of the transaction. -/
def pushTransaction (block : BlockEntry) (transactionHash : Hash) (index : TransactionIndex) :
    Program MainChain (Bool × BlockEntry) := do
  let main ← Program.get
  if (main.transactionMap transactionHash).isSome then pure (false, block)
  else do
    Program.modify (setTransaction transactionHash (some index))
    match block.transactions[index.transaction]? with
    | none => Program.undefined
    | some transaction =>
      if !checkMultisignatureInputsDiff transaction.tx then do
        Program.modify (setTransaction transactionHash none)
        pure (false, block)
      else if ← insertKeyImages [] transaction.tx.inputs then do
        markMultisignatureInputs true transaction.tx.inputs
        -- the 16-bit loop counter never reaches a greater number of outputs
        if word16 ≤ transaction.tx.outputs.length then Program.undefined
        else do
          let indexes ← pushOutputs index 0 transaction.tx.outputs
          Program.modify (addPaymentId crypto transaction.tx)
          pure (true, setGlobalOutputIndexes block index.transaction indexes)
      else do
        Program.modify (setTransaction transactionHash none)
        pure (false, block)

/-- Remove one output; a row whose last entry is another output is left alone. -/
def popOutput (index : TransactionIndex) (position : Nat) (out : TransactionOutput)
    (main : MainChain) : MainChain :=
  match out.target with
  | .key _ =>
    if (main.outputs.row out.amount).getLast? = some (index, position) then
      { main with outputs := main.outputs.pop out.amount }
    else main
  | .multisignature _ =>
    if (main.multisignatureOutputs.row out.amount).getLast? = some ⟨index, position, false⟩ then
      { main with multisignatureOutputs := main.multisignatureOutputs.pop out.amount }
    else main

/-- The output loop of `popTransaction`, from the last output to the first. -/
def popOutputs (index : TransactionIndex) (position : Nat) : List TransactionOutput →
    MainChain → MainChain
  | [], main => main
  | out :: outs, main => popOutput index position out (popOutputs index (position + 1) outs main)

/-- The input loop of `popTransaction`. -/
def popInputs : List TransactionInput → Program MainChain Unit
  | [] => pure ()
  | .key input :: inputs => do
    Program.modify (setSpent false input.keyImage)
    popInputs inputs
  | .multisignature input :: inputs => do
    let main ← Program.get
    if input.outputIndex < (main.multisignatureOutputs.row input.amount).length then do
      Program.modify (setUsed false input.amount input.outputIndex)
      popInputs inputs
    else Program.undefined
  | .base _ :: inputs => popInputs inputs

def popTransaction (tx : Transaction) (transactionHash : Hash) : Program MainChain Unit := do
  let main ← Program.get
  match main.transactionMap transactionHash with
  | none => Program.throw
  | some index => do
    Program.modify (popOutputs index 0 tx.outputs)
    popInputs tx.inputs
    Program.modify (removePaymentId crypto tx)
    Program.modify (setTransaction transactionHash none)

/-- Pop transactions with their hashes, in the order given. -/
def popAll : List (Transaction × Hash) → Program MainChain Unit
  | [] => pure ()
  | (tx, hash) :: rest => do
    popTransaction crypto tx hash
    popAll rest

/-- `popTransactions`: the transactions of a block from the last to the first, then the miner
transaction. -/
def popTransactions (block : BlockEntry) (minerTransactionHash : Hash) :
    Program MainChain Unit := do
  let transactions := (block.transactions.drop 1).map TransactionEntry.tx
  popAll crypto (transactions.zip block.bl.transactionHashes).reverse
  popTransaction crypto block.bl.baseTransaction minerTransactionHash

/-- The verdict of the checks `pushBlock` makes before it writes anything. -/
inductive HeaderCheck
  /-- The block is rejected; `failed` says whether the peer is blamed. -/
  | reject (failed : Bool)
  /-- The block may be pushed at this difficulty. -/
  | accept (currentDifficulty : Nat)
  deriving DecidableEq, Repr

/-- The work a block at a height has to show: inside the checkpoint zone only its identifier is
compared. -/
def workDone (checkpoints : Checkpoints) (height currentDifficulty : Nat) (blockData : Block) :
    Bool :=
  if checkpoints.isInCheckpointZone height then
    checkpoints.checkBlock height (crypto.getBlockHash blockData)
  else Currency.checkProofOfWork crypto blockData currentDifficulty

/-- The checks of `pushBlock` up to the miner transaction. -/
def checkHeader (checkpoints : Checkpoints) (main : MainChain) (blockData : Block) :
    Except Fault HeaderCheck :=
  let blockHash := crypto.getBlockHash blockData
  let height := main.blocks.length
  if main.blockIndex.hasBlock blockHash then .ok (.reject true)
  else if !main.checkBlockVersion cur blockData then .ok (.reject true)
  else if blockData.previousBlockHash ≠ main.getTailId then .ok (.reject true)
  else if !main.checkBlockTimestampMain cur now blockData then .ok (.reject true)
  else
    let currentDifficulty := getDifficultyForNextBlock cur main.blocks
    if currentDifficulty = 0 then .ok (.reject false)
    else if !workDone crypto checkpoints height currentDifficulty blockData then .ok (.reject true)
    else
      match prevalidateMinerTransaction cur crypto blockData height with
      | .error fault => .error fault
      | .ok false => .ok (.reject true)
      | .ok true => .ok (.accept currentDifficulty)

/-- The totals `pushBlock` sums up over the transactions. -/
structure BlockTotals where
  cumulativeBlockSize : Nat
  feeSummary : Nat
  interestSummary : Nat
  deriving DecidableEq, Repr

/-- Add a transaction to the totals. -/
def BlockTotals.add (totals : BlockTotals) (tx : Transaction) : BlockTotals where
  cumulativeBlockSize := totals.cumulativeBlockSize + getObjectBinarySize tx
  feeSummary := add64 totals.feeSummary
    (sub64 (cur.getTransactionAllInputsAmount tx) (getOutsMoneyAmount tx))
  interestSummary := add64 totals.interestSummary (cur.calculateTotalTransactionInterest tx)

/-- The three checks of a transaction in a block. -/
def checkBlockTransaction (main : MainChain) (majorVersion : Nat) (tx : Transaction) :
    Except Fault Bool :=
  match main.checkTransactionInputs cur crypto now tx with
  | .error fault => .error fault
  | .ok (inputsValid, _) =>
    .ok (!(majorVersion == 1 && 1 < tx.version) && inputsValid && checkTxOutputs cur tx)

variable {cur crypto now} in
theorem checkBlockTransaction_eq_true {main : MainChain} {majorVersion : Nat} {tx : Transaction} :
    checkBlockTransaction cur crypto now main majorVersion tx = .ok true ↔
      (∃ height, main.checkTransactionInputs cur crypto now tx = .ok (true, height)) ∧
        ¬(majorVersion = 1 ∧ 1 < tx.version) ∧ checkTxOutputs cur tx = true := by
  unfold checkBlockTransaction
  split
  · simp_all
  · simp_all [and_assoc, and_left_comm, imp_iff_not_or]

/-- Append a transaction to a block under construction. -/
def appendTransaction (block : BlockEntry) (tx : Transaction) : BlockEntry :=
  { block with transactions := block.transactions ++ [⟨tx, []⟩] }

/-- The transaction loop of `pushBlock`: the block and the totals, or `none` after a transaction
was found invalid and everything pushed so far was popped. -/
def pushTransactions (minerTransactionHash : Hash) (block : BlockEntry) (index : TransactionIndex)
    (totals : BlockTotals) : List (Transaction × Hash) →
    Program MainChain (Option (BlockEntry × BlockTotals))
  | [] => pure (some (block, totals))
  | (tx, txId) :: rest => do
    let valid ← Program.read fun main =>
      checkBlockTransaction cur crypto now main block.bl.majorVersion tx
    if !valid then do
      popTransactions crypto block minerTransactionHash
      pure none
    else do
      let index := { index with transaction := (index.transaction + 1) % word16 }
      let (_, block) ← pushTransaction crypto (appendTransaction block tx) txId index
      pushTransactions minerTransactionHash block index (totals.add cur tx) rest

/-- What a transaction adds to the deposits. -/
def transactionDeposit (tx : Transaction) : Int :=
  (tx.outputs.map fun out =>
    match out.target with
    | .multisignature target => if 0 < target.term then (out.amount : Int) else 0
    | .key _ => 0).sum -
  (tx.inputs.map fun input =>
    match input with
    | .multisignature input => if 0 < input.term then (input.amount : Int) else 0
    | _ => 0).sum

/-- `pushToDepositIndex`: what a block adds to the deposits, as a signed word. -/
def depositChange (block : BlockEntry) : Int :=
  (block.transactions.map fun entry => transactionDeposit entry.tx).sum.bmod word64

/-- `pushBlock(block)` and the two updates after it: the block enters the storage. -/
def linkBlock (block : BlockEntry) (interest : Nat) (main : MainChain) : MainChain :=
  let blocks := main.blocks ++ [block]
  { main with
    blocks
    blockIndex := main.blockIndex.push (crypto.getBlockHash block.bl)
    timestampIndex := main.timestampIndex.add block.bl.timestamp (crypto.getBlockHash block.bl)
    generatedTransactionsIndex := main.generatedTransactionsIndex.add block.bl
    depositIndex := main.depositIndex.pushBlock (depositChange block) interest
    votingCompleteHeight := votingAfterPush cur blocks main.votingCompleteHeight }

/-- The block `pushBlock` starts from: the miner transaction alone. -/
def newBlockEntry (blockData : Block) : BlockEntry where
  bl := blockData
  height := 0
  blockCumulativeSize := 0
  cumulativeDifficulty := 0
  alreadyGeneratedCoins := 0
  transactions := [⟨blockData.baseTransaction, []⟩]

/-- The totals `pushBlock` starts from. -/
def minerTotals (blockData : Block) : BlockTotals :=
  ⟨getObjectBinarySize blockData.baseTransaction, 0, 0⟩

/-- The coins emitted up to the last block. -/
def alreadyGeneratedCoins (main : MainChain) : Nat :=
  (main.blocks.getLast?.map BlockEntry.alreadyGeneratedCoins).getD 0

/-- The work done up to the last block. -/
def cumulativeDifficulty (main : MainChain) : Nat :=
  (main.blocks.getLast?.map BlockEntry.cumulativeDifficulty).getD 0

/-- The fields of a block that are known when all its checks have passed. -/
def finishBlock (main : MainChain) (block : BlockEntry) (totals : BlockTotals)
    (currentDifficulty emissionChange : Nat) : BlockEntry :=
  { block with
    height := main.blocks.length
    blockCumulativeSize := totals.cumulativeBlockSize
    cumulativeDifficulty := add64 currentDifficulty main.cumulativeDifficulty
    alreadyGeneratedCoins :=
      add64 (add64 main.alreadyGeneratedCoins emissionChange) totals.interestSummary }

/-- The result of `pushBlock`. -/
inductive PushResult
  | added
  /-- `false`; `failed` says whether `m_verifivation_failed` was set. -/
  | rejected (failed : Bool)
  deriving DecidableEq, Repr

/-- The end of `pushBlock`: the checks that need all transactions, then the block itself. The
first of them returns without taking the transactions out again. -/
def finishPush (blockData : Block) (block : BlockEntry) (totals : BlockTotals)
    (currentDifficulty : Nat) : Program MainChain PushResult := do
  let main ← Program.get
  let height := main.blocks.length
  if !checkCumulativeBlockSize cur totals.cumulativeBlockSize height then pure (.rejected true)
  else
    match main.validateMinerTransaction cur blockData height totals.cumulativeBlockSize
        main.alreadyGeneratedCoins totals.feeSummary with
    | none => do
      popTransactions crypto block (crypto.getObjectHash blockData.baseTransaction)
      pure (.rejected true)
    | some emissionChange => do
      Program.modify (linkBlock cur crypto
        (finishBlock main block totals currentDifficulty emissionChange) totals.interestSummary)
      pure .added

/-- `pushBlock(blockData, transactions, bvc)`. -/
def pushBlock (checkpoints : Checkpoints) (blockData : Block) (transactions : List Transaction) :
    Program MainChain PushResult := do
  match ← Program.read (fun main => checkHeader cur crypto now checkpoints main blockData) with
  | .reject failed => pure (.rejected failed)
  | .accept currentDifficulty => do
    let minerTransactionHash := crypto.getObjectHash blockData.baseTransaction
    let main ← Program.get
    let index : TransactionIndex := ⟨main.blocks.length, 0⟩
    let (_, block) ← pushTransaction crypto (newBlockEntry blockData) minerTransactionHash index
    match ← pushTransactions cur crypto now minerTransactionHash block index
        (minerTotals blockData) (transactions.zip blockData.transactionHashes) with
    | none => pure (.rejected true)
    | some (block, totals) => finishPush cur crypto blockData block totals currentDifficulty

/-- `popBlock` after the transactions of the block were saved: the last block leaves the storage. -/
def unlinkBlock (blockHash : Hash) : Program MainChain Unit := do
  let main ← Program.get
  match main.blocks.getLast? with
  | none => pure ()
  | some block => do
    popTransactions crypto block (crypto.getObjectHash block.bl.baseTransaction)
    Program.modify fun main =>
      let blocks := main.blocks.dropLast
      { main with
        blocks
        blockIndex := main.blockIndex.pop
        timestampIndex := main.timestampIndex.remove block.bl.timestamp blockHash
        generatedTransactionsIndex := main.generatedTransactionsIndex.remove block.bl
        depositIndex := main.depositIndex.popBlock
        votingCompleteHeight := votingAfterPop blocks main.votingCompleteHeight }

/-- The input loop of `rebuildCache`. -/
def rebuildInputs : List TransactionInput → Program MainChain Unit
  | [] => pure ()
  | .key input :: inputs =>
    if input.keyImage = 0 then Program.undefined
    else do
      Program.modify (setSpent true input.keyImage)
      rebuildInputs inputs
  | .multisignature input :: inputs => do
    let main ← Program.get
    if input.outputIndex < (main.multisignatureOutputs.row input.amount).length then do
      Program.modify (setUsed true input.amount input.outputIndex)
      rebuildInputs inputs
    else Program.undefined
  | .base _ :: inputs => rebuildInputs inputs

/-- One transaction of `rebuildCache`. -/
def rebuildTransaction (index : TransactionIndex) (tx : Transaction) : Program MainChain Unit := do
  let main ← Program.get
  let hash := crypto.getObjectHash tx
  if (main.transactionMap hash).isNone then Program.modify (setTransaction hash (some index))
  else pure ()
  rebuildInputs tx.inputs
  -- the loop counters over outputs and over transactions are 16 bits wide
  if word16 ≤ tx.outputs.length then Program.undefined
  else do
    let _ ← pushOutputs index 0 tx.outputs
    pure ()

/-- The transaction loop of `rebuildCache`, from position `position` of block `height` on. -/
def rebuildTransactions (height : Nat) : Nat → List TransactionEntry → Program MainChain Unit :=
  Program.forEachIdx fun position entry => rebuildTransaction crypto ⟨height, position⟩ entry.tx

/-- The interest a block pays out. -/
def blockInterest (block : BlockEntry) : Nat :=
  block.transactions.foldl (fun interest entry =>
    add64 interest (cur.calculateTotalTransactionInterest entry.tx)) 0

end MainChain

/-! ### The loops that fill the indices

The loops of `pushTransaction`, `rebuildCache` and `loadBlockchainIndices` over the outputs of a
transaction and over the transactions of a block, with the 16-bit counters of the code. The model
above runs through the lists themselves and leaves a list the counter cannot count undefined; here
the counter is part of the loop. -/

open Program

namespace MainChain

/-- A round of the output loop of `pushTransaction`, on the main chain and the global indexes of the
transaction. -/
def outputRound (index : TransactionIndex) (output : Nat) (out : TransactionOutput) :
    Program (MainChain × List Nat) Unit :=
  if out.amount = 0 then undefined
  else modify fun (main, indexes) =>
    (pushOutput index output out main, indexes.set output (main.globalOutputIndex out))

/-- The output loop of `pushTransaction`. -/
def outputLoop (fuel : Nat) (index : TransactionIndex) (outputs : List TransactionOutput) :
    Program (MainChain × List Nat) Nat :=
  countedLoop word16 outputs (outputRound index) fuel 0

/-- The global indexes before the loop. -/
def resizedIndexes (outputs : List TransactionOutput) : List Nat := List.replicate outputs.length 0

variable (crypto : Crypto)

/-- A round of the output loop of `rebuildCache`. -/
def rebuildOutputRound (index : TransactionIndex) (o : Nat) (out : TransactionOutput) :
    Program MainChain Unit :=
  if out.amount = 0 then undefined else modify (pushOutput index o out)

/-- A round of the transaction loop of `rebuildCache`. -/
def rebuildRound (fuel b t : Nat) (transaction : TransactionEntry) : Program MainChain Unit := do
  let main ← get
  let transactionHash := crypto.getObjectHash transaction.tx
  if (main.transactionMap transactionHash).isNone then
    modify (setTransaction transactionHash (some ⟨b, t⟩))
  else pure ()
  rebuildInputs transaction.tx.inputs
  let _ ← countedLoop word16 transaction.tx.outputs (rebuildOutputRound ⟨b, t⟩) fuel 0
  pure ()

/-- The transaction loop of `rebuildCache`. -/
def rebuildLoop (fuel b : Nat) (transactions : List TransactionEntry) : Program MainChain Nat :=
  countedLoop word16 transactions (rebuildRound crypto fuel b) fuel 0

/-- One block of `rebuildCache`. -/
def rebuildBlock (cur : Currency) (fuel b : Nat) (block : BlockEntry) : Program MainChain Unit := do
  modify fun main => { main with blockIndex := main.blockIndex.push (crypto.getBlockHash block.bl) }
  let _ ← rebuildLoop crypto fuel b block.transactions
  modify fun main =>
    { main with
      depositIndex := main.depositIndex.pushBlock (depositChange block) (blockInterest cur block) }

/-- `rebuildCache`, which leaves the deposits that are counted already. -/
def rebuildCache (cur : Currency) (fuel : Nat) : Program MainChain Unit := do
  modify fun main =>
    { main with
      blockIndex := []
      transactionMap := fun _ => none
      spentKeys := fun _ => false
      outputs := Table.empty
      multisignatureOutputs := Table.empty }
  let main ← get
  forEachIdx (rebuildBlock crypto cur fuel) 0 main.blocks

/-- A round of the transaction loop of `loadBlockchainIndices`. -/
def paymentIdRound (_t : Nat) (transaction : TransactionEntry) : Program MainChain Unit :=
  modify (addPaymentId crypto transaction.tx)

/-- The transaction loop of `loadBlockchainIndices`. -/
def paymentIdLoop (fuel : Nat) (transactions : List TransactionEntry) : Program MainChain Nat :=
  countedLoop word16 transactions (paymentIdRound crypto) fuel 0

/-- One block of `loadBlockchainIndices`. -/
def loadBlockIndices (fuel : Nat) (block : BlockEntry) : Program MainChain Unit := do
  modify fun main =>
    { main with
      timestampIndex := main.timestampIndex.add block.bl.timestamp (crypto.getBlockHash block.bl)
      generatedTransactionsIndex := main.generatedTransactionsIndex.add block.bl }
  let _ ← paymentIdLoop crypto fuel block.transactions
  pure ()

/-- `loadBlockchainIndices` when no file with the indices can be used. -/
def loadBlockchainIndices (fuel : Nat) : Program MainChain Unit := do
  modify fun main =>
    { main with
      paymentIdIndex := 0
      timestampIndex := 0
      generatedTransactionsIndex := main.generatedTransactionsIndex.clear }
  let main ← get
  forEach (loadBlockIndices crypto fuel) main.blocks

end MainChain

/-- The length of a serialised block. -/
def blockBinarySize (b : Block) : Nat :=
  varintSize b.majorVersion + varintSize b.minorVersion + varintSize b.timestamp + 32 + 4 +
    getObjectBinarySize b.baseTransaction +
    (varintSize b.transactionHashes.length + 32 * b.transactionHashes.length)

/-- `maxBlockBlobSize`, the only limit `handle_incoming_block_blob` compares a block with before it
is handed to `addNewBlock`. -/
def maxBlockBlobSize : Nat := 500000000

end DarknetCoin
