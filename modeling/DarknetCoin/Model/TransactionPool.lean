import DarknetCoin.Model.Indices

/-!
# The transaction pool

`TransactionPool.cpp`. The pool keeps the transactions that wait for a block, with five containers
derived from them. It asks a validator — the block storage — about inputs, and remembers the answers
with the transaction.
-/

namespace DarknetCoin

open Semantics

/-- `ITransactionValidator`: what the pool asks about transactions. Answers that rely on blocks
carry the last of them. -/
structure TransactionValidator where
  /-- `checkTransactionInputs(tx, maxUsedBlock)`. -/
  checkTransactionInputs : Transaction → Except Fault (Bool × BlockInfo)
  /-- `checkTransactionInputs(tx, maxUsedBlock, lastFailed)`, for a transaction checked before. -/
  recheckTransactionInputs :
    Transaction → BlockInfo → BlockInfo → Except Fault (Bool × BlockInfo × BlockInfo)
  haveSpentKeyImages : Transaction → Bool
  checkTransactionSize : Nat → Bool

/-- `tx_verification_context`. -/
structure TxVerificationContext where
  shouldBeRelayed : Bool := false
  verifivationFailed : Bool := false
  verifivationImpossible : Bool := false
  addedToPool : Bool := false
  txFeeTooSmall : Bool := false
  deriving DecidableEq, Repr

structure TransactionCheckInfo where
  maxUsedBlock : BlockInfo
  lastFailedBlock : BlockInfo
  deriving DecidableEq, Repr

/-- The times are clock readings: `time_t` is signed in the source, but no clock is before 1970. -/
structure TransactionDetails extends TransactionCheckInfo where
  id : Hash
  tx : Transaction
  blobSize : Nat
  fee : Nat
  keptByBlock : Bool
  receiveTime : Nat
  deriving DecidableEq, Repr

/-- `TransactionPriorityComparator`: a higher fee for the size, then smaller, then older. -/
def TransactionDetails.hasPriorityOver (lhs rhs : TransactionDetails) : Bool :=
  let (lhsLo, lhsHi) := mul128 lhs.fee rhs.blobSize
  let (rhsLo, rhsHi) := mul128 rhs.fee lhs.blobSize
  rhsHi < lhsHi || (lhsHi == rhsHi && rhsLo < lhsLo) ||
    (lhsHi == rhsHi && lhsLo == rhsLo && lhs.blobSize < rhs.blobSize) ||
    (lhsHi == rhsHi && lhsLo == rhsLo && lhs.blobSize == rhs.blobSize &&
      lhs.receiveTime < rhs.receiveTime)

/-- `tx_memory_pool`. The transactions stand in the order of the fee index. -/
structure TxMemoryPool where
  transactions : List TransactionDetails
  spentKeyImages : KeyImage → Option (Finset Hash)
  spentOutputs : Finset (Nat × Nat)
  recentlyDeletedTransactions : Hash → Option Nat
  paymentIdIndex : PaymentIdIndex
  timestampIndex : TimestampIndex
  ttlIndex : Hash → Option Nat

namespace TxMemoryPool

def empty : TxMemoryPool where
  transactions := []
  spentKeyImages := fun _ => none
  spentOutputs := ∅
  recentlyDeletedTransactions := fun _ => none
  paymentIdIndex := 0
  timestampIndex := 0
  ttlIndex := fun _ => none

/-- The transaction stored under an identifier. -/
def find? (pool : TxMemoryPool) (id : Hash) : Option TransactionDetails :=
  pool.transactions.find? fun txd => txd.id == id

/-- `have_tx`. -/
def haveTx (pool : TxMemoryPool) (id : Hash) : Bool := (pool.find? id).isSome

/-- The identifiers stored for a key image; an absent entry has none. -/
def keyImageIds (pool : TxMemoryPool) (image : KeyImage) : Finset Hash :=
  (pool.spentKeyImages image).getD ∅

def haveSpentInputs (pool : TxMemoryPool) (tx : Transaction) : Bool :=
  tx.inputs.any fun input =>
    match input with
    | .key input => (pool.spentKeyImages input.keyImage).isSome
    | .multisignature input => (input.amount, input.outputIndex) ∈ pool.spentOutputs
    | .base _ => false

/-- `addTransactionInputs`. Looking a key image up creates its entry. -/
def addTransactionInputs (id : Hash) (keptByBlock : Bool) : List TransactionInput → TxMemoryPool →
    Bool × TxMemoryPool
  | [], pool => (true, pool)
  | .key input :: inputs, pool =>
    let set := pool.keyImageIds input.keyImage
    if (!keptByBlock && set.card ≠ 0) || id ∈ set then
      (false, { pool with
        spentKeyImages := Function.update pool.spentKeyImages input.keyImage (some set) })
    else
      addTransactionInputs id keptByBlock inputs { pool with
        spentKeyImages :=
          Function.update pool.spentKeyImages input.keyImage (some (insert id set)) }
  | .multisignature input :: inputs, pool =>
    addTransactionInputs id keptByBlock inputs
      (if keptByBlock then pool
       else { pool with
        spentOutputs := insert (input.amount, input.outputIndex) pool.spentOutputs })
  | .base _ :: inputs, pool => addTransactionInputs id keptByBlock inputs pool

/-- `removeTransactionInputs`. It stops at a key image that is not recorded as it should be. -/
def removeTransactionInputs (id : Hash) (keptByBlock : Bool) :
    List TransactionInput → TxMemoryPool → Bool × TxMemoryPool
  | [], pool => (true, pool)
  | .key input :: inputs, pool =>
    match pool.spentKeyImages input.keyImage with
    | none => (false, pool)
    | some set =>
      if id ∉ set then (false, pool)
      else
        let rest := set.erase id
        removeTransactionInputs id keptByBlock inputs { pool with
          spentKeyImages := Function.update pool.spentKeyImages input.keyImage
            (if rest = ∅ then none else some rest) }
  | .multisignature input :: inputs, pool =>
    removeTransactionInputs id keptByBlock inputs
      (if keptByBlock then pool
       else { pool with spentOutputs := pool.spentOutputs.erase (input.amount, input.outputIndex) })
  | .base _ :: inputs, pool => removeTransactionInputs id keptByBlock inputs pool

/-- What is left of a transaction after its members were moved out of it. -/
def movedFrom (tx : Transaction) : Transaction :=
  { tx with inputs := [], outputs := [], extra := [], signatures := [] }

/-- The insertion part of `add_tx`. The details are moved into the container before the payment
index sees them. -/
def insertTransaction (crypto : Crypto) (ttl : Nat) (txd : TransactionDetails)
    (pool : TxMemoryPool) : TxMemoryPool :=
  { pool with
    transactions :=
      pool.transactions.orderedInsert (fun lhs rhs => lhs.hasPriorityOver rhs = true) txd
    paymentIdIndex := pool.paymentIdIndex.add crypto (movedFrom txd.tx)
    timestampIndex := pool.timestampIndex.add txd.receiveTime txd.id
    ttlIndex := if ttl ≠ 0 then Function.update pool.ttlIndex txd.id (some ttl)
      else pool.ttlIndex }

variable (cur : Currency) (crypto : Crypto) (validator : TransactionValidator) (now : Nat)

/-- The time-to-live checks of `add_tx` on a transaction that no block keeps. -/
def ttlRejected (ttl fee : Nat) : Bool :=
  ttl ≠ 0 && (ttl ≤ now || cur.mempoolTxLiveTime + cur.blockFutureTimeLimit < ttl - now || fee ≠ 0)

/-- The result of an `add_tx` that failed the transaction. -/
def rejected : Bool × TxVerificationContext := (false, { verifivationFailed := true })

/-- `add_tx(tx, id, blobSize, tvc, keptByBlock)`. There are two clocks: `now` is that of the time
provider of the pool, `systemTime` is `time(nullptr)`. -/
def addTx (systemTime : Nat) (tx : Transaction) (id : Hash) (blobSize : Nat) (keptByBlock : Bool) :
    Program TxMemoryPool (Bool × TxVerificationContext) := fun pool =>
  let inputsAmount := cur.getTransactionAllInputsAmount tx
  let outputsAmount := getOutsMoneyAmount tx
  let ttl := getTransactionTtl tx.extra
  let fee := inputsAmount - outputsAmount
  let isFusionTransaction := fee == 0 && cur.isFusionTransaction tx blobSize
  if !checkInputsTypesSupported tx then .done rejected pool
  else if inputsAmount < outputsAmount then .done rejected pool
  else if !keptByBlock && !isFusionTransaction && ttl == 0 && fee < cur.minimumFee then
    .done (false, { verifivationFailed := true, txFeeTooSmall := true }) pool
  else if !keptByBlock && ttlRejected cur systemTime ttl fee then .done rejected pool
  else if !keptByBlock && pool.haveSpentInputs tx then .done rejected pool
  else
    match validator.checkTransactionInputs tx with
    | .error .exception => .thrown pool
    | .error .undefined => .stuck
    | .ok (inputsValid, maxUsedBlock) =>
      let maxUsedBlock := if inputsValid then maxUsedBlock else BlockInfo.clear
      if !inputsValid && !keptByBlock then .done rejected pool
      else if !keptByBlock && !validator.checkTransactionSize blobSize then .done rejected pool
      else if !keptByBlock && (pool.recentlyDeletedTransactions id).isSome then
        .done (true, {}) pool
      else if pool.haveTx id then
        .done (false, { verifivationImpossible := !inputsValid }) pool
      else
        let txd : TransactionDetails :=
          { maxUsedBlock, lastFailedBlock := BlockInfo.clear, id, tx, blobSize, fee, keptByBlock,
            receiveTime := now }
        let result := addTransactionInputs id keptByBlock tx.inputs
          (insertTransaction crypto ttl txd pool)
        .done (result.1,
          { shouldBeRelayed := inputsValid && (fee ≠ 0 || isFusionTransaction || ttl ≠ 0)
            verifivationFailed := !result.1
            verifivationImpossible := !inputsValid
            addedToPool := true }) result.2

/-- `add_tx(tx, tvc, keeped_by_block)`: the identifier and the size come from the transaction. The
time provider of a core is the system clock. -/
def addTxHashed (tx : Transaction) (keptByBlock : Bool) :
    Program TxMemoryPool (Bool × TxVerificationContext) :=
  addTx cur crypto validator now now tx (crypto.getObjectHash tx)
    (getObjectBinarySize tx) keptByBlock

def removeTransaction (txd : TransactionDetails) (pool : TxMemoryPool) : TxMemoryPool :=
  let pool := (removeTransactionInputs txd.id txd.keptByBlock txd.tx.inputs pool).2
  { pool with
    paymentIdIndex := pool.paymentIdIndex.remove crypto txd.tx
    timestampIndex := pool.timestampIndex.remove txd.receiveTime txd.id
    ttlIndex := Function.update pool.ttlIndex txd.id none
    transactions := pool.transactions.filter fun other => other.id != txd.id }

/-- `take_tx`. -/
def takeTx (id : Hash) (pool : TxMemoryPool) : Option Transaction × TxMemoryPool :=
  match pool.find? id with
  | none => (none, pool)
  | some txd => (some txd.tx, removeTransaction crypto txd pool)

/-- A transaction is too old, or its time-to-live is over. -/
def isExpired (pool : TxMemoryPool) (txd : TransactionDetails) : Bool :=
  let liveTime :=
    if txd.keptByBlock then cur.mempoolTxFromAltBlockLiveTime else cur.mempoolTxLiveTime
  liveTime < sub64 now txd.receiveTime ||
    match pool.ttlIndex txd.id with
    | some ttl => ttl ≤ now
    | none => false

/-- The body of the second loop of `removeExpiredTransactions`. -/
def removeIfExpired (pool : TxMemoryPool) (txd : TransactionDetails) : TxMemoryPool :=
  if isExpired cur now pool txd then
    removeTransaction crypto txd { pool with
      recentlyDeletedTransactions := Function.update pool.recentlyDeletedTransactions txd.id
        ((pool.recentlyDeletedTransactions txd.id).orElse fun _ => some now) }
  else pool

/-- The first loop of `removeExpiredTransactions`. -/
def forgetDeletedTransactions (pool : TxMemoryPool) : TxMemoryPool :=
  { pool with
    recentlyDeletedTransactions := fun id =>
      (pool.recentlyDeletedTransactions id).filter fun deletedAt =>
        !(cur.numberOfPeriodsToForgetTxDeletedFromPool * cur.mempoolTxLiveTime
          < sub64 now deletedAt) }

def removeExpiredTransactions (pool : TxMemoryPool) : TxMemoryPool :=
  let pool := forgetDeletedTransactions cur now pool
  pool.transactions.foldl (removeIfExpired cur crypto now) pool

/-- `is_transaction_ready_to_go`: its answer and the updated remembered blocks. -/
def isTransactionReadyToGo (tx : Transaction) (info : TransactionCheckInfo) :
    Except Fault (Bool × TransactionCheckInfo) :=
  match validator.recheckTransactionInputs tx info.maxUsedBlock info.lastFailedBlock with
  | .error fault => .error fault
  | .ok (valid, maxUsedBlock, lastFailedBlock) =>
    .ok (valid && !validator.haveSpentKeyImages tx, ⟨maxUsedBlock, lastFailedBlock⟩)

/-- `BlockTemplate`: the transactions chosen so far and what they spend. -/
structure BlockTemplate where
  keyImages : List KeyImage := []
  usedOutputs : List (Nat × Nat) := []
  txHashes : List Hash := []
  totalSize : Nat := 0
  fee : Nat := 0

def BlockTemplate.canAdd (template : BlockTemplate) (tx : Transaction) : Bool :=
  (tx.keyImages.all fun image => image ∉ template.keyImages) &&
    tx.multisignatureReferences.all fun reference => reference ∉ template.usedOutputs

/-- `BlockTemplate::addTransaction`, with the sums `fill_block_template` keeps beside it. -/
def BlockTemplate.addTransaction (template : BlockTemplate) (txd : TransactionDetails) (fee : Nat) :
    BlockTemplate :=
  if template.canAdd txd.tx then
    { keyImages := template.keyImages ++ txd.tx.keyImages
      usedOutputs := template.usedOutputs ++ txd.tx.multisignatureReferences
      txHashes := template.txHashes ++ [txd.id]
      totalSize := template.totalSize + txd.blobSize
      fee := add64 template.fee fee }
  else template

/-- Write back what a check of `id` remembered. -/
def updateCheckInfo (id : Hash) (info : TransactionCheckInfo) (pool : TxMemoryPool) :
    TxMemoryPool :=
  { pool with
    transactions := pool.transactions.map fun txd =>
      if txd.id = id then { txd with toTransactionCheckInfo := info } else txd }

/-- The first loop of `fill_block_template`, over the transactions without a fee. -/
def fillFusionTransactions (pool : TxMemoryPool) :
    BlockTemplate → List TransactionDetails → Except Fault BlockTemplate
  | template, [] => .ok template
  | template, txd :: rest =>
    if (pool.ttlIndex txd.id).isSome || cur.fusionTxMaxSize < template.totalSize + txd.blobSize then
      fillFusionTransactions pool template rest
    else
      match isTransactionReadyToGo validator txd.tx txd.toTransactionCheckInfo with
      | .error fault => .error fault
      | .ok (ready, _) =>
        fillFusionTransactions pool (if ready then template.addTransaction txd 0 else template) rest

/-- The second loop of `fill_block_template`: it also writes the remembered blocks back. -/
def fillTransactions (medianSize maxTotalSize : Nat) :
    BlockTemplate → List TransactionDetails → Program TxMemoryPool BlockTemplate
  | template, [] => pure template
  | template, txd :: rest => do
    let pool ← Program.get
    let blockSizeLimit := if txd.fee = 0 then medianSize else maxTotalSize
    if (pool.ttlIndex txd.id).isSome || blockSizeLimit < template.totalSize + txd.blobSize then
      fillTransactions medianSize maxTotalSize template rest
    else do
      let (ready, info) ← Program.read fun _ =>
        isTransactionReadyToGo validator txd.tx txd.toTransactionCheckInfo
      Program.modify (updateCheckInfo txd.id info)
      fillTransactions medianSize maxTotalSize
        (if ready then template.addTransaction txd txd.fee else template) rest

/-- `fill_block_template`: the chosen transactions, their size and their fees. -/
def fillBlockTemplate (medianSize maxCumulativeSize : Nat) :
    Program TxMemoryPool BlockTemplate := do
  let maxTotalSize :=
    min (sub64 (mul64 125 medianSize / 100) cur.minerTxBlobReservedSize) maxCumulativeSize
  let pool ← Program.get
  let fusion := pool.transactions.reverse.takeWhile fun txd => txd.fee == 0
  let template ← Program.read fun pool => fillFusionTransactions cur validator pool {} fusion
  fillTransactions validator medianSize maxTotalSize template pool.transactions

end TxMemoryPool

end DarknetCoin
