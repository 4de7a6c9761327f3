import DarknetCoin.Data.HashedIndex
import DarknetCoin.Data.OrderedIndex
import DarknetCoin.Model.Currency
import DarknetCoin.Semantics.Program

/-!
# The transfers of a wallet

`Transfers/TransfersContainer.cpp`. The outputs of a wallet are in three containers: those of
transactions no block has yet, those it can spend, and those it has spent. Beside them stand the
transactions, ordered by height, and the heights at which outputs get unlocked. Of several outputs
with one key image a flag says which one to show.

The hashed containers of the source list outputs of one key the newest first. Which order their
records have as a whole matters when they are saved, and enters `TransfersContainer.reload` as an
argument. Assertions are not part of the program.
-/

namespace DarknetCoin

open Semantics Data Program

/-- `WALLET_LEGACY_UNCONFIRMED_TRANSACTION_HEIGHT`: the height of a transaction that no block
has. -/
def unconfirmedTransactionHeight : Nat := word32 - 1

/-- `UNCONFIRMED_TRANSACTION_GLOBAL_OUTPUT_INDEX`. -/
def unconfirmedTransactionGlobalOutputIndex : Nat := word32 - 1

/-- `ACCOUNT_OWN_ID`. -/
def accountOwnId : Nat := 0

/-! ### Records -/

/-- The type of an output with the fields that belong to it. -/
inductive TransferTarget
  | key (keyImage : KeyImage) (outputKey : PublicKey)
  | multisignature (requiredSignatures term : Nat)
  deriving DecidableEq, Repr

structure TransactionOutputInformation where
  amount : Nat
  globalOutputIndex : Nat
  outputInTransaction : Nat
  transactionHash : Hash
  transactionPublicKey : PublicKey
  target : TransferTarget
  deriving DecidableEq, Repr

/-- An output as it is handed to the container; `id` is the account it was found for. -/
structure TransactionOutputInformationIn extends TransactionOutputInformation where
  id : Nat
  deriving DecidableEq, Repr

/-- The fields of `TransactionOutputInformationEx` that never change. -/
structure TransferInformation extends TransactionOutputInformation where
  unlockTime : Nat
  blockHeight : Nat
  transactionIndex : Nat
  deriving DecidableEq, Repr

structure TransactionOutputInformationEx extends TransferInformation where
  visible : Bool
  deriving DecidableEq, Repr

structure TransactionBlockInfo where
  height : Nat
  timestamp : Nat
  transactionIndex : Nat
  deriving DecidableEq, Repr

structure SpentTransactionOutput extends TransactionOutputInformationEx where
  spendingBlock : TransactionBlockInfo
  spendingTransactionHash : Hash
  inputInTransaction : Nat
  deriving DecidableEq, Repr

structure TransactionOutputKey where
  transactionHash : Hash
  outputInTransaction : Nat
  deriving DecidableEq, Repr

structure TransferUnlockJob where
  unlockHeight : Nat
  transactionOutputKey : TransactionOutputKey
  deriving DecidableEq, Repr

/-- What an output is spent by: its key image, or its place among the outputs of its amount. -/
inductive SpentOutputDescriptor
  | key (keyImage : KeyImage)
  | multisignature (amount globalOutputIndex : Nat)
  deriving DecidableEq, Repr

structure TransactionInformation where
  transactionHash : Hash
  publicKey : PublicKey
  blockHeight : Nat
  timestamp : Nat
  unlockTime : Nat
  totalAmountIn : Nat
  totalAmountOut : Nat
  extra : List UInt8
  paymentId : Hash
  messages : List String
  id : Nat
  deriving DecidableEq, Repr

/-- `ITransactionReader`, as far as the container reads a transaction. -/
structure TransactionReader where
  transactionHash : Hash
  transactionPublicKey : PublicKey
  unlockTime : Nat
  paymentId : Option Hash
  extra : List UInt8
  inputTotalAmount : Nat
  outputTotalAmount : Nat
  inputs : List TransactionInput
  deriving DecidableEq, Repr

namespace TransactionOutputInformation

/-- `getTransactionOutputKey`. -/
def transactionOutputKey (t : TransactionOutputInformation) : TransactionOutputKey :=
  ⟨t.transactionHash, t.outputInTransaction⟩

/-- `getSpentOutputDescriptor`. -/
def spentOutputDescriptor (t : TransactionOutputInformation) : SpentOutputDescriptor :=
  match t.target with
  | .key keyImage _ => .key keyImage
  | .multisignature _ _ => .multisignature t.amount t.globalOutputIndex

end TransactionOutputInformation

namespace TransferInformation

/-- `lessTIterator`: an earlier block, or an earlier place in it. -/
def less (a b : TransferInformation) : Bool :=
  a.blockHeight < b.blockHeight ||
    (a.blockHeight == b.blockHeight && a.transactionIndex < b.transactionIndex)

/-- `makeTransferUnlockJob`, in 32-bit words. -/
def unlockJob (transactionSpendableAge : Nat) (output : TransferInformation) :
    TransferUnlockJob where
  unlockHeight :=
    let unlockTime :=
      if output.unlockTime = 0 then output.blockHeight else output.unlockTime % word32
    let spendable := (output.blockHeight + transactionSpendableAge + 1) % word32
    match output.target with
    | .key _ _ => max unlockTime spendable
    | .multisignature _ term =>
      if term = 0 then max unlockTime spendable
      else max unlockTime (max ((output.blockHeight + term) % word32) spendable)
  transactionOutputKey := output.transactionOutputKey

end TransferInformation

/-- `std::min_element` over outputs: the first of the earliest ones. -/
def minElement : List TransactionOutputInformationEx → Option TransactionOutputInformationEx
  | [] => none
  | t :: rest =>
    match minElement rest with
    | none => some t
    | some earliest => if earliest.less t.toTransferInformation then some earliest else some t

/-- `sort` and `findFirstByAmount`. -/
def findFirstByAmount (range : List TransactionOutputInformationEx) (amount : Nat) :
    Option TransactionOutputInformationEx :=
  (range.insertionSort fun a b => b.less a.toTransferInformation = false).find? fun t =>
    t.amount == amount

/-! ### Containers -/

namespace TransactionOutputInformationEx

/-- Two outputs have one output key. -/
def SameOutput (a b : TransactionOutputInformationEx) : Prop :=
  a.transactionOutputKey = b.transactionOutputKey

instance : DecidableRel SameOutput := fun a b =>
  inferInstanceAs (Decidable (a.transactionOutputKey = b.transactionOutputKey))

/-- Show or hide an output of a key image. -/
def updateVisibility (keyImage : KeyImage) (visible : TransferInformation → Bool)
    (t : TransactionOutputInformationEx) : TransactionOutputInformationEx :=
  if t.spentOutputDescriptor = .key keyImage then
    { t with visible := visible t.toTransferInformation }
  else t

@[simp] theorem updateVisibility_toTransferInformation (keyImage : KeyImage)
    (visible : TransferInformation → Bool) (t : TransactionOutputInformationEx) :
    (t.updateVisibility keyImage visible).toTransferInformation = t.toTransferInformation := by
  unfold TransactionOutputInformationEx.updateVisibility
  split <;> rfl

end TransactionOutputInformationEx

namespace SpentTransactionOutput

/-- Two spent outputs have one output key, or are spent by one key image or reference. -/
def SameOutput (a b : SpentTransactionOutput) : Prop :=
  a.transactionOutputKey = b.transactionOutputKey ∨
    a.spentOutputDescriptor = b.spentOutputDescriptor

instance : DecidableRel SameOutput := fun a b =>
  inferInstanceAs (Decidable (a.transactionOutputKey = b.transactionOutputKey ∨
    a.spentOutputDescriptor = b.spentOutputDescriptor))

/-- Show or hide a spent output of a key image. -/
def updateVisibility (keyImage : KeyImage) (visible : TransferInformation → Bool)
    (s : SpentTransactionOutput) : SpentTransactionOutput :=
  { s with
    toTransactionOutputInformationEx :=
      s.toTransactionOutputInformationEx.updateVisibility keyImage visible }

end SpentTransactionOutput

/-- `UnconfirmedTransfersMultiIndex` and `AvailableTransfersMultiIndex`. -/
abbrev TransfersMultiIndex := HashedIndex TransactionOutputInformationEx.SameOutput

abbrev SpentTransfersMultiIndex := HashedIndex SpentTransactionOutput.SameOutput

/-- `TransactionMultiIndex`, in the order of its second index. -/
abbrev TransactionMultiIndex :=
  OrderedIndex TransactionInformation.transactionHash TransactionInformation.blockHeight

/-- `TransfersUnlockMultiIndex`, in the order of its first index. -/
abbrev TransfersUnlockMultiIndex :=
  OrderedIndex TransferUnlockJob.transactionOutputKey TransferUnlockJob.unlockHeight

/-- Show or hide the outputs of a key image. -/
def TransfersMultiIndex.updateVisibility (keyImage : KeyImage)
    (visible : TransferInformation → Bool) (index : TransfersMultiIndex) : TransfersMultiIndex :=
  index.update (TransactionOutputInformationEx.updateVisibility keyImage visible) fun a b h => by
    simpa [TransactionOutputInformationEx.SameOutput] using h

/-- Show or hide the spent outputs of a key image. -/
def SpentTransfersMultiIndex.updateVisibility (keyImage : KeyImage)
    (visible : TransferInformation → Bool)
    (index : SpentTransfersMultiIndex) : SpentTransfersMultiIndex :=
  index.update (SpentTransactionOutput.updateVisibility keyImage visible) fun a b h => by
    simpa [SpentTransactionOutput.SameOutput, SpentTransactionOutput.updateVisibility] using h

structure TransfersContainer where
  transactions : TransactionMultiIndex
  /-- `m_transactionsBM`: the transactions with messages for the other addresses of the wallet. -/
  transactionsBM : TransactionMultiIndex
  unconfirmedTransfers : TransfersMultiIndex
  availableTransfers : TransfersMultiIndex
  spentTransfers : SpentTransfersMultiIndex
  transfersUnlockJobs : TransfersUnlockMultiIndex
  currentHeight : Nat

namespace TransfersContainer

def empty : TransfersContainer where
  transactions := .empty
  transactionsBM := .empty
  unconfirmedTransfers := .empty
  availableTransfers := .empty
  spentTransfers := .empty
  transfersUnlockJobs := .empty
  currentHeight := 0

/-! ### Equal ranges -/

/-- The unconfirmed outputs with a descriptor. -/
def unconfirmedOf (c : TransfersContainer) (descriptor : SpentOutputDescriptor) :
    List TransactionOutputInformationEx :=
  c.unconfirmedTransfers.toList.filter fun t => t.spentOutputDescriptor = descriptor

/-- The available outputs with a descriptor. -/
def availableOf (c : TransfersContainer) (descriptor : SpentOutputDescriptor) :
    List TransactionOutputInformationEx :=
  c.availableTransfers.toList.filter fun t => t.spentOutputDescriptor = descriptor

/-- The spent outputs with a descriptor. -/
def spentOf (c : TransfersContainer) (descriptor : SpentOutputDescriptor) :
    List SpentTransactionOutput :=
  c.spentTransfers.toList.filter fun s => s.spentOutputDescriptor = descriptor

/-- The outputs spent by a transaction. -/
def spentBy (c : TransfersContainer) (transactionHash : Hash) : List SpentTransactionOutput :=
  c.spentTransfers.toList.filter fun s => s.spendingTransactionHash = transactionHash

/-! ### Visibility and unlock jobs -/

def updateTransfersVisibility (keyImage : KeyImage) (c : TransfersContainer) : TransfersContainer :=
  if c.spentOf (.key keyImage) ≠ [] then
    { c with
      unconfirmedTransfers := c.unconfirmedTransfers.updateVisibility keyImage fun _ => false
      availableTransfers := c.availableTransfers.updateVisibility keyImage fun _ => false
      spentTransfers := c.spentTransfers.updateVisibility keyImage fun _ => true }
  else
    match minElement (c.availableOf (.key keyImage)) with
    | some earliest =>
      { c with
        unconfirmedTransfers := c.unconfirmedTransfers.updateVisibility keyImage fun _ => false
        availableTransfers := c.availableTransfers.updateVisibility keyImage fun t =>
          t.transactionOutputKey = earliest.transactionOutputKey }
    | none =>
      { c with
        unconfirmedTransfers := c.unconfirmedTransfers.updateVisibility keyImage fun _ =>
          (c.unconfirmedOf (.key keyImage)).length == 1 }

/-- The update that follows a change of an output, made for key outputs only. -/
def updateVisibilityOf (target : TransferTarget) (c : TransfersContainer) : TransfersContainer :=
  match target with
  | .key keyImage _ => c.updateTransfersVisibility keyImage
  | .multisignature _ _ => c

variable (cur : Currency) (transactionSpendableAge : Nat)

def addUnlockJob (output : TransferInformation) (c : TransfersContainer) : TransfersContainer :=
  { c with
    transfersUnlockJobs := c.transfersUnlockJobs.emplace
      (output.unlockJob transactionSpendableAge) }

def deleteUnlockJob (output : TransferInformation) (c : TransfersContainer) : TransfersContainer :=
  { c with transfersUnlockJobs := c.transfersUnlockJobs.erase output.transactionOutputKey }

/-! ### Single transfers -/

/-- An output of a transaction without a block is recorded. -/
def addUnconfirmed (t : TransactionOutputInformationEx) (c : TransfersContainer) :
    TransfersContainer :=
  updateVisibilityOf t.target
    { c with unconfirmedTransfers := c.unconfirmedTransfers.emplace t }

/-- An output becomes available. -/
def addAvailable (t : TransactionOutputInformationEx) (c : TransfersContainer) :
    TransfersContainer :=
  let c := c.addUnlockJob transactionSpendableAge t.toTransferInformation
  updateVisibilityOf t.target { c with availableTransfers := c.availableTransfers.emplace t }

/-- `copyToSpent`, and the removal of the output from the available ones. -/
def spendTransfer (block : TransactionBlockInfo) (transactionHash : Hash) (inputIndex : Nat)
    (t : TransactionOutputInformationEx) (c : TransfersContainer) : TransfersContainer :=
  let c := c.deleteUnlockJob t.toTransferInformation
  updateVisibilityOf t.target
    { c with
      spentTransfers := c.spentTransfers.emplace
        { t with
          spendingBlock := block
          spendingTransactionHash := transactionHash
          inputInTransaction := inputIndex }
      availableTransfers := c.availableTransfers.filter fun other =>
        other.transactionOutputKey ≠ t.transactionOutputKey }

/-- The body of the first loop of `deleteTransactionTransfers`: a spent output becomes available. -/
def unspendTransfer (c : TransfersContainer) (s : SpentTransactionOutput) : TransfersContainer :=
  let c := c.addUnlockJob transactionSpendableAge s.toTransferInformation
  updateVisibilityOf s.target
    { c with
      availableTransfers := c.availableTransfers.emplace s.toTransactionOutputInformationEx
      spentTransfers := c.spentTransfers.filter fun other =>
        other.transactionOutputKey ≠ s.transactionOutputKey }

/-- The body of the second loop. -/
def deleteUnconfirmed (c : TransfersContainer) (t : TransactionOutputInformationEx) :
    TransfersContainer :=
  updateVisibilityOf t.target
    { c with
      unconfirmedTransfers := c.unconfirmedTransfers.filter fun other =>
        other.transactionOutputKey ≠ t.transactionOutputKey }

/-- The body of the third loop. -/
def deleteAvailable (c : TransfersContainer) (t : TransactionOutputInformationEx) :
    TransfersContainer :=
  let c := c.deleteUnlockJob t.toTransferInformation
  updateVisibilityOf t.target
    { c with
      availableTransfers := c.availableTransfers.filter fun other =>
        other.transactionOutputKey ≠ t.transactionOutputKey }

def deleteTransactionTransfers (transactionHash : Hash) (c : TransfersContainer) :
    TransfersContainer :=
  let c := (c.spentBy transactionHash).foldl (unspendTransfer transactionSpendableAge) c
  let c := (c.unconfirmedTransfers.toList.filter fun t => t.transactionHash = transactionHash).foldl
    deleteUnconfirmed c
  (c.availableTransfers.toList.filter fun t => t.transactionHash = transactionHash).foldl
    deleteAvailable c

/-! ### Adding a transaction -/

/-- The record of an output of a transaction. -/
def transferRecord (block : TransactionBlockInfo) (tx : TransactionReader)
    (transfer : TransactionOutputInformationIn) : TransactionOutputInformationEx :=
  { transfer with
    transactionHash := tx.transactionHash
    unlockTime := tx.unlockTime
    blockHeight := block.height
    transactionIndex := block.transactionIndex
    visible := true }

/-- A multisignature output that is already known as a confirmed one. -/
def transferExists (c : TransfersContainer) (t : TransactionOutputInformation) : Bool :=
  match t.target with
  | .key _ _ => false
  | .multisignature _ _ =>
    c.availableOf t.spentOutputDescriptor ≠ [] || c.spentOf t.spentOutputDescriptor ≠ []

/-- The body of the loop of `addTransactionOutputs`. -/
def addTransactionOutput (block : TransactionBlockInfo) (tx : TransactionReader)
    (transfer : TransactionOutputInformationIn) : Program TransfersContainer Unit := do
  let c ← get
  let transactionIsUnconfirmed := block.height == unconfirmedTransactionHeight
  let transferIsUnconfirmed := transfer.globalOutputIndex == unconfirmedTransactionGlobalOutputIndex
  let info := transferRecord block tx transfer
  if transactionIsUnconfirmed != transferIsUnconfirmed then throw
  else if transferIsUnconfirmed then modify (addUnconfirmed info)
  else if c.transferExists transfer.toTransactionOutputInformation then throw
  else modify (addAvailable transactionSpendableAge info)

/-- `addTransactionOutputs`: whether an output was recorded. Outputs of other accounts are
skipped. -/
def addTransactionOutputs (block : TransactionBlockInfo) (tx : TransactionReader) :
    List TransactionOutputInformationIn → Program TransfersContainer Bool
  | [] => pure false
  | transfer :: transfers =>
    if transfer.id ≠ accountOwnId then addTransactionOutputs block tx transfers
    else do
      addTransactionOutput transactionSpendableAge block tx transfer
      let _ ← addTransactionOutputs block tx transfers
      pure true

/-- What the container does about an input. -/
inductive InputCheck
  | fail
  /-- It spends nothing of this wallet. -/
  | foreign
  | spend (t : TransactionOutputInformationEx)
  deriving DecidableEq, Repr

/-- The checks of the loop of `addTransactionInputs`. -/
def checkInput (c : TransfersContainer) : TransactionInput → InputCheck
  | .key input =>
    if c.spentOf (.key input.keyImage) ≠ [] then .fail
    else if c.availableOf (.key input.keyImage) = [] then
      if c.unconfirmedOf (.key input.keyImage) ≠ [] then .fail else .foreign
    else
      match findFirstByAmount (c.availableOf (.key input.keyImage)) input.amount with
      | none => .fail
      | some t => .spend t
  | .multisignature input =>
    match (c.availableOf (.multisignature input.amount input.outputIndex)).head? with
    | none => .foreign
    | some t => .spend t
  | .base _ => .foreign

/-- `addTransactionInputs`, from the input at position `inputIndex` on: whether one was recorded. -/
def addTransactionInputs (block : TransactionBlockInfo) (tx : TransactionReader)
    (inputIndex : Nat) : List TransactionInput → Program TransfersContainer Bool
  | [] => pure false
  | input :: inputs => do
    let c ← get
    match c.checkInput input with
    | .fail => throw
    | .foreign => addTransactionInputs block tx (inputIndex + 1) inputs
    | .spend t => do
      modify (spendTransfer block tx.transactionHash inputIndex t)
      let _ ← addTransactionInputs block tx (inputIndex + 1) inputs
      pure true

/-- The record of a transaction. -/
def transactionRecord (block : TransactionBlockInfo) (tx : TransactionReader)
    (messages : List String) (id : Nat) : TransactionInformation where
  transactionHash := tx.transactionHash
  publicKey := tx.transactionPublicKey
  blockHeight := block.height
  timestamp := block.timestamp
  unlockTime := tx.unlockTime
  totalAmountIn := tx.inputTotalAmount
  totalAmountOut := tx.outputTotalAmount
  extra := tx.extra
  paymentId := tx.paymentId.getD nullHash
  messages
  id

/-- Enter a transaction. -/
def recordTransaction (info : TransactionInformation) (c : TransfersContainer) :
    TransfersContainer :=
  { c with transactions := c.transactions.emplace info }

/-! ### Heights -/

def getAvailableOutput (c : TransfersContainer) (key : TransactionOutputKey) :
    Except Fault TransactionOutputInformation :=
  match c.availableTransfers.toList.find? fun t => t.transactionOutputKey = key with
  | none => .error .exception
  | some t => .ok t.toTransactionOutputInformation

/-- The outputs of the jobs from one position up to another. A range that ends before it starts is
walked out of the container. -/
def transfersBetween (c : TransfersContainer) (start stop : Nat) :
    Except Fault (List TransactionOutputInformation) :=
  if stop < start then .error .undefined
  else (c.transfersUnlockJobs.between start stop).mapM fun job =>
    c.getAvailableOutput job.transactionOutputKey

def getUnlockingTransfers (c : TransfersContainer) (prevHeight currentHeight : Nat) :
    Except Fault (List TransactionOutputInformation) :=
  if currentHeight < prevHeight then .error .exception
  else
    let start := if prevHeight = 0 then 0
      else c.transfersUnlockJobs.upperBound ((prevHeight + 1) % word32)
    c.transfersBetween start (c.transfersUnlockJobs.upperBound ((currentHeight + 1) % word32))

def getLockingTransfers (c : TransfersContainer) (prevHeight currentHeight : Nat) :
    Except Fault (List TransactionOutputInformation) :=
  if prevHeight < currentHeight then .ok []
  else
    c.transfersBetween (c.transfersUnlockJobs.upperBound ((currentHeight + 1) % word32))
      (c.transfersUnlockJobs.upperBound ((prevHeight + 1) % word32))

/-- `doAdvanceHeight`. -/
def advanceHeight (height : Nat) :
    Program TransfersContainer (List TransactionOutputInformation) := do
  let c ← get
  if height < c.currentHeight then throw
  else do
    modify fun c => { c with currentHeight := height }
    read fun c' => c'.getUnlockingTransfers c.currentHeight height

/-! ### Entry points -/

/-- `addTransaction`: whether the transaction was recorded, and the outputs it unlocked. -/
def addTransaction (block : TransactionBlockInfo) (tx : TransactionReader)
    (transfers : List TransactionOutputInformationIn) (messages : List String) (id : Nat) :
    Program TransfersContainer (Bool × List TransactionOutputInformation) := do
  let c ← get
  if block.height < c.currentHeight then throw
  else if (c.transactions.find? tx.transactionHash).isSome then throw
  else do
    let outputsAdded ← addTransactionOutputs transactionSpendableAge block tx transfers
    let inputsAdded ← addTransactionInputs block tx 0 tx.inputs
    let added := outputsAdded || inputsAdded
    modify fun c =>
      if added then c.recordTransaction (transactionRecord block tx messages id) else c
    if block.height = unconfirmedTransactionHeight then pure (added, [])
    else do
      let unlocked ← advanceHeight block.height
      pure (added, unlocked)

def addTransactionBM (block : TransactionBlockInfo) (tx : TransactionReader)
    (messages : List String) (id : Nat) : Program TransfersContainer Bool := do
  let c ← get
  if block.height < c.currentHeight then throw
  else if (c.transactionsBM.find? tx.transactionHash).isSome then pure false
  else do
    let info := { transactionRecord block tx messages id with
      totalAmountIn := 0, totalAmountOut := 0, paymentId := nullHash }
    modify fun c => { c with transactionsBM := c.transactionsBM.emplace info }
    pure true

/-- A transaction is removed with its transfers. -/
def deleteTransaction (transactionHash : Hash) (c : TransfersContainer) : TransfersContainer :=
  let c := c.deleteTransactionTransfers transactionSpendableAge transactionHash
  { c with transactions := c.transactions.erase transactionHash }

def deleteUnconfirmedTransaction (transactionHash : Hash) : Program TransfersContainer Bool := do
  let c ← get
  match c.transactions.find? transactionHash with
  | none => pure false
  | some info =>
    if info.blockHeight ≠ unconfirmedTransactionHeight then pure false
    else do
      modify (deleteTransaction transactionSpendableAge transactionHash)
      pure true

/-- The record of an output whose transaction has got a block. -/
def confirmedRecord (block : TransactionBlockInfo) (globalOutputIndex : Nat)
    (transfer : TransactionOutputInformationEx) : TransactionOutputInformationEx :=
  { transfer with
    blockHeight := block.height
    transactionIndex := block.transactionIndex
    globalOutputIndex }

/-- An unconfirmed output becomes available, with the fields it has now. -/
def confirmTransfer (transfer confirmed : TransactionOutputInformationEx) (c : TransfersContainer) :
    TransfersContainer :=
  let c := c.addUnlockJob transactionSpendableAge confirmed.toTransferInformation
  updateVisibilityOf confirmed.target
    { c with
      availableTransfers := c.availableTransfers.emplace confirmed
      unconfirmedTransfers := c.unconfirmedTransfers.filter fun other =>
        other.transactionOutputKey ≠ transfer.transactionOutputKey }

/-- The first loop of `markTransactionConfirmed`, over the unconfirmed outputs of the
transaction. -/
def confirmTransfers (block : TransactionBlockInfo) (globalIndices : List Nat) :
    List TransactionOutputInformationEx → Program TransfersContainer Unit
  | [] => pure ()
  | transfer :: transfers => do
    let c ← get
    match globalIndices[transfer.outputInTransaction]? with
    | none => throw
    | some globalOutputIndex => do
      let confirmed := confirmedRecord block globalOutputIndex transfer
      if c.transferExists confirmed.toTransactionOutputInformation then throw
      else do
        modify (confirmTransfer transactionSpendableAge transfer confirmed)
        confirmTransfers block globalIndices transfers

/-- The second loop of `markTransactionConfirmed`. -/
def confirmSpending (block : TransactionBlockInfo) (transactionHash : Hash)
    (c : TransfersContainer) : TransfersContainer :=
  { c with
    spentTransfers := c.spentTransfers.update
      (fun s => if s.spendingTransactionHash = transactionHash then
        { s with spendingBlock := block }
        else s)
      fun a b h => by
        revert h
        unfold SpentTransactionOutput.SameOutput
        split <;> split <;> exact id }

def markTransactionConfirmed (block : TransactionBlockInfo) (transactionHash : Hash)
    (globalIndices : List Nat) : Program TransfersContainer Bool := do
  if block.height = unconfirmedTransactionHeight then throw
  else do
    let c ← get
    match c.transactions.find? transactionHash with
    | none => pure false
    | some info =>
      if info.blockHeight ≠ unconfirmedTransactionHeight then pure false
      else do
        modify fun c =>
          { c with
            transactions := c.transactions.replace
              { info with blockHeight := block.height, timestamp := block.timestamp } }
        confirmTransfers transactionSpendableAge block globalIndices
          (c.unconfirmedTransfers.toList.filter fun t => t.transactionHash = transactionHash)
        modify (confirmSpending block transactionHash)
        pure true

/-- Whether `detach` deletes a transaction. -/
def doDelete (height : Nat) (info : TransactionInformation) (c : TransfersContainer) : Bool :=
  if info.blockHeight = unconfirmedTransactionHeight then
    (c.spentBy info.transactionHash).any fun s => height ≤ s.blockHeight
  else height ≤ info.blockHeight

/-- The loop of `detach`, over the transactions from the last one on: the transactions it
deletes. -/
def detachTransactions (height : Nat) :
    List TransactionInformation → TransfersContainer → List Hash × TransfersContainer
  | [], c => ([], c)
  | info :: older, c =>
    if c.doDelete height info then
      let (deleted, c) := detachTransactions height older
        (c.deleteTransaction transactionSpendableAge info.transactionHash)
      (info.transactionHash :: deleted, c)
    -- the first transaction in a lower block ends the loop
    else if info.blockHeight = unconfirmedTransactionHeight then detachTransactions height older c
    else ([], c)

/-- `detach`: the deleted transactions and the outputs that get locked. -/
def detach (height : Nat) : Program TransfersContainer
    (List Hash × List TransactionOutputInformation) := do
  let c ← get
  let deleted ← modifyGet
    (detachTransactions transactionSpendableAge height c.transactions.toList.reverse)
  modify fun c => { c with currentHeight := height - 1 }
  let locked ← read fun c' => c'.getLockingTransfers c.currentHeight (height - 1)
  pure (deleted, locked)

/-- The order in which a container lists its records when it is saved. -/
structure SavedOrder where
  transactions : List TransactionInformation
  /-- `none` when the wallet has an older version, which does not save these transactions. -/
  transactionsBM : Option (List TransactionInformation)
  unconfirmedTransfers : List TransactionOutputInformationEx
  availableTransfers : List TransactionOutputInformationEx
  spentTransfers : List SpentTransactionOutput

/-- The records are those of a container. -/
def SavedOrder.Of (order : SavedOrder) (c : TransfersContainer) : Prop :=
  order.transactions.Perm c.transactions.toList ∧
    (∀ saved ∈ order.transactionsBM, saved.Perm c.transactionsBM.toList) ∧
    order.unconfirmedTransfers.Perm c.unconfirmedTransfers.toList ∧
    order.availableTransfers.Perm c.availableTransfers.toList ∧
    order.spentTransfers.Perm c.spentTransfers.toList

/-- `save` followed by `load`: the saved records are inserted into new containers. -/
def reload (order : SavedOrder) (c : TransfersContainer) : TransfersContainer where
  transactions := .ofList order.transactions
  transactionsBM := .ofList (order.transactionsBM.getD [])
  unconfirmedTransfers := .ofList order.unconfirmedTransfers
  availableTransfers := .ofList order.availableTransfers
  spentTransfers := .ofList order.spentTransfers
  transfersUnlockJobs := .ofList c.transfersUnlockJobs.toList
  currentHeight := c.currentHeight

/-! ### Queries -/

variable (now : Nat)

/-- `isSpendTimeUnlocked`, at a height. -/
def isSpendTimeUnlocked (height : Nat) (info : TransferInformation) : Bool :=
  let unlocked : Bool :=
    if info.unlockTime < cur.maxBlockHeight then
      info.unlockTime ≤ height + cur.lockedTxAllowedDeltaBlocks
    else info.unlockTime ≤ now + cur.lockedTxAllowedDeltaSeconds
  match info.target with
  | .key _ _ => unlocked
  | .multisignature _ term =>
    unlocked && (term == 0 || (info.blockHeight + term) % word32 ≤ (height + 1) % word32)

/-- The states of `ITransfersContainer::Flags`. -/
inductive TransferState
  | unlocked
  | locked
  | softLocked
  deriving DecidableEq, Repr

/-- The state `isIncluded` computes for an output, at a height. -/
def transferState (height : Nat) (info : TransferInformation) : TransferState :=
  if info.blockHeight = unconfirmedTransactionHeight ∨ !isSpendTimeUnlocked cur now height info then
    .locked
  else if height < info.blockHeight + transactionSpendableAge then .softLocked
  else .unlocked

/-- The flag of a state. -/
def TransferState.flag : TransferState → Nat
  | .unlocked => 0x01
  | .locked => 0x02
  | .softLocked => 0x04

/-- `isIncluded(output, state, flags)`. -/
def isIncludedAs (output : TransferInformation) (state : TransferState) (flags : Nat) : Bool :=
  (match output.target with
    | .key _ _ => flags &&& 0x100 ≠ 0
    | .multisignature _ term =>
      if term = 0 then flags &&& 0x200 ≠ 0 else flags &&& 0x400 ≠ 0) &&
    flags &&& state.flag ≠ 0

/-- The flags of the two balances take in outputs of every type, and differ in the states. -/
theorem isIncludedAs_eq (t : TransferInformation) (state : TransferState) :
    isIncludedAs t state 0xff01 = decide (state = .unlocked) ∧
      isIncludedAs t state 0xff06 = decide (state ≠ .unlocked) := by
  unfold isIncludedAs
  cases t.target with
  | key => cases state <;> exact ⟨rfl, rfl⟩
  | multisignature _ term =>
    dsimp only
    split <;> cases state <;> exact ⟨rfl, rfl⟩

/-- The outputs `balance` and `getOutputs` go through. -/
def getOutputs (flags : Nat) (c : TransfersContainer) : List TransactionOutputInformationEx :=
  (c.availableTransfers.toList.filter fun t =>
    t.visible && isIncludedAs t.toTransferInformation
      (transferState cur transactionSpendableAge now c.currentHeight t.toTransferInformation)
        flags) ++
  if flags &&& TransferState.locked.flag ≠ 0 then
    c.unconfirmedTransfers.toList.filter fun t =>
      t.visible && isIncludedAs t.toTransferInformation .locked flags
  else []

def balance (flags : Nat) (c : TransfersContainer) : Nat :=
  (getOutputs cur transactionSpendableAge now flags c).foldl
    (fun amount t => add64 amount t.amount) 0

end TransfersContainer

/-! ### Runs -/

/-- The calls that change a container. -/
inductive TransfersCall
  | addTransaction (block : TransactionBlockInfo) (tx : TransactionReader)
      (transfers : List TransactionOutputInformationIn) (messages : List String) (id : Nat)
  | addTransactionBM (block : TransactionBlockInfo) (tx : TransactionReader)
      (messages : List String) (id : Nat)
  | markTransactionConfirmed (block : TransactionBlockInfo) (transactionHash : Hash)
      (globalIndices : List Nat)
  | deleteUnconfirmedTransaction (transactionHash : Hash)
  | detach (height : Nat)
  | advanceHeight (height : Nat)
  | reload (order : TransfersContainer.SavedOrder)

namespace TransfersContainer

/-- A call, with its result forgotten. -/
def perform (transactionSpendableAge : Nat) : TransfersCall → Program TransfersContainer Unit
  | .addTransaction block tx transfers messages id => do
    let _ ← addTransaction transactionSpendableAge block tx transfers messages id
    pure ()
  | .addTransactionBM block tx messages id => do
    let _ ← addTransactionBM block tx messages id
    pure ()
  | .markTransactionConfirmed block transactionHash globalIndices => do
    let _ ← markTransactionConfirmed transactionSpendableAge block transactionHash globalIndices
    pure ()
  | .deleteUnconfirmedTransaction transactionHash => do
    let _ ← deleteUnconfirmedTransaction transactionSpendableAge transactionHash
    pure ()
  | .detach height => do
    let _ ← detach transactionSpendableAge height
    pure ()
  | .advanceHeight height => do
    let _ ← advanceHeight height
    pure ()
  | .reload order => modify (reload order)

/-- The records that are saved are those of the container. -/
def Saves (c : TransfersContainer) : TransfersCall → Prop
  | .reload order => order.Of c
  | _ => True

/-- The container `c` is reached from a new one by calls that return or throw. -/
inductive Reached (transactionSpendableAge : Nat) : TransfersContainer → Prop
  | start : Reached transactionSpendableAge empty
  | step {c c' : TransfersContainer} {call : TransfersCall}
      (hrun : Reached transactionSpendableAge c)
      (hsaves : c.Saves call) (hcall : (perform transactionSpendableAge call c).Leaves c') :
      Reached transactionSpendableAge c'

/-- The container `c` is reached from a new one by calls that return, each of which meets `Ok` in
the container it is made on. -/
inductive Run (transactionSpendableAge : Nat) (Ok : TransfersContainer → TransfersCall → Prop) :
    TransfersContainer → Prop
  | start : Run transactionSpendableAge Ok empty
  | step {c c' : TransfersContainer} {call : TransfersCall}
      (hrun : Run transactionSpendableAge Ok c) (hok : Ok c call) (hsaves : c.Saves call)
      (hcall : perform transactionSpendableAge call c = .done () c') :
      Run transactionSpendableAge Ok c'

/-- The container after a list of calls, `none` when one of them does not return. -/
def performAll (transactionSpendableAge : Nat) : List TransfersCall → TransfersContainer →
    Option TransfersContainer
  | [], c => some c
  | call :: calls, c =>
    match perform transactionSpendableAge call c with
    | .done () c' => performAll transactionSpendableAge calls c'
    | _ => none

variable {Ok : TransfersContainer → TransfersCall → Prop} {c : TransfersContainer}

/-- What holds after evaluating a list of calls holds in a container that a run reaches. -/
theorem exists_run_of_performAll {transactionSpendableAge : Nat} {P : TransfersContainer → Prop}
    [DecidablePred P]
    {calls : List TransfersCall} (hok : ∀ call ∈ calls, ∀ c, Ok c call ∧ c.Saves call)
    (hrun : Run transactionSpendableAge Ok c)
    (h : (performAll transactionSpendableAge calls c).any (fun c' => decide (P c')) = true) :
    ∃ c', Run transactionSpendableAge Ok c' ∧ P c' := by
  induction calls generalizing c with
  | nil => exact ⟨c, hrun, of_decide_eq_true h⟩
  | cons call calls ih =>
    obtain ⟨hfirst, hrest⟩ := List.forall_mem_cons.mp hok
    rw [performAll] at h
    split at h
    · rename_i c' hcall
      exact ih hrest (.step hrun (hfirst c).1 (hfirst c).2 hcall) h
    · cases h

theorem exists_run_of_calls (transactionSpendableAge : Nat) (calls : List TransfersCall)
    (P : TransfersContainer → Prop) [DecidablePred P]
    (hok : ∀ call ∈ calls, ∀ c, Ok c call ∧ c.Saves call)
    (h : (performAll transactionSpendableAge calls empty).any (fun c => decide (P c)) = true) :
    ∃ c, Run transactionSpendableAge Ok c ∧ P c :=
  exists_run_of_performAll hok .start h

theorem Run.reached {transactionSpendableAge : Nat} (h : Run transactionSpendableAge Ok c) :
    Reached transactionSpendableAge c := by
  induction h with
  | start => exact .start
  | step _ _ hsaves hcall ih =>
    refine .step ih hsaves ?_
    rw [hcall]
    exact .done () _

end TransfersContainer

end DarknetCoin
