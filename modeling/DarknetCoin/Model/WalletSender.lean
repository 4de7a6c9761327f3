import DarknetCoin.Model.TransfersContainer
import Mathlib.Data.List.AList

/-!
# Payments, deposits and withdrawals of a wallet

`WalletLegacy/WalletUnconfirmedTransactions.cpp`, `WalletLegacy/WalletTransactionSender.cpp` and the
parts of `WalletLegacy/WalletUserTransactionsCache.cpp` and `WalletLegacy/WalletLegacy.cpp` they
work with. A request ends with a request to the node, whose answer is a callback. Outputs are
reserved when the transaction is built, which for a payment that mixes is the callback.

What the construction of a transaction gives is a parameter: its hash, or where it fails. So are the
random generator, the clock and the memory nothing was written to. Fields that are only shown are
left out.
-/

namespace DarknetCoin

open Data Semantics

abbrev TransactionId := Nat

abbrev DepositId := Nat

/-- The sum of a loop over words. -/
def sum64 (values : List Nat) : Nat := values.foldl add64 0

structure TransactionOutputId where
  transactionPublicKey : PublicKey
  outputInTransaction : Nat
  deriving DecidableEq, Repr

def getOutputId (out : TransactionOutputInformation) : TransactionOutputId :=
  ⟨out.transactionPublicKey, out.outputInTransaction⟩

structure UnconfirmedTransferDetails where
  amount : Nat
  outsAmount : Nat
  sentTime : Nat
  transactionId : TransactionId
  usedOutputs : List TransactionOutputId

structure UnconfirmedSpentDepositDetails where
  transactionId : TransactionId
  depositsSum : Nat
  fee : Nat

structure WalletUnconfirmedTransactions where
  unconfirmedTxs : AList fun _ : Hash => UnconfirmedTransferDetails
  usedOutputs : Finset TransactionOutputId
  createdDeposits : AList fun _ : DepositId => Nat
  spentDeposits : AList fun _ : Hash => UnconfirmedSpentDepositDetails

namespace WalletUnconfirmedTransactions

def empty : WalletUnconfirmedTransactions := ⟨∅, ∅, ∅, ∅⟩

def isUsed (out : TransactionOutputInformation) (u : WalletUnconfirmedTransactions) : Bool :=
  getOutputId out ∈ u.usedOutputs

/-- `erase`: of an unconfirmed transaction, or else of a transaction that spends deposits. -/
def erase (hash : Hash) (u : WalletUnconfirmedTransactions) : WalletUnconfirmedTransactions :=
  match u.unconfirmedTxs.lookup hash with
  | some details =>
    { u with
      unconfirmedTxs := u.unconfirmedTxs.erase hash
      usedOutputs := u.usedOutputs \ details.usedOutputs.toFinset }
  | none => { u with spentDeposits := u.spentDeposits.erase hash }

/-- `add`, at a time. The outputs are added to those of an entry that is already there. -/
def add (hash : Hash) (transactionId : TransactionId) (amount now : Nat)
    (usedOutputs : List TransactionOutputInformation) (u : WalletUnconfirmedTransactions) :
    WalletUnconfirmedTransactions :=
  let previous := ((u.unconfirmedTxs.lookup hash).map (·.usedOutputs)).getD []
  { u with
    unconfirmedTxs := u.unconfirmedTxs.insert hash
      ⟨amount, sum64 (usedOutputs.map (·.amount)), now, transactionId,
        previous ++ usedOutputs.map getOutputId⟩
    usedOutputs := u.usedOutputs ∪ (usedOutputs.map getOutputId).toFinset }

def addCreatedDeposit (id : DepositId) (totalAmount : Nat) (u : WalletUnconfirmedTransactions) :
    WalletUnconfirmedTransactions :=
  { u with createdDeposits := u.createdDeposits.insert id totalAmount }

/-- `addDepositSpendingTransaction`. An entry that is there stays. -/
def addDepositSpendingTransaction (hash : Hash) (details : UnconfirmedSpentDepositDetails)
    (u : WalletUnconfirmedTransactions) : WalletUnconfirmedTransactions :=
  if hash ∈ u.spentDeposits then u
  else { u with spentDeposits := u.spentDeposits.insert hash details }

def countCreatedDepositsSum (u : WalletUnconfirmedTransactions) : Nat :=
  sum64 (u.createdDeposits.entries.map (·.2))

def countSpentDepositsProfit (u : WalletUnconfirmedTransactions) : Nat :=
  sum64 (u.spentDeposits.entries.map fun entry => sub64 entry.2.depositsSum entry.2.fee)

def countSpentDepositsTotalAmount (u : WalletUnconfirmedTransactions) : Nat :=
  sum64 (u.spentDeposits.entries.map (·.2.depositsSum))

def countUnconfirmedOutsAmount (u : WalletUnconfirmedTransactions) : Nat :=
  sum64 (u.unconfirmedTxs.entries.map (·.2.outsAmount))

def countUnconfirmedTransactionsAmount (u : WalletUnconfirmedTransactions) : Nat :=
  sum64 (u.unconfirmedTxs.entries.map (·.2.amount))

end WalletUnconfirmedTransactions

inductive WalletLegacyTransactionState
  | active
  | deleted
  | sending
  | cancelled
  | failed
  deriving DecidableEq, Repr

structure WalletLegacyTransaction where
  firstDepositId : Option DepositId
  depositCount : Nat
  totalAmount : Int
  fee : Nat
  hash : Hash
  state : WalletLegacyTransactionState

/-- `Deposit`, with the output of `DepositInfo`. -/
structure Deposit where
  creatingTransactionId : TransactionId
  spendingTransactionId : Option TransactionId
  term : Nat
  amount : Nat
  interest : Nat
  locked : Bool
  outputInTransaction : Nat

structure WalletUserTransactionsCache where
  transactions : List WalletLegacyTransaction
  unconfirmedTransactions : WalletUnconfirmedTransactions
  deposits : List Deposit
  transactionOutputToDepositIndex : AList fun _ : TransactionOutputKey => DepositId

/-- What `makeCompleteEvent` is called with. -/
inductive Completion
  | success
  | cancelled
  | failed
  deriving DecidableEq, Repr

def Completion.state : Completion → WalletLegacyTransactionState
  | success => .active
  | cancelled => .cancelled
  | failed => .failed

namespace WalletUserTransactionsCache

/-- `addNewTransaction`. The hash has no initial value. -/
def addNewTransaction (unsetHash : Hash) (amount fee : Nat) (cache : WalletUserTransactionsCache) :
    WalletUserTransactionsCache :=
  { cache with
    transactions := cache.transactions ++
      [⟨none, 0, -(amount : Int).bmod word64, fee, unsetHash, .sending⟩] }

/-- A transaction is changed through the reference of `getTransaction`. -/
def modifyTransaction (id : TransactionId) (f : WalletLegacyTransaction → WalletLegacyTransaction)
    (cache : WalletUserTransactionsCache) : WalletUserTransactionsCache :=
  { cache with transactions := cache.transactions.modify id f }

def updateTransaction (id : TransactionId) (hash : Hash) (amount now : Nat)
    (usedOutputs : List TransactionOutputInformation) (cache : WalletUserTransactionsCache) :
    WalletUserTransactionsCache :=
  { cache with
    unconfirmedTransactions := cache.unconfirmedTransactions.add hash id amount now usedOutputs }

def updateTransactionSendingState (id : TransactionId) (completion : Completion)
    (cache : WalletUserTransactionsCache) : WalletUserTransactionsCache :=
  { cache.modifyTransaction id
      (fun transaction => { transaction with state := completion.state }) with
    unconfirmedTransactions :=
      match cache.transactions[id]?, completion with
      | some _, .success | none, _ => cache.unconfirmedTransactions
      | some transaction, _ => cache.unconfirmedTransactions.erase transaction.hash }

def insertDeposit (deposit : Deposit) (transactionHash : Hash)
    (cache : WalletUserTransactionsCache) : WalletUserTransactionsCache :=
  let key : TransactionOutputKey := ⟨transactionHash, deposit.outputInTransaction⟩
  { cache with
    deposits := cache.deposits ++ [deposit]
    transactionOutputToDepositIndex :=
      if key ∈ cache.transactionOutputToDepositIndex then cache.transactionOutputToDepositIndex
      else cache.transactionOutputToDepositIndex.insert key cache.deposits.length }

def setSpendingTransactionToDeposits (id : TransactionId) (depositIds : List DepositId)
    (cache : WalletUserTransactionsCache) : WalletUserTransactionsCache :=
  { cache with
    deposits := depositIds.foldl (fun deposits depositId => deposits.modify depositId fun deposit =>
      { deposit with spendingTransactionId := some id }) cache.deposits }

/-- The first sum of `countDepositsTotalSumAndInterestSum`; the second one is not used. -/
def countDepositsTotalSum (depositIds : List DepositId) (cache : WalletUserTransactionsCache) :
    Nat :=
  sum64 (depositIds.map fun id =>
    ((cache.deposits[id]?).map fun deposit => add64 deposit.amount deposit.interest).getD 0)

end WalletUserTransactionsCache

structure SendTransactionContext where
  transactionId : TransactionId
  foundMoney : Nat
  mixIn : Nat
  depositTerm : Nat
  selectedTransfers : List TransactionOutputInformation

/-- What is sent to the node, with what the callback is bound to. -/
inductive WalletRequest
  | getRandomOuts (isMultisigTransaction : Bool) (context : SendTransactionContext)
  | relayTransaction (context : SendTransactionContext) (hash : Hash)
  | relayDepositTransaction (context : SendTransactionContext) (deposits : List DepositId)
      (hash : Hash)

def WalletRequest.context : WalletRequest → SendTransactionContext
  | getRandomOuts _ context => context
  | relayTransaction context _ => context
  | relayDepositTransaction context _ _ => context

/-- What the construction of a transaction gives: an exception, a transaction that is too big, or
one that is relayed. -/
inductive Construction
  | failed
  | tooBig (hash : Hash)
  | built (hash : Hash)

/-- What a step finds outside of the wallet. -/
structure SendingStep where
  now : Nat
  construction : Construction
  /-- The random generator. -/
  pick : Nat → Nat
  /-- The memory for the hash of a new transaction. -/
  unsetHash : Hash

structure Wallet where
  cache : WalletUserTransactionsCache
  /-- `m_transferDetails`. -/
  container : TransfersContainer
  isStoping : Bool

/-- An amount to pay, and the address. -/
structure WalletLegacyTransfer where
  address : String
  amount : Int

/-- `countNeededMoney`; `none` when it throws. -/
def countNeededMoney (fee : Nat) (transfers : List WalletLegacyTransfer) : Option Nat :=
  transfers.foldlM (fun neededMoney transfer =>
    if transfer.amount ≤ 0 then none
    else if ((add64 neededMoney transfer.amount.toNat : Nat) : Int).bmod word64 <
      transfer.amount then none
    else some (add64 neededMoney transfer.amount.toNat)) fee

/-- `popRandomValue`, of a vector that is not empty. -/
def popRandomValue {α : Type} (pick : Nat) (values : List α) : Option (α × List α) :=
  match values[pick % values.length]?, values.getLast? with
  | some value, some last => some (value, (values.set (pick % values.length) last).dropLast)
  | _, _ => none

/-- The loop of `selectTransfersToSend`, for as many rounds as there are outputs. -/
def selectTransfers (neededMoney : Nat) (pick : Nat → Nat) :
    Nat → Bool → List TransactionOutputInformation → List TransactionOutputInformation → Nat →
      List TransactionOutputInformation → Nat × List TransactionOutputInformation
  | 0, _, _, _, foundMoney, selected => (foundMoney, selected)
  | rounds + 1, selectOneDust, unusedTransfers, unusedDust, foundMoney, selected =>
    if foundMoney < neededMoney then
      if selectOneDust ∨ unusedTransfers.isEmpty then
        match popRandomValue (pick rounds) unusedDust with
        | none => (foundMoney, selected)
        | some (out, unusedDust) =>
          selectTransfers neededMoney pick rounds false unusedTransfers unusedDust
            (add64 foundMoney out.amount) (selected ++ [out])
      else
        match popRandomValue (pick rounds) unusedTransfers with
        | none => (foundMoney, selected)
        | some (out, unusedTransfers) =>
          selectTransfers neededMoney pick rounds false unusedTransfers unusedDust
            (add64 foundMoney out.amount) (selected ++ [out])
    else (foundMoney, selected)

/-- `ITransfersContainer::TransferState`. -/
inductive LookupState
  | unconfirmed
  | locked
  | available
  | spent

namespace TransfersContainer

variable (cur : Currency) (transactionSpendableAge now : Nat)

/-- `getTransfer`. For a spent output the iterator of another container is read, which is at its
end. -/
def getTransfer (key : TransactionOutputKey) (c : TransfersContainer) :
    Except Fault (Option (TransactionOutputInformation × LookupState)) :=
  match c.availableTransfers.toList.find? fun t => t.transactionOutputKey = key with
  | some t => .ok (some (t.toTransactionOutputInformation,
      if !isSpendTimeUnlocked cur now c.currentHeight t.toTransferInformation ||
        c.currentHeight < t.blockHeight + transactionSpendableAge then .locked else .available))
  | none =>
    match c.unconfirmedTransfers.toList.find? fun t => t.transactionOutputKey = key with
    | some t => .ok (some (t.toTransactionOutputInformation, .unconfirmed))
    | none =>
      if c.spentTransfers.toList.any fun t => t.transactionOutputKey = key then .error .undefined
      else .ok none

end TransfersContainer

namespace Wallet

variable (cur : Currency) (transactionSpendableAge : Nat)

def modifyCache (f : WalletUserTransactionsCache → WalletUserTransactionsCache) :
    Program Wallet Unit :=
  Program.modify fun w => { w with cache := f w.cache }

def makeCompleteEvent (id : TransactionId) (completion : Completion) : Program Wallet Unit :=
  modifyCache fun cache => cache.updateTransactionSendingState id completion

/-- `selectTransfersToSend`: the money that was found, and the outputs. -/
def selectTransfersToSend (neededMoney : Nat) (addDust : Bool) (step : SendingStep) (w : Wallet) :
    Nat × List TransactionOutputInformation :=
  let unused := ((w.container.getOutputs cur transactionSpendableAge step.now 0x101).map
    (·.toTransactionOutputInformation)).filter fun out =>
      !w.cache.unconfirmedTransactions.isUsed out
  let unusedTransfers := unused.filter fun out => cur.defaultDustThreshold < out.amount
  let unusedDust := unused.filter fun out => !(cur.defaultDustThreshold < out.amount)
  selectTransfers neededMoney step.pick unused.length
    (addDust && !unusedDust.isEmpty) unusedTransfers unusedDust 0 []

/-- `getDepositInTransactionInfo` for a deposit that is there; its creating transaction is read
without a check. -/
def depositKey (w : Wallet) (deposit : Deposit) : Except Fault TransactionOutputKey :=
  match w.cache.transactions[deposit.creatingTransactionId]? with
  | none => .error .undefined
  | some transaction => .ok ⟨transaction.hash, deposit.outputInTransaction⟩

def selectDepositTransfers (now : Nat) : List DepositId → Nat → List TransactionOutputInformation →
    Program Wallet (Nat × List TransactionOutputInformation)
  | [], foundMoney, selected => pure (foundMoney, selected)
  | id :: ids, foundMoney, selected => do
    let w ← Program.get
    match w.cache.deposits[id]? with
    | none => Program.throw
    | some deposit => do
      let key ← Program.read fun w => w.depositKey deposit
      let found ← Program.read fun w => w.container.getTransfer cur transactionSpendableAge now key
      match found with
      | some (transfer, .available) =>
        selectDepositTransfers now ids (add64 foundMoney (add64 deposit.amount deposit.interest))
          (selected ++ [transfer])
      | _ => Program.throw

def doSendTransaction (step : SendingStep) (context : SendTransactionContext) :
    Program Wallet (Option WalletRequest) := do
  let w ← Program.get
  if w.isStoping then
    makeCompleteEvent context.transactionId .cancelled
    pure none
  else match step.construction, w.cache.transactions[context.transactionId]? with
    | .built hash, some transaction => do
      modifyCache fun cache =>
        (cache.modifyTransaction context.transactionId fun transaction =>
          { transaction with hash }).updateTransaction context.transactionId hash
            (-transaction.totalAmount % word64).toNat step.now context.selectedTransfers
      pure (some (.relayTransaction context hash))
    | _, _ => do
      makeCompleteEvent context.transactionId .failed
      pure none

/-- The record of a deposit that `doSendMultisigTransaction` enters. -/
def newDeposit (context : SendTransactionContext) (transaction : WalletLegacyTransaction) :
    Deposit :=
  let amount := sub64 transaction.totalAmount.natAbs transaction.fee
  { creatingTransactionId := context.transactionId
    spendingTransactionId := none
    term := context.depositTerm
    amount
    interest := cur.calculateInterest amount context.depositTerm
    locked := true
    outputInTransaction := 0 }

/-- `doSendMultisigTransaction`. The deposit is entered before the size is checked. -/
def doSendMultisigTransaction (step : SendingStep) (context : SendTransactionContext) :
    Program Wallet (Option WalletRequest) := do
  let w ← Program.get
  let depositId := w.cache.deposits.length
  let enter (hash : Hash) (deposit : Deposit) : Program Wallet Unit :=
    modifyCache fun cache =>
      ((cache.modifyTransaction context.transactionId fun transaction =>
        { transaction with hash }).insertDeposit deposit hash).modifyTransaction
          context.transactionId fun transaction =>
            { transaction with firstDepositId := some depositId, depositCount := 1 }
  if w.isStoping then
    makeCompleteEvent context.transactionId .cancelled
    pure none
  else match step.construction, w.cache.transactions[context.transactionId]? with
    | .built hash, some transaction => do
      let deposit := newDeposit cur context transaction
      enter hash deposit
      modifyCache fun cache =>
        let cache := cache.updateTransaction context.transactionId hash
          transaction.totalAmount.natAbs step.now context.selectedTransfers
        { cache with
          unconfirmedTransactions := cache.unconfirmedTransactions.addCreatedDeposit depositId
            (add64 deposit.amount deposit.interest) }
      pure (some (.relayDepositTransaction context [depositId] hash))
    | .tooBig hash, some transaction => do
      enter hash (newDeposit cur context transaction)
      makeCompleteEvent context.transactionId .failed
      pure none
    | _, _ => do
      makeCompleteEvent context.transactionId .failed
      pure none

def doSendDepositWithdrawTransaction (step : SendingStep) (context : SendTransactionContext)
    (depositIds : List DepositId) : Program Wallet (Option WalletRequest) := do
  let w ← Program.get
  let setHash (hash : Hash) : Program Wallet Unit := modifyCache fun cache =>
    cache.modifyTransaction context.transactionId fun transaction => { transaction with hash }
  if w.isStoping then
    makeCompleteEvent context.transactionId .cancelled
    pure none
  else match step.construction, w.cache.transactions[context.transactionId]? with
    | .built hash, some transaction => do
      setHash hash
      modifyCache fun cache =>
        { cache with
          unconfirmedTransactions :=
            cache.unconfirmedTransactions.addDepositSpendingTransaction hash
            ⟨context.transactionId, cache.countDepositsTotalSum depositIds, transaction.fee⟩ }
      pure (some (.relayDepositTransaction context depositIds hash))
    | .tooBig hash, _ => do
      setHash hash
      makeCompleteEvent context.transactionId .failed
      pure none
    | _, _ => do
      makeCompleteEvent context.transactionId .failed
      pure none

/-- `makeSendRequest`; `parses` is `parseAccountAddressString`. -/
def makeSendRequest (parses : String → Bool) (step : SendingStep)
    (transfers : List WalletLegacyTransfer)
    (fee mixIn : Nat) (messageAddresses : List String) : Program Wallet (Option WalletRequest) := do
  if transfers.isEmpty || !transfers.all (fun transfer => parses transfer.address) then
    Program.throw
  else match countNeededMoney fee transfers with
    | none => Program.throw
    | some neededMoney => do
      let w ← Program.get
      let (foundMoney, selected) :=
        w.selectTransfersToSend cur transactionSpendableAge neededMoney (mixIn == 0) step
      if foundMoney < neededMoney then Program.throw
      else do
        let context : SendTransactionContext :=
          ⟨w.cache.transactions.length, foundMoney, mixIn, 0, selected⟩
        modifyCache fun cache => cache.addNewTransaction step.unsetHash neededMoney fee
        -- the addresses of the messages are looked at when the transaction is in the list
        if !messageAddresses.all parses then Program.throw
        else if mixIn ≠ 0 then pure (some (.getRandomOuts false context))
        else doSendTransaction step context

def makeDepositRequest (step : SendingStep) (term amount fee mixIn : Nat) :
    Program Wallet (Option WalletRequest) := do
  if term < cur.depositMinTerm ∨ cur.depositMaxTerm < term ∨ amount < cur.depositMinAmount ∨
      word64 - 1 - amount < fee then Program.throw
  else do
    let w ← Program.get
    let (foundMoney, selected) :=
      w.selectTransfersToSend cur transactionSpendableAge (amount + fee) (mixIn == 0) step
    if foundMoney < amount + fee then Program.throw
    else do
      let context : SendTransactionContext :=
        ⟨w.cache.transactions.length, foundMoney, mixIn, term, selected⟩
      modifyCache fun cache => cache.addNewTransaction step.unsetHash (amount + fee) fee
      if mixIn ≠ 0 then pure (some (.getRandomOuts true context))
      else doSendMultisigTransaction cur step context

def makeWithdrawDepositRequest (step : SendingStep) (depositIds : List DepositId) (fee : Nat) :
    Program Wallet (Option WalletRequest) := do
  let (foundMoney, selected) ←
    selectDepositTransfers cur transactionSpendableAge step.now depositIds 0 []
  if foundMoney < fee then Program.throw
  else do
    let w ← Program.get
    let context : SendTransactionContext :=
      ⟨w.cache.transactions.length, foundMoney, 0, 0, selected⟩
    modifyCache fun cache =>
      (cache.addNewTransaction step.unsetHash foundMoney fee).setSpendingTransactionToDeposits
        w.cache.transactions.length depositIds
    doSendDepositWithdrawTransaction step context depositIds

/-- An answer of the node: an error, or the numbers of outputs it has for the amounts. -/
structure NodeAnswer where
  error : Bool
  outs : List Nat

def checkIfEnoughMixins (outs : List Nat) (mixIn : Nat) : Bool := outs.all fun size => mixIn ≤ size

/-- The callback of a request: `sendTransactionRandomOutsByAmount`, `relayTransactionCallback` or
`relayDepositTransactionCallback`. -/
def callback (step : SendingStep) (answer : NodeAnswer) (request : WalletRequest) :
    Program Wallet (Option WalletRequest) := do
  let w ← Program.get
  match request with
  | .getRandomOuts isMultisigTransaction context =>
    if w.isStoping then do
      makeCompleteEvent context.transactionId .cancelled
      pure none
    else if answer.error || !checkIfEnoughMixins answer.outs context.mixIn then do
      makeCompleteEvent context.transactionId .failed
      pure none
    else if isMultisigTransaction then doSendMultisigTransaction cur step context
    else doSendTransaction step context
  | .relayTransaction context _ | .relayDepositTransaction context _ _ =>
    if w.isStoping then pure none
    else do
      makeCompleteEvent context.transactionId (if answer.error then .failed else .success)
      pure none

variable (now : Nat)

def calculateDepositsAmount (transfers : List TransactionOutputInformationEx) : Nat :=
  transfers.foldl (fun sum t => match t.target with
    | .key _ _ => add64 sum t.amount
    | .multisignature _ term => add64 (add64 sum t.amount) (cur.calculateInterest t.amount term)) 0

def calculateActualDepositBalance (w : Wallet) : Nat :=
  sub64 (calculateDepositsAmount cur (w.container.getOutputs cur transactionSpendableAge now 0x401))
    w.cache.unconfirmedTransactions.countSpentDepositsTotalAmount

def calculatePendingDepositBalance (w : Wallet) : Nat :=
  add64 (calculateDepositsAmount cur (w.container.getOutputs cur transactionSpendableAge now 0x406))
    w.cache.unconfirmedTransactions.countCreatedDepositsSum

def calculateActualBalance (w : Wallet) : Nat :=
  sub64 (w.container.balance cur transactionSpendableAge now 0x101)
    w.cache.unconfirmedTransactions.countUnconfirmedOutsAmount

def calculatePendingBalance (w : Wallet) : Nat :=
  let change := sub64 w.cache.unconfirmedTransactions.countUnconfirmedOutsAmount
    w.cache.unconfirmedTransactions.countUnconfirmedTransactionsAmount
  add64 (add64 (w.container.balance cur transactionSpendableAge now 0x106) change)
    w.cache.unconfirmedTransactions.countSpentDepositsProfit

end Wallet

end DarknetCoin
