import DarknetCoin.Model.WalletOutputs

/-!
# The wallet of many addresses

`Wallet/WalletGreen.cpp`, as far as it draws outputs at random from the lists of the addresses until
there is enough money, mixes them with outputs of the node, and records transactions. A pointer to a
wallet record is the key of the record; keys and signatures are left out.
-/

namespace DarknetCoin

structure WalletRecord where
  spendPublicKey : PublicKey
  actualBalance : Nat
  pendingBalance : Nat
  container : TransfersContainer

/-- The wallets stand in the order of their random access index; their keys are unique. -/
structure WalletGreen where
  wallets : List WalletRecord
  distinct : wallets.Pairwise fun a b => a.spendPublicKey ≠ b.spendPublicKey

/-- The errors of drawing outputs and asking for others; `undefined` is an assertion that fails, or
a read out of range. -/
inductive WalletError
  | mixinCountTooBig
  | node
  | undefined
  deriving DecidableEq, Repr

/-- An address with the outputs that can be drawn. -/
structure WalletOuts where
  wallet : PublicKey
  outs : List TransactionOutputInformation
  deriving DecidableEq, Repr

structure OutputToTransfer where
  out : TransactionOutputInformation
  wallet : PublicKey
  deriving DecidableEq, Repr

namespace WalletGreen

/-! ### Drawing outputs -/

/-- The state of the loop of `selectTransfers`. -/
structure Selection where
  foundMoney : Nat
  dust : Bool
  walletOuts : List WalletOuts
  selectedTransfers : List OutputToTransfer

/-- One round: an address is drawn, and one of its outputs, which is removed from the list. -/
def drawOutput (dustThreshold : Nat) (draw : Nat × Nat) (s : Selection) :
    Except WalletError Selection :=
  let walletIndex := draw.1 % s.walletOuts.length
  match s.walletOuts[walletIndex]? with
  | none => .error .undefined
  | some addressOuts =>
    let outIndex := draw.2 % addressOuts.outs.length
    match addressOuts.outs[outIndex]? with
    | none => .error .undefined
    | some out =>
      let rest := addressOuts.outs.eraseIdx outIndex
      let walletOuts :=
        if rest.isEmpty then s.walletOuts.eraseIdx walletIndex
        else s.walletOuts.set walletIndex { addressOuts with outs := rest }
      if dustThreshold < out.amount || s.dust then
        .ok ⟨add64 s.foundMoney out.amount, s.dust && dustThreshold < out.amount, walletOuts,
          s.selectedTransfers ++ [⟨out, addressOuts.wallet⟩]⟩
      else .ok { s with walletOuts }

/-- The loop. Every round removes an output, so that one more round than there are outputs is not
used up. -/
def drawOutputs (neededMoney dustThreshold : Nat) (draws : Nat → Nat × Nat) :
    Nat → Selection → Except WalletError Selection
  | 0, _ => .error .undefined
  | rounds + 1, s =>
    if s.foundMoney < neededMoney && !s.walletOuts.isEmpty then do
      let s ← drawOutput dustThreshold (draws rounds) s
      drawOutputs neededMoney dustThreshold draws rounds s
    else .ok s

/-- The first dust output that is left. -/
def findDust (dustThreshold : Nat) (walletOuts : List WalletOuts) : Option OutputToTransfer :=
  walletOuts.findSome? fun addressOuts =>
    (addressOuts.outs.find? fun out => out.amount ≤ dustThreshold).map (⟨·, addressOuts.wallet⟩)

/-- `selectTransfers`: the money that was found, and the outputs. -/
def selectTransfers (neededMoney : Nat) (dust : Bool) (dustThreshold : Nat)
    (draws : Nat → Nat × Nat)
    (wallets : List WalletOuts) : Except WalletError (Nat × List OutputToTransfer) := do
  let rounds := (wallets.map fun addressOuts => addressOuts.outs.length).sum + 1
  let s ← drawOutputs neededMoney dustThreshold draws rounds ⟨0, dust, wallets, []⟩
  if !s.dust then pure (s.foundMoney, s.selectedTransfers)
  else match findDust dustThreshold s.walletOuts with
    | none => pure (s.foundMoney, s.selectedTransfers)
    | some output => pure (add64 s.foundMoney output.out.amount, s.selectedTransfers ++ [output])

section Wallets

variable (cur : Currency) (transactionSpendableAge now : Nat)

/-- The outputs of a record that `IncludeKeyUnlocked` selects. -/
def keyUnlocked (wallet : WalletRecord) : List TransactionOutputInformation :=
  (wallet.container.getOutputs cur transactionSpendableAge now 0x101).map
    (·.toTransactionOutputInformation)

def pickWalletsWithMoney (w : WalletGreen) : List WalletOuts :=
  (w.wallets.filter fun wallet => wallet.actualBalance ≠ 0).map fun wallet =>
    ⟨wallet.spendPublicKey, keyUnlocked cur transactionSpendableAge now wallet⟩

end Wallets

/-- `requestMixinOuts`, with the answer of the node; a request is made only for mixins. -/
def requestMixinOuts (mixIn : Nat) (answer : Wallet.NodeAnswer) : Except WalletError Unit :=
  if mixIn = 0 then .ok ()
  else if answer.outs.any fun size => size < mixIn then .error .mixinCountTooBig
  else if answer.error then .error .node
  else .ok ()

end WalletGreen

/-! ### Records of transactions -/

/-- A state that is read from a file may be none of the enumeration. -/
inductive WalletTransactionState
  | succeeded
  | failed
  | cancelled
  | created
  | deleted
  | unknown (value : Nat)
  deriving DecidableEq, Repr

structure WalletTransaction where
  state : WalletTransactionState
  timestamp : Nat
  blockHeight : Nat
  hash : Hash
  totalAmount : Int
  fee : Nat
  creationTime : Nat
  unlockTime : Nat
  extra : String
  isBase : Bool
  deriving DecidableEq, Repr

/-- The reader of a transaction. `getInputTotalAmount` and `getOutputTotalAmount` add up the amounts
in words. -/
def TransactionReader.ofTransaction (hash : Hash) (publicKey : PublicKey) (paymentId : Option Hash)
    (tx : Transaction) : TransactionReader where
  transactionHash := hash
  transactionPublicKey := publicKey
  unlockTime := tx.unlockTime
  paymentId
  extra := tx.extra
  inputTotalAmount := sum64 (tx.inputs.map TransactionInput.amount)
  outputTotalAmount := sum64 (tx.outputs.map TransactionOutput.amount)
  inputs := tx.inputs

namespace WalletGreen

open Semantics Program

/-- The bytes of an extra field, assigned to a string. -/
def extraString (extra : List UInt8) : String :=
  String.ofList (extra.map fun byte => Char.ofNat byte.toNat)

/-- `insertBlockchainTransaction`: the index of the record, and the records. -/
def insertBlockchainTransaction (info : TransactionInformation) (txBalance : Int)
    (transactions : List WalletTransaction) : Nat × List WalletTransaction :=
  let isBase := info.totalAmountIn == 0
  (transactions.length, transactions ++ [{
    state := .succeeded
    timestamp := info.timestamp
    blockHeight := info.blockHeight
    hash := info.transactionHash
    totalAmount := txBalance
    fee := if isBase then 0 else sub64 info.totalAmountIn info.totalAmountOut
    creationTime := info.timestamp
    unlockTime := info.unlockTime
    extra := extraString info.extra
    isBase }])

/-- `validateSaveAndSendTransaction`, on the records. Whether the data can be read back, and whether
the synchroniser and the node take the transaction, are parameters. -/
def validateSaveAndSendTransaction (upperTransactionSizeLimit size now : Nat)
    (parses taken send : Bool)
    (transaction : TransactionReader) : Program (List WalletTransaction) Nat :=
  if upperTransactionSizeLimit < size || !parses then throw
  else do
    let transactions ← get
    let fee := sub64 transaction.inputTotalAmount transaction.outputTotalAmount
    let record (state : WalletTransactionState) : WalletTransaction :=
      ⟨state, 0, unconfirmedTransactionHeight, transaction.transactionHash, 0, fee, now,
        transaction.unlockTime, extraString transaction.extra, false⟩
    if !taken then do
      modify fun _ => transactions ++ [record .failed]
      throw
    else do
      modify fun _ => transactions ++ [record (if send then .succeeded else .created)]
      pure transactions.length

end WalletGreen

/-! ### Rings -/

/-- `COMMAND_RPC_GET_RANDOM_OUTPUTS_FOR_AMOUNTS::out_entry`. -/
structure OutEntry where
  globalAmountIndex : Nat
  outKey : PublicKey

/-- `TransactionTypes::GlobalOutput`, or `TransactionSourceEntry::OutputEntry`. -/
structure GlobalOutput where
  targetKey : PublicKey
  outputIndex : Nat
  deriving DecidableEq

/-- `TransactionTypes::InputKeyInfo`, or `TransactionSourceEntry`; `transactionIndex` is the
position of the real output. -/
structure InputKeyInfo where
  amount : Nat
  outputs : List GlobalOutput
  transactionPublicKey : PublicKey
  transactionIndex : Nat
  outputInTransaction : Nat

/-- The loop over the outputs of the node, which skips the real one. -/
def mixOutputs (mixIn real : Nat) : List GlobalOutput → List OutEntry → List GlobalOutput
  | outputs, [] => outputs
  | outputs, fakeOut :: outs =>
    if real = fakeOut.globalAmountIndex then mixOutputs mixIn real outputs outs
    else
      let outputs := outputs ++ [⟨fakeOut.outKey, fakeOut.globalAmountIndex % word32⟩]
      if mixIn ≤ outputs.length then outputs else mixOutputs mixIn real outputs outs

/-- Only outputs for keys are selected. -/
def TransferTarget.outputKey : TransferTarget → PublicKey
  | key _ outputKey => outputKey
  | multisignature _ _ => 0

/-- An input. The sort is not stable, so outputs with one index may come in any order. -/
def prepareInput (mixIn : Nat) (td : TransactionOutputInformation) (outs : List OutEntry) :
    InputKeyInfo :=
  let outputs := mixOutputs mixIn td.globalOutputIndex []
    (outs.insertionSort fun a b => a.globalAmountIndex ≤ b.globalAmountIndex)
  let insertIn := outputs.findIdx fun a => td.globalOutputIndex ≤ a.outputIndex
  ⟨td.amount, outputs.insertIdx insertIn ⟨td.target.outputKey, td.globalOutputIndex⟩,
    td.transactionPublicKey, insertIn, td.outputInTransaction⟩

/-- `WalletTransactionSender::prepareKeyInputs`, from the `i`-th output on; `none` is a read behind
the lists. -/
def prepareKeyInputs (mixIn : Nat) (outs : List (List OutEntry)) (i : Nat) :
    List TransactionOutputInformation → Option (List InputKeyInfo)
  | [] => some []
  | td :: selectedTransfers => do
    let fakes ← if outs = [] then some [] else outs[i]?
    let rest ← prepareKeyInputs mixIn outs (i + 1) selectedTransfers
    pure (prepareInput mixIn td fakes :: rest)

/-- `WalletGreen::prepareInputs`, with the record of each output. -/
def WalletGreen.prepareInputs (selectedTransfers : List OutputToTransfer)
    (mixinResult : List (List OutEntry)) (mixIn : Nat) : Option (List (InputKeyInfo × PublicKey)) :=
  (prepareKeyInputs mixIn mixinResult 0 (selectedTransfers.map (·.out))).map
    (·.zip (selectedTransfers.map (·.wallet)))

end DarknetCoin
