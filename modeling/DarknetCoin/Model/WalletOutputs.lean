import DarknetCoin.Model.OutputScanning
import DarknetCoin.Model.WalletSender

/-!
# The amounts of the transactions a wallet builds

The part of `WalletLegacy/WalletTransactionSender.cpp` that `Wallet.doSendTransaction` and its two
siblings leave open: which outputs a transaction gets. The keys of the outputs and the signatures
are left out.
-/

namespace DarknetCoin

structure TransactionDestinationEntry where
  amount : Nat
  addr : AccountPublicAddress
  deriving DecidableEq, Repr

/-- An output of a new transaction; one without a term is a key output. -/
structure SentOutput extends TransactionDestinationEntry where
  term : Nat
  deriving DecidableEq, Repr

structure SentTransaction where
  /-- The outputs that are spent. -/
  inputs : List TransactionOutputInformation
  outputs : List SentOutput
  deriving DecidableEq, Repr

namespace Wallet

/-- `splitAmount`: both handlers append to one vector. -/
def splitAmount (amount dustThreshold : Nat) (addr : AccountPublicAddress) :
    List TransactionDestinationEntry :=
  (decomposeAmountIntoDigits amount dustThreshold).map fun part => ⟨part.amount, addr⟩

/-- The loop of `digitSplitStrategy`; `parse` is `parseAccountAddressString`. -/
def splitTransfers (parse : String → Option AccountPublicAddress) (dustThreshold : Nat) :
    List WalletLegacyTransfer → Option (List TransactionDestinationEntry)
  | [] => some []
  | de :: transfers => do
    let addr ← parse de.address
    let splitted ← splitTransfers parse dustThreshold transfers
    pure (splitAmount de.amount.toNat dustThreshold addr ++ splitted)

/-- `splitDestinations`, with the policy the contexts have: dust of the change is left to the
fee. -/
def splitDestinations (parse : String → Option AccountPublicAddress) (dustThreshold : Nat)
    (transfers : List WalletLegacyTransfer) (changeDts : TransactionDestinationEntry) :
    Option (List TransactionDestinationEntry) := do
  let splitted ← splitTransfers parse dustThreshold transfers
  let change := decomposeAmountIntoDigits changeDts.amount dustThreshold
  let dust := ((change.filterMap AmountPart.dust?).getLast?).getD 0
  if dustThreshold < dust then none
  else some (splitted ++ (change.filterMap AmountPart.chunk?).map fun chunk =>
    ⟨chunk, changeDts.addr⟩)

/-- `constructTransaction`: the destinations in the order of their amounts. -/
def constructTransaction (sources : List TransactionOutputInformation)
    (destinations : List TransactionDestinationEntry) : Option SentTransaction :=
  let shuffled := destinations.insertionSort fun a b => a.amount ≤ b.amount
  if shuffled.any fun dst => dst.amount = 0 then none
  else if sum64 (sources.map (·.amount)) < sum64 (shuffled.map (·.amount)) then none
  else some ⟨sources, shuffled.map fun dst => ⟨dst, 0⟩⟩

variable (dustThreshold : Nat) (address : AccountPublicAddress)

/-- The transaction of `doSendTransaction`. -/
def sendTransaction (parse : String → Option AccountPublicAddress)
    (transfers : List WalletLegacyTransfer)
    (transaction : WalletLegacyTransaction) (context : SendTransactionContext) :
    Option SentTransaction := do
  let totalAmount := (-transaction.totalAmount % word64).toNat
  let change := if totalAmount < context.foundMoney then sub64 context.foundMoney totalAmount else 0
  let splittedDests ← splitDestinations parse dustThreshold transfers ⟨change, address⟩
  constructTransaction context.selectedTransfers splittedDests

/-- The transaction of `doSendMultisigTransaction`. -/
def depositTransaction (transaction : WalletLegacyTransaction) (context : SendTransactionContext) :
    SentTransaction :=
  let totalAmount := transaction.totalAmount.natAbs
  let change := splitAmount (sub64 context.foundMoney totalAmount) dustThreshold address
  ⟨context.selectedTransfers, ⟨⟨sub64 totalAmount transaction.fee, address⟩, context.depositTerm⟩ ::
    change.map fun dst => ⟨dst, 0⟩⟩

/-- The transaction of `doSendDepositWithdrawTransaction`. -/
def withdrawTransaction (transaction : WalletLegacyTransaction) (context : SendTransactionContext) :
    SentTransaction :=
  ⟨context.selectedTransfers,
    (splitAmount (sub64 context.foundMoney transaction.fee) dustThreshold address).map
      fun dst => ⟨dst, 0⟩⟩

end Wallet

end DarknetCoin
