import DarknetCoin.Model.WalletGreen
import DarknetCoin.Theorems.Accounts
import DarknetCoin.Theorems.DigitDecomposition
import DarknetCoin.Theorems.DoubleSpend

/-!
# The fees a wallet records

The total of the inputs leaves the interest of deposits out, while `check_tx_semantic` lets the
outputs use it up: what is recorded for a withdrawal is too small by the interest, and can wrap
around.
-/

namespace DarknetCoin

open Semantics MainChain Currency

/-- The interest the consensus rules grant an input. -/
def Currency.grantedInterest (cur : Currency) : TransactionInput → Nat
  | .multisignature input =>
    if input.term = 0 then 0 else cur.calculateInterest input.amount input.term
  | _ => 0

/-- What a transaction leaves to the miner, in unbounded integers. -/
def Transaction.balance (cur : Currency) (tx : Transaction) : Int :=
  tx.inputsAmount + (tx.inputs.map cur.grantedInterest).sum - tx.outputsAmount

section

variable {cur : Currency} {crypto : Crypto} {tx : Transaction}

theorem getTransactionAllInputsAmount_of_no_interest
    (hinterest : ∀ input ∈ tx.inputs, cur.grantedInterest input = 0)
    (hwords : WordInputs tx.inputs) :
    cur.getTransactionAllInputsAmount tx = sum64 (tx.inputs.map TransactionInput.amount) := by
  rw [sum64, List.foldl_map]
  refine List.foldl_ext _ _ _ fun money input hinput => congrArg (add64 money) ?_
  have hzero := hinterest input hinput
  cases input with
  | multisignature input =>
    unfold grantedInterest at hzero
    unfold getTransactionInputAmount
    dsimp only at hzero ⊢
    split
    · rfl
    · rename_i hterm
      rw [if_neg hterm] at hzero
      rw [hzero]
      exact add64_of_lt (hwords _ hinput)
  | _ => rfl

/-- The totals of a reader are exact. -/
theorem Checked.totals (h : Checked cur crypto tx) :
    sum64 (tx.inputs.map TransactionInput.amount) = tx.inputsAmount ∧ tx.inputsAmount < word64 ∧
      sum64 (tx.outputs.map TransactionOutput.amount) = tx.outputsAmount := by
  obtain ⟨-, -, ⟨hinputs, houts⟩, -⟩ := checkTxSemantic_inv h.semantic
  have hlt : 0 + (tx.inputs.map TransactionInput.amount).sum < word64 := by
    refine sum_lt_of_checkInputsOverflowFrom (fun input hinput allowance hallowed => ?_) (by decide)
      hinputs
    obtain ⟨hlt, heq⟩ := inputOverflowAmount_eq (h.words.inputs input hinput) hallowed
    exact ⟨heq ▸ Nat.le_add_right _ _, hlt⟩
  rw [zero_add] at hlt
  refine ⟨sum64_of_lt hlt, hlt, ?_⟩
  rw [sum64, List.foldl_map]
  exact getOutsMoneyAmount_eq h.words.outputs houts

/-- Without interest the inputs pay for the outputs. -/
theorem Checked.outputsAmount_le (h : Checked cur crypto tx)
    (hinterest : ∀ input ∈ tx.inputs, cur.grantedInterest input = 0) :
    tx.outputsAmount ≤ tx.inputsAmount := by
  obtain ⟨-, -, ⟨-, houts⟩, hpaid⟩ := checkTxSemantic_inv h.semantic
  rwa [getTransactionAllInputsAmount_of_no_interest hinterest h.words.inputs, h.totals.1,
    getOutsMoneyAmount_eq h.words.outputs houts] at hpaid

end

/-- The records of a wallet, and one more with a fee. -/
def RecordsFee (fee : Int) (old new : List WalletTransaction) : Prop :=
  ∃ record, new = old ++ [record] ∧ (record.fee : Int) = fee

open WalletGreen TransfersContainer in
/-- The difference of the totals does not wrap, and what is recorded is the fee, whether the wallet
finds the transaction in a block or sends it. -/
def RecordsTrueFee (fee : Int) (reader : TransactionReader) : Prop :=
  reader.outputTotalAmount ≤ reader.inputTotalAmount ∧
    (∀ block messages id txBalance old, RecordsFee fee old
      (insertBlockchainTransaction (transactionRecord block reader messages id) txBalance old).2) ∧
    ∀ limit size now parses taken send old,
      (validateSaveAndSendTransaction limit size now parses taken send reader old).Holds
        (fun _ => RecordsFee fee old) fun new => new = old ∨ RecordsFee fee old new

open WalletGreen TransfersContainer in
/-- The fee recorded for a transaction is what it leaves to the miner if and only if it earns no
interest; a miner transaction has none. -/
theorem fee_recorded (cur : Currency) (tx : Transaction) (crypto : Crypto) (hash : Hash)
    (publicKey : PublicKey) (paymentId : Option Hash) :
    let reader := TransactionReader.ofTransaction hash publicKey paymentId tx
    (Checked cur crypto tx → (RecordsTrueFee (tx.balance cur) reader ↔
      ∀ input ∈ tx.inputs, cur.grantedInterest input = 0)) ∧
    ∀ b height, prevalidateMinerTransaction cur crypto b height = .ok true →
    b.baseTransaction = tx → ∀ block messages id txBalance old, RecordsFee 0 old
        (insertBlockchainTransaction (transactionRecord block reader messages id)
          txBalance old).2 := by
  intro reader
  constructor
  · intro hchecked
    obtain ⟨hin, hlt, hout⟩ := hchecked.totals
    have hin : reader.inputTotalAmount = tx.inputsAmount := hin
    have hout : reader.outputTotalAmount = tx.outputsAmount := hout
    clear_value reader
    have hfee (hpaid : tx.outputsAmount ≤ tx.inputsAmount) :
        sub64 reader.inputTotalAmount reader.outputTotalAmount =
          tx.inputsAmount - tx.outputsAmount := by
      rw [hin, hout, sub64_of_le hpaid hlt]
    constructor
    · rintro ⟨hpaid, hinserted, -⟩
      rw [hin, hout] at hpaid
      obtain ⟨record, hrecord, hbalance⟩ := hinserted ⟨0, 0, 0⟩ [] 0 0 []
      -- the fee that is recorded leaves the interest out
      have hrecorded : record.fee = tx.inputsAmount - tx.outputsAmount := by
        obtain rfl := List.singleton_inj.mp hrecord
        by_cases hzero : tx.inputsAmount = 0
        · simp [transactionRecord, hin, hzero]
        · simpa [transactionRecord, hin, hzero] using hfee hpaid
      have hsum : (tx.inputs.map cur.grantedInterest).sum = 0 := by
        rw [Transaction.balance, hrecorded] at hbalance
        omega
      simpa using List.sum_eq_zero_iff.mp hsum
    · intro hinterest
      have hpaid := hchecked.outputsAmount_le hinterest
      have hbalance : ((tx.inputsAmount - tx.outputsAmount : Nat) : Int) = tx.balance cur := by
        have hsum : (tx.inputs.map cur.grantedInterest).sum = 0 :=
          List.sum_eq_zero (by simpa using hinterest)
        rw [Transaction.balance, hsum]
        omega
      refine ⟨by rwa [hin, hout], fun block messages id txBalance old => ⟨_, rfl, ?_⟩, ?_⟩
      · refine .trans (congrArg Nat.cast ?_) hbalance
        by_cases hzero : tx.inputsAmount = 0
        · -- nothing was spent, and nothing is left
          simp [transactionRecord, hin, hzero]
        · simpa [transactionRecord, hin, hzero] using hfee hpaid
      · intro limit size now parses taken send old
        have hrecorded := (congrArg Nat.cast (hfee hpaid)).trans hbalance
        unfold validateSaveAndSendTransaction
        split
        · exact .inl rfl
        · rw [Program.get_bind_run]
          dsimp only
          split
          · exact .inr ⟨_, rfl, hrecorded⟩
          · exact ⟨_, rfl, hrecorded⟩
  · rintro b height hminer rfl block messages id txBalance old
    have hzero : reader.inputTotalAmount = 0 := by
      simp [reader, TransactionReader.ofTransaction,
        inputs_of_prevalidateMinerTransaction hminer, sum64, TransactionInput.amount, add64]
    exact ⟨_, rfl, by simp [transactionRecord, hzero]⟩

theorem fee_recorded_spending : RecordsFee 2 [] (WalletGreen.insertBlockchainTransaction
    (TransfersContainer.transactionRecord ⟨2, 0, 0⟩
      (.ofTransaction 6 0 none spendingTransaction) [] 0) (-1) []).2 := by
  have hchecked : Checked mainnet Crypto.numbered spendingTransaction :=
    ⟨by decide +kernel, by unfold WordInputs; decide, by decide⟩
  have hexact := (fee_recorded mainnet spendingTransaction .numbered 6 0 none).1 hchecked
  exact (hexact.mpr (by decide +kernel)).2.1 ⟨2, 0, 0⟩ [] 0 (-1) []

/-- A network on which a deposit can be made for a single block. -/
def briefNetwork : Network :=
  ⟨{ openNetwork.cur with
    depositMinTerm := 1
    depositMinTotalRateFactor := 0
    depositMinTerm_pos := by decide
    depositMinTerm_le := by decide
    depositRate_lt := by decide }, Crypto.numbered, []⟩

/-- Withdraws a deposit of the first block, with one unit of its interest. -/
def briefWithdrawal : Transaction where
  version := 2
  unlockTime := 0
  inputs := [.multisignature ⟨200 * Currency.coin, 0, 0, 1⟩]
  outputs := [⟨200 * Currency.coin + 1, .key 1⟩]
  extra := [200]
  signatures := [[]]

/-- The withdrawal passes every check. Its fee is the rest of the interest, and one below zero in
words is recorded. -/
theorem fee_of_withdrawal_wraps :
    (∃ clock core, Core.Run briefNetwork (fun _ _ _ _ => True) clock core ∧
      checkBlockTransaction briefNetwork.cur briefNetwork.crypto 1000 core.main 2 briefWithdrawal =
      .ok true) ∧ Checked briefNetwork.cur briefNetwork.crypto briefWithdrawal ∧
    briefNetwork.cur.DepositInputs briefWithdrawal.inputs ∧
    briefWithdrawal.balance briefNetwork.cur = 8029 ∧
    let reader := TransactionReader.ofTransaction 201 0 none briefWithdrawal
    ((WalletGreen.insertBlockchainTransaction
      (TransfersContainer.transactionRecord ⟨2, 0, 0⟩ reader [] 0) 0
      []).2.map (·.fee) = [word64 - 1]) ∧
    ((WalletGreen.validateSaveAndSendTransaction 1000 100 0 true true true reader []).stateD []).map
    (·.fee) = [word64 - 1] := by
  refine ⟨?_, ⟨by decide +kernel, by unfold WordInputs; decide, by decide⟩,
    ?_, by decide +kernel, by decide +kernel, by decide +kernel⟩
  · apply Core.exists_run_of_genesis briefNetwork
      [(0, .addNewBlock (numberedBlock 1 420 1 [⟨200 * coin, .multisignature ⟨[], 0, 1⟩⟩] []))] _
      (Core.onGenesis_initial_of (by decide +kernel))
    decide +kernel
  · intro input hinput _
    obtain rfl : input = ⟨200 * coin, 0, 0, 1⟩ := by simpa [briefWithdrawal] using hinput
    exact ⟨by decide, by decide⟩

end DarknetCoin
