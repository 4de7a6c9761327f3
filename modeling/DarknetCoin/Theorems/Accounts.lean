import DarknetCoin.Theorems.Interest
import DarknetCoin.Theorems.WrittenBlock

/-!
# The accounts of a block

Fees, interests and the reward are computed in words without a check. `check_tx_semantic` makes the
amounts of a single transaction exact; the sums over a block are exact as long as they fit in a
word.
-/

namespace DarknetCoin

open Semantics Data MainChain Transaction List

/-- The amounts of a transaction are words. -/
structure WordTransaction (tx : Transaction) : Prop where
  inputs : WordInputs tx.inputs
  outputs : ∀ out ∈ tx.outputs, out.amount < word64

/-- What a transaction spends, without interest. -/
def Transaction.inputsAmount (tx : Transaction) : Nat :=
  (tx.inputs.map TransactionInput.amount).sum

/-- What a transaction creates. -/
def Transaction.outputsAmount (tx : Transaction) : Nat :=
  (tx.outputs.map TransactionOutput.amount).sum

/-- The interest the inputs of a transaction earn. -/
def Transaction.interest (cur : Currency) (tx : Transaction) : Nat :=
  (tx.inputs.map cur.interestOf).sum

/-- What a transaction leaves to the miner. -/
def Transaction.fee (cur : Currency) (tx : Transaction) : Nat :=
  tx.inputsAmount + tx.interest cur - tx.outputsAmount

/-- The fees of a block. -/
def BlockEntry.fees (cur : Currency) (block : BlockEntry) : Nat :=
  (block.others.map (fee cur)).sum

/-- The interest a block pays. -/
def BlockEntry.interest (cur : Currency) (block : BlockEntry) : Nat :=
  (block.others.map (Transaction.interest cur)).sum

/-- What a transaction adds to the money in circulation. -/
def Transaction.minted (tx : Transaction) : Int := tx.outputsAmount - tx.inputsAmount

/-- What a block adds to the money in circulation. -/
def BlockEntry.minted (block : BlockEntry) : Int :=
  (block.transactions.map fun entry => entry.tx.minted).sum

/-- A transaction that passed the checks of the core. -/
structure Checked (cur : Currency) (crypto : Crypto) (tx : Transaction) : Prop where
  semantic : checkTxSemantic cur crypto tx = .ok true
  words : WordTransaction tx

variable {cur : Currency} {crypto : Crypto} {tx : Transaction}

theorem outputs_lt {outs : List TransactionOutput} {money : Nat}
    (hwords : ∀ out ∈ outs, out.amount < word64)
    (hmoney : money < word64) (hcheck : checkOutsOverflowFrom money outs = true) :
    money + (outs.map TransactionOutput.amount).sum < word64 := by
  induction outs generalizing money with
  | nil => exact hmoney
  | cons out outs ih =>
    unfold checkOutsOverflowFrom at hcheck
    split at hcheck
    · cases hcheck
    · next hcarry =>
      rw [add64_lt_iff (hwords out mem_cons_self) hmoney] at hcarry
      have hfits : money + out.amount < word64 := by omega
      rw [add64_of_lt hfits] at hcheck
      have hlt := ih (fun o ho => hwords o (mem_cons_of_mem _ ho)) hfits hcheck
      rw [map_cons, sum_cons]
      omega

theorem getOutsMoneyAmount_eq (hwords : ∀ out ∈ tx.outputs, out.amount < word64)
    (hcheck : checkOutsOverflow tx = true) : getOutsMoneyAmount tx = tx.outputsAmount := by
  have hsum := foldl_words TransactionOutput.amount (by decide : 0 < word64)
    fun out (_ : out ∈ tx.outputs) total _ => rfl
  rwa [Nat.mod_eq_of_lt (outputs_lt hwords (by decide) hcheck), zero_add] at hsum

theorem inputsWithInterest_eq : cur.inputsWithInterest tx.inputs =
    tx.inputsAmount + tx.interest cur :=
  sum_map_add

theorem calculateTotalTransactionInterest_eq (hrate : cur.depositMaxTotalRate ≤ 22)
    (hwords : WordInputs tx.inputs)
    (hterms : cur.DepositInputs tx.inputs) (hfits : tx.interest cur < word64) :
    cur.calculateTotalTransactionInterest tx = tx.interest cur := by
  rw [Currency.calculateTotalTransactionInterest, foldl_words cur.interestOf (by decide)
    fun input hinput total htotal => ?_, zero_add, ← interest, Nat.mod_eq_of_lt hfits]
  -- only a deposit input earns interest
  cases input with
  | base input => exact (Nat.mod_eq_of_lt htotal).symm
  | key input => exact (Nat.mod_eq_of_lt htotal).symm
  | multisignature input =>
    dsimp only [Currency.interestOf]
    by_cases hterm : input.term = 0
    · rw [if_pos hterm, if_neg (not_not.mpr hterm)]
      exact (Nat.mod_eq_of_lt htotal).symm
    · rw [if_neg hterm, if_pos hterm]
      exact congrArg (add64 total)
        (Currency.calculateInterest_eq (.of_rate hrate) (hwords _ hinput)
          (hterms input hinput hterm))

/-- The amounts of a transaction that passed the checks are computed exactly, and its outputs are
paid for by its inputs. -/
structure ExactAmounts (cur : Currency) (tx : Transaction) : Prop where
  inputs : cur.getTransactionAllInputsAmount tx = tx.inputsAmount + tx.interest cur
  inputs_lt : tx.inputsAmount + tx.interest cur < word64
  outputs : getOutsMoneyAmount tx = tx.outputsAmount
  interest : cur.calculateTotalTransactionInterest tx = tx.interest cur
  paid : tx.outputsAmount ≤ tx.inputsAmount + tx.interest cur

theorem Checked.exact (hrate : cur.depositMaxTotalRate ≤ 22) (h : Checked cur crypto tx)
    (hterms : cur.DepositInputs tx.inputs) : ExactAmounts cur tx := by
  obtain ⟨-, -, ⟨hinputs, houts⟩, hpaid⟩ := checkTxSemantic_inv h.semantic
  have hin := getTransactionAllInputsAmount_eq (.of_rate hrate) h.words.inputs hterms hinputs
  have hlt := inputsWithInterest_lt (.of_rate hrate) h.words.inputs hterms (by decide) hinputs
  have hout := getOutsMoneyAmount_eq h.words.outputs houts
  rw [inputsWithInterest_eq] at hin hlt
  rw [zero_add] at hlt
  rw [hin, hout] at hpaid
  exact ⟨hin, hlt, hout, calculateTotalTransactionInterest_eq hrate h.words.inputs hterms
    (by omega), hpaid⟩

/-- What a transaction mints: its interest, less what it leaves to the miner. -/
theorem ExactAmounts.minted_eq (h : ExactAmounts cur tx) :
    tx.minted = (tx.interest cur : Int) - tx.fee cur := by
  have hpaid := h.paid
  rw [minted, fee]
  omega

/-- What every block of a chain has passed, in terms of the blocks below it. -/
structure Accounted (cur : Currency) (crypto : Crypto) (below : List BlockEntry)
    (block : BlockEntry) : Prop where
  transactions : block.transactions.map TransactionEntry.tx =
    block.bl.baseTransaction :: block.others
  miner : ∃ input, block.bl.baseTransaction.inputs = [.base input]
  minerWords : WordTransaction block.bl.baseTransaction
  minerOverflow : checkOutsOverflow block.bl.baseTransaction = true
  others : ∀ tx ∈ block.others, Checked cur crypto tx
  reward_size : block.blockCumulativeSize ≤
    mul64 2 (max (rewardMedian cur below) cur.blockGrantedFullRewardZone)
  reward : 1 < below.length → getOutsMoneyAmount block.bl.baseTransaction =
    add64 (emissionOf cur below block.blockCumulativeSize) (block.totals cur).feeSummary
  coins : block.alreadyGeneratedCoins =
    add64 (add64 (coinsOf below) (emissionOf cur below block.blockCumulativeSize))
      (block.totals cur).interestSummary

/-- Blocks and transactions whose amounts are words, transactions that passed the checks. -/
def accountSupply (net : Network) : Supply where
  Good b := WordTransaction b.baseTransaction
  Tx := Checked net.cur net.crypto
  semantic _ h := semanticallyValid_of_checkTxSemantic h.semantic

theorem accounted_of_written {net : Network} {now : Nat} {blockData : Block}
    {txs : List Transaction} {main main' : MainChain} {block : BlockEntry}
    (hgood : (accountSupply net).Good blockData) (htx : ∀ tx ∈ txs, (accountSupply net).Tx tx)
    (h : Written net.cur net.crypto now net.checkpoints blockData txs main block main') :
    Accounted net.cur net.crypto main.blocks block := by
  have hbl := h.appended.bl
  have hothers : block.others = (txs.zip blockData.transactionHashes).map Prod.fst := by
    rw [BlockEntry.others, map_drop, h.appended.transactions]
    rfl
  obtain ⟨hminer, -, hoverflow⟩ := prevalidateMinerTransaction_inv h.header.miner
  rw [← hbl] at hminer hoverflow
  constructor
  case transactions => rw [h.appended.transactions, hothers, hbl]
  case miner => exact ⟨_, hminer⟩
  case minerWords => rw [hbl]; exact hgood
  case minerOverflow => exact hoverflow
  case others =>
    intro tx hmem
    rw [hothers] at hmem
    obtain ⟨pair, hpair, rfl⟩ := mem_map.mp hmem
    exact htx pair.1 (of_mem_zip hpair).1
  case reward_size => exact h.reward_size
  case reward => rw [hbl]; exact h.reward
  case coins => exact h.coins

/-- Submitted blocks and transactions have amounts that are words. -/
def WordCalls (_ _ : Nat) (_ : Core) : Call → Prop
  | .addNewBlock bl => WordTransaction bl.baseTransaction
  | .handleIncomingTransaction tx _ => WordTransaction tx
  | _ => True

theorem accounted_of_run {net : Network} {clock : Nat} {core : Core}
    (hrun : Core.Run net WordCalls clock core) :
    Grown (Accounted net.cur net.crypto) core.main.blocks := by
  have hinvariant : MainInvariant net (accountSupply net) fun main =>
      Grown (Accounted net.cur net.crypto) main.blocks :=
    grown_invariant fun _ _ _ _ _ _ hgood htx hwritten => accounted_of_written hgood htx hwritten
  have hgen : (accountSupply net).Good net.cur.genesisBlock := by
    refine ⟨?_, ?_⟩
    · intro input hinput
      rw [mem_singleton.mp hinput]
      decide
    · intro out hout
      rw [mem_singleton.mp hout]
      decide
  exact (Core.Supplied.of_run hinvariant .nil (fun _ => hgen) hrun (fun hok _ => hok)
    fun hok hsem => ⟨hsem, hok⟩).main

theorem sum_minted_eq : ∀ {txs : List Transaction}, (∀ tx ∈ txs, ExactAmounts cur tx) →
      (txs.map minted).sum = ((txs.map (interest cur)).sum : Int) - (txs.map (fee cur)).sum := by
  intro txs
  induction txs with
  | nil =>
    intro _
    rfl
  | cons tx txs ih =>
    intro hexact
    have hrest := ih fun tx' h => hexact tx' (mem_cons_of_mem _ h)
    have htx := (hexact tx mem_cons_self).minted_eq
    simp only [map_cons, sum_cons] at hrest ⊢
    omega

namespace Accounted

variable {below : List BlockEntry} {block : BlockEntry}

/-- The deposit inputs of a block have terms a deposit can have. -/
def DepositTerms (cur : Currency) (block : BlockEntry) : Prop :=
  ∀ tx ∈ block.others, cur.DepositInputs tx.inputs

theorem exact (h : Accounted cur crypto below block) (hrate : cur.depositMaxTotalRate ≤ 22)
    (hterms : DepositTerms cur block) : ∀ tx ∈ block.others, ExactAmounts cur tx :=
  fun tx hmem => (h.others tx hmem).exact hrate (hterms tx hmem)

theorem totals_eq {counter : BlockTotals → Nat} {part : Transaction → Nat}
    (hzero : counter (minerTotals block.bl) = 0)
    (hadd : ∀ tx ∈ block.others, ∀ totals, counter (totals.add cur tx) =
      add64 (counter totals) (part tx))
    (hfits : (block.others.map part).sum < word64) : counter (block.totals cur) =
    (block.others.map part).sum := by
  have hfold : counter (block.totals cur) =
      block.others.foldl (fun total tx => (total + part tx) % word64) 0 :=
    foldl_rel (r := fun totals total => counter totals = total) hzero
      fun tx hmem totals total h => by rw [hadd tx hmem, h, add64]
  rw [hfold, foldl_words part (by decide) fun _ _ _ _ => rfl, zero_add, Nat.mod_eq_of_lt hfits]

variable (hexact : ∀ tx ∈ block.others, ExactAmounts cur tx)
include hexact

theorem feeSummary_eq (hfits : block.fees cur < word64) : (block.totals cur).feeSummary =
    block.fees cur := by
  refine totals_eq rfl (fun tx hmem totals => ?_) hfits
  have htx := hexact tx hmem
  rw [BlockTotals.add, htx.inputs, htx.outputs, sub64_of_le htx.paid htx.inputs_lt]
  rfl

theorem interestSummary_eq (hfits : block.interest cur < word64) :
    (block.totals cur).interestSummary = block.interest cur := by
  refine totals_eq rfl (fun tx hmem totals => ?_) hfits
  rw [BlockTotals.add, (hexact tx hmem).interest]

/-- A block mints what its miner transaction pays out and its interest, less its fees. -/
theorem minted_eq (h : Accounted cur crypto below block) :
    block.minted = (block.bl.baseTransaction.outputsAmount : Int) + block.interest cur -
    block.fees cur := by
  obtain ⟨input, hinputs⟩ := h.miner
  have hminer : block.bl.baseTransaction.minted = block.bl.baseTransaction.outputsAmount := by
    simp [minted, inputsAmount, hinputs, TransactionInput.amount]
  have hsplit : block.minted = block.bl.baseTransaction.minted + (block.others.map minted).sum := by
    rw [← sum_cons, ← map_cons, ← h.transactions, map_map]
    rfl
  have hothers := sum_minted_eq hexact
  simp only [BlockEntry.interest, BlockEntry.fees]
  omega

end Accounted

end DarknetCoin
