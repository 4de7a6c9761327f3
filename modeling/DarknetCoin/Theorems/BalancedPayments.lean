import DarknetCoin.Theorems.DigitDecomposition
import DarknetCoin.Theorems.TransferLookup

/-!
# The transactions of a wallet balance

A payment gives every destination its amount and the wallet the rest; only the dust of the change is
left to the fee. The amount of a deposit goes through a signed total, which has no room for half of
the words.
-/

namespace DarknetCoin

open Semantics Program List

/-- `countNeededMoney` adds without overflow: what it returns fits in a signed word. -/
theorem countNeededMoney_eq {fee neededMoney : Nat} {transfers : List WalletLegacyTransfer}
    (hfee : fee < word64) (hint : ∀ transfer ∈ transfers, transfer.amount < 2 ^ 63)
    (h : countNeededMoney fee transfers = some neededMoney) :
    (neededMoney : Int) = fee + (transfers.map (·.amount)).sum ∧
      (∀ transfer ∈ transfers, 0 < transfer.amount) ∧ (transfers ≠ [] → neededMoney < 2 ^ 63) := by
  unfold countNeededMoney at h
  induction transfers generalizing fee with
  | nil => simp_all
  | cons transfer transfers ih =>
    obtain ⟨hthis, hrest⟩ := forall_mem_cons.mp hint
    rw [foldlM_cons] at h
    split at h
    · cases h
    rename_i hpos
    split at h
    · cases h
    rename_i hchecked
    -- a sum that wraps or has the sign bit set is below the amount
    have hfits : fee + transfer.amount.toNat < 2 ^ 63 := by
      by_contra hover
      by_cases hsign : add64 fee transfer.amount.toNat < 2 ^ 63
      · rw [bmod_word64_of_lt hsign] at hchecked
        simp only [add64, word64] at hsign hchecked hfee
        omega
      · rw [bmod_word64_of_le (Nat.le_of_not_lt hsign) (add64_lt _ _)] at hchecked
        have hword := add64_lt fee transfer.amount.toNat
        simp only [word64] at hword
        omega
    rw [add64_of_lt (hfits.trans (by decide))] at h
    obtain ⟨hsum, hall, hlast⟩ := ih (hfits.trans (by decide)) hrest h
    refine ⟨?_, forall_mem_cons.mpr ⟨by omega, hall⟩, fun _ => ?_⟩
    · rw [map_cons, sum_cons]
      omega
    · by_cases hnil : transfers = []
      · subst hnil
        cases h
        exact hfits
      · exact hlast hnil

/-- The total and the fee in the record of a transaction. -/
def WalletUserTransactionsCache.money? (cache : WalletUserTransactionsCache) (id : TransactionId) :
    Option (Int × Nat) :=
  (cache.transactions[id]?).map fun transaction => (transaction.totalAmount, transaction.fee)

theorem money?_addNewTransaction (cache : WalletUserTransactionsCache) (unsetHash : Hash)
    (amount fee : Nat) :
    (cache.addNewTransaction unsetHash amount fee).money? cache.transactions.length =
      some (-(amount : Int).bmod word64, fee) := by
  simp [WalletUserTransactionsCache.money?, WalletUserTransactionsCache.addNewTransaction]

/-- A request that selected outputs and entered a transaction: the context has what was found, and
the record what is needed. -/
structure Funded (neededMoney fee : Nat) (context : SendTransactionContext) (w : Wallet) :
    Prop where
  found : context.foundMoney = sum64 (context.selectedTransfers.map (·.amount))
  enough : neededMoney ≤ context.foundMoney
  recorded : w.cache.money? context.transactionId = some (-(neededMoney : Int).bmod word64, fee)

namespace Wallet

variable {cur : Currency} {age : Nat} {parses : String → Bool} {step : SendingStep} {w w' : Wallet}
  {context : SendTransactionContext} {request : WalletRequest} {amount : Nat} {foundMoney : Nat}
  {neededMoney mixIn : Nat} {depositIds : List DepositId} {dsts : List TransactionDestinationEntry}
    {tx : SentTransaction}

theorem foundMoney_selectTransfers {pick : Nat → Nat} (rounds : Nat) (selectOneDust : Bool)
    (unusedTransfers unusedDust selected : List TransactionOutputInformation)
    (h : foundMoney = sum64 (selected.map (·.amount))) :
    (selectTransfers neededMoney pick rounds selectOneDust unusedTransfers unusedDust
      foundMoney selected).1 =
      sum64 ((selectTransfers neededMoney pick rounds selectOneDust unusedTransfers
        unusedDust foundMoney selected).2.map (·.amount)) := by
  induction rounds generalizing selectOneDust unusedTransfers unusedDust foundMoney selected with
  | zero => exact h
  | succ rounds ih =>
    have happend (out : TransactionOutputInformation) :
        add64 foundMoney out.amount = sum64 ((selected ++ [out]).map (·.amount)) := by
      rw [h, sum64, sum64, map_append, foldl_append]
      rfl
    unfold selectTransfers
    split
    · split
      · cases popRandomValue (pick rounds) unusedDust with
        | none => exact h
        | some popped => exact ih _ _ _ _ (happend _)
      · cases popRandomValue (pick rounds) unusedTransfers with
        | none => exact h
        | some popped => exact ih _ _ _ _ (happend _)
    · exact h

section Built

open WalletUserTransactionsCache

variable {transaction : WalletLegacyTransaction}
  (hfind : w.cache.transactions[context.transactionId]? = some transaction)

include hfind

theorem money_doSend (cur : Currency) (depositIds : List DepositId)
    (h : doSendTransaction step context w = .done (some request) w' ∨
      doSendMultisigTransaction cur step context w = .done (some request) w' ∨
      doSendDepositWithdrawTransaction step context depositIds w = .done (some request) w') :
    request.context = context ∧ w'.cache.money? context.transactionId =
    w.cache.money? context.transactionId := by
  unfold doSendTransaction doSendMultisigTransaction doSendDepositWithdrawTransaction at h
  rw [get_bind_run, get_bind_run, get_bind_run, hfind] at h
  rcases h with h | h | h
  all_goals
    split at h
    · cases h
    cases hbuilt : step.construction with rw [hbuilt] at h
    | built hash =>
      cases h
      exact ⟨rfl, by simp [money?, modifyTransaction, updateTransaction, insertDeposit, hfind]⟩
    | _ => cases h

end Built

/-- A payment that is requested has found the money it needs. -/
theorem funded_makeSendRequest {transfers : List WalletLegacyTransfer} {fee : Nat}
    {messageAddresses : List String} (h : makeSendRequest cur age parses step transfers fee mixIn
      messageAddresses w = .done (some request) w') :
    transfers ≠ [] ∧ ∃ neededMoney, countNeededMoney fee transfers = some neededMoney ∧
      Funded neededMoney fee request.context w' := by
  unfold makeSendRequest at h
  split at h
  · cases h
  rename_i hvalid
  refine ⟨fun hnil => hvalid (by rw [hnil]; rfl), ?_⟩
  cases hneeded : countNeededMoney fee transfers with
  | none => rw [hneeded] at h; cases h
  | some neededMoney =>
    have hrecord := money?_addNewTransaction w.cache step.unsetHash neededMoney fee
    rw [hneeded] at h
    dsimp only at h
    rw [get_bind_run] at h
    split at h
    · cases h
    rename_i henough
    split at h
    · cases h
    split at h
    · cases h
      exact ⟨_, rfl, foundMoney_selectTransfers _ _ _ _ _ rfl, Nat.le_of_not_lt henough, hrecord⟩
    · obtain ⟨transaction, hfind, -⟩ := Option.map_eq_some_iff.mp hrecord
      obtain ⟨hcontext, hmoney⟩ := money_doSend hfind cur [] (.inl h)
      rw [hcontext]
      exact ⟨_, rfl, foundMoney_selectTransfers _ _ _ _ _ rfl, Nat.le_of_not_lt henough,
        hmoney.trans hrecord⟩

theorem funded_makeDepositRequest {term fee : Nat} (hamount : amount < word64)
    (h : makeDepositRequest cur age step term amount fee mixIn w = .done (some request) w') :
    Funded (amount + fee) fee request.context w' ∧ request.context.depositTerm = term ∧
      amount + fee < word64 := by
  have hrecord := money?_addNewTransaction w.cache step.unsetHash (amount + fee) fee
  unfold makeDepositRequest at h
  split at h
  · cases h
  rename_i hvalid
  have hword : amount + fee < word64 := by omega
  dsimp only at h
  rw [get_bind_run] at h
  split at h
  · cases h
  rename_i henough
  split at h
  · cases h
    exact ⟨⟨foundMoney_selectTransfers _ _ _ _ _ rfl, Nat.le_of_not_lt henough, hrecord⟩, rfl,
      hword⟩
  · obtain ⟨transaction, hfind, -⟩ := Option.map_eq_some_iff.mp hrecord
    obtain ⟨hcontext, hmoney⟩ := money_doSend hfind cur [] (.inr (.inl h))
    rw [hcontext]
    exact ⟨⟨foundMoney_selectTransfers _ _ _ _ _ rfl, Nat.le_of_not_lt henough,
      hmoney.trans hrecord⟩, rfl, hword⟩

/-- What an output is worth when it is spent: a deposit has earned its interest. -/
def worth (cur : Currency) (out : TransactionOutputInformation) : Nat :=
  match out.target with
  | .key _ _ => out.amount
  | .multisignature _ term =>
    if term = 0 then out.amount else out.amount + cur.calculateInterest out.amount term

/-- What the records of the deposits say they give back. -/
def recordedMoney (w : Wallet) (depositIds : List DepositId) : Nat :=
  (depositIds.map fun id => (w.cache.deposits[id]?).elim 0 fun deposit =>
    deposit.amount + deposit.interest).sum

theorem foundMoney_selectDepositTransfers {now : Nat} {found : Nat}
    {selected outs : List TransactionOutputInformation}
    (h : selectDepositTransfers cur age now depositIds foundMoney selected w =
      .done (found, outs) w') (hword : foundMoney < word64) :
    found = (foundMoney + w.recordedMoney depositIds) % word64 ∧ w' = w := by
  induction depositIds generalizing foundMoney selected with
  | nil =>
    cases h
    exact ⟨(Nat.mod_eq_of_lt hword).symm, rfl⟩
  | cons id ids ih =>
    obtain ⟨deposit, key, transfer, hdeposit, -, -, hnext⟩ := selectDepositTransfers_cons h
    obtain ⟨rfl, rfl⟩ := ih hnext (add64_lt _ _)
    refine ⟨?_, rfl⟩
    rw [recordedMoney, recordedMoney, map_cons, sum_cons, hdeposit, Option.elim, add64, add64,
      Nat.add_mod_mod, Nat.mod_add_mod, add_assoc]

theorem funded_makeWithdrawDepositRequest {fee : Nat}
    (h : makeWithdrawDepositRequest cur age step depositIds fee w = .done (some request) w') :
    request.context.foundMoney = w.recordedMoney depositIds % word64 ∧
      fee ≤ request.context.foundMoney ∧
      ∃ total, w'.cache.money? request.context.transactionId = some (total, fee) := by
  obtain ⟨⟨foundMoney, selected⟩, w₁, hselect, hnext⟩ := bind_eq_done.mp h
  obtain ⟨hfound, rfl⟩ := foundMoney_selectDepositTransfers hselect (by decide)
  rw [zero_add] at hfound
  dsimp only at hnext
  split at hnext
  · cases hnext
  rename_i henough
  have hrecord := money?_addNewTransaction w₁.cache step.unsetHash foundMoney fee
  obtain ⟨transaction, hfind, -⟩ := Option.map_eq_some_iff.mp hrecord
  obtain ⟨hcontext, hmoney⟩ := money_doSend hfind cur _ (.inr (.inr hnext))
  rw [hcontext]
  exact ⟨hfound, Nat.le_of_not_lt henough, _, hmoney.trans hrecord⟩

variable {threshold : Nat} {address : AccountPublicAddress}
  {parse : String → Option AccountPublicAddress}
  {transfers : List WalletLegacyTransfer} {transaction : WalletLegacyTransaction} {fee : Nat}

theorem given_splitAmount (h : amount < word64) : given (splitAmount amount threshold address) =
    amount := by
  rw [given, splitAmount, map_map]
  exact sum_decomposeAmountIntoDigits h threshold

theorem map_keyOutputs (dsts : List TransactionDestinationEntry) :
    (dsts.map fun dst => (⟨dst, 0⟩ : SentOutput)).map (·.toTransactionDestinationEntry) = dsts := by
  rw [map_map]
  exact map_id dsts

/-- What the outputs of a transaction give away. -/
def total (outputs : List SentOutput) : Nat := given (outputs.map (·.toTransactionDestinationEntry))

/-- Outputs that go to the address of a transfer and sum to its amount. -/
def Pays (parse : String → Option AccountPublicAddress) (transfer : WalletLegacyTransfer)
    (parts : List TransactionDestinationEntry) : Prop :=
  (∀ dst ∈ parts, parse transfer.address = some dst.addr) ∧ given parts = transfer.amount

variable (hamounts : ∀ transfer ∈ transfers, 0 < transfer.amount ∧ transfer.amount < 2 ^ 63)
include hamounts

theorem pays_splitTransfers {splitted : List TransactionDestinationEntry}
    (h : splitTransfers parse threshold transfers = some splitted) :
    ∃ paid : List (List TransactionDestinationEntry), splitted = paid.flatten ∧
      List.Forall₂ (Pays parse) transfers paid ∧ given splitted =
      (transfers.map (·.amount)).sum := by
  induction transfers generalizing splitted with
  | nil =>
    cases h
    exact ⟨[], rfl, .nil, rfl⟩
  | cons transfer transfers ih =>
    obtain ⟨⟨hpos, hlt⟩, hrest⟩ := forall_mem_cons.mp hamounts
    obtain ⟨addr, hparse, h⟩ := Option.bind_eq_some_iff.mp h
    obtain ⟨later, hlater, h⟩ := Option.bind_eq_some_iff.mp h
    cases h
    obtain ⟨paid, rfl, hpaid, hsum⟩ := ih hrest hlater
    have hthis : (given (splitAmount transfer.amount.toNat threshold addr) : Int) =
        transfer.amount := by
      rw [given_splitAmount (by simp only [word64]; omega)]
      omega
    refine ⟨_ :: paid, rfl, .cons ⟨fun dst hdst => ?_, hthis⟩ hpaid, ?_⟩
    · obtain ⟨part, -, rfl⟩ := mem_map.mp hdst
      exact hparse
    · rw [given_append, Nat.cast_add, hthis, hsum, map_cons, sum_cons]

/-- The destinations of a payment: those of the transfers, and the change without its dust. -/
theorem splitDestinations_eq {change : Nat} (hchange : change < word64)
    (h : splitDestinations parse threshold transfers ⟨change, address⟩ = some dsts) :
    ∃ (paid : List (List TransactionDestinationEntry)) (back : List TransactionDestinationEntry),
      dsts = paid.flatten ++ back ∧ List.Forall₂ (Pays parse) transfers paid ∧
      (∀ dst ∈ back, dst.addr = address) ∧ (given paid.flatten : Int) =
      (transfers.map (·.amount)).sum ∧ given back ≤ change ∧ change ≤ given back + threshold := by
  obtain ⟨splitted, hsplitted, h⟩ := Option.bind_eq_some_iff.mp h
  obtain ⟨paid, rfl, hpaid, hsum⟩ := pays_splitTransfers hamounts hsplitted
  obtain ⟨dust, hdust, hdustEq, hchunks⟩ := dust_decomposeAmountIntoDigits hchange threshold
  dsimp only at h
  rw [hdustEq, if_neg (Nat.not_lt.mpr hdust)] at h
  cases h
  refine ⟨paid, _, rfl, hpaid, fun dst hdst => ?_, hsum, ?_⟩
  · obtain ⟨chunk, -, rfl⟩ := mem_map.mp hdst
    rfl
  · rw [given, map_map]
    simp only [Function.comp_def, map_id']
    omega

omit hamounts

theorem constructTransaction_eq {sources : List TransactionOutputInformation}
    (h : constructTransaction sources dsts = some tx) :
    tx.inputs = sources ∧ tx.outputs.Perm (dsts.map fun dst => ⟨dst, 0⟩) := by
  unfold constructTransaction at h
  dsimp only at h
  split at h
  · cases h
  split at h
  · cases h
  cases h
  exact ⟨rfl, (perm_insertionSort _ _).map _⟩

variable (hrecord : w.cache.transactions[context.transactionId]? = some transaction)
include hrecord

/-- A payment: every destination gets its amount and the rest of what was found goes back, so that
the fee grows by the dust of the change at most. What was found is what the inputs have if their sum
fits in a word. -/
theorem sendTransaction_balances (hfee : fee < word64) (hthreshold : threshold < word64)
    (hint : ∀ transfer ∈ transfers, transfer.amount < 2 ^ 63) (hsome : transfers ≠ [])
    (hneeded : countNeededMoney fee transfers = some neededMoney)
    (hfunded : Funded neededMoney fee context w)
    (htx : sendTransaction threshold address parse transfers transaction context = some tx) :
    (∃ (paid : List (List TransactionDestinationEntry)) (change : List TransactionDestinationEntry),
      tx.outputs.Perm ((paid.flatten ++ change).map fun dst => ⟨dst, 0⟩) ∧
      List.Forall₂ (Pays parse) transfers paid ∧ ∀ dst ∈ change, dst.addr = address) ∧
    (total tx.outputs + fee ≤ (tx.inputs.map (·.amount)).sum ∧
      (tx.inputs.map (·.amount)).sum ≤ total tx.outputs + fee + threshold ↔
        (context.selectedTransfers.map (·.amount)).sum < word64) := by
  obtain ⟨hsum, hpos, hlt⟩ := countNeededMoney_eq hfee hint hneeded
  have hlt := hlt hsome
  obtain ⟨hfound, henough, hmoney⟩ := hfunded
  rw [sum64_eq_mod] at hfound
  have hword : context.foundMoney < word64 := hfound ▸ Nat.mod_lt _ (by decide)
  have htotal : (-transaction.totalAmount % (word64 : Int)).toNat = neededMoney := by
    rw [WalletUserTransactionsCache.money?, hrecord, bmod_word64_of_lt hlt] at hmoney
    rw [(Prod.mk.inj (Option.some.inj hmoney)).1, Int.neg_neg,
      Int.emod_eq_of_lt (by omega) (by omega)]
    rfl
  have hchange :
      (if neededMoney < context.foundMoney then sub64 context.foundMoney neededMoney else 0) =
      context.foundMoney - neededMoney := by
    split
    · exact sub64_of_le henough hword
    · omega
  unfold sendTransaction at htx
  rw [htotal] at htx
  obtain ⟨dsts, hdsts, hconstruct⟩ := Option.bind_eq_some_iff.mp htx
  obtain ⟨hinputs, hperm⟩ := constructTransaction_eq hconstruct
  obtain ⟨paid, back, rfl, hpaid, haddr, hgiven, hback, hdust⟩ :=
    splitDestinations_eq (fun transfer ht => ⟨hpos transfer ht, hint transfer ht⟩) (by omega) hdsts
  have houts : total tx.outputs = given paid.flatten + given back := by
    rw [← given_append, total, given, ((hperm.map _).map _).sum_eq, map_keyOutputs]
    rfl
  -- what was found lies between the outputs with the fee and the dust threshold beyond
  have hleast : total tx.outputs + fee ≤ context.foundMoney := by omega
  have hmost : context.foundMoney ≤ total tx.outputs + fee + threshold := by omega
  refine ⟨⟨paid, back, hperm, hpaid, haddr⟩, ?_⟩
  rw [hinputs]
  constructor
  · rintro ⟨-, hle⟩
    rw [← Nat.mod_add_div (context.selectedTransfers.map (·.amount)).sum word64, ← hfound] at hle
    by_contra hover
    have hwhole : word64 * 1 ≤ word64 * ((context.selectedTransfers.map (·.amount)).sum / word64) :=
      Nat.mul_le_mul_left _ ((Nat.one_le_div_iff (by decide)).mpr (Nat.le_of_not_lt hover))
    omega
  · intro hfits
    rw [Nat.mod_eq_of_lt hfits] at hfound
    omega

/-- A deposit: the first output has the amount if the sum with the fee goes through a signed word,
and then nothing but the fee is left of what was found. -/
theorem depositTransaction_balances (hfunded : Funded (amount + fee) fee context w)
    (hword : amount + fee < word64) :
    (∃ change : List TransactionDestinationEntry,
      (depositTransaction threshold address transaction context).outputs =
        ⟨⟨amount, address⟩, context.depositTerm⟩ :: change.map (fun dst => ⟨dst, 0⟩) ∧
      (∀ dst ∈ change, dst.addr = address) ∧
      (context.selectedTransfers.map (·.amount)).sum = amount + given change + fee) ↔
    amount + fee ≤ 2 ^ 63 ∧ (context.selectedTransfers.map (·.amount)).sum < word64 := by
  obtain ⟨hfound, henough, hmoney⟩ := hfunded
  rw [sum64_eq_mod] at hfound
  have hfoundWord : context.foundMoney < word64 := hfound ▸ Nat.mod_lt _ (by decide)
  rw [WalletUserTransactionsCache.money?, hrecord] at hmoney
  obtain ⟨htotal, hfee⟩ := Prod.mk.inj (Option.some.inj hmoney)
  by_cases hsigned : amount + fee ≤ 2 ^ 63
  · have habs : transaction.totalAmount.natAbs = amount + fee := by
      rcases hsigned.lt_or_eq with hlt | heq
      · rw [htotal, bmod_word64_of_lt hlt]
        omega
      · rw [htotal, bmod_word64_of_le heq.ge hword, heq]
        decide
    have houts : (depositTransaction threshold address transaction context).outputs =
        ⟨⟨amount, address⟩, context.depositTerm⟩ ::
          (splitAmount (context.foundMoney - (amount + fee)) threshold address).map
            fun dst => ⟨dst, 0⟩ := by
      rw [depositTransaction, habs, hfee, sub64_of_le henough hfoundWord,
        sub64_of_le (by omega) (by omega), Nat.add_sub_cancel]
    have hgiven := @given_splitAmount (context.foundMoney - (amount + fee)) threshold
      address (by omega)
    constructor
    · intro ⟨change, hchange, _, hsum⟩
      rw [houts, List.cons.injEq] at hchange
      have hback := congrArg (map (·.toTransactionDestinationEntry)) hchange.2
      rw [map_keyOutputs, map_keyOutputs] at hback
      rw [← hback, hgiven] at hsum
      exact ⟨hsigned, by omega⟩
    · intro ⟨_, hfits⟩
      rw [Nat.mod_eq_of_lt hfits] at hfound
      refine ⟨_, houts, fun dst hdst => ?_, by omega⟩
      obtain ⟨part, -, rfl⟩ := mem_map.mp hdst
      rfl
  · refine iff_of_false (fun ⟨change, hchange, _⟩ => ?_) fun h => hsigned h.1
    rw [depositTransaction, hfee, htotal, bmod_word64_of_le (by omega) hword, List.cons.injEq]
      at hchange
    have hamount : sub64 _ fee = amount := congrArg (·.amount) hchange.1
    simp only [sub64, word64] at hamount hword
    omega

/-- A withdrawal: nothing but the fee is left of what the records say. -/
theorem total_withdrawTransaction {signed : Int} (hword : context.foundMoney < word64)
    (henough : fee ≤ context.foundMoney)
    (hmoney : w.cache.money? context.transactionId = some (signed, fee)) :
    total (withdrawTransaction threshold address transaction context).outputs + fee =
      context.foundMoney := by
  rw [WalletUserTransactionsCache.money?, hrecord] at hmoney
  have hfee : transaction.fee = fee := (Prod.mk.inj (Option.some.inj hmoney)).2
  rw [withdrawTransaction, total, map_keyOutputs, hfee, sub64_of_le henough hword,
    given_splitAmount (by omega)]
  omega

omit hrecord

/-- The sums of the transactions that are built for a payment, a deposit and a withdrawal. A payment
balances exactly if what it selects fits in a word, a deposit if moreover its sum goes through a
signed word, and a withdrawal if the records of the deposits say in all what the outputs are
worth. -/
theorem transactions_balance (cur : Currency) (age : Nat) (parses : String → Bool)
    (parse : String → Option AccountPublicAddress) (address : AccountPublicAddress)
    (step : SendingStep) {fee threshold : Nat} (hfee : fee < word64)
    (hthreshold : threshold < word64)
    {w w' : Wallet} {request : WalletRequest} {transaction : WalletLegacyTransaction}
    (hrecord : w'.cache.transactions[request.context.transactionId]? = some transaction) :
    (∀ (transfers : List WalletLegacyTransfer) (mixIn : Nat) (messageAddresses : List String)
        (tx : SentTransaction), (∀ transfer ∈ transfers, transfer.amount < 2 ^ 63) →
      makeSendRequest cur age parses step transfers fee mixIn messageAddresses w =
        .done (some request) w' →
      sendTransaction threshold address parse transfers transaction request.context = some tx →
      ((∃ neededMoney, countNeededMoney fee transfers = some neededMoney ∧
        (neededMoney : Int) = fee + (transfers.map (·.amount)).sum) ∧
      (∃ (paid : List (List TransactionDestinationEntry))
        (change : List TransactionDestinationEntry),
        tx.outputs.Perm ((paid.flatten ++ change).map fun dst => ⟨dst, 0⟩) ∧
        List.Forall₂ (Pays parse) transfers paid ∧ ∀ dst ∈ change, dst.addr = address) ∧
      total tx.outputs + fee ≤ (tx.inputs.map (·.amount)).sum ∧
        (tx.inputs.map (·.amount)).sum ≤ total tx.outputs + fee + threshold ↔
      (request.context.selectedTransfers.map (·.amount)).sum < word64)) ∧
    (∀ term amount mixIn : Nat, amount < word64 →
      makeDepositRequest cur age step term amount fee mixIn w = .done (some request) w' →
      ((∃ change : List TransactionDestinationEntry,
        depositTransaction threshold address transaction request.context =
          ⟨request.context.selectedTransfers,
            ⟨⟨amount, address⟩, term⟩ :: change.map (fun dst => ⟨dst, 0⟩)⟩ ∧
        (∀ dst ∈ change, dst.addr = address) ∧
        (request.context.selectedTransfers.map (·.amount)).sum = amount + given change + fee) ↔
      amount + fee ≤ 2 ^ 63 ∧ (request.context.selectedTransfers.map (·.amount)).sum < word64)) ∧
    ∀ depositIds : List DepositId,
      makeWithdrawDepositRequest cur age step depositIds fee w = .done (some request) w' →
      (((withdrawTransaction threshold address transaction request.context).inputs.map
          (worth cur)).sum =
        total (withdrawTransaction threshold address transaction request.context).outputs + fee ↔
      (request.context.selectedTransfers.map (worth cur)).sum =
        w.recordedMoney depositIds % word64) := by
  refine ⟨?_, ?_, ?_⟩
  · intro transfers mixIn messageAddresses tx hint hreq htx
    obtain ⟨hsome, neededMoney, hneeded, hfunded⟩ := funded_makeSendRequest hreq
    obtain ⟨hpaid, hsums⟩ :=
      sendTransaction_balances hrecord hfee hthreshold hint hsome hneeded hfunded htx
    rw [← hsums]
    exact ⟨fun h => h.2.2,
      fun h => ⟨⟨neededMoney, hneeded, (countNeededMoney_eq hfee hint hneeded).1⟩, hpaid, h⟩⟩
  · intro term amount mixIn hamount hreq
    obtain ⟨hfunded, rfl, hword⟩ := funded_makeDepositRequest hamount hreq
    rw [← @depositTransaction_balances _ _ _ threshold address _ _ hrecord hfunded hword]
    -- the inputs are those of the context in any case
    exact exists_congr fun change => and_congr_left' ⟨congrArg SentTransaction.outputs,
      congrArg (SentTransaction.mk _)⟩
  · intro depositIds hreq
    obtain ⟨hfound, henough, _, hmoney⟩ := funded_makeWithdrawDepositRequest hreq
    rw [total_withdrawTransaction hrecord (hfound ▸ Nat.mod_lt _ (by decide)) henough hmoney,
      hfound]
    rfl

/-- A wallet with one unlocked output. -/
def treasury (amount : Nat) : Wallet where
  cache := ⟨[], .empty, [], ∅⟩
  container := { TransfersContainer.empty with
    availableTransfers := .ofList [{
      amount
      globalOutputIndex := 0
      outputInTransaction := 0
      transactionHash := 7
      transactionPublicKey := 8
      target := .key 0 9
      unlockTime := 0
      blockHeight := 1
      transactionIndex := 0
      visible := true }]
    currentHeight := 100 }
  isStoping := false

theorem exists_of_test (o : Outcome Wallet (Option WalletRequest))
    (test : WalletRequest → Wallet → Bool)
    (h : (match o with | .done (some request) w => test request w | _ => false) = true) :
    ∃ request w, o = .done (some request) w ∧ test request w = true := by
  split at h
  · exact ⟨_, _, rfl, h⟩
  · cases h

/-- The own address of the examples. -/
def ownAddress : AccountPublicAddress := ⟨1, 2⟩

/-- A deposit without mixing from a wallet with one output. -/
def depositing (amount : Nat) : Outcome Wallet (Option WalletRequest) :=
  makeDepositRequest .mainnet 6 ⟨0, .built 5, fun _ => 0, 0⟩ 11000 amount 100000 0
    (treasury (amount + 500000))

/-- A deposit of the smallest amount, with change. -/
theorem transactions_balance_deposit :
    ∃ request w' transaction change, depositing (150 * Currency.coin) = .done (some request) w' ∧
      w'.cache.transactions[request.context.transactionId]? = some transaction ∧
      (depositTransaction 100000 ownAddress transaction request.context).outputs =
        ⟨⟨150 * Currency.coin, ownAddress⟩, 11000⟩ :: change.map (fun dst => ⟨dst, 0⟩) ∧
      150 * Currency.coin + 500000 = 150 * Currency.coin + given change + 100000 := by
  obtain ⟨request, w', hreq, htest⟩ :=
      exists_of_test (depositing (150 * Currency.coin)) (fun request w =>
    decide (request.context.selectedTransfers.map (·.amount) = [150 * Currency.coin + 500000]) &&
      (w.cache.transactions[request.context.transactionId]?).isSome) (by decide +kernel)
  obtain ⟨hsel, hrecorded⟩ := Bool.and_eq_true_iff.mp htest
  have hsel := of_decide_eq_true hsel
  obtain ⟨transaction, hrecord⟩ := Option.isSome_iff_exists.mp hrecorded
  obtain ⟨-, hdeposit, -⟩ := transactions_balance .mainnet 6 (fun _ => true)
    (fun _ => none) ownAddress ⟨0, .built 5, fun _ => 0, 0⟩ (show 100000 < word64 by decide)
      (show 100000 < word64 by decide) hrecord
  obtain ⟨change, htx, -, hsum⟩ := (hdeposit 11000 (150 * Currency.coin) 0 (by decide) hreq).mpr
    ⟨by decide, by rw [hsel]; decide⟩
  rw [hsel] at hsum
  exact ⟨request, w', transaction, change, hreq, hrecord,
    congrArg SentTransaction.outputs htx, hsum⟩

/-- A deposit of more than a signed word holds: the output gets another amount. -/
theorem deposit_of_wrong_amount :
    ∃ request w' transaction, depositing (2 ^ 63 + 5) = .done (some request) w' ∧
      w'.cache.transactions[request.context.transactionId]? = some transaction ∧
      (depositTransaction 100000 ownAddress transaction request.context).outputs.head? =
        some ⟨⟨2 ^ 63 - 200005, ownAddress⟩, 11000⟩ := by
  obtain ⟨request, w', hreq, htest⟩ := exists_of_test (depositing (2 ^ 63 + 5)) (fun request w =>
    match w.cache.transactions[request.context.transactionId]? with
    | some transaction => decide ((depositTransaction 100000 ownAddress transaction
        request.context).outputs.head? = some ⟨⟨2 ^ 63 - 200005, ownAddress⟩, 11000⟩)
    | none => false) (by decide +kernel)
  split at htest
  · next transaction hrecord =>
    exact ⟨request, w', transaction, hreq, hrecord, of_decide_eq_true htest⟩
  · cases htest

end Wallet

end DarknetCoin
