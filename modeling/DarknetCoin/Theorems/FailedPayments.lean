import DarknetCoin.Theorems.BalancedPayments

/-!
# What a failed payment leaves behind

The routine for failures marks the transaction and erases what is stored under its hash. That undoes
a payment, but not a deposit that was entered, nor the mark on a deposit that is withdrawn.
-/

namespace DarknetCoin

open Semantics WalletUserTransactionsCache WalletUnconfirmedTransactions Program List

theorem mem_of_popRandomValue {α : Type} {pick : Nat} {values rest : List α} {value : α}
    (h : popRandomValue pick values = some (value, rest)) : value ∈ values ∧
    ∀ a ∈ rest, a ∈ values := by
  unfold popRandomValue at h
  split at h
  · rename_i found last hfound hlast
    obtain ⟨rfl, rfl⟩ := h
    refine ⟨mem_of_getElem? hfound, fun a ha => ?_⟩
    rcases mem_or_eq_of_mem_set (mem_of_mem_dropLast ha) with hmem | rfl
    · exact hmem
    · exact mem_of_getLast? hlast
  · cases h

theorem mem_of_selectTransfers {neededMoney : Nat} {pick : Nat → Nat}
    {P : TransactionOutputInformation → Prop} (rounds : Nat) (selectOneDust : Bool)
    (unusedTransfers unusedDust : List TransactionOutputInformation)
    (foundMoney : Nat) (selected : List TransactionOutputInformation)
    (htransfers : ∀ out ∈ unusedTransfers, P out)
    (hdust : ∀ out ∈ unusedDust, P out) (hsel : ∀ out ∈ selected, P out) :
    ∀ out ∈ (selectTransfers neededMoney pick rounds selectOneDust unusedTransfers
      unusedDust foundMoney selected).2, P out := by
  induction rounds generalizing selectOneDust unusedTransfers unusedDust foundMoney selected with
  | zero => exact hsel
  | succ rounds ih =>
    have happend {value : TransactionOutputInformation} (hvalue : P value) :
        ∀ out ∈ selected ++ [value], P out := by
      simpa [or_imp, forall_and] using ⟨hsel, hvalue⟩
    unfold selectTransfers
    split
    · split
      · cases hpop : popRandomValue (pick rounds) unusedDust with
        | none => exact hsel
        | some popped =>
          obtain ⟨hvalue, hrest⟩ := mem_of_popRandomValue hpop
          exact ih _ _ _ _ _ htransfers (fun out hout => hdust out (hrest out hout))
            (happend (hdust _ hvalue))
      · cases hpop : popRandomValue (pick rounds) unusedTransfers with
        | none => exact hsel
        | some popped =>
          obtain ⟨hvalue, hrest⟩ := mem_of_popRandomValue hpop
          exact ih _ _ _ _ _ (fun out hout => htransfers out (hrest out hout)) hdust
            (happend (htransfers _ hvalue))
    · exact hsel

/-- The hash a transaction under construction has. -/
def Construction.hash? : Construction → Option Hash
  | failed => none
  | tooBig hash => some hash
  | built hash => some hash

namespace Wallet

section Selection

variable {cur : Currency} {age : Nat} {step : SendingStep} {w : Wallet}

theorem isUsed_of_selectTransfersToSend {neededMoney : Nat} {addDust : Bool} :
    ∀ out ∈ (w.selectTransfersToSend cur age neededMoney addDust step).2,
      w.cache.unconfirmedTransactions.isUsed out = false := by
  refine mem_of_selectTransfers _ _ _ _ _ _ ?_ ?_ ?_
  · simp +contextual
  · simp +contextual
  · simp

theorem selectDepositTransfers_cases (cur : Currency) (age now : Nat) (w : Wallet)
    (depositIds : List DepositId) (foundMoney : Nat)
    (selected : List TransactionOutputInformation) :
    (∃ result, selectDepositTransfers cur age now depositIds foundMoney selected w =
      .done result w) ∨
      selectDepositTransfers cur age now depositIds foundMoney selected w = .thrown w ∨
      selectDepositTransfers cur age now depositIds foundMoney selected w = .stuck := by
  induction depositIds generalizing foundMoney selected with
  | nil => exact .inl ⟨_, rfl⟩
  | cons id ids ih =>
    unfold selectDepositTransfers
    rw [Program.get_bind_run]
    cases w.cache.deposits[id]? with
    | none => exact .inr (.inl rfl)
    | some deposit =>
      dsimp only
      rw [Program.bind_run]
      unfold Program.read depositKey
      split
      · rw [Outcome.andThen_done, Program.bind_run]
        split
        · rw [Outcome.andThen_done]
          split
          · exact ih _ _
          · exact .inr (.inl rfl)
        · exact .inr (.inl rfl)
        · exact .inr (.inr rfl)
      · exact .inr (.inl rfl)
      · exact .inr (.inr rfl)

end Selection

/-- An answer of the node, and whether the wallet is stopped before it arrives. -/
structure Reply where
  step : SendingStep
  answer : NodeAnswer
  stops : Bool

/-- The callback of a request that was made, if there is an answer. -/
def receive (cur : Currency) (reply : Option Reply) (request : WalletRequest) :
    Program Wallet (Option WalletRequest) :=
  match reply with
  | none => pure (some request)
  | some reply => fun w =>
    callback cur reply.step reply.answer request { w with isStoping := w.isStoping || reply.stops }

/-- Outputs to mix with arrive. -/
def awaitOuts (cur : Currency) (outs : Option Reply) : Option WalletRequest →
    Program Wallet (Option WalletRequest)
  | some (.getRandomOuts isMultisigTransaction context) =>
    receive cur outs (.getRandomOuts isMultisigTransaction context)
  | other => pure other

/-- The answer to a transaction arrives. -/
def awaitRelay (cur : Currency) (relay : Option Reply) : Option WalletRequest →
    Program Wallet (Option WalletRequest)
  | some (.relayTransaction context hash) => receive cur relay (.relayTransaction context hash)
  | some (.relayDepositTransaction context deposits hash) =>
    receive cur relay (.relayDepositTransaction context deposits hash)
  | other => pure other

/-- A request, and the answers to it. -/
def attempt (cur : Currency) (request : Program Wallet (Option WalletRequest))
    (outs relay : Option Reply) : Program Wallet (Option WalletRequest) :=
  request >>= awaitOuts cur outs >>= awaitRelay cur relay

/-- The balances, the used outputs and the deposits are as before, and no new transaction is being
sent. -/
structure Untouched (cur : Currency) (age : Nat) (w w' : Wallet) : Prop where
  actualBalance : ∀ now, w'.calculateActualBalance cur age now =
    w.calculateActualBalance cur age now
  pendingBalance : ∀ now, w'.calculatePendingBalance cur age now =
    w.calculatePendingBalance cur age now
  actualDepositBalance : ∀ now, w'.calculateActualDepositBalance cur age now =
    w.calculateActualDepositBalance cur age now
  pendingDepositBalance : ∀ now, w'.calculatePendingDepositBalance cur age now =
    w.calculatePendingDepositBalance cur age now
  usedOutputs : ∀ out, w'.cache.unconfirmedTransactions.isUsed out =
    w.cache.unconfirmedTransactions.isUsed out
  deposits : w'.cache.deposits = w.cache.deposits
  settled : ∀ id transaction, w.cache.transactions.length ≤ id →
    w'.cache.transactions[id]? = some transaction → transaction.state ≠ .sending

/-- A new transaction in a wallet that is otherwise as before, with some unconfirmed
transactions. -/
structure Entered (w w₁ : Wallet) (hash : Hash) (state : WalletLegacyTransactionState)
    (unconfirmed : WalletUnconfirmedTransactions) : Prop where
  container : w₁.container = w.container
  deposits : w₁.cache.deposits = w.cache.deposits
  unconfirmed : w₁.cache.unconfirmedTransactions = unconfirmed
  transactions : ∃ transaction, w₁.cache.transactions = w.cache.transactions ++ [transaction] ∧
    transaction.hash = hash ∧ transaction.state = state

section Entered

variable {cur : Currency} {age : Nat} {w w₁ : Wallet} {hash : Hash}
  {state : WalletLegacyTransactionState} {unconfirmed : WalletUnconfirmedTransactions}

theorem Untouched.refl : Untouched cur age w w where
  actualBalance _ := rfl
  pendingBalance _ := rfl
  actualDepositBalance _ := rfl
  pendingDepositBalance _ := rfl
  usedOutputs _ := rfl
  deposits := rfl
  settled id transaction hid hfind := by
    rw [getElem?_eq_none hid] at hfind
    cases hfind

theorem Entered.untouched (h : Entered w w₁ hash state w.cache.unconfirmedTransactions)
    (hstate : state ≠ .sending) : Untouched cur age w w₁ := by
  obtain ⟨hcont, hdeposits, hunconf, transaction, htxs, -, rfl⟩ := h
  refine ⟨fun now => ?_, fun now => ?_, fun now => ?_, fun now => ?_, fun out => ?_, hdeposits, ?_⟩
  · rw [calculateActualBalance, calculateActualBalance, hcont, hunconf]
  · rw [calculatePendingBalance, calculatePendingBalance, hcont, hunconf]
  · rw [calculateActualDepositBalance, calculateActualDepositBalance, hcont, hunconf]
  · rw [calculatePendingDepositBalance, calculatePendingDepositBalance, hcont, hunconf]
  · rw [hunconf]
  · intro id other hid hfind
    rw [htxs, getElem?_append_right hid] at hfind
    rw [mem_singleton.mp (mem_of_getElem? hfind)]
    exact hstate

theorem modify_length_append {α : Type} (l : List α) (a : α) (f : α → α) :
    (l ++ [a]).modify l.length f = l ++ [f a] := by
  induction l with
  | nil => rfl
  | cons b l ih => simpa using ih

theorem Entered.failed (h : Entered w w₁ hash state unconfirmed) {completion : Completion}
    (hfailed : completion ≠ .success) :
    Entered w { w₁ with
      cache := w₁.cache.updateTransactionSendingState w.cache.transactions.length completion }
      hash completion.state (unconfirmed.erase hash) := by
  obtain ⟨hcont, hdeposits, hunconf, transaction, htxs, rfl, -⟩ := h
  refine ⟨hcont, hdeposits, ?_, { transaction with state := completion.state }, ?_, rfl, rfl⟩
  · cases completion <;> simp_all [updateTransactionSendingState]
  · simp [updateTransactionSendingState, modifyTransaction, htxs, modify_length_append]

end Entered

theorem erase_insert_of_notMem {α β : Type} [DecidableEq α] {entries : AList fun _ : α => β} {a : α}
    (h : a ∉ entries) (b : β) : (entries.insert a b).erase a = entries := by
  apply AList.ext
  change kerase a (AList.insert a b entries).entries = _
  rw [AList.entries_insert_of_notMem h]
  exact kerase_cons_eq rfl

variable {u : WalletUnconfirmedTransactions}

theorem erase_add {hash : Hash} (hnew : hash ∉ u.unconfirmedTxs)
    {outs : List TransactionOutputInformation} (hunused : ∀ out ∈ outs, u.isUsed out = false)
    (id : TransactionId) (amount now : Nat) : (u.add hash id amount now outs).erase hash = u := by
  have hprev : u.unconfirmedTxs.lookup hash = none := AList.lookup_eq_none.mpr hnew
  have hdisjoint : Disjoint u.usedOutputs (outs.map getOutputId).toFinset := by
    rw [Finset.disjoint_right]
    intro output houtput hused
    obtain ⟨out, hout, rfl⟩ := mem_map.mp (mem_toFinset.mp houtput)
    have hfree := hunused out hout
    simp [isUsed, hused] at hfree
  simp [add, erase, hprev, erase_insert_of_notMem hnew,
    Finset.union_sdiff_cancel_right hdisjoint]

theorem erase_of_unknown {hash : Hash} (hnew : hash ∉ u.unconfirmedTxs)
    (hspent : hash ∉ u.spentDeposits) : u.erase hash = u := by
  have herase : u.spentDeposits.erase hash = u.spentDeposits :=
    AList.ext (kerase_of_notMem_keys hspent)
  simp [erase, AList.lookup_eq_none.mpr hnew, herase]

/-- The new transaction was sent. -/
def Active (w w' : Wallet) : Prop :=
  (w'.cache.transactions[w.cache.transactions.length]?).map (·.state) = some .active

/-- If it throws, or ends without another request, the transaction was sent or nothing is left
behind. -/
def Settles (cur : Currency) (age : Nat) (w : Wallet) (o : Outcome Wallet (Option WalletRequest)) :
    Prop :=
  ∀ w', (o = .thrown w' → Untouched cur age w w') ∧
    (o = .done none w' → Active w w' ∨ Untouched cur age w w')

/-- The hashes of a step are not those of transactions that are unconfirmed. -/
def Fresh (w : Wallet) (unset : Hash) (step : SendingStep) : Prop :=
  ∀ hash ∈ unset :: step.construction.hash?.toList,
    hash ∉ w.cache.unconfirmedTransactions.unconfirmedTxs ∧
      hash ∉ w.cache.unconfirmedTransactions.spentDeposits

/-- The step in which the transaction of a request is built: at once, or when enough outputs to mix
with arrive. A wallet that is stopping does not come to it. -/
def building (w : Wallet) (step : SendingStep) (mixIn : Nat) (outs : Option Reply) :
    Option SendingStep :=
  if mixIn = 0 then if w.isStoping then none else some step
  else (outs.filter fun reply => !(w.isStoping || reply.stops || reply.answer.error) &&
    checkIfEnoughMixins reply.answer.outs mixIn).map Reply.step

/-- The construction of a payment or of a deposit. -/
def send (cur : Currency) (isMultisigTransaction : Bool) (step : SendingStep)
    (context : SendTransactionContext) : Program Wallet (Option WalletRequest) :=
  if isMultisigTransaction then doSendMultisigTransaction cur step context
  else doSendTransaction step context

section Outcomes

variable {cur : Currency} {age : Nat} {w w₁ : Wallet} {request : WalletRequest}
  {relay : Option Reply}

theorem settles_thrown : Settles cur age w (.thrown w₁) ↔ Untouched cur age w w₁ := by
  constructor
  · exact fun h => (h w₁).1 rfl
  · rintro h w'
    refine ⟨?_, nofun⟩
    rintro ⟨⟩
    exact h

theorem settles_done_none : Settles cur age w (.done none w₁) ↔
    Active w w₁ ∨ Untouched cur age w w₁ := by
  constructor
  · exact fun h => (h w₁).2 rfl
  · rintro h w'
    refine ⟨nofun, ?_⟩
    rintro ⟨⟩
    exact h

theorem settles_done_some : Settles cur age w (.done (some request) w₁) := fun _ => ⟨nofun, nofun⟩

/-- A new transaction is in the list, and is being sent. -/
def Sending (w : Wallet) (cache : WalletUserTransactionsCache) : Prop :=
  ∃ transaction, cache.transactions = w.cache.transactions ++ [transaction] ∧
    transaction.state = .sending

theorem Entered.sending {hash : Hash} {unconfirmed : WalletUnconfirmedTransactions}
    (h : Entered w w₁ hash .sending unconfirmed) : Sending w w₁.cache := by
  obtain ⟨-, -, -, transaction, htxs, -, hstate⟩ := h
  exact ⟨transaction, htxs, hstate⟩

theorem Sending.modifyTransaction {cache : WalletUserTransactionsCache} (h : Sending w cache)
    {f : WalletLegacyTransaction → WalletLegacyTransaction}
    (hf : ∀ transaction, (f transaction).state = transaction.state) :
    Sending w (cache.modifyTransaction w.cache.transactions.length f) := by
  obtain ⟨transaction, htxs, hstate⟩ := h
  refine ⟨f transaction, ?_, (hf transaction).trans hstate⟩
  rw [WalletUserTransactionsCache.modifyTransaction, htxs, modify_length_append]

/-- While the new transaction is being sent, the payment is neither done nor undone. -/
theorem not_untouched_of_sending (h : Sending w w₁.cache) :
    ¬(Active w w₁ ∨ Untouched cur age w w₁) := by
  obtain ⟨transaction, htxs, hstate⟩ := h
  have hfind : w₁.cache.transactions[w.cache.transactions.length]? = some transaction := by
    rw [htxs]
    exact getElem?_concat_length
  rintro (hactive | huntouched)
  · simp [Active, hfind, hstate] at hactive
  · exact huntouched.settled _ _ le_rfl hfind hstate

theorem active_iff_of_completion (h : Sending w w₁.cache) (completion : Completion) :
    Active w { w₁ with
      cache := w₁.cache.updateTransactionSendingState w.cache.transactions.length completion } ↔
        completion = .success := by
  obtain ⟨transaction, htxs, -⟩ := h
  cases completion <;>
    simp [Active, updateTransactionSendingState,
      WalletUserTransactionsCache.modifyTransaction, htxs, Completion.state]

theorem awaitRelay_some {reply : Reply} (hkind : ∀ b context, request ≠ .getRandomOuts b context) :
    awaitRelay cur (some reply) (some request) w₁ = receive cur (some reply) request w₁ := by
  cases request with
  | getRandomOuts b context => exact absurd rfl (hkind b context)
  | _ => rfl

/-- The callback of a transaction that was relayed does nothing while the wallet is stopping. -/
theorem receive_relay {reply : Reply} (hrunning : w₁.isStoping = false)
    (hkind : ∀ b context, request ≠ .getRandomOuts b context) :
    receive cur (some reply) request w₁ =
      if reply.stops then .done none { w₁ with isStoping := true }
      else .done none { w₁ with
        cache := w₁.cache.updateTransactionSendingState request.context.transactionId
          (if reply.answer.error then .failed else .success) } := by
  obtain ⟨cache, container, isStoping⟩ := w₁
  obtain rfl : isStoping = false := hrunning
  cases request with
  | getRandomOuts b context => exact absurd rfl (hkind b context)
  | _ =>
    rw [receive]
    cases reply.stops <;> rfl

/-- A transaction that was handed to the node settles unless its answer comes while the wallet is
stopping, or the node refuses it and something stays. -/
theorem settles_relayed (hrunning : w₁.isStoping = false)
    (hkind : ∀ b context, request ≠ .getRandomOuts b context)
    (hid : request.context.transactionId = w.cache.transactions.length)
    (hsending : Sending w w₁.cache) :
    Settles cur age w ((Outcome.done (some request) w₁).andThen (awaitRelay cur relay)) ↔
      ∀ reply ∈ relay, reply.stops = false ∧
      (reply.answer.error = true → Untouched cur age w { w₁ with
        cache := w₁.cache.updateTransactionSendingState w.cache.transactions.length .failed }) := by
  rw [Outcome.andThen_done]
  cases relay with
  | none =>
    have hpending : awaitRelay cur none (some request) w₁ = .done (some request) w₁ := by
      cases request <;> rfl
    rw [hpending]
    exact iff_of_true settles_done_some (by simp)
  | some reply =>
    have hreceive : awaitRelay cur (some reply) (some request) w₁ = _ :=
      (awaitRelay_some hkind).trans (receive_relay hrunning hkind)
    rw [hreceive, hid]
    simp only [Option.mem_some_iff, forall_eq']
    split
    · rename_i hstops
      rw [settles_done_none]
      refine ⟨fun h => absurd h (not_untouched_of_sending hsending), fun h => ?_⟩
      rw [hstops] at h
      cases h.1
    · rename_i hstops
      rw [settles_done_none, active_iff_of_completion hsending]
      cases reply.answer.error with
      | true => simp [hstops]
      | false => simp [hstops]

end Outcomes

section Attempts

variable {cur : Currency} {age : Nat} {w w₁ : Wallet} {step : SendingStep}
  {context : SendTransactionContext} {unset : Hash} {outs relay : Option Reply} {b : Bool}

/-- A failure undoes what was recorded under the hash of the transaction. -/
theorem Entered.untouched_of_failed {hash : Hash} {unconfirmed : WalletUnconfirmedTransactions}
    (h : Entered w w₁ hash .sending unconfirmed)
    (herase : unconfirmed.erase hash = w.cache.unconfirmedTransactions) {completion : Completion}
    (hfailed : completion ≠ .success) : Untouched cur age w { w₁ with
      cache := w₁.cache.updateTransactionSendingState w.cache.transactions.length completion } := by
  have hafter := h.failed hfailed
  rw [herase] at hafter
  exact hafter.untouched (by cases completion <;> decide)

theorem send_awaitOuts : (send cur b step context w₁).andThen (awaitOuts cur outs) =
    send cur b step context w₁ := by
  cases b with
  | false =>
    rw [send, if_neg Bool.false_ne_true, doSendTransaction, get_bind_run]
    split
    · rfl
    · cases step.construction <;> cases w₁.cache.transactions[context.transactionId]? <;> rfl
  | true =>
    rw [send, if_pos rfl, doSendMultisigTransaction, get_bind_run]
    split
    · rfl
    · cases step.construction <;> cases w₁.cache.transactions[context.transactionId]? <;> rfl

theorem send_of_stopping (hstoping : w₁.isStoping = true) : send cur b step context w₁ =
    .done none { w₁ with
    cache := w₁.cache.updateTransactionSendingState context.transactionId .cancelled } := by
  unfold send doSendTransaction doSendMultisigTransaction
  cases b <;> simp only [get_bind_run, Bool.false_eq_true, if_true, if_false, if_pos hstoping] <;>
    rfl

theorem receive_getRandomOuts (reply : Reply) :
    receive cur (some reply) (.getRandomOuts b context) w₁ =
      (if w₁.isStoping || reply.stops then do
        makeCompleteEvent context.transactionId .cancelled
        pure none
      else if reply.answer.error || !checkIfEnoughMixins reply.answer.outs context.mixIn then do
        makeCompleteEvent context.transactionId .failed
        pure none
      else send cur b reply.step context : Program Wallet (Option WalletRequest))
        { w₁ with isStoping := w₁.isStoping || reply.stops } := rfl

theorem Entered.settles_of_failed (h : Entered w w₁ unset .sending w.cache.unconfirmedTransactions)
    (hunset : unset ∉ w.cache.unconfirmedTransactions.unconfirmedTxs)
    (hspent : unset ∉ w.cache.unconfirmedTransactions.spentDeposits) {completion : Completion}
    (hfailed : completion ≠ .success) : Settles cur age w ((Outcome.done none { w₁ with
      cache := w₁.cache.updateTransactionSendingState w.cache.transactions.length completion
      }).andThen (awaitRelay cur relay)) :=
  settles_done_none.mpr (.inr (h.untouched_of_failed (erase_of_unknown hunset hspent) hfailed))

section Entered

variable (h : Entered w w₁ unset .sending w.cache.unconfirmedTransactions)
  (hunset : unset ∉ w.cache.unconfirmedTransactions.unconfirmedTxs)
  (hspent : unset ∉ w.cache.unconfirmedTransactions.spentDeposits)
  (hid : context.transactionId = w.cache.transactions.length)
include h hunset hspent hid

theorem settles_doSendTransaction (hrunning : w₁.isStoping = false)
    (hunused : ∀ out ∈ context.selectedTransfers,
      w.cache.unconfirmedTransactions.isUsed out = false) (hnew : ∀ hash ∈ step.construction.hash?,
      hash ∉ w.cache.unconfirmedTransactions.unconfirmedTxs) :
    Settles cur age w ((doSendTransaction step context w₁).andThen (awaitRelay cur relay)) ↔
      ∀ hash, step.construction = .built hash → ∀ reply ∈ relay, reply.stops = false := by
  have hfails := @Entered.settles_of_failed cur age _ _ _ relay h hunset hspent .failed (by decide)
  obtain ⟨hcont, hdeposits, hunconf, transaction, htxs, -, hstate⟩ := h
  have hfind : w₁.cache.transactions[w.cache.transactions.length]? = some transaction := by
    rw [htxs]
    exact getElem?_concat_length
  unfold doSendTransaction
  rw [get_bind_run, hid, if_neg (by simp [hrunning])]
  cases hbuilt : step.construction with
  | failed => exact iff_of_true hfails (by simp)
  | tooBig hash => exact iff_of_true hfails (by simp)
  | built hash =>
    rw [hfind]
    -- the outputs are reserved under the new hash
    have hreserved : Entered w { w₁ with
        cache := (w₁.cache.modifyTransaction w.cache.transactions.length fun transaction =>
          { transaction with hash }).updateTransaction w.cache.transactions.length hash
            (-transaction.totalAmount % word64).toNat step.now context.selectedTransfers }
              hash .sending
        (w.cache.unconfirmedTransactions.add hash w.cache.transactions.length
          (-transaction.totalAmount % word64).toNat step.now context.selectedTransfers) :=
      ⟨hcont, hdeposits, congrArg (add hash _ _ step.now context.selectedTransfers) hunconf,
        { transaction with hash }, by
          simp [modifyTransaction, updateTransaction, htxs, modify_length_append], rfl, hstate⟩
    have huntouched : Untouched cur age w _ := hreserved.untouched_of_failed
      (erase_add (hnew hash (by rw [hbuilt]; rfl)) hunused _ _ _)
      (by decide : Completion.failed ≠ .success)
    refine (settles_relayed ?_ ?_ ?_ hreserved.sending).trans ?_
    · exact hrunning
    · intro _ _ h
      cases h
    · exact hid
    · exact ⟨fun hall _ _ reply hreply => (hall reply hreply).1,
        fun hall reply hreply => ⟨hall hash rfl reply hreply, fun _ => huntouched⟩⟩

/-- A deposit is entered before the size is looked at, and it stays when the transaction fails. -/
theorem settles_doSendMultisigTransaction (hrunning : w₁.isStoping = false) :
    Settles cur age w ((doSendMultisigTransaction cur step context w₁).andThen
      (awaitRelay cur relay)) ↔
      (∀ hash, step.construction ≠ .tooBig hash) ∧ ∀ hash, step.construction = .built hash →
        ∀ reply ∈ relay, reply.stops = false ∧ reply.answer.error = false := by
  have hfails := @Entered.settles_of_failed cur age _ _ _ relay h hunset hspent .failed (by decide)
  obtain ⟨-, hdeposits, -, transaction, htxs, -, hstate⟩ := h
  have hfind : w₁.cache.transactions[w.cache.transactions.length]? = some transaction := by
    rw [htxs]
    exact getElem?_concat_length
  have hstays {w' : Wallet} {deposit : Deposit}
      (h : w'.cache.deposits = w₁.cache.deposits ++ [deposit]) : ¬Untouched cur age w w' := by
    intro huntouched
    have hlength := congrArg length (h.symm.trans huntouched.deposits)
    rw [hdeposits, length_append] at hlength
    exact absurd hlength (Nat.succ_ne_self _)
  have hmarked (hash : Hash) (deposit : Deposit) : Sending w
      (((w₁.cache.modifyTransaction w.cache.transactions.length fun transaction =>
        { transaction with hash }).insertDeposit deposit hash).modifyTransaction
          w.cache.transactions.length fun transaction => { transaction with
              firstDepositId := some w₁.cache.deposits.length, depositCount := 1 }) := by
    have hsending : Sending w w₁.cache := ⟨transaction, htxs, hstate⟩
    obtain ⟨sent, hsent⟩ := hsending.modifyTransaction
      (f := fun transaction => { transaction with hash }) fun _ => rfl
    exact Sending.modifyTransaction ⟨sent, hsent⟩ fun _ => rfl
  unfold doSendMultisigTransaction
  rw [get_bind_run, hid, if_neg (by simp [hrunning])]
  cases hbuilt : step.construction with
  | failed => exact iff_of_true hfails (by simp)
  | tooBig hash =>
    rw [hfind]
    refine ⟨fun hsettles => ?_, fun hall => absurd rfl (hall.1 hash)⟩
    rcases settles_done_none.mp hsettles with hactive | huntouched
    · cases (active_iff_of_completion (hmarked hash _) .failed).mp hactive
    · exact absurd huntouched (hstays rfl)
  | built hash =>
    rw [hfind]
    refine (settles_relayed ?_ ?_ ?_ (hmarked hash _)).trans ?_
    · exact hrunning
    · intro _ _ h
      cases h
    · exact hid
    · refine ⟨fun hall => ⟨nofun, fun _ _ reply hreply => ⟨(hall reply hreply).1, ?_⟩⟩,
        fun hall reply hreply => ?_⟩
      · exact eq_false_of_ne_true fun herror => hstays rfl ((hall reply hreply).2 herror)
      · obtain ⟨hstops, herror⟩ := hall.2 hash rfl reply hreply
        exact ⟨hstops, fun hrefused => absurd (herror.symm.trans hrefused) nofun⟩

/-- A request that entered its transaction settles if the construction does to which it comes. -/
theorem settles_entered {C : SendingStep → Prop} (hstoping : w₁.isStoping = w.isStoping)
    (hsend : ∀ s ∈ w.building step context.mixIn outs, ∀ w₂,
      Entered w w₂ unset .sending w.cache.unconfirmedTransactions → w₂.isStoping = false →
        (Settles cur age w ((send cur b s context w₂).andThen (awaitRelay cur relay)) ↔ C s)) :
    Settles cur age w ((Outcome.andThen
      ((if context.mixIn ≠ 0 then pure (some (.getRandomOuts b context))
        else send cur b step context : Program Wallet (Option WalletRequest)) w₁)
      (awaitOuts cur outs)).andThen (awaitRelay cur relay)) ↔
      ∀ s ∈ w.building step context.mixIn outs, C s := by
  have hfails := @Entered.settles_of_failed cur age _ _ _ relay h hunset hspent
  unfold building at hsend ⊢
  split at hsend
  · rename_i hmix
    rw [if_neg (not_not.mpr hmix), if_pos hmix, send_awaitOuts]
    split at hsend
    · rename_i hstops
      rw [send_of_stopping (hstoping.trans hstops), hid, if_pos hstops]
      exact iff_of_true (hfails (by decide)) (by simp)
    · rename_i hstops
      rw [hsend step rfl w₁ h (hstoping.trans (eq_false_of_ne_true hstops)), if_neg hstops]
      simp
  · rename_i hmix
    rw [if_pos hmix, if_neg hmix]
    cases outs with
    | none => exact iff_of_true settles_done_some (by simp)
    | some reply =>
      have hstopped : Entered w { w₁ with isStoping := w₁.isStoping || reply.stops } unset .sending
        w.cache.unconfirmedTransactions := ⟨h.container, h.deposits, h.unconfirmed, h.transactions⟩
      have hfails := @Entered.settles_of_failed cur age _ _ _ relay hstopped hunset hspent
      change Settles cur age w
        ((receive cur (some reply) (.getRandomOuts b context) w₁).andThen _) ↔ _
      rw [receive_getRandomOuts, hid]
      rw [← hstoping, Option.filter_some] at hsend ⊢
      by_cases hstops : (w₁.isStoping || reply.stops) = true
      · rw [if_pos hstops, if_neg (by simp [hstops])]
        exact iff_of_true (hfails (by decide)) (by simp)
      by_cases hanswer :
        (reply.answer.error || !checkIfEnoughMixins reply.answer.outs context.mixIn) = true
      · rw [if_neg hstops, if_pos hanswer, if_neg (by grind)]
        exact iff_of_true (hfails (by decide)) (by simp)
      · have hbuilds : (!(w₁.isStoping || reply.stops || reply.answer.error) &&
            checkIfEnoughMixins reply.answer.outs context.mixIn) = true := by grind
        rw [if_pos hbuilds] at hsend ⊢
        rw [if_neg hstops, if_neg hanswer,
          hsend reply.step rfl _ hstopped (eq_false_of_ne_true hstops)]
        simp

end Entered

end Attempts

theorem entered_addNewTransaction (w : Wallet) (unset : Hash) (amount fee : Nat) :
    Entered w { w with cache := w.cache.addNewTransaction unset amount fee } unset .sending
      w.cache.unconfirmedTransactions :=
  ⟨rfl, rfl, rfl, _, rfl, rfl, rfl⟩

section Requests

variable (cur : Currency) (age : Nat) (parses : String → Bool) (step : SendingStep) (w : Wallet)

/-- A payment passes what is checked before its transaction is entered. -/
def EntersPayment (transfers : List WalletLegacyTransfer) (fee mixIn : Nat) : Prop :=
  transfers ≠ [] ∧ (∀ transfer ∈ transfers, parses transfer.address) ∧
    ∃ neededMoney, countNeededMoney fee transfers = some neededMoney ∧
      neededMoney ≤ (w.selectTransfersToSend cur age neededMoney (mixIn == 0) step).1

/-- A deposit passes what is checked before its transaction is entered. -/
def EntersDeposit (term amount fee mixIn : Nat) : Prop :=
  cur.depositMinTerm ≤ term ∧ term ≤ cur.depositMaxTerm ∧ cur.depositMinAmount ≤ amount ∧
    fee ≤ word64 - 1 - amount ∧
    amount + fee ≤ (w.selectTransfersToSend cur age (amount + fee) (mixIn == 0) step).1

/-- A withdrawal passes what is checked before its transaction is entered. -/
def EntersWithdrawal (depositIds : List DepositId) (fee : Nat) : Prop :=
  ∃ foundMoney selected, selectDepositTransfers cur age step.now depositIds 0 [] w =
    .done (foundMoney, selected) w ∧ fee ≤ foundMoney

/-- The deposits, marked as spent by the new transaction, are as before. -/
def Unmarked (depositIds : List DepositId) : Prop :=
  (w.cache.setSpendingTransactionToDeposits w.cache.transactions.length depositIds).deposits =
    w.cache.deposits

variable {cur age parses step w} {outs relay : Option Reply}

theorem settles_of_thrown {request : Program Wallet (Option WalletRequest)}
    (h : request w = .thrown w) : Settles cur age w (attempt cur request outs relay w) := by
  rw [attempt, bind_run, bind_run, h]
  exact settles_thrown.mpr .refl

theorem fresh_of_building {unset : Hash} {mixIn : Nat} (hfresh : Fresh w unset step)
    (houts : ∀ reply ∈ outs, Fresh w unset reply.step) {s : SendingStep}
    (hs : s ∈ w.building step mixIn outs) : Fresh w unset s := by
  unfold building at hs
  split at hs
  · split at hs
    · cases hs
    · cases hs
      exact hfresh
  · obtain ⟨reply, hreply, rfl⟩ := Option.map_eq_some_iff.mp hs
    exact houts reply (Option.filter_eq_some_iff.mp hreply).1

section

variable (hfresh : Fresh w step.unsetHash step)
  (houts : ∀ reply ∈ outs, Fresh w step.unsetHash reply.step)
include hfresh houts

/-- A payment that is entered settles if its message addresses parse and no stop intervenes. -/
theorem settles_makeSendRequest (transfers : List WalletLegacyTransfer) (fee mixIn : Nat)
    (messageAddresses : List String) : Settles cur age w
      (attempt cur (makeSendRequest cur age parses step transfers fee mixIn messageAddresses)
        outs relay w) ↔
    (EntersPayment cur age parses step w transfers fee mixIn → messageAddresses.all parses ∧
      ∀ s ∈ w.building step mixIn outs, ∀ hash, s.construction = .built hash →
        ∀ reply ∈ relay, reply.stops = false) := by
  by_cases henters : EntersPayment cur age parses step w transfers fee mixIn
  swap
  · have hthrown : makeSendRequest cur age parses step transfers fee mixIn messageAddresses w =
        .thrown w := by
      unfold makeSendRequest
      split
      · rfl
      rename_i hchecks
      obtain ⟨hsome, hparses⟩ : transfers ≠ [] ∧ ∀ transfer ∈ transfers,
          parses transfer.address := by
        simpa using hchecks
      cases hneeded : countNeededMoney fee transfers with
      | none => rfl
      | some neededMoney =>
        dsimp only
        rw [get_bind_run, if_pos]
        · rfl
        by_contra hfound
        exact henters ⟨hsome, hparses, neededMoney, hneeded, Nat.le_of_not_lt hfound⟩
    exact ⟨fun _ h => absurd h henters, fun _ => settles_of_thrown hthrown⟩
  rw [forall_prop_of_true henters]
  obtain ⟨hsome, hparses, neededMoney, hneeded, hfound⟩ := henters
  let context : SendTransactionContext := ⟨w.cache.transactions.length,
    (w.selectTransfersToSend cur age neededMoney (mixIn == 0) step).1, mixIn, 0,
    (w.selectTransfersToSend cur age neededMoney (mixIn == 0) step).2⟩
  let w₁ : Wallet := { w with cache := w.cache.addNewTransaction step.unsetHash neededMoney fee }
  have hentered : Entered w w₁ step.unsetHash .sending w.cache.unconfirmedTransactions :=
    entered_addNewTransaction w step.unsetHash neededMoney fee
  have hrun : makeSendRequest cur age parses step transfers fee mixIn messageAddresses w =
      (if !messageAddresses.all parses then Program.throw
        else if context.mixIn ≠ 0 then pure (some (.getRandomOuts false context))
        else send cur false step context : Program Wallet (Option WalletRequest)) w₁ := by
    unfold makeSendRequest
    rw [if_neg (by simpa [hsome] using hparses), hneeded]
    dsimp only
    rw [get_bind_run, if_neg (Nat.not_lt.mpr hfound)]
    rfl
  rw [attempt, bind_run, bind_run, hrun]
  cases hall : messageAddresses.all parses with
  | false =>
    -- the transaction is in the list when the request throws
    refine ⟨fun hsettles => ?_, fun h => absurd h.1 Bool.false_ne_true⟩
    exact absurd (.inr (settles_thrown.mp hsettles)) (not_untouched_of_sending hentered.sending)
  | true =>
    obtain ⟨hunset, hspent⟩ := hfresh _ mem_cons_self
    refine (settles_entered hentered hunset hspent rfl rfl fun s hs w₂ hw₂ hrunning => ?_).trans
      (and_iff_right rfl).symm
    have hnew := fresh_of_building hfresh houts hs
    exact settles_doSendTransaction hw₂ hunset hspent rfl hrunning isUsed_of_selectTransfersToSend
      fun hash hhash => (hnew hash (mem_cons_of_mem _ (Option.mem_toList.mpr hhash))).1

omit houts in
theorem settles_makeDepositRequest (term amount fee mixIn : Nat) : Settles cur age w
      (attempt cur (makeDepositRequest cur age step term amount fee mixIn) outs relay w) ↔
    (EntersDeposit cur age step w term amount fee mixIn → ∀ s ∈ w.building step mixIn outs,
      (∀ hash, s.construction ≠ .tooBig hash) ∧ ∀ hash, s.construction = .built hash →
        ∀ reply ∈ relay, reply.stops = false ∧ reply.answer.error = false) := by
  by_cases henters : EntersDeposit cur age step w term amount fee mixIn
  swap
  · have hthrown : makeDepositRequest cur age step term amount fee mixIn w = .thrown w := by
      unfold makeDepositRequest
      split
      · rfl
      rename_i hchecks
      dsimp only
      rw [get_bind_run, if_pos]
      · rfl
      by_contra hfound
      simp only [not_or, Nat.not_lt] at hchecks hfound
      exact henters ⟨hchecks.1, hchecks.2.1, hchecks.2.2.1, hchecks.2.2.2, hfound⟩
    exact ⟨fun _ h => absurd h henters, fun _ => settles_of_thrown hthrown⟩
  rw [forall_prop_of_true henters]
  obtain ⟨hmin, hmax, hleast, hfee, hfound⟩ := henters
  let context : SendTransactionContext := ⟨w.cache.transactions.length,
    (w.selectTransfersToSend cur age (amount + fee) (mixIn == 0) step).1, mixIn, term,
    (w.selectTransfersToSend cur age (amount + fee) (mixIn == 0) step).2⟩
  have hrun : makeDepositRequest cur age step term amount fee mixIn w =
      (if context.mixIn ≠ 0 then pure (some (.getRandomOuts true context))
        else send cur true step context : Program Wallet (Option WalletRequest))
        { w with cache := w.cache.addNewTransaction step.unsetHash (amount + fee) fee } := by
    unfold makeDepositRequest
    rw [if_neg (by simp only [not_or, Nat.not_lt]; exact ⟨hmin, hmax, hleast, hfee⟩)]
    dsimp only
    rw [get_bind_run, if_neg (Nat.not_lt.mpr hfound)]
    rfl
  rw [attempt, bind_run, bind_run, hrun]
  obtain ⟨hunset, hspent⟩ := hfresh _ mem_cons_self
  exact settles_entered (entered_addNewTransaction w step.unsetHash (amount + fee) fee) hunset
    hspent rfl rfl
    fun s _ w₂ hw₂ hrunning => settles_doSendMultisigTransaction hw₂ hunset hspent rfl hrunning

end

section Withdrawal

variable {depositIds : List DepositId} {context : SendTransactionContext} {w₂ : Wallet}
  {hash : Hash} {unconfirmed : WalletUnconfirmedTransactions}

/-- The wallet with the deposits marked as spent by the next transaction. -/
def marked (w : Wallet) (depositIds : List DepositId) : Wallet :=
  { w with
    cache := w.cache.setSpendingTransactionToDeposits w.cache.transactions.length depositIds }

theorem untouched_marked {w' : Wallet} (h : Untouched cur age (w.marked depositIds) w') :
    Untouched cur age w w' ↔ w.Unmarked depositIds := by
  refine ⟨fun hunmarked => h.deposits.symm.trans hunmarked.deposits, fun hunmarked => ?_⟩
  exact ⟨h.actualBalance, h.pendingBalance, h.actualDepositBalance, h.pendingDepositBalance,
    h.usedOutputs, h.deposits.trans hunmarked, h.settled⟩

theorem Entered.untouched_failed (h : Entered (w.marked depositIds) w₂ hash .sending unconfirmed)
    (herase : unconfirmed.erase hash = w.cache.unconfirmedTransactions) (completion : Completion)
    (hfailed : completion ≠ .success) :
    Untouched cur age w { w₂ with
      cache := w₂.cache.updateTransactionSendingState w.cache.transactions.length completion } ↔
        w.Unmarked depositIds :=
  untouched_marked (h.untouched_of_failed herase hfailed)

theorem Entered.settles_failed (h : Entered (w.marked depositIds) w₂ hash .sending unconfirmed)
    (herase : unconfirmed.erase hash = w.cache.unconfirmedTransactions) (completion : Completion)
    (hfailed : completion ≠ .success) :
    Settles cur age w ((Outcome.done none { w₂ with
      cache := w₂.cache.updateTransactionSendingState w.cache.transactions.length completion
      }).andThen (awaitRelay cur relay)) ↔ w.Unmarked depositIds := by
  have hsending : Sending w w₂.cache := h.sending
  refine settles_done_none.trans ?_
  rw [active_iff_of_completion hsending, h.untouched_failed herase completion hfailed,
    or_iff_right hfailed]

theorem erase_addDepositSpendingTransaction {u : WalletUnconfirmedTransactions}
    (hnew : hash ∉ u.unconfirmedTxs)
    (hspent : hash ∉ u.spentDeposits) (details : UnconfirmedSpentDepositDetails) :
    (u.addDepositSpendingTransaction hash details).erase hash = u := by
  simp [addDepositSpendingTransaction, erase, hspent, AList.lookup_eq_none.mpr hnew,
    erase_insert_of_notMem hspent]

theorem doSendDepositWithdrawTransaction_awaitOuts :
    (doSendDepositWithdrawTransaction step context depositIds w₂).andThen (awaitOuts cur outs) =
      doSendDepositWithdrawTransaction step context depositIds w₂ := by
  unfold doSendDepositWithdrawTransaction
  rw [get_bind_run]
  split
  · rfl
  · cases step.construction <;> cases w₂.cache.transactions[context.transactionId]? <;> rfl

/-- A withdrawal that is entered and not sent leaves its marks. -/
theorem settles_makeWithdrawDepositRequest (hfresh : Fresh w step.unsetHash step) (fee : Nat) :
    Settles cur age w
    (attempt cur (makeWithdrawDepositRequest cur age step depositIds fee) outs relay w) ↔
      (EntersWithdrawal cur age step w depositIds fee →
        (w.isStoping = false → ∀ hash, step.construction = .built hash →
          ∀ reply ∈ relay, reply.stops = false) ∧
        (w.Unmarked depositIds ∨ w.isStoping = false ∧ (∃ hash, step.construction = .built hash) ∧
          ∀ reply ∈ relay, reply.answer.error = false)) := by
  by_cases henters : EntersWithdrawal cur age step w depositIds fee
  swap
  · refine ⟨fun _ h => absurd h henters, fun _ => ?_⟩
    rcases selectDepositTransfers_cases cur age step.now w depositIds 0 [] with
      ⟨⟨foundMoney, selected⟩, hselect⟩ | hselect | hselect
    · have hless : foundMoney < fee := by
        by_contra hfound
        exact henters ⟨foundMoney, selected, hselect, Nat.le_of_not_lt hfound⟩
      refine settles_of_thrown ?_
      rw [makeWithdrawDepositRequest, bind_run, hselect, Outcome.andThen_done]
      exact congrFun (if_pos hless) w
    · refine settles_of_thrown ?_
      rw [makeWithdrawDepositRequest, bind_run, hselect]
      rfl
    · rw [attempt, bind_run, bind_run, makeWithdrawDepositRequest, bind_run, hselect]
      exact fun _ => ⟨nofun, nofun⟩
  rw [forall_prop_of_true henters]
  obtain ⟨foundMoney, selected, hselect, hfee⟩ := henters
  let context : SendTransactionContext := ⟨w.cache.transactions.length, foundMoney, 0, 0, selected⟩
  let w₁ : Wallet := { w with
    cache := (w.cache.addNewTransaction step.unsetHash foundMoney
      fee).setSpendingTransactionToDeposits w.cache.transactions.length depositIds }
  have hentered : Entered (w.marked depositIds) w₁ step.unsetHash .sending
      w.cache.unconfirmedTransactions :=
    ⟨rfl, rfl, rfl, _, rfl, rfl, rfl⟩
  have hrun : makeWithdrawDepositRequest cur age step depositIds fee w =
      doSendDepositWithdrawTransaction step context depositIds w₁ := by
    rw [makeWithdrawDepositRequest, bind_run, hselect, Outcome.andThen_done]
    exact congrFun (if_neg (Nat.not_lt.mpr hfee)) w
  rw [attempt, bind_run, bind_run, hrun, doSendDepositWithdrawTransaction_awaitOuts]
  obtain ⟨hunset, hspent⟩ := hfresh _ mem_cons_self
  have hfails := @Entered.settles_failed cur age _ relay _ _ _ _ hentered
    (erase_of_unknown hunset hspent)
  unfold doSendDepositWithdrawTransaction
  rw [get_bind_run]
  split
  · rename_i hstops
    have hstops : w.isStoping = true := hstops
    rw [hstops]
    refine (hfails .cancelled (by decide)).trans ?_
    simp
  rename_i hstops
  have hrunning : w.isStoping = false := eq_false_of_ne_true hstops
  have hfind : w₁.cache.transactions[context.transactionId]? =
    some ⟨none, 0, -(foundMoney : Int).bmod word64, fee, step.unsetHash, .sending⟩ :=
      getElem?_concat_length
  rw [hrunning]
  cases hbuilt : step.construction with
  | failed =>
    refine (hfails .failed (by decide)).trans ?_
    simp
  | tooBig hash =>
    obtain ⟨hnew, hunspent⟩ := hfresh hash (by simp [hbuilt, Construction.hash?])
    have hnamed : Entered (w.marked depositIds) { w₁ with
        cache := w₁.cache.modifyTransaction w.cache.transactions.length fun transaction =>
          { transaction with hash } } hash .sending w.cache.unconfirmedTransactions :=
      ⟨rfl, rfl, rfl, _, modify_length_append _ _ _, rfl, rfl⟩
    refine (hnamed.settles_failed (erase_of_unknown hnew hunspent) .failed (by decide)).trans ?_
    simp
  | built hash =>
    rw [hfind]
    obtain ⟨hnew, hunspent⟩ := hfresh hash (by simp [hbuilt, Construction.hash?])
    have hreserved (details : UnconfirmedSpentDepositDetails) :
        Entered (w.marked depositIds) { w₁ with
        cache := { w₁.cache.modifyTransaction w.cache.transactions.length fun transaction =>
          { transaction with hash } with
            unconfirmedTransactions :=
              w.cache.unconfirmedTransactions.addDepositSpendingTransaction hash details } }
        hash .sending
          (w.cache.unconfirmedTransactions.addDepositSpendingTransaction hash details) :=
      ⟨rfl, rfl, rfl, _, modify_length_append _ _ _, rfl, rfl⟩
    refine (settles_relayed ?_ ?_ ?_ ?_).trans ?_
    · exact hrunning
    · intro _ _ h
      cases h
    · rfl
    · exact ⟨_, modify_length_append _ _ _, rfl⟩
    · have hrefused (details : UnconfirmedSpentDepositDetails) :=
        @Entered.untouched_failed cur age _ _ _ _ _ (hreserved details)
          (erase_addDepositSpendingTransaction hnew hunspent details) .failed (by decide)
      refine (forall₂_congr fun reply _ =>
        and_congr_right' (imp_congr_right fun _ => hrefused _)).trans ?_
      cases relay with
      | none => simp
      | some reply => cases herror : reply.answer.error <;> simp [herror]

end Withdrawal

end Requests

/-- What a request that fails leaves behind. A payment leaves nothing, unless a message address does
not parse or the wallet stops while the node has the transaction. A deposit that is built stays
unless it is sent, and a withdrawal leaves its mark on the deposits unless it is sent. -/
theorem failed_payment_untouched (cur : Currency) (age : Nat) (parses : String → Bool) {w : Wallet}
    {step : SendingStep} {outs relay : Option Reply} (hfresh : Fresh w step.unsetHash step)
    (houts : ∀ reply ∈ outs, Fresh w step.unsetHash reply.step) :
    (∀ (transfers : List WalletLegacyTransfer) (fee mixIn : Nat) (messageAddresses : List String),
      Settles cur age w
        (attempt cur (makeSendRequest cur age parses step transfers fee mixIn messageAddresses)
          outs relay w) ↔
      (EntersPayment cur age parses step w transfers fee mixIn → messageAddresses.all parses ∧
        ∀ s ∈ w.building step mixIn outs, ∀ hash, s.construction = .built hash →
          ∀ reply ∈ relay, reply.stops = false)) ∧
    (∀ term amount fee mixIn : Nat,
      Settles cur age w
      (attempt cur (makeDepositRequest cur age step term amount fee mixIn) outs relay w) ↔
      (EntersDeposit cur age step w term amount fee mixIn → ∀ s ∈ w.building step mixIn outs,
        (∀ hash, s.construction ≠ .tooBig hash) ∧ ∀ hash, s.construction = .built hash →
          ∀ reply ∈ relay, reply.stops = false ∧ reply.answer.error = false)) ∧
    ∀ (depositIds : List DepositId) (fee : Nat),
      Settles cur age w
      (attempt cur (makeWithdrawDepositRequest cur age step depositIds fee) outs relay w) ↔
      (EntersWithdrawal cur age step w depositIds fee →
        (w.isStoping = false → ∀ hash, step.construction = .built hash →
          ∀ reply ∈ relay, reply.stops = false) ∧
        (w.Unmarked depositIds ∨ w.isStoping = false ∧ (∃ hash, step.construction = .built hash) ∧
          ∀ reply ∈ relay, reply.answer.error = false)) :=
  ⟨settles_makeSendRequest hfresh houts, settles_makeDepositRequest hfresh,
    fun _ => settles_makeWithdrawDepositRequest hfresh⟩

/-- The node refuses a transaction. -/
def refusal : Reply := ⟨⟨0, .failed, fun _ => 0, 0⟩, ⟨true, []⟩, false⟩

/-- A payment that the node refuses, from a wallet with one output. -/
def refusedPayment : Outcome Wallet (Option WalletRequest) :=
  attempt .mainnet (makeSendRequest .mainnet 6 (fun _ => true) ⟨0, .built 5, fun _ => 0, 0⟩
    [⟨"", 50⟩] 1 0 []) none (some refusal) (treasury 500)

theorem failed_payment_untouched_refused :
    ∃ w', refusedPayment = .done none w' ∧ Untouched .mainnet 6 (treasury 500) w' := by
  obtain ⟨w', hrun, hstate⟩ : ∃ w', refusedPayment = .done none w' ∧
      (w'.cache.transactions[0]?).map (·.state) = some .failed := ⟨_, rfl, rfl⟩
  refine ⟨w', hrun, ?_⟩
  obtain ⟨hsend, -⟩ := @failed_payment_untouched .mainnet 6 (fun _ => true) (treasury 500)
    ⟨0, .built 5, fun _ => 0, 0⟩ none (some refusal) (fun _ _ => ⟨nofun, nofun⟩) nofun
  refine (((hsend _ _ _ _).mpr ?_ w').2 hrun).resolve_left fun hactive => ?_
  · rintro -
    refine ⟨rfl, fun _ _ _ _ reply hreply => ?_⟩
    cases hreply
    rfl
  · exact absurd (hactive.symm.trans hstate) nofun

/-- A deposit that the node refuses stays in the list of deposits. -/
theorem refused_deposit_stays :
    ∃ w', attempt .mainnet (makeDepositRequest .mainnet 6 ⟨0, .built 5, fun _ => 0, 0⟩ 11000
      (150 * Currency.coin)
        100000 0) none (some refusal) (treasury (200 * Currency.coin)) = .done none w' ∧
      (treasury (200 * Currency.coin)).cache.deposits = [] ∧
      (w'.cache.transactions[0]?).map (·.state) = some .failed ∧ w'.cache.deposits.length = 1 := by
  exact ⟨_, rfl, rfl, rfl, rfl⟩

end Wallet

end DarknetCoin
