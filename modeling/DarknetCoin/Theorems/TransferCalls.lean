import DarknetCoin.Theorems.SoundLedger
import DarknetCoin.Theorems.UnlockJobs

/-!
# Undone blocks and failed calls

A detach removes the transactions of the blocks that are undone, but not those with messages. A call
that adds or confirms a transaction throws at the first output or input that does not fit; what it
did for the ones before stays done.
-/

namespace DarknetCoin

open Semantics Data Program List Outcome OrderedIndex

namespace TransfersContainer

variable {age : Nat} {c c' : TransfersContainer}

/-- The transaction has no block, or one below the height. -/
def Below (height : Nat) (info : TransactionInformation) : Prop :=
  info.blockHeight = unconfirmedTransactionHeight ∨ info.blockHeight < height

instance (height : Nat) : DecidablePred (Below height) := fun _ =>
  inferInstanceAs (Decidable (_ ∨ _))

theorem transactionsBM_detachTransactions (height : Nat)
    (transactions : List TransactionInformation) (c : TransfersContainer) :
    (detachTransactions age height transactions c).2.transactionsBM = c.transactionsBM := by
  induction transactions generalizing c with
  | nil => rfl
  | cons info older ih =>
    unfold detachTransactions
    split
    · exact (ih _).trans (transactionsBM_deleteTransaction info.transactionHash)
    split
    · exact ih c
    · rfl

/-- The loop over transactions of falling heights leaves none from the height on. -/
theorem below_detachTransactions {height : Nat} {transactions : List TransactionInformation}
    (hsorted : transactions.Pairwise fun a b => b.blockHeight ≤ a.blockHeight)
    (hcover : ∀ info ∈ c.transactions.toList, info ∈ transactions ∨ Below height info) :
    ∀ info ∈ (detachTransactions age height transactions c).2.transactions.toList,
    Below height info := by
  induction transactions generalizing c with
  | nil =>
    intro info hinfo
    exact (hcover info hinfo).resolve_left not_mem_nil
  | cons newest older ih =>
    obtain ⟨hhead, htail⟩ := pairwise_cons.mp hsorted
    unfold detachTransactions
    split
    · refine ih htail fun info hinfo => ?_
      rw [transactions_deleteTransaction, toList_erase, mem_filter] at hinfo
      refine (hcover info hinfo.1).imp_left fun hmem => ?_
      refine (mem_cons.mp hmem).resolve_left fun heq => ?_
      simp [heq] at hinfo
    · rename_i hkept
      split
      · rename_i hunconf
        refine ih htail fun info hinfo => ?_
        rcases hcover info hinfo with hmem | hbelow
        · rcases mem_cons.mp hmem with rfl | hmem
          · exact .inr (.inl hunconf)
          · exact .inl hmem
        · exact .inr hbelow
      · -- the loop ends here, and what is older is in no higher block
        rename_i hconf
        intro info hinfo
        have hlow : newest.blockHeight < height := by simpa [doDelete, hconf] using hkept
        rcases hcover info hinfo with hmem | hbelow
        · rcases mem_cons.mp hmem with rfl | hmem
          · exact .inr hlow
          · exact .inr ((hhead info hmem).trans_lt hlow)
        · exact hbelow

/-- No transaction of an undone block is left, and the messages stay. -/
theorem below_of_detach {height : Nat} {result : List Hash × List TransactionOutputInformation}
    (h : detach age height c = .done result c') :
    (∀ info ∈ c'.transactions.toList, Below height info) ∧ c'.transactionsBM = c.transactionsBM ∧
      c'.currentHeight = height - 1 := by
  rw [(detach_eq_done h).1]
  refine ⟨?_, transactionsBM_detachTransactions height _ c, rfl⟩
  refine below_detachTransactions (c := c) ?_ fun info hinfo => .inl (mem_reverse.mpr hinfo)
  rw [pairwise_reverse]
  exact c.transactions.sorted

theorem addTransactionBM_of_fresh {block : TransactionBlockInfo} {tx : TransactionReader}
    (messages : List String) (id : Nat) (hheight : c.currentHeight ≤ block.height)
    (hfresh : tx.transactionHash ∉
      c.transactionsBM.toList.map TransactionInformation.transactionHash) :
    ∃ c' info, addTransactionBM block tx messages id c = .done true c' ∧
      c'.transactionsBM.find? tx.transactionHash = some info ∧ info.blockHeight = block.height := by
  let info := { transactionRecord block tx messages id with
    totalAmountIn := 0, totalAmountOut := 0, paymentId := nullHash }
  refine ⟨{ c with transactionsBM := c.transactionsBM.emplace info }, info, ?_, ?_, rfl⟩
  · have hnone : c.transactionsBM.find? tx.transactionHash = none :=
      find?_eq_none.mpr hfresh
    unfold addTransactionBM
    rw [get_bind_run, if_neg (not_lt.mpr hheight), hnone]
    rfl
  · refine find?_eq_some.mpr ⟨?_, rfl⟩
    exact (toList_emplace_perm hfresh).mem_iff.mpr mem_cons_self

theorem detach_returns (hjobs : c.JobsFit age) (hcur : c.currentHeight + 1 < word32)
    (height : Nat) : ∃ deleted locked c', detach age height c = .done (deleted, locked) c' := by
  let result := detachTransactions age height c.transactions.toList.reverse c
  let c' : TransfersContainer := { result.2 with currentHeight := height - 1 }
  have hjobs' : c'.JobsFit age :=
    (jobsFit_invariant age).toRemovalInvariant.detachTransactions height _ hjobs
  have hlocked : ∃ locked, c'.getLockingTransfers c.currentHeight (height - 1) = .ok locked := by
    unfold getLockingTransfers
    split
    · exact ⟨[], rfl⟩
    rename_i hle
    have hnew : height - 1 + 1 < word32 := by omega
    obtain ⟨locked, hlocked, -⟩ :=
      transfersBetween_of_jobsFit hjobs' (Nat.succ_le_succ (not_lt.mp hle))
    rw [Nat.mod_eq_of_lt hcur, Nat.mod_eq_of_lt hnew]
    exact ⟨locked, hlocked⟩
  obtain ⟨locked, hlocked⟩ := hlocked
  exact ⟨result.1, locked, c', detach_of_ok hlocked⟩

/-- A call that adds a transaction or a message, or undoes blocks, at a height that is a word. -/
def AddsOrDetaches : TransfersCall → Prop
  | .addTransaction block _ _ _ _ => block.height < word32
  | .addTransactionBM block _ _ _ => block.height < word32
  | .detach height => height < word32
  | _ => False

instance : DecidablePred AddsOrDetaches := fun call => by
  cases call <;> unfold AddsOrDetaches <;> infer_instance

theorem keeps_currentHeight_addTransaction {block : TransactionBlockInfo} {tx : TransactionReader}
    {transfers : List TransactionOutputInformationIn} {messages : List String} {id : Nat}
    (hword : block.height < word32) :
    Keeps (fun c => c.currentHeight + 1 < word32)
    (addTransaction age block tx transfers messages id) := by
  refine Keeps.get.bind fun c => .ite (fun _ => .throw) fun _ => .ite (fun _ => .throw) fun _ => ?_
  refine (keeps_fields_addTransactionOutputs (fun _ _ height => height + 1 < word32) block _ tx
    transfers).bind fun outputsAdded => ?_
  refine (keeps_fields_addTransactionInputs (fun _ _ height => height + 1 < word32) block tx 0
    tx.inputs).bind fun inputsAdded => ?_
  refine .bind (.modify fun c hc => ?_) fun _ => .ite (fun _ => .pure _)
    fun hconf => .bind ?_ fun _ => .pure _
  · split <;> exact hc
  · refine Keeps.get.bind fun c => .ite (fun _ => .throw) fun _ => ?_
    refine .bind (.modify fun c hc => ?_) fun _ => .read _
    unfold unconfirmedTransactionHeight at hconf
    dsimp only
    omega

/-- No call goes up to the height that stands for no block. -/
theorem currentHeight_of_run (h : Run age (fun _ => AddsOrDetaches) c) :
    c.currentHeight + 1 < word32 := by
  induction h with
  | start => decide
  | @step c c' call _ hok _ hcall ih =>
    cases call with
    | addTransaction block tx transfers messages id =>
      exact (((keeps_currentHeight_addTransaction hok).bind fun _ => .pure ()) c ih).of_done hcall
    | addTransactionBM block tx messages id =>
      refine (Keeps.bind (I := fun c => c.currentHeight + 1 < word32)
        (Keeps.get.bind fun c => .ite (fun _ => .throw) fun _ => .ite (fun _ => .pure false)
          fun _ => .bind (.modify fun c hc => ?_) fun _ => .pure true)
        (fun _ => .pure ()) c ih).of_done hcall
      exact hc
    | detach height =>
      obtain ⟨result, middle, hdetach, ⟨⟩⟩ := bind_eq_done.mp hcall
      have hword : height < word32 := hok
      rw [(below_of_detach hdetach).2.2]
      omega
    | _ => exact hok.elim

end TransfersContainer

open TransfersContainer

/-- After a detach no transaction is in an undone block. No message is either, if none was recorded
in such a block before; a message that is not recorded is recorded with its block. -/
theorem messages_below_of_detach {age : Nat} {c : TransfersContainer}
    (hrun : Run age (fun _ => AddsOrDetaches) c) {height : Nat}
    (hmessages : ∀ info ∈ c.transactionsBM.toList, Below height info) :
    ∃ deleted locked c', detach age height c = .done (deleted, locked) c' ∧
      (∀ info ∈ c'.transactions.toList, Below height info) ∧
      (∀ info ∈ c'.transactionsBM.toList, Below height info) ∧
      ∀ block tx messages id, height - 1 ≤ block.height →
        tx.transactionHash ∉ c.transactionsBM.toList.map TransactionInformation.transactionHash →
        ∃ c'' info, addTransactionBM block tx messages id c' = .done true c'' ∧
          c''.transactionsBM.find? tx.transactionHash = some info ∧
          info.blockHeight = block.height := by
  obtain ⟨deleted, locked, c', hdetach⟩ :=
    detach_returns (jobsFit_of_reached hrun.reached) (currentHeight_of_run hrun) height
  obtain ⟨hbelow, hsame, hnew⟩ := below_of_detach hdetach
  refine ⟨deleted, locked, c', hdetach, hbelow, ?_, fun block tx messages id hblock hfresh => ?_⟩
  · rw [hsame]
    exact hmessages
  · rw [← hnew] at hblock
    rw [← hsame] at hfresh
    exact addTransactionBM_of_fresh messages id hblock hfresh

/-- A payment at height 10 is undone, and a message that came at height 3 stays. -/
theorem messages_below_of_detach_payment :
    ∃ c deleted locked c', Run 6 (fun _ => AddsOrDetaches) c ∧
      c.transactions.toList.map TransactionInformation.blockHeight = [10] ∧
      detach 6 5 c = .done (deleted, locked) c' ∧
      (∀ info ∈ c'.transactions.toList, Below 5 info) ∧
      ∀ info ∈ c'.transactionsBM.toList, Below 5 info := by
  obtain ⟨c, hrun, hmsgs, hheights⟩ := @exists_run_of_calls (fun _ => AddsOrDetaches) 6
    [.addTransactionBM ⟨3, 0, 0⟩ (plainReader 2 []) [] 0,
      .addTransaction ⟨10, 0, 0⟩ (plainReader 1 []) [ownTransfer 0 5 (.key 1 1)] [] 0]
    (fun c => (∀ info ∈ c.transactionsBM.toList, Below 5 info) ∧
      c.transactions.toList.map TransactionInformation.blockHeight = [10]) _ (by
    simp only [mem_cons, not_mem_nil, or_false, forall_eq_or_imp, forall_eq]
    exact ⟨fun _ => ⟨by decide, trivial⟩, fun _ => ⟨by decide, trivial⟩⟩) (by decide +kernel)
  obtain ⟨deleted, locked, c', hdetach, htxs, hbelow, -⟩ :=
    messages_below_of_detach hrun hmsgs
  exact ⟨c, deleted, locked, c', hrun, hheights, hdetach, htxs, hbelow⟩

/-- A message that came at height 10 outlives the undoing of that block, and is not recorded when a
block at height 6 brings it again. -/
theorem message_kept_by_detach :
    ∃ c, Run 6 (fun _ => AddsOrDetaches) c ∧ (detach 6 5 c).value?.isSome ∧
      (∃ info ∈ ((detach 6 5 c).stateD c).transactionsBM.toList, ¬Below 5 info) ∧
      (addTransactionBM ⟨6, 0, 0⟩ (plainReader 2 []) [] 0 ((detach 6 5 c).stateD c)).value? =
        some false := by
  refine exists_run_of_calls 6 [.addTransactionBM ⟨10, 0, 0⟩ (plainReader 2 []) [] 0] _ ?_
    (by decide +kernel)
  simp only [mem_cons, not_mem_nil, or_false, forall_eq]
  exact fun _ => ⟨by decide, trivial⟩

namespace TransfersContainer

variable {age : Nat} {c c' : TransfersContainer} {globalIndices : List Nat}
  {transfers : List TransactionOutputInformationIn} {block : TransactionBlockInfo}
  {tx : TransactionReader}

/-- An output of the account passes the checks of `addTransactionOutputs`. -/
def outputPasses (block : TransactionBlockInfo) (transfer : TransactionOutputInformationIn)
    (c : TransfersContainer) : Bool :=
  let transactionIsUnconfirmed := block.height == unconfirmedTransactionHeight
  let transferIsUnconfirmed := transfer.globalOutputIndex == unconfirmedTransactionGlobalOutputIndex
  transactionIsUnconfirmed == transferIsUnconfirmed &&
    (transferIsUnconfirmed || !c.transferExists transfer.toTransactionOutputInformation)

/-- The first input that concerns the wallet passes the checks of `addTransactionInputs`. -/
def firstInputPasses (c : TransfersContainer) : List TransactionInput → Bool
  | [] => false
  | input :: inputs =>
    match c.checkInput input with
    | .fail => false
    | .foreign => c.firstInputPasses inputs
    | .spend _ => true

/-- The first output of the account, or the first input that concerns the wallet if there is no such
output, passes its checks. -/
def firstItemPasses (block : TransactionBlockInfo) (tx : TransactionReader)
    (transfers : List TransactionOutputInformationIn) (c : TransfersContainer) : Bool :=
  match transfers.find? fun transfer => transfer.id = accountOwnId with
  | some transfer => c.outputPasses block transfer
  | none => c.firstInputPasses tx.inputs

theorem addTransactionOutputs_of_foreign
    (h : transfers.find? (fun transfer => transfer.id = accountOwnId) = none) :
    addTransactionOutputs age block tx transfers c = .done false c := by
  induction transfers with
  | nil => rfl
  | cons transfer transfers ih =>
    obtain ⟨hforeign, hrest⟩ := forall_mem_cons.mp (find?_eq_none.mp h)
    unfold addTransactionOutputs
    rw [if_pos (by simpa using hforeign)]
    exact ih (find?_eq_none.mpr hrest)

/-- The first output of the account fails before anything is changed. -/
theorem addTransactionOutputs_of_fail {transfer : TransactionOutputInformationIn}
    (h : transfers.find? (fun transfer => transfer.id = accountOwnId) = some transfer)
    (hfail : c.outputPasses block transfer = false) :
    addTransactionOutputs age block tx transfers c = .thrown c := by
  induction transfers with
  | nil => cases h
  | cons first transfers ih =>
    unfold addTransactionOutputs
    rw [find?_cons] at h
    split at h
    · rename_i hown
      cases h
      have hthrow : addTransactionOutput age block tx transfer c = .thrown c := by
        unfold addTransactionOutput
        unfold outputPasses at hfail
        rw [get_bind_run]
        grind [throw_run]
      rw [if_neg (by simpa using hown), bind_run, hthrow, andThen_thrown]
    · rename_i hforeign
      rw [if_pos (by simpa using hforeign)]
      exact ih h

/-- If the first input of the wallet does not pass, the loop changes nothing. -/
theorem addTransactionInputs_of_fail
    {inputs : List TransactionInput} (inputIndex : Nat)
    (hfail : c.firstInputPasses inputs = false) :
    addTransactionInputs block tx inputIndex inputs c = .thrown c ∨
      addTransactionInputs block tx inputIndex inputs c = .done false c := by
  induction inputs generalizing inputIndex with
  | nil => exact .inr rfl
  | cons input inputs ih =>
    unfold addTransactionInputs
    unfold firstInputPasses at hfail
    rw [get_bind_run]
    cases hcheck : c.checkInput input with rw [hcheck] at hfail
    | fail => exact .inl rfl
    | foreign =>
      exact ih (inputIndex + 1) hfail
    | spend t =>
      cases hfail

/-- Wherever a range of jobs starts and ends, their outputs are there. -/
theorem transfersBetween_ne_exception (h : c.JobsFit age) (start stop : Nat) :
    c.transfersBetween start stop ≠ .error .exception := by
  unfold transfersBetween
  split
  · simp
  · have hfound : ∀ job ∈ c.transfersUnlockJobs.between start stop,
        ∃ out, c.getAvailableOutput job.transactionOutputKey = .ok out := by
      intro job hjob
      have hmem := h.mem_iff.mp (mem_of_mem_take (mem_of_mem_drop hjob))
      obtain ⟨t, ht, rfl⟩ := mem_map.mp hmem
      exact ⟨_, getAvailableOutput_of_mem ht⟩
    obtain ⟨out, hout⟩ := exists_mapM_of_forall hfound
    rw [hout]
    simp

theorem advanceHeight_ne_thrown (h : c.JobsFit age) {height : Nat}
    (hle : c.currentHeight ≤ height) : advanceHeight height c ≠ .thrown c' := by
  intro hthrown
  have hjobs : JobsFit age { c with currentHeight := height } := h
  unfold advanceHeight at hthrown
  rw [get_bind_run, if_neg (not_lt.mpr hle), modify_bind_run, read_eq_thrown] at hthrown
  have hexc := hthrown.1
  unfold getUnlockingTransfers at hexc
  rw [if_neg (not_lt.mpr hle)] at hexc
  exact transfersBetween_ne_exception hjobs _ _ hexc

/-- A call that adds a transaction and throws at the first thing it would record changes nothing. -/
theorem addTransaction_thrown (hjobs : c.JobsFit age) {messages : List String} {id : Nat}
    (hfirst : c.currentHeight ≤ block.height → c.transactions.find? tx.transactionHash = none →
      c.firstItemPasses block tx transfers = false)
    (h : addTransaction age block tx transfers messages id c = .thrown c') : c' = c := by
  unfold addTransaction at h
  rw [get_bind_run] at h
  split at h
  · cases h
    rfl
  rename_i hheight
  split at h
  · cases h
    rfl
  rename_i hnew
  have hfail := hfirst (not_lt.mp hheight) (by simpa using hnew)
  unfold firstItemPasses at hfail
  split at hfail
  · rename_i transfer hown
    rw [bind_run, addTransactionOutputs_of_fail hown hfail] at h
    cases h
    rfl
  · rename_i hforeign
    rw [bind_run, addTransactionOutputs_of_foreign hforeign, andThen_done, bind_run] at h
    have hloop : addTransactionInputs block tx 0 tx.inputs c = .thrown c ∨
        addTransactionInputs block tx 0 tx.inputs c = .done false c :=
      addTransactionInputs_of_fail 0 hfail
    rcases hloop with hinputs | hinputs
    · rw [hinputs] at h
      cases h
      rfl
    · -- nothing concerns the wallet, and only its height changes
      rw [hinputs, andThen_done, modify_bind_run] at h
      split at h
      · cases h
      rw [bind_run] at h
      cases hadvance : advanceHeight block.height c with
      | done unlocked c'' =>
        simp [hadvance] at h
      | thrown c'' => exact absurd hadvance (advanceHeight_ne_thrown hjobs (not_lt.mp hheight))
      | stuck => simp [hadvance] at h

/-- Every item that follows keeps the first output of the transaction. -/
theorem keeps_entered (key : TransactionOutputKey) (inputs : List TransactionInput)
    (inputIndex : Nat) :
    Keeps (fun m => m.ledger.Entered key) (addTransactionOutputs age block tx transfers) ∧
      Keeps (fun m => m.ledger.Entered key) (addTransactionInputs block tx inputIndex inputs) := by
  constructor
  · refine keeps_addTransactionOutputs_of (fun hm _ => ?_) (fun hm _ hunknown => ?_) transfers
    · rw [ledger_addUnconfirmed]
      exact hm.enterUnconfirmed
    · rw [ledger_addAvailable]
      exact hm.enterAvailable (transferExists_eq_false_iff.mp hunknown)
  · refine keeps_addTransactionInputs_of (fun {m input t} inputIndex hm _ hcheck => ?_) inputIndex
    obtain ⟨hmem, -, hunspent⟩ := checkInput_eq_spend hcheck
    rw [ledger_spendTransfer]
    refine hm.spend (r := ⟨t.toTransferInformation, block, tx.transactionHash, inputIndex⟩)
      (mem_map_of_mem hmem) fun hkey => ?_
    obtain ⟨keyImage, outputKey, htarget, hdesc⟩ :=
      TransactionOutputInformation.exists_keyImage hkey
    rw [hdesc]
    exact spentOf_eq_nil_iff.mp (hunspent keyImage outputKey htarget)

/-- The first output of the account is entered, and stays. -/
theorem entered_addTransactionOutputs {transfer : TransactionOutputInformationIn}
    (href : c.ledger.confirmed.Pairwise fun a b =>
      a.IsMultisignature → a.spentOutputDescriptor ≠ b.spentOutputDescriptor)
    (h : transfers.find? (fun transfer => transfer.id = accountOwnId) = some transfer)
    (hpass : c.outputPasses block transfer = true) :
    (addTransactionOutputs age block tx transfers c).Holds
      (fun _ m => m.ledger.Entered (transferRecord block tx transfer).transactionOutputKey)
      (fun m => m.ledger.Entered (transferRecord block tx transfer).transactionOutputKey) := by
  induction transfers with
  | nil => cases h
  | cons first transfers ih =>
    unfold addTransactionOutputs
    rw [find?_cons] at h
    split at h
    · rename_i hown
      cases h
      obtain ⟨m, hdone, hentered⟩ : ∃ m, addTransactionOutput age block tx transfer c = .done () m ∧
          m.ledger.Entered (transferRecord block tx transfer).transactionOutputKey := by
        unfold outputPasses at hpass
        unfold addTransactionOutput
        rw [get_bind_run]
        obtain ⟨hsame, hunknown⟩ := Bool.and_eq_true_iff.mp hpass
        rw [if_neg (by simpa using hsame)]
        split
        · refine ⟨_, rfl, ?_⟩
          rw [ledger_addUnconfirmed]
          exact .of_enterUnconfirmed href
        · rename_i hconf
          have hunknown : c.transferExists transfer.toTransactionOutputInformation = false := by
            simpa [hconf] using hunknown
          rw [if_neg (Bool.eq_false_iff.mp hunknown)]
          refine ⟨_, rfl, ?_⟩
          rw [ledger_addAvailable]
          exact .of_enterAvailable href (transferExists_eq_false_iff.mp hunknown)
      rw [if_neg (by simpa using hown), bind_run, hdone, andThen_done]
      exact ((keeps_entered _ [] 0).1.bind fun _ => .pure true) m hentered
    · rename_i hforeign
      rw [if_pos (by simpa using hforeign)]
      exact ih h

/-- The first input of the wallet takes an output away, and no other input brings it back. -/
theorem addTransactionInputs_takes {inputs : List TransactionInput} (inputIndex : Nat)
    (hpass : c.firstInputPasses inputs = true) : ∃ t ∈ c.availableTransfers.toList,
      (addTransactionInputs block tx inputIndex inputs c).Holds
        (fun _ m => ∀ other ∈ m.ledger.available,
          other.transactionOutputKey ≠ t.transactionOutputKey)
        fun m => ∀ other ∈ m.ledger.available, other.transactionOutputKey ≠
        t.transactionOutputKey := by
  induction inputs generalizing inputIndex with
  | nil => cases hpass
  | cons input inputs ih =>
    unfold addTransactionInputs
    unfold firstInputPasses at hpass
    rw [get_bind_run]
    cases hcheck : c.checkInput input with rw [hcheck] at hpass
    | fail => cases hpass
    | foreign => exact ih (inputIndex + 1) hpass
    | spend t =>
      refine ⟨t, (checkInput_eq_spend hcheck).1, ?_⟩
      dsimp only
      rw [modify_bind_run]
      have hkeeps : Keeps (fun m => ∀ other ∈ m.ledger.available,
          other.transactionOutputKey ≠ t.transactionOutputKey)
          (addTransactionInputs block tx (inputIndex + 1) inputs) := by
        refine keeps_addTransactionInputs_of (fun inputIndex hm _ _ => ?_) (inputIndex + 1)
        rw [ledger_spendTransfer]
        exact fun other hother => hm other (mem_filter.mp hother).1
      refine (hkeeps.bind fun _ => .pure true) _ fun other hother => ?_
      rw [ledger_spendTransfer] at hother
      exact of_decide_eq_true (mem_filter.mp hother).2

/-- With sound records, a call that adds a transaction and throws after its first item changes the
container. -/
theorem addTransaction_changes (hsound : c.ledger.Sound) {messages : List String} {id : Nat}
    (hheight : c.currentHeight ≤ block.height)
    (hnew : c.transactions.find? tx.transactionHash = none)
    (hpass : c.firstItemPasses block tx transfers = true)
    (h : addTransaction age block tx transfers messages id c = .thrown c') : c' ≠ c := by
  unfold addTransaction at h
  rw [get_bind_run, if_neg (not_lt.mpr hheight), if_neg (by simp [hnew])] at h
  unfold firstItemPasses at hpass
  -- what follows the items changes neither outputs nor references
  have hrest {I : TransfersContainer → Prop} (hI : ∀ m m' : TransfersContainer,
      m'.ledger.unconfirmed = m.ledger.unconfirmed → m'.ledger.available = m.ledger.available →
      m'.ledger.spent = m.ledger.spent → I m → I m') (outputsAdded inputsAdded : Bool) : Keeps I (do
        modify fun c => if outputsAdded || inputsAdded then
          c.recordTransaction (transactionRecord block tx messages id) else c
        if block.height = unconfirmedTransactionHeight then
          pure (outputsAdded || inputsAdded, [])
        else do
          let unlocked ← advanceHeight block.height
          pure (outputsAdded || inputsAdded, unlocked)) := by
    refine .bind (.modify fun m hm => ?_) fun _ => .ite (fun _ => .pure _) fun _ =>
      .bind ?_ fun _ => .pure _
    · split
      · exact hI m _ rfl rfl rfl hm
      · exact hm
    · refine Keeps.get.bind fun m => .ite (fun _ => .throw) fun _ => ?_
      exact .bind (.modify fun m hm => hI m _ rfl rfl rfl hm) fun _ => .read _
  split at hpass
  · rename_i transfer hown
    have houts := @entered_addTransactionOutputs age c transfers block tx transfer hsound.references
      hown hpass
    have hentered := houts.andThen fun outputsAdded m hm =>
      ((@keeps_entered age transfers block tx _ tx.inputs 0).2.bind fun inputsAdded =>
        hrest (fun m m' hunconf havail hspent hm => hm.of_eq hunconf havail hspent) outputsAdded
          inputsAdded) m hm
    rw [← bind_run, h] at hentered
    rintro rfl
    obtain ⟨t, ht, hkey⟩ := Ledger.Entered.held hentered
    obtain ⟨info, hinfo, hhash, -⟩ := hsound.owned t ht
    exact find?_eq_none.mp hnew (mem_map.mpr ⟨info, hinfo,
      hhash.trans (congrArg TransactionOutputKey.transactionHash hkey)⟩)
  · rename_i hforeign
    obtain ⟨t, ht, htaken⟩ := @addTransactionInputs_takes c block tx tx.inputs 0 hpass
    rw [bind_run, addTransactionOutputs_of_foreign hforeign, andThen_done, bind_run] at h
    have hgone := htaken.andThen fun inputsAdded m hm =>
      hrest (I := fun m => ∀ other ∈ m.ledger.available,
        other.transactionOutputKey ≠ t.transactionOutputKey)
        (fun m m' _ havail _ hm => havail ▸ hm) false inputsAdded m hm
    rw [h] at hgone
    rintro rfl
    exact hgone _ (mem_map_of_mem ht) rfl

/-- The loop that confirms outputs gets past one that has a global index and is not known yet. -/
theorem confirmTransfers_cons_eq_done
    {t : TransactionOutputInformationEx} {transfers : List TransactionOutputInformationEx} :
    confirmTransfers age block globalIndices (t :: transfers) c = .done () c' ↔
      ∃ index, globalIndices[t.outputInTransaction]? = some index ∧
        c.transferExists (confirmedRecord block index t).toTransactionOutputInformation = false ∧
        confirmTransfers age block globalIndices transfers
          (c.confirmTransfer age t (confirmedRecord block index t)) = .done () c' := by
  rw [confirmTransfers, get_bind_run]
  cases globalIndices[t.outputInTransaction]? with
  | none => simp
  | some index =>
    cases hknown :
        c.transferExists (confirmedRecord block index t).toTransactionOutputInformation with
    | true => simp [hknown]
    | false => simp [hknown, bind_run]

theorem keeps_transactions_confirmTransfers (transactions : TransactionMultiIndex)
    (transfers : List TransactionOutputInformationEx) :
    Keeps (fun m => m.transactions = transactions)
    (confirmTransfers age block globalIndices transfers) := by
  induction transfers with
  | nil => exact .pure ()
  | cons t transfers ih =>
    intro m hm
    rw [confirmTransfers, get_bind_run]
    cases globalIndices[t.outputInTransaction]? with
    | none => exact hm
    | some index =>
      dsimp only
      split
      · exact hm
      · refine ih _ ?_
        simpa [confirmTransfer, addUnlockJob] using hm

/-- A call that confirms a transaction and throws has changed its record, but for one without a
height. -/
theorem markTransactionConfirmed_thrown {transactionHash : Hash}
    (h : markTransactionConfirmed age block transactionHash globalIndices c = .thrown c') :
    c' = c ↔ block.height = unconfirmedTransactionHeight := by
  unfold markTransactionConfirmed at h
  split at h
  · next hheight =>
    cases h
    exact iff_of_true rfl hheight
  rename_i hheight
  refine iff_of_false ?_ hheight
  rintro rfl
  rw [get_bind_run] at h
  cases hfind : c'.transactions.find? transactionHash with rw [hfind] at h
  | none => cases h
  | some info =>
    dsimp only at h
    split at h
    · cases h
    rename_i hunconf
    let confirmed : TransactionInformation :=
      { info with blockHeight := block.height, timestamp := block.timestamp }
    -- the record is replaced before an output is looked at
    have hkept : Keeps (fun m => m.transactions = c'.transactions.replace confirmed) (do
        confirmTransfers age block globalIndices
          (c'.unconfirmedTransfers.toList.filter fun t => t.transactionHash = transactionHash)
        modify (confirmSpending block transactionHash)
        pure true) :=
      (keeps_transactions_confirmTransfers _ _).bind fun _ =>
          (Keeps.modify fun _ hm => hm).bind fun _ =>
        .pure true
    rw [modify_bind_run] at h
    have hsame := hkept { c' with transactions := c'.transactions.replace confirmed } rfl
    rw [h] at hsame
    have hsame : c'.transactions = c'.transactions.replace confirmed := hsame
    have hmem := (toList_replace_perm confirmed c'.transactions).mem_iff.mpr mem_cons_self
    rw [← hsame] at hmem
    have hfound : c'.transactions.find? transactionHash = some confirmed :=
      find?_eq_some.mpr ⟨hmem, (find?_eq_some.mp hfind).2⟩
    have hblock : info.blockHeight = block.height :=
      congrArg TransactionInformation.blockHeight (Option.some.inj (hfind.symm.trans hfound))
    exact hheight (hblock.symm.trans (not_not.mp hunconf))

end TransfersContainer

/-- An output that no block has yet, handed to the wallet that owns it. -/
def ownUnconfirmed (number amount : Nat) (target : TransferTarget) :
    TransactionOutputInformationIn :=
  { ownTransfer number amount target with
    globalOutputIndex := unconfirmedTransactionGlobalOutputIndex }

/-- A transaction with an output that no block has yet. -/
def unconfirmedPayment : TransfersCall :=
  .addTransaction ⟨unconfirmedTransactionHeight, 0, 0⟩ (plainReader 2 [])
    [ownUnconfirmed 1 5 (.key 2 2)] [] 0

end DarknetCoin
