import DarknetCoin.Theorems.TransferLedger

/-!
# Invariants of the containers of a wallet

Every call changes the containers one output at a time. A property that these changes keep holds in
every state that calls reach, whether they return or throw.
-/

namespace DarknetCoin

open Semantics Data Program TransfersContainer List

/-- The descriptor an input names. -/
def TransactionInput.descriptor? : TransactionInput → Option SpentOutputDescriptor
  | .key input => some (.key input.keyImage)
  | .multisignature input => some (.multisignature input.amount input.outputIndex)
  | .base _ => none

theorem mem_of_findFirstByAmount {range : List TransactionOutputInformationEx} {amount : Nat}
    {t : TransactionOutputInformationEx} (h : findFirstByAmount range amount = some t) :
    t ∈ range ∧ t.amount = amount := by
  have hmem := mem_of_find?_eq_some h
  exact ⟨(mem_insertionSort _).mp hmem, by simpa using find?_some h⟩

namespace TransfersContainer

variable {t : TransactionOutputInformationEx}

theorem checkInput_key_eq_spend {c : TransfersContainer} {input : KeyInput}
    (h : c.checkInput (.key input) = .spend t) : c.spentOf (.key input.keyImage) = [] ∧
      findFirstByAmount (c.availableOf (.key input.keyImage)) input.amount = some t := by
  simp only [checkInput] at h
  split at h
  · cases h
  rename_i hspent
  split at h
  · split at h <;> cases h
  split at h
  · cases h
  rename_i found hfound
  cases h
  exact ⟨not_not.mp hspent, hfound⟩

/-- The output an input spends is available and has the descriptor the input names; no output with
the key image of a key input is spent. -/
theorem checkInput_eq_spend {c : TransfersContainer} {input : TransactionInput}
    (h : c.checkInput input = .spend t) :
    t ∈ c.availableTransfers.toList ∧ input.descriptor? = some t.spentOutputDescriptor ∧
      ∀ keyImage outputKey, t.target = .key keyImage outputKey →
      c.spentOf (.key keyImage) = [] := by
  cases input with
  | key input =>
    obtain ⟨hspent, hfound⟩ := checkInput_key_eq_spend h
    have hmem := mem_filter.mp (mem_of_findFirstByAmount hfound).1
    have hdesc : t.spentOutputDescriptor = .key input.keyImage := by simpa using hmem.2
    refine ⟨hmem.1, by rw [hdesc]; rfl, fun keyImage outputKey htarget => ?_⟩
    rw [TransactionOutputInformation.spentOutputDescriptor, htarget] at hdesc
    cases hdesc
    exact hspent
  | multisignature input =>
    simp only [checkInput] at h
    split at h
    · cases h
    rename_i found hfound
    cases h
    have hmem := mem_filter.mp (mem_of_mem_head? hfound)
    have hdesc : t.spentOutputDescriptor =
        .multisignature input.amount input.outputIndex := by simpa using hmem.2
    refine ⟨hmem.1, by rw [hdesc]; rfl, fun keyImage outputKey htarget => ?_⟩
    rw [TransactionOutputInformation.spentOutputDescriptor, htarget] at hdesc
    cases hdesc
  | base input => cases h

section Loops

variable {I : TransfersContainer → Prop} {age : Nat} {block : TransactionBlockInfo}
  {tx : TransactionReader}

theorem keeps_addTransactionOutputs_of
    (hunconf : ∀ {c transfer}, I c → block.height = unconfirmedTransactionHeight →
      I (c.addUnconfirmed (transferRecord block tx transfer)))
    (havail : ∀ {c transfer}, I c → block.height ≠ unconfirmedTransactionHeight →
      c.transferExists transfer.toTransactionOutputInformation = false →
      I (c.addAvailable age (transferRecord block tx transfer)))
      (transfers : List TransactionOutputInformationIn) :
    Keeps I (addTransactionOutputs age block tx transfers) := by
  induction transfers with
  | nil => exact .pure false
  | cons transfer transfers ih =>
    refine .ite (fun _ => ih) fun _ => .bind ?_ fun _ => ih.bind fun _ => .pure true
    intro c hc
    unfold addTransactionOutput
    rw [get_bind_run]
    split
    · exact hc
    rename_i hsame
    split
    · rename_i htransfer
      exact hunconf hc (by simpa [htransfer] using hsame)
    rename_i htransfer
    split
    · exact hc
    rename_i hunknown
    refine havail hc ?_ (by simpa using hunknown)
    simpa [htransfer] using hsame

variable {inputs : List TransactionInput}

theorem keeps_addTransactionInputs_of
    (hspend : ∀ {c input t} inputIndex, I c → input ∈ inputs → c.checkInput input = .spend t →
      I (c.spendTransfer block tx.transactionHash inputIndex t)) (inputIndex : Nat) :
    Keeps I (addTransactionInputs block tx inputIndex inputs) := by
  induction inputs generalizing inputIndex with
  | nil => exact .pure false
  | cons input inputs ih =>
    have ih := ih fun inputIndex hc hmem => hspend inputIndex hc (mem_cons_of_mem input hmem)
    intro c hc
    unfold addTransactionInputs
    rw [get_bind_run]
    cases hcheck : c.checkInput input with
    | fail => exact hc
    | foreign => exact ih (inputIndex + 1) c hc
    | spend t =>
      have hspent := hspend inputIndex hc mem_cons_self hcheck
      exact ((ih (inputIndex + 1)).bind fun _ => .pure true) _ hspent

theorem addTransactionOutputs_eq_false {c c' : TransfersContainer}
    {transfers : List TransactionOutputInformationIn}
    (h : addTransactionOutputs age block tx transfers c = .done false c') : c' = c := by
  induction transfers with
  | nil =>
    cases h
    rfl
  | cons transfer transfers ih =>
    unfold addTransactionOutputs at h
    split at h
    · exact ih h
    · obtain ⟨_, _, -, hrest⟩ := bind_eq_done.mp h
      obtain ⟨_, _, -, ⟨⟩⟩ := bind_eq_done.mp hrest

theorem addTransactionInputs_eq_false {c c' : TransfersContainer} {inputIndex : Nat}
    (h : addTransactionInputs block tx inputIndex inputs c = .done false c') : c' = c := by
  induction inputs generalizing inputIndex with
  | nil =>
    cases h
    rfl
  | cons input inputs ih =>
    unfold addTransactionInputs at h
    rw [get_bind_run] at h
    cases hcheck : c.checkInput input with rw [hcheck] at h
    | fail =>
      cases h
    | foreign =>
      exact ih h
    | spend t =>
      obtain ⟨_, _, -, hrest⟩ := bind_eq_done.mp h
      obtain ⟨_, _, -, ⟨⟩⟩ := bind_eq_done.mp hrest

end Loops

section Returned

variable {age : Nat} {c c' : TransfersContainer} {block : TransactionBlockInfo}
  {tx : TransactionReader} {messages : List String} {id : Nat} {height : Nat}

theorem advanceHeight_eq_done {out : List TransactionOutputInformation}
    (h : advanceHeight height c = .done out c') : c' = { c with currentHeight := height } := by
  unfold advanceHeight at h
  rw [get_bind_run] at h
  split at h
  · cases h
  obtain ⟨_, _, hmodify, hread⟩ := bind_eq_done.mp h
  cases hmodify
  exact (read_eq_done.mp hread).2

theorem addTransaction_eq_done {transfers : List TransactionOutputInformationIn}
    {result : Bool × List TransactionOutputInformation}
    (h : addTransaction age block tx transfers messages id c = .done result c') :
    tx.transactionHash ∉ c.transactions.toList.map TransactionInformation.transactionHash ∧
      ∃ outputsAdded inputsAdded recorded spent,
      addTransactionOutputs age block tx transfers c = .done outputsAdded recorded ∧
      addTransactionInputs block tx 0 tx.inputs recorded = .done inputsAdded spent ∧
      result.1 = (outputsAdded || inputsAdded) ∧ c'.ledger = (if outputsAdded || inputsAdded then
        spent.recordTransaction (transactionRecord block tx messages id) else spent).ledger := by
  unfold addTransaction at h
  rw [get_bind_run] at h
  split at h
  · cases h
  split at h
  · cases h
  rename_i hnew
  refine ⟨OrderedIndex.find?_eq_none.mp (by simpa using hnew), ?_⟩
  obtain ⟨outputsAdded, recorded, houts, h⟩ := bind_eq_done.mp h
  obtain ⟨inputsAdded, spent, hinputs, h⟩ := bind_eq_done.mp h
  refine ⟨outputsAdded, inputsAdded, recorded, spent, houts, hinputs, ?_⟩
  rw [modify_bind_run] at h
  split at h
  · cases h
    exact ⟨rfl, rfl⟩
  · obtain ⟨unlocked, advanced, hadvance, ⟨⟩⟩ := bind_eq_done.mp h
    rw [advanceHeight_eq_done hadvance]
    exact ⟨rfl, rfl⟩

theorem addTransactionBM_eq_done {result : Bool}
    (h : addTransactionBM block tx messages id c = .done result c') : c'.ledger = c.ledger := by
  unfold addTransactionBM at h
  rw [get_bind_run] at h
  split at h
  · cases h
  · split at h <;> cases h <;> rfl

theorem detach_of_ok {locked : List TransactionOutputInformation} (h : getLockingTransfers
      { (detachTransactions age height c.transactions.toList.reverse c).2 with
        currentHeight := height - 1 } c.currentHeight (height - 1) = .ok locked) :
    detach age height c = .done
    ((detachTransactions age height c.transactions.toList.reverse c).1, locked)
        { (detachTransactions age height c.transactions.toList.reverse c).2 with
          currentHeight := height - 1 } := by
  have hread := read_ok (f := fun c' : TransfersContainer =>
    c'.getLockingTransfers c.currentHeight (height - 1)) h
  unfold detach
  rw [get_bind_run, bind_run, modifyGet_run, Outcome.andThen_done, modify_bind_run, bind_run, hread]
  rfl

theorem detach_eq_done {result : List Hash × List TransactionOutputInformation}
    (h : detach age height c = .done result c') :
    c' = { (detachTransactions age height c.transactions.toList.reverse c).2 with
      currentHeight := height - 1 } ∧
    result.1 = (detachTransactions age height c.transactions.toList.reverse c).1 := by
  unfold detach at h
  rw [get_bind_run, bind_run, modifyGet_run, Outcome.andThen_done, modify_bind_run, bind_eq_done]
    at h
  obtain ⟨locked, middle, hread, hpure⟩ := h
  obtain ⟨-, rfl⟩ := read_eq_done.mp hread
  cases hpure
  exact ⟨rfl, rfl⟩

end Returned

section Fields

variable (P : TransactionMultiIndex → TransactionMultiIndex → Nat → Prop)
  (block : TransactionBlockInfo)

theorem keeps_fields_addTransactionOutputs (age : Nat) (tx : TransactionReader)
    (transfers : List TransactionOutputInformationIn) :
    Keeps (fun c => P c.transactions c.transactionsBM c.currentHeight)
      (addTransactionOutputs age block tx transfers) := by
  refine keeps_addTransactionOutputs_of (fun hc _ => ?_) (fun hc _ _ => ?_) transfers
  · simpa [addUnconfirmed] using hc
  · simpa [addAvailable, addUnlockJob] using hc

theorem keeps_fields_addTransactionInputs (tx : TransactionReader)
    (inputIndex : Nat) (inputs : List TransactionInput) :
    Keeps (fun c => P c.transactions c.transactionsBM c.currentHeight)
      (addTransactionInputs block tx inputIndex inputs) := by
  refine keeps_addTransactionInputs_of (fun _ hc _ _ => ?_) inputIndex
  simpa [spendTransfer, deleteUnlockJob] using hc

end Fields

end TransfersContainer

namespace TransfersContainer

/-- The container has the spent output, whatever the flag of its key image. -/
def HasSpent (c : TransfersContainer) (s : SpentTransactionOutput) : Prop :=
  s.record ∈ c.ledger.spent ∧ (s.IsMultisignature → s ∈ c.spentTransfers.toList)

/-- The container has the unconfirmed output, whatever the flag of its key image. -/
def HasUnconfirmed (c : TransfersContainer) (t : TransactionOutputInformationEx) : Prop :=
  t.toTransferInformation ∈ c.ledger.unconfirmed ∧
    (t.IsMultisignature → t ∈ c.unconfirmedTransfers.toList)

end TransfersContainer

/-- A property of the containers of outputs that the removal of transactions keeps. -/
structure RemovalInvariant (age : Nat) (I : TransfersContainer → Prop) :
    Prop where
  frame : ∀ {c} transactions transactionsBM currentHeight, I c →
    I { c with transactions, transactionsBM, currentHeight }
  unspendTransfer : ∀ {c s}, c.HasSpent s → I c → I (c.unspendTransfer age s)
  deleteUnconfirmed : ∀ {c t}, t.toTransferInformation ∈ c.ledger.unconfirmed → I c →
    I (c.deleteUnconfirmed t)
  deleteAvailable : ∀ {c t}, t.toTransferInformation ∈ c.ledger.available → I c →
    I (c.deleteAvailable t)

/-- A property of the containers of outputs that every change of a single output keeps. -/
structure TransferInvariant (age : Nat) (I : TransfersContainer → Prop) : Prop
    extends RemovalInvariant age I where
  empty : I .empty
  addUnconfirmed : ∀ {c t}, t.visible = true → I c → I (c.addUnconfirmed t)
  addAvailable : ∀ {c t}, t.visible = true → I c → I (c.addAvailable age t)
  spendTransfer : ∀ {c t} block transactionHash inputIndex, t ∈ c.availableTransfers.toList → I c →
    I (c.spendTransfer block transactionHash inputIndex t)
  confirmTransfer : ∀ {c t} block globalOutputIndex, c.HasUnconfirmed t →
    I c → I (c.confirmTransfer age t (confirmedRecord block globalOutputIndex t))
  confirmSpending : ∀ {c} block transactionHash, I c → I (c.confirmSpending block transactionHash)
  reload : ∀ {c order}, SavedOrder.Of order c → I c → I (c.reload order)

/-- A loop over records of different keys, each of which is still there when its turn comes. -/
theorem foldl_of_nodup {σ α κ : Type*} {I : σ → Prop} {f : σ → α → σ} (key : α → κ)
    (has : σ → α → Prop) (hkeep : ∀ {s a b}, has s b → key b ≠ key a → has (f s a) b)
    (hstep : ∀ {s a}, has s a → I s → I (f s a)) {records : List α}
    (hnodup : (records.map key).Nodup)
    {s : σ} (hhas : ∀ a ∈ records, has s a) (hs : I s) : I (records.foldl f s) := by
  induction records generalizing s with
  | nil => exact hs
  | cons a records ih =>
    obtain ⟨hhead, htail⟩ := nodup_cons.mp hnodup
    refine ih htail (fun b hb => ?_) (hstep (hhas a mem_cons_self) hs)
    refine hkeep (hhas b (mem_cons_of_mem a hb)) fun heq => hhead ?_
    rw [← heq]
    exact mem_map_of_mem hb

theorem nodup_keys_filter {index : TransfersMultiIndex}
    (p : TransactionOutputInformationEx → Bool) :
    ((index.toList.filter p).map fun t => t.transactionOutputKey).Nodup := by
  rw [List.Nodup, pairwise_map]
  exact index.distinct.filter p

/-- What the three kinds of steps of a deletion keep, the deletion keeps. -/
theorem deleteTransactionTransfers_of {age : Nat} {I : TransfersContainer → Prop}
    {transactionHash : Hash} (hunspend : ∀ {c s}, HasSpent c s →
      s.spendingTransactionHash = transactionHash → I c → I (c.unspendTransfer age s))
    (hunconf : ∀ {c t}, t.toTransferInformation ∈ (ledger c).unconfirmed →
      t.transactionHash = transactionHash → I c → I (c.deleteUnconfirmed t))
    (havail : ∀ {c t}, t.toTransferInformation ∈ (ledger c).available →
      t.transactionHash = transactionHash → I c → I (c.deleteAvailable t)) {c : TransfersContainer}
      (hc : I c) : I (c.deleteTransactionTransfers age transactionHash) := by
  -- one loop after the other, each over records that are there and have different keys
  have hspent : I ((c.spentBy transactionHash).foldl (unspendTransfer age) c) := by
    refine foldl_of_nodup (fun s => s.transactionOutputKey)
      (fun c s => c.HasSpent s ∧ s.spendingTransactionHash = transactionHash) (fun hb hne => ?_)
      (fun ha hs => hunspend ha.1 ha.2 hs) ?_ (fun s hs => ?_) hc
    · refine ⟨⟨?_, fun hm => ?_⟩, hb.2⟩
      · rw [ledger_unspendTransfer]
        exact mem_filter.mpr ⟨hb.1.1, decide_eq_true hne⟩
      · refine mem_spent_updateVisibilityOf _ ?_ hm
        exact mem_filter.mpr ⟨hb.1.2 hm, decide_eq_true hne⟩
    · rw [List.Nodup, pairwise_map]
      exact (c.spentTransfers.distinct.filter _).imp fun hdist heq => hdist (.inl heq)
    · obtain ⟨hmem, hhash⟩ := mem_filter.mp hs
      exact ⟨⟨mem_map_of_mem hmem, fun _ => hmem⟩, of_decide_eq_true hhash⟩
  refine foldl_of_nodup (fun t => t.transactionOutputKey)
    (fun c t => t.toTransferInformation ∈ c.ledger.available ∧ t.transactionHash = transactionHash)
    (fun hb hne => ?_) (fun ha hs => havail ha.1 ha.2 hs) (nodup_keys_filter _) (fun t ht => ?_) ?_
  · rw [ledger_deleteAvailable]
    exact ⟨mem_filter.mpr ⟨hb.1, decide_eq_true hne⟩, hb.2⟩
  · obtain ⟨hmem, hhash⟩ := mem_filter.mp ht
    exact ⟨mem_map_of_mem hmem, of_decide_eq_true hhash⟩
  refine foldl_of_nodup (fun t => t.transactionOutputKey)
    (fun c t => t.toTransferInformation ∈ c.ledger.unconfirmed ∧
      t.transactionHash = transactionHash)
    (fun hb hne => ?_) (fun ha hs => hunconf ha.1 ha.2 hs) (nodup_keys_filter _)
    (fun t ht => ?_) hspent
  · rw [ledger_deleteUnconfirmed]
    exact ⟨mem_filter.mpr ⟨hb.1, decide_eq_true hne⟩, hb.2⟩
  · obtain ⟨hmem, hhash⟩ := mem_filter.mp ht
    exact ⟨mem_map_of_mem hmem, of_decide_eq_true hhash⟩

theorem TransfersContainer.keeps_confirmTransfers_of {age : Nat}
    {I : TransfersContainer → Prop} {block : TransactionBlockInfo} {globalIndices : List Nat}
    (hconfirm : ∀ {c t} globalOutputIndex, HasUnconfirmed c t →
      c.transferExists (confirmedRecord block globalOutputIndex t).toTransactionOutputInformation =
      false → I c → I (c.confirmTransfer age t (confirmedRecord block globalOutputIndex t)))
    {transfers : List TransactionOutputInformationEx}
    (hnodup : (transfers.map fun t => t.transactionOutputKey).Nodup) {c : TransfersContainer}
    (hhas : ∀ t ∈ transfers, c.HasUnconfirmed t) (hc : I c) :
    (confirmTransfers age block globalIndices transfers c).Holds (fun _ => I) I := by
  induction transfers generalizing c with
  | nil => exact hc
  | cons t transfers ih =>
    obtain ⟨hhead, htail⟩ := nodup_cons.mp hnodup
    unfold confirmTransfers
    rw [get_bind_run]
    cases globalIndices[t.outputInTransaction]? with
    | none => exact hc
    | some globalOutputIndex =>
      dsimp only
      split
      · exact hc
      rename_i hunknown
      refine ih htail (fun other hother => ?_) (hconfirm globalOutputIndex
        (hhas t mem_cons_self) (Bool.eq_false_iff.mpr hunknown) hc)
      obtain ⟨hrecord, hmem⟩ := hhas other (mem_cons_of_mem t hother)
      have hne : other.transactionOutputKey ≠ t.transactionOutputKey := fun heq =>
        hhead (mem_map.mpr ⟨other, hother, heq⟩)
      constructor
      · rw [ledger_confirmTransfer]
        exact mem_filter.mpr ⟨hrecord, decide_eq_true hne⟩
      · intro hm
        refine mem_unconfirmed_updateVisibilityOf _ ?_ hm
        exact mem_filter.mpr ⟨hmem hm, decide_eq_true hne⟩

namespace RemovalInvariant

variable {age : Nat} {I : TransfersContainer → Prop}
  (h : RemovalInvariant age I) {c : TransfersContainer}
include h

theorem deleteTransactionTransfers (transactionHash : Hash) (hc : I c) :
    I (c.deleteTransactionTransfers age transactionHash) :=
  deleteTransactionTransfers_of (fun hs _ => h.unspendTransfer hs)
    (fun ht _ => h.deleteUnconfirmed ht) (fun ht _ => h.deleteAvailable ht) hc

theorem deleteTransaction (transactionHash : Hash) (hc : I c) :
    I (c.deleteTransaction age transactionHash) :=
  h.frame _ _ _ (h.deleteTransactionTransfers transactionHash hc)

theorem detachTransactions (height : Nat) (transactions : List TransactionInformation) (hc : I c) :
    I (detachTransactions age height transactions c).2 := by
  induction transactions generalizing c with
  | nil => exact hc
  | cons info older ih =>
    unfold detachTransactions
    split
    · exact ih (h.deleteTransaction info.transactionHash hc)
    split
    · exact ih hc
    · exact hc

end RemovalInvariant

namespace TransferInvariant

variable {age : Nat} {I : TransfersContainer → Prop}
  (h : TransferInvariant age I) {c : TransfersContainer}
include h

variable (block : TransactionBlockInfo) (tx : TransactionReader)
  (transfers : List TransactionOutputInformationIn)

theorem keeps_addTransactionOutputs : Keeps I (addTransactionOutputs age block tx transfers) := by
  exact keeps_addTransactionOutputs_of (fun hc _ => h.addUnconfirmed rfl hc)
    (fun hc _ _ => h.addAvailable rfl hc) transfers

theorem keeps_addTransactionInputs (inputIndex : Nat) (inputs : List TransactionInput) :
    Keeps I (addTransactionInputs block tx inputIndex inputs) := by
  refine keeps_addTransactionInputs_of (fun inputIndex hc _ hcheck => ?_) inputIndex
  exact h.spendTransfer block tx.transactionHash inputIndex (checkInput_eq_spend hcheck).1 hc

theorem keeps_advanceHeight (height : Nat) : Keeps I (advanceHeight height) := by
  refine Keeps.get.bind fun c => .ite (fun _ => .throw) fun _ => ?_
  refine .bind (.modify fun c hc => ?_) fun _ => .read _
  exact h.frame c.transactions c.transactionsBM height hc

theorem keeps_addTransaction (messages : List String) (id : Nat) :
    Keeps I (addTransaction age block tx transfers messages id) := by
  refine Keeps.get.bind fun c => .ite (fun _ => .throw) fun _ => .ite (fun _ => .throw) fun _ => ?_
  refine (h.keeps_addTransactionOutputs block tx transfers).bind fun outputsAdded => ?_
  refine (h.keeps_addTransactionInputs block tx 0 tx.inputs).bind fun inputsAdded => ?_
  refine .bind (.modify fun c hc => ?_) fun _ => ?_
  · split
    · exact h.frame _ c.transactionsBM c.currentHeight hc
    · exact hc
  · exact .ite (fun _ => .pure _) fun _ => (h.keeps_advanceHeight block.height).bind
      fun _ => .pure _

theorem keeps_confirmTransfers (globalIndices : List Nat)
    {transfers : List TransactionOutputInformationEx}
    (hnodup : (transfers.map fun t => t.transactionOutputKey).Nodup)
    (hhas : ∀ t ∈ transfers, c.HasUnconfirmed t) (hc : I c) :
    (confirmTransfers age block globalIndices transfers c).Holds (fun _ => I) I :=
  keeps_confirmTransfers_of
    (fun globalOutputIndex ht _ hc => h.confirmTransfer block globalOutputIndex ht hc)
      hnodup hhas hc

theorem keeps_markTransactionConfirmed (transactionHash : Hash) (globalIndices : List Nat) :
    Keeps I (markTransactionConfirmed age block transactionHash globalIndices) := by
  refine .ite (fun _ => .throw) fun _ => ?_
  intro c hc
  rw [get_bind_run]
  cases c.transactions.find? transactionHash with
  | none => exact hc
  | some info =>
    dsimp only
    split
    · exact hc
    have hframe := h.frame (c.transactions.replace
      { info with blockHeight := block.height, timestamp := block.timestamp })
      c.transactionsBM c.currentHeight hc
    refine (h.keeps_confirmTransfers block globalIndices (nodup_keys_filter _)
      (fun t ht => ?_) hframe).andThen fun _ c hc => ?_
    · have hmem := (mem_filter.mp ht).1
      exact ⟨mem_map_of_mem hmem, fun _ => hmem⟩
    · exact h.confirmSpending block transactionHash hc

theorem keeps_detach (height : Nat) : Keeps I (detach age height) := by
  refine Keeps.get.bind fun c => ?_
  refine (Keeps.modifyGet fun c hc =>
    h.toRemovalInvariant.detachTransactions height _ hc).bind fun deleted => ?_
  refine .bind (.modify fun c hc => ?_) fun _ => ?_
  · exact h.frame c.transactions c.transactionsBM (height - 1) hc
  · exact (Keeps.read _).bind fun _ => .pure _

theorem keeps_perform {call : TransfersCall} (hsaves : c.Saves call)
    (hc : I c) : (perform age call c).Holds (fun _ => I) I := by
  cases call with
  | addTransaction block tx transfers messages id =>
    exact ((h.keeps_addTransaction block tx transfers messages id).bind fun _ => .pure ()) c hc
  | addTransactionBM block tx messages id =>
    refine Keeps.bind (Keeps.get.bind fun c => .ite (fun _ => .throw) fun _ =>
      .ite (fun _ => .pure false) fun _ => Keeps.bind (.modify fun c hc => ?_) fun _ =>
        .pure true) (fun _ => .pure ()) c hc
    exact h.frame c.transactions _ c.currentHeight hc
  | markTransactionConfirmed block transactionHash globalIndices =>
    exact ((h.keeps_markTransactionConfirmed block transactionHash globalIndices).bind
      fun _ => .pure ()) c hc
  | deleteUnconfirmedTransaction transactionHash =>
    refine Keeps.bind (Keeps.get.bind fun c => ?_) (fun _ => .pure ()) c hc
    cases c.transactions.find? transactionHash with
    | none => exact .pure false
    | some info =>
      refine .ite (fun _ => .pure false) fun _ => ?_
      exact .bind (.modify fun c hc => h.toRemovalInvariant.deleteTransaction transactionHash hc)
        fun _ => .pure true
  | detach height => exact ((h.keeps_detach height).bind fun _ => .pure ()) c hc
  | advanceHeight height => exact ((h.keeps_advanceHeight height).bind fun _ => .pure ()) c hc
  | reload order => exact h.reload hsaves hc

theorem of_reached (hc : Reached age c) : I c := by
  induction hc with
  | start => exact h.empty
  | step _ hsaves hcall ih => exact (h.keeps_perform hsaves ih).leaves hcall

end TransferInvariant

end DarknetCoin
