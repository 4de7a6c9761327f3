import DarknetCoin.Model.TransfersContainer

/-!
# What a wallet has, whatever it shows

The records of a container without their visibility flags, and what every change of a single output
does to them: an output enters a list, leaves it, or goes over to the next. A visibility update does
not show here at all.
-/

namespace DarknetCoin

open Semantics Data TransfersMultiIndex HashedIndex List SpentTransfersMultiIndex

/-- A spent output without its flag. -/
structure SpendingRecord extends TransferInformation where
  spendingBlock : TransactionBlockInfo
  spendingTransactionHash : Hash
  inputInTransaction : Nat
  deriving DecidableEq, Repr

/-- The records of a wallet. -/
@[ext] structure Ledger where
  transactions : List TransactionInformation
  unconfirmed : List TransferInformation
  available : List TransferInformation
  spent : List SpendingRecord

namespace Ledger

variable {transfers : List TransferInformation} {t : TransferInformation}

/-- An output enters a list that does not have its key. -/
def enter (t : TransferInformation) (transfers : List TransferInformation) :
    List TransferInformation :=
  if t.transactionOutputKey ∈ transfers.map fun other => other.transactionOutputKey then transfers
  else t :: transfers

/-- A spent output enters a list that has neither its key nor its descriptor. -/
def enterSpent (r : SpendingRecord) (spent : List SpendingRecord) : List SpendingRecord :=
  if ∃ other ∈ spent, r.transactionOutputKey = other.transactionOutputKey ∨
      r.spentOutputDescriptor = other.spentOutputDescriptor then spent
  else r :: spent

theorem enter_of_fresh (h : t.transactionOutputKey ∉ transfers.map
      fun other => other.transactionOutputKey) : enter t transfers = t :: transfers := if_neg h

theorem enter_of_mem (h : t.transactionOutputKey ∈ transfers.map
      fun other => other.transactionOutputKey) : enter t transfers = transfers := if_pos h

theorem eq_or_mem_of_mem_enter {other : TransferInformation}
    (h : other ∈ enter t transfers) : other = t ∨ other ∈ transfers := by
  unfold enter at h
  split at h
  · exact .inr h
  · exact mem_cons.mp h

/-- The outputs that are or were available. -/
def confirmed (l : Ledger) : List TransferInformation :=
  l.available ++ l.spent.map SpendingRecord.toTransferInformation

end Ledger

namespace TransactionOutputInformation

variable {t : TransactionOutputInformation}

/-- The output is named by a reference and not by a key image. -/
def IsMultisignature (t : TransactionOutputInformation) : Prop :=
  ∃ required term, t.target = .multisignature required term

theorem isMultisignature_iff :
    t.IsMultisignature ↔ ∃ amount index, t.spentOutputDescriptor =
    .multisignature amount index := by
  unfold IsMultisignature spentOutputDescriptor
  cases t.target <;> simp

theorem exists_keyImage (h : ¬t.IsMultisignature) : ∃ keyImage outputKey,
    t.target = .key keyImage outputKey ∧ t.spentOutputDescriptor = .key keyImage := by
  cases htarget : t.target with
  | key keyImage outputKey => exact ⟨_, _, rfl, by rw [spentOutputDescriptor, htarget]⟩
  | multisignature required term => exact absurd ⟨required, term, htarget⟩ h

end TransactionOutputInformation

/-- The record of a spent output. -/
def SpentTransactionOutput.record (s : SpentTransactionOutput) : SpendingRecord where
  toTransferInformation := s.toTransferInformation
  spendingBlock := s.spendingBlock
  spendingTransactionHash := s.spendingTransactionHash
  inputInTransaction := s.inputInTransaction

@[simp] theorem SpentTransactionOutput.record_updateVisibility (keyImage : KeyImage)
    (visible : TransferInformation → Bool) (s : SpentTransactionOutput) :
    (s.updateVisibility keyImage visible).record = s.record := by
  simp [SpentTransactionOutput.record, SpentTransactionOutput.updateVisibility]

/-- The outputs of a container without their flags. -/
def TransfersMultiIndex.transfers (index : TransfersMultiIndex) : List TransferInformation :=
  index.toList.map TransactionOutputInformationEx.toTransferInformation

namespace TransfersMultiIndex

variable (index : TransfersMultiIndex)

@[simp] theorem transfers_updateVisibility (keyImage : KeyImage)
    (visible : TransferInformation → Bool) :
    (index.updateVisibility keyImage visible).transfers = index.transfers := by
  simp [transfers, updateVisibility]

theorem transfers_emplace (t : TransactionOutputInformationEx) :
    transfers (index.emplace t) = Ledger.enter t.toTransferInformation index.transfers := by
  by_cases hfresh : ∀ other ∈ index.toList, ¬t.SameOutput other
  · have hnew : t.transactionOutputKey ∉
        index.transfers.map fun other => other.transactionOutputKey := by
      simpa [transfers, TransactionOutputInformationEx.SameOutput, eq_comm] using hfresh
    rw [Ledger.enter_of_fresh hnew, transfers, toList_emplace_of_fresh hfresh]
    rfl
  · simp only [not_forall, not_not] at hfresh
    obtain ⟨other, hother, hsame⟩ := hfresh
    have hold : t.transactionOutputKey ∈
        index.transfers.map fun other => other.transactionOutputKey := by
      rw [transfers, map_map]
      exact mem_map.mpr ⟨other, hother, .symm hsame⟩
    rw [Ledger.enter_of_mem hold, emplace_of_clash hother hsame]

theorem transfers_filter (key : TransactionOutputKey) :
    transfers (index.filter fun other => other.transactionOutputKey ≠ key) =
      index.transfers.filter fun other => other.transactionOutputKey ≠ key := by
  rw [transfers, transfers, filter_map]
  rfl

end TransfersMultiIndex

/-- The spent outputs of a container without their flags. -/
def SpentTransfersMultiIndex.records (index : SpentTransfersMultiIndex) : List SpendingRecord :=
  index.toList.map SpentTransactionOutput.record

namespace SpentTransfersMultiIndex

variable (index : SpentTransfersMultiIndex)

@[simp] theorem records_updateVisibility (keyImage : KeyImage)
    (visible : TransferInformation → Bool) :
    (index.updateVisibility keyImage visible).records = index.records := by
  simp [records, updateVisibility]

theorem records_emplace (s : SpentTransactionOutput) :
    records (index.emplace s) = Ledger.enterSpent s.record index.records := by
  by_cases hfresh : ∀ other ∈ index.toList, ¬s.SameOutput other
  · have hnew : ¬∃ other ∈ index.records, s.record.transactionOutputKey =
        other.transactionOutputKey ∨
          s.record.spentOutputDescriptor = other.spentOutputDescriptor := by
      rintro ⟨other, hother, hsame⟩
      obtain ⟨entry, hentry, rfl⟩ := mem_map.mp hother
      exact hfresh entry hentry hsame
    rw [Ledger.enterSpent, if_neg hnew, records, toList_emplace_of_fresh hfresh]
    rfl
  · simp only [not_forall, not_not] at hfresh
    obtain ⟨other, hother, hsame⟩ := hfresh
    have hold : ∃ other ∈ index.records, s.record.transactionOutputKey =
        other.transactionOutputKey ∨ s.record.spentOutputDescriptor = other.spentOutputDescriptor :=
      ⟨other.record, mem_map_of_mem hother, hsame⟩
    rw [Ledger.enterSpent, if_pos hold, emplace_of_clash hother hsame]

theorem records_filter (key : TransactionOutputKey) :
    records (index.filter fun other => other.transactionOutputKey ≠ key) =
      index.records.filter fun other => other.transactionOutputKey ≠ key := by
  rw [records, records, filter_map]
  rfl

end SpentTransfersMultiIndex

namespace TransfersContainer

/-- The records of a container. -/
def ledger (c : TransfersContainer) : Ledger where
  transactions := c.transactions.toList
  unconfirmed := c.unconfirmedTransfers.transfers
  available := c.availableTransfers.transfers
  spent := c.spentTransfers.records

section Visibility

variable (keyImage : KeyImage) (target : TransferTarget) (c : TransfersContainer)

theorem updateTransfersVisibility_fields :
    (c.updateTransfersVisibility keyImage).ledger = c.ledger ∧
      (c.updateTransfersVisibility keyImage).transactions = c.transactions ∧
      (c.updateTransfersVisibility keyImage).transactionsBM = c.transactionsBM ∧
      (c.updateTransfersVisibility keyImage).transfersUnlockJobs = c.transfersUnlockJobs ∧
      (c.updateTransfersVisibility keyImage).currentHeight = c.currentHeight := by
  unfold updateTransfersVisibility
  split
  · simp [ledger]
  · split
    · simp [ledger]
    · simp [ledger]

theorem updateVisibilityOf_fields :
    (c.updateVisibilityOf target).ledger = c.ledger ∧ (c.updateVisibilityOf target).transactions =
    c.transactions ∧ (c.updateVisibilityOf target).transactionsBM = c.transactionsBM ∧
      (c.updateVisibilityOf target).transfersUnlockJobs = c.transfersUnlockJobs ∧
      (c.updateVisibilityOf target).currentHeight = c.currentHeight := by
  cases target with
  | key keyImage _ => exact c.updateTransfersVisibility_fields keyImage
  | multisignature _ _ => exact ⟨rfl, rfl, rfl, rfl, rfl⟩

@[simp] theorem ledger_updateVisibilityOf : (c.updateVisibilityOf target).ledger = c.ledger :=
  (c.updateVisibilityOf_fields target).1

@[simp] theorem transactions_updateVisibilityOf : (c.updateVisibilityOf target).transactions =
    c.transactions :=
  (c.updateVisibilityOf_fields target).2.1

@[simp] theorem transactionsBM_updateVisibilityOf : (c.updateVisibilityOf target).transactionsBM =
    c.transactionsBM :=
  (c.updateVisibilityOf_fields target).2.2.1

@[simp] theorem transfersUnlockJobs_updateVisibilityOf :
    (c.updateVisibilityOf target).transfersUnlockJobs = c.transfersUnlockJobs :=
  (c.updateVisibilityOf_fields target).2.2.2.1

@[simp] theorem currentHeight_updateVisibilityOf : (c.updateVisibilityOf target).currentHeight =
    c.currentHeight :=
  (c.updateVisibilityOf_fields target).2.2.2.2

theorem updateVisibility_of_isMultisignature {t : TransactionOutputInformationEx}
    (h : t.IsMultisignature) (visible : TransferInformation → Bool) :
    t.updateVisibility keyImage visible = t := by
  obtain ⟨required, term, htarget⟩ := h
  simp [TransactionOutputInformationEx.updateVisibility,
    TransactionOutputInformation.spentOutputDescriptor, htarget]

variable {c} in
theorem mem_unconfirmed_updateVisibilityOf {t : TransactionOutputInformationEx}
    (ht : t ∈ c.unconfirmedTransfers.toList) (h : t.IsMultisignature) :
    t ∈ (c.updateVisibilityOf target).unconfirmedTransfers.toList := by
  have hmap : ∀ keyImage visible, t ∈ (updateVisibility keyImage visible
      c.unconfirmedTransfers).toList := fun keyImage visible =>
    mem_map.mpr ⟨t, ht, updateVisibility_of_isMultisignature keyImage h visible⟩
  unfold updateVisibilityOf
  cases target with
  | key keyImage outputKey =>
    dsimp only
    unfold updateTransfersVisibility
    split
    · exact hmap keyImage _
    · split
      · exact hmap keyImage _
      · exact hmap keyImage _
  | multisignature required term => exact ht

variable {c} in
theorem mem_spent_updateVisibilityOf {s : SpentTransactionOutput}
    (hs : s ∈ c.spentTransfers.toList) (h : s.IsMultisignature) :
    s ∈ (c.updateVisibilityOf target).spentTransfers.toList := by
  unfold updateVisibilityOf
  cases target with
  | key keyImage outputKey =>
    dsimp only
    unfold updateTransfersVisibility
    split
    · refine mem_map.mpr ⟨s, hs, ?_⟩
      rw [SpentTransactionOutput.updateVisibility, updateVisibility_of_isMultisignature keyImage h]
    · split
      · exact hs
      · exact hs
  | multisignature required term => exact hs

end Visibility

section Ranges

variable {c : TransfersContainer} {descriptor : SpentOutputDescriptor}

theorem availableOf_eq_nil_iff : c.availableOf descriptor = [] ↔
    ∀ t ∈ c.ledger.available, t.spentOutputDescriptor ≠ descriptor := by
  simp [availableOf, ledger, transfers]

theorem spentOf_eq_nil_iff : c.spentOf descriptor = [] ↔
    ∀ r ∈ c.ledger.spent, r.spentOutputDescriptor ≠ descriptor := by
  simp [spentOf, ledger, records, SpentTransactionOutput.record]

/-- An output is known when it is a multisignature output and a confirmed one has its reference. -/
theorem transferExists_eq_false_iff {t : TransactionOutputInformation} :
    c.transferExists t = false ↔ (t.IsMultisignature →
      ∀ other ∈ c.ledger.confirmed, other.spentOutputDescriptor ≠ t.spentOutputDescriptor) := by
  unfold transferExists TransactionOutputInformation.IsMultisignature
  cases htarget : t.target with
  | key keyImage outputKey => simp
  | multisignature required term =>
    have hnone :
        (c.availableOf t.spentOutputDescriptor = [] ∧ c.spentOf t.spentOutputDescriptor = []) ↔
        ∀ other ∈ c.ledger.confirmed, other.spentOutputDescriptor ≠ t.spentOutputDescriptor := by
      rw [availableOf_eq_nil_iff, spentOf_eq_nil_iff]
      simp [Ledger.confirmed, or_imp, forall_and]
    simp only [Bool.or_eq_false_iff, decide_eq_false_iff_not, not_not, hnone]
    exact ⟨fun h _ => h, fun h => h ⟨required, term, rfl⟩⟩

end Ranges

section Transfers

variable {age : Nat} {c : TransfersContainer}
  {t : TransactionOutputInformationEx} {s : SpentTransactionOutput}

theorem ledger_addUnconfirmed : (c.addUnconfirmed t).ledger =
      { c.ledger with
        unconfirmed := Ledger.enter t.toTransferInformation c.ledger.unconfirmed } := by
  rw [addUnconfirmed, ledger_updateVisibilityOf]
  simp [ledger, transfers_emplace]

theorem ledger_addAvailable : (c.addAvailable age t).ledger =
      { c.ledger with available := Ledger.enter t.toTransferInformation c.ledger.available } := by
  rw [addAvailable, ledger_updateVisibilityOf]
  simp [ledger, addUnlockJob, transfers_emplace]

theorem ledger_spendTransfer {block : TransactionBlockInfo} {transactionHash : Hash}
    {inputIndex : Nat} :
    (c.spendTransfer block transactionHash inputIndex t).ledger =
      { c.ledger with
        spent := Ledger.enterSpent
          ⟨t.toTransferInformation, block, transactionHash, inputIndex⟩ c.ledger.spent
        available := c.ledger.available.filter fun other =>
          other.transactionOutputKey ≠ t.transactionOutputKey } := by
  rw [spendTransfer, ledger_updateVisibilityOf]
  simp only [ledger, records_emplace, transfers_filter]
  rfl

theorem ledger_unspendTransfer :
    (c.unspendTransfer age s).ledger =
      { c.ledger with
        available := Ledger.enter s.toTransferInformation c.ledger.available
        spent := c.ledger.spent.filter fun other =>
          other.transactionOutputKey ≠ s.transactionOutputKey } := by
  rw [unspendTransfer, ledger_updateVisibilityOf]
  simp only [ledger, addUnlockJob, records_filter, transfers_emplace]

theorem ledger_deleteUnconfirmed :
    (c.deleteUnconfirmed t).ledger =
      { c.ledger with
        unconfirmed := c.ledger.unconfirmed.filter fun other =>
          other.transactionOutputKey ≠ t.transactionOutputKey } := by
  rw [deleteUnconfirmed, ledger_updateVisibilityOf]
  simp only [ledger, transfers_filter]

theorem ledger_deleteAvailable :
    (c.deleteAvailable t).ledger =
      { c.ledger with
        available := c.ledger.available.filter fun other =>
          other.transactionOutputKey ≠ t.transactionOutputKey } := by
  rw [deleteAvailable, ledger_updateVisibilityOf]
  simp only [ledger, deleteUnlockJob, transfers_filter]

theorem ledger_confirmTransfer {confirmed : TransactionOutputInformationEx} :
    (c.confirmTransfer age t confirmed).ledger =
      { c.ledger with
        available := Ledger.enter confirmed.toTransferInformation c.ledger.available
        unconfirmed := c.ledger.unconfirmed.filter fun other =>
          other.transactionOutputKey ≠ t.transactionOutputKey } := by
  rw [confirmTransfer, ledger_updateVisibilityOf]
  simp only [ledger, addUnlockJob, transfers_filter, transfers_emplace]

end Transfers

section Transactions

variable {age : Nat} {c : TransfersContainer} (transactionHash : Hash)

/-- The removal of the transfers of a transaction leaves the transactions and the height alone. -/
theorem deleteTransactionTransfers_fields :
    (c.deleteTransactionTransfers age transactionHash).transactions = c.transactions ∧
      (c.deleteTransactionTransfers age transactionHash).transactionsBM = c.transactionsBM ∧
      (c.deleteTransactionTransfers age transactionHash).currentHeight = c.currentHeight := by
  have hfold : ∀ {α : Type} (f : TransfersContainer → α → TransfersContainer), (∀ c a,
      (f c a).transactions = c.transactions ∧ (f c a).transactionsBM = c.transactionsBM ∧
        (f c a).currentHeight = c.currentHeight) → ∀ (records : List α) (c : TransfersContainer),
      (records.foldl f c).transactions = c.transactions ∧ (records.foldl f c).transactionsBM =
        c.transactionsBM ∧ (records.foldl f c).currentHeight = c.currentHeight := by
    intro α f hf records
    induction records with
    | nil => exact fun c => ⟨rfl, rfl, rfl⟩
    | cons a records ih =>
      intro c
      obtain ⟨htxs, hmsgs, hheight⟩ := hf c a
      rw [foldl_cons, (ih _).1, (ih _).2.1, (ih _).2.2]
      exact ⟨htxs, hmsgs, hheight⟩
  unfold deleteTransactionTransfers
  have havail := hfold deleteAvailable fun c t => by simp [deleteAvailable, deleteUnlockJob]
  have hunconf := hfold deleteUnconfirmed fun c t => by simp [deleteUnconfirmed]
  have hspent := hfold (unspendTransfer age) fun c s => by
    simp [unspendTransfer, addUnlockJob]
  rw [(havail _ _).1, (havail _ _).2.1, (havail _ _).2.2, (hunconf _ _).1, (hunconf _ _).2.1,
    (hunconf _ _).2.2]
  exact hspent _ c

@[simp] theorem transactions_deleteTransaction :
    (c.deleteTransaction age transactionHash).transactions =
    c.transactions.erase transactionHash := by
  rw [deleteTransaction, (deleteTransactionTransfers_fields transactionHash).1]

@[simp] theorem transactionsBM_deleteTransaction :
    (c.deleteTransaction age transactionHash).transactionsBM = c.transactionsBM :=
  (deleteTransactionTransfers_fields transactionHash).2.1

theorem reload_perm {order : SavedOrder} (horder : order.Of c) :
    (c.reload order).unconfirmedTransfers.toList.Perm c.unconfirmedTransfers.toList ∧
      (c.reload order).availableTransfers.toList.Perm c.availableTransfers.toList ∧
      (c.reload order).spentTransfers.toList.Perm c.spentTransfers.toList := by
  obtain ⟨-, -, hunconf, havail, hspent⟩ := horder
  have htransfers : ∀ {records : List TransactionOutputInformationEx} {index : TransfersMultiIndex},
      records.Perm index.toList →
          (ofList records : TransfersMultiIndex).toList.Perm index.toList := by
    intro records index hperm
    have hlist : (ofList records : TransfersMultiIndex).toList = records.reverse :=
      toList_ofList (fun _ _ hsame => .symm hsame) hperm
    rw [hlist]
    exact (reverse_perm records).trans hperm
  have hspentList : (ofList order.spentTransfers : SpentTransfersMultiIndex).toList =
      order.spentTransfers.reverse :=
    toList_ofList (fun _ _ hsame => hsame.imp .symm .symm) hspent
  refine ⟨htransfers hunconf, htransfers havail, ?_⟩
  show (ofList order.spentTransfers : SpentTransfersMultiIndex).toList.Perm _
  rw [hspentList]
  exact (reverse_perm _).trans hspent

end Transactions

end TransfersContainer

end DarknetCoin
