import DarknetCoin.Theorems.TransferInvariant

/-!
# What a wallet shows

Of the outputs with one key image at most one is shown: the spent one, else an available one of the
earliest block, else the only unconfirmed one. Every change of an output is followed by an update
that restores this.
-/

namespace DarknetCoin

open Semantics Data HashedIndex TransactionOutputInformationEx List TransactionOutputInformation

namespace TransferInformation

theorem less_iff {a b : TransferInformation} : a.less b = true ↔ a.blockHeight < b.blockHeight ∨
    a.blockHeight = b.blockHeight ∧ a.transactionIndex < b.transactionIndex := by
  simp [less]

theorem not_less_iff {a b : TransferInformation} : a.less b = false ↔
    b.blockHeight < a.blockHeight ∨
      b.blockHeight = a.blockHeight ∧ b.transactionIndex ≤ a.transactionIndex := by
  rw [← Bool.not_eq_true, less_iff]
  omega

end TransferInformation

variable {range : List TransactionOutputInformationEx}

theorem minElement_eq_none : minElement range = none ↔ range = [] := by
  cases range with
  | nil => simp [minElement]
  | cons t range =>
    unfold minElement
    split
    · simp
    · split <;> simp

open TransferInformation in
/-- The earliest output is in the range, and none is before it. -/
theorem minElement_spec {earliest : TransactionOutputInformationEx}
    (h : minElement range = some earliest) :
    earliest ∈ range ∧ ∀ t ∈ range, t.less earliest.toTransferInformation = false := by
  induction range generalizing earliest with
  | nil => cases h
  | cons t range ih =>
    unfold minElement at h
    split at h
    · rename_i hnone
      cases h
      simp [minElement_eq_none.mp hnone, not_less_iff]
    · rename_i least hleast
      obtain ⟨hmem, hall⟩ := ih hleast
      split at h
      · rename_i hless
        cases h
        refine ⟨mem_cons_of_mem t hmem, forall_mem_cons.mpr ⟨?_, hall⟩⟩
        rw [less_iff] at hless
        rw [not_less_iff]
        omega
      · rename_i hless
        cases h
        refine ⟨mem_cons_self, forall_mem_cons.mpr ⟨?_, fun other hother => ?_⟩⟩
        · simp [not_less_iff]
        · have hother := hall other hother
          rw [Bool.not_eq_true, not_less_iff] at hless
          rw [not_less_iff] at hother ⊢
          omega

/-- Which of the outputs with one descriptor are shown. -/
def Shown : SpentOutputDescriptor → List TransactionOutputInformationEx →
    List TransactionOutputInformationEx → List SpentTransactionOutput → Prop
  | .key _, unconfirmed, available, spent =>
    (∀ s ∈ spent, s.visible = true) ∧
    (spent ≠ [] → ∀ t ∈ available, t.visible = false) ∧
    (spent = [] → available ≠ [] → ∃ earliest ∈ available, earliest.visible = true ∧
      (∀ t ∈ available, t.less earliest.toTransferInformation = false) ∧
      ∀ t ∈ available, t.visible = true → t = earliest) ∧
    ∀ t ∈ unconfirmed, t.visible = true ↔ spent = [] ∧ available = [] ∧ unconfirmed.length = 1
  | .multisignature _ _, unconfirmed, available, spent =>
    (∀ s ∈ spent, s.visible = true) ∧ (∀ t ∈ available, t.visible = true) ∧ ∀ t ∈ unconfirmed,
      t.visible = true

theorem Shown.perm {descriptor : SpentOutputDescriptor}
    {unconfirmed unconfirmed' available available' : List TransactionOutputInformationEx}
    {spent spent' : List SpentTransactionOutput} (h : Shown descriptor unconfirmed available spent)
    (hunconf : unconfirmed'.Perm unconfirmed) (havail : available'.Perm available)
    (hspent : spent'.Perm spent) : Shown descriptor unconfirmed' available' spent' := by
  have hspentNil : spent' = [] ↔ spent = [] :=
    ⟨fun h => (h ▸ hspent).nil_eq.symm, fun h => (h ▸ hspent).eq_nil⟩
  have havailableNil : available' = [] ↔ available = [] :=
    ⟨fun h => (h ▸ havail).nil_eq.symm, fun h => (h ▸ havail).eq_nil⟩
  cases descriptor with
  | key keyImage =>
    simpa [Shown, hunconf.mem_iff, havail.mem_iff, hspent.mem_iff, hspentNil,
      havailableNil, hunconf.length_eq] using h
  | multisignature amount index =>
    simpa only [Shown, hunconf.mem_iff, havail.mem_iff, hspent.mem_iff] using h

namespace TransfersContainer

variable {c c' : TransfersContainer} {age : Nat} {descriptor : SpentOutputDescriptor}
  {t : TransactionOutputInformationEx}

/-- The outputs with the descriptor are shown as they should. -/
def ShowsOf (c : TransfersContainer) (descriptor : SpentOutputDescriptor) : Prop :=
  Shown descriptor (c.unconfirmedOf descriptor) (c.availableOf descriptor) (c.spentOf descriptor)

/-- The outputs of a container are shown as they should. -/
def Shows (c : TransfersContainer) : Prop := ∀ descriptor, c.ShowsOf descriptor

/-- The outputs with the descriptor are the same, with what is shown of them. -/
structure AgreesAt (descriptor : SpentOutputDescriptor) (c c' : TransfersContainer) : Prop where
  unconfirmed : c'.unconfirmedOf descriptor = c.unconfirmedOf descriptor
  available : c'.availableOf descriptor = c.availableOf descriptor
  spent : c'.spentOf descriptor = c.spentOf descriptor

theorem AgreesAt.refl : AgreesAt descriptor c c := ⟨rfl, rfl, rfl⟩

theorem AgreesAt.trans {c'' : TransfersContainer} (h : AgreesAt descriptor c c')
    (h' : AgreesAt descriptor c' c'') : AgreesAt descriptor c c'' :=
  ⟨h'.unconfirmed.trans h.unconfirmed, h'.available.trans h.available, h'.spent.trans h.spent⟩

theorem AgreesAt.showsOf (h : AgreesAt descriptor c c') (hshows : c.ShowsOf descriptor) :
    c'.ShowsOf descriptor := by
  rw [ShowsOf, h.unconfirmed, h.available, h.spent]
  exact hshows

/-- The entries with a descriptor after those with the descriptor `key` were changed. -/
theorem filter_map_descriptor {α : Type*} {descriptorOf : α → SpentOutputDescriptor}
    {update changed : α → α} {key : SpentOutputDescriptor}
    (hdesc : ∀ a, descriptorOf (update a) = descriptorOf a)
    (hupdate : ∀ a, update a = if descriptorOf a = key then changed a else a)
    (descriptor : SpentOutputDescriptor) (entries : List α) :
    (entries.map update).filter (fun a => descriptorOf a = descriptor) = if descriptor = key then
        (entries.filter fun a => descriptorOf a = descriptor).map changed
      else entries.filter fun a => descriptorOf a = descriptor := by
  have hfilter : (entries.map update).filter (fun a => descriptorOf a = descriptor) =
      (entries.filter fun a => descriptorOf a = descriptor).map update := by
    rw [filter_map]
    congr 1
    exact filter_congr fun a _ => by simp [hdesc]
  have hof : ∀ a ∈ entries.filter fun a => descriptorOf a = descriptor,
      descriptorOf a = descriptor := fun a ha => of_decide_eq_true (mem_filter.mp ha).2
  rw [hfilter]
  split
  · rename_i heq
    exact map_congr_left fun a ha => by rw [hupdate, if_pos ((hof a ha).trans heq)]
  · rename_i hne
    refine (map_congr_left fun a ha => ?_).trans (map_id _)
    rw [hupdate, if_neg (by rwa [hof a ha]), id_eq]

variable (keyImage : KeyImage) (visible : TransferInformation → Bool)

theorem filter_updateVisibility (transfers : List TransactionOutputInformationEx) :
    (transfers.map (updateVisibility keyImage visible)).filter
    (fun t => t.spentOutputDescriptor = descriptor) = if descriptor = .key keyImage then
      (transfers.filter fun t => t.spentOutputDescriptor = descriptor).map fun t =>
          { t with visible := visible t.toTransferInformation }
      else transfers.filter fun t => t.spentOutputDescriptor = descriptor :=
  filter_map_descriptor (fun _ => by split <;> rfl) (fun _ => rfl) descriptor transfers

theorem filter_updateVisibility_spent (spent : List SpentTransactionOutput) :
    (spent.map (.updateVisibility keyImage visible)).filter
    (fun s => s.spentOutputDescriptor = descriptor) = if descriptor = .key keyImage then
      (spent.filter fun s => s.spentOutputDescriptor = descriptor).map fun s =>
          { s with visible := visible s.toTransferInformation }
      else spent.filter fun s => s.spentOutputDescriptor = descriptor := by
  refine filter_map_descriptor (fun s => ?_) (fun s => ?_) descriptor spent
  · simp [SpentTransactionOutput.updateVisibility]
  · unfold SpentTransactionOutput.updateVisibility updateVisibility
    split <;> rfl

/-- An update of a key image shows its outputs as they should be. -/
theorem showsOf_updateTransfersVisibility_self (c : TransfersContainer) :
    (c.updateTransfersVisibility keyImage).ShowsOf (.key keyImage) := by
  unfold updateTransfersVisibility
  split
  · rename_i hspent
    unfold spentOf at hspent
    simp only [ShowsOf, unconfirmedOf, availableOf, spentOf, TransfersMultiIndex.updateVisibility,
      SpentTransfersMultiIndex.updateVisibility, toList_update, filter_updateVisibility,
      filter_updateVisibility_spent, if_true, Shown, forall_mem_map]
    simp [hspent]
  · rename_i hspent
    have hspent : c.spentOf (.key keyImage) = [] := not_not.mp hspent
    split
    · rename_i earliest hearliest
      obtain ⟨hmem, hleast⟩ := minElement_spec hearliest
      have hne : c.availableOf (.key keyImage) ≠ [] := ne_nil_of_mem hmem
      -- the keys of available outputs are different, so only one output is shown
      have hkey : ∀ t ∈ c.availableOf (.key keyImage),
          t.transactionOutputKey = earliest.transactionOutputKey → t = earliest := by
        intro t ht heq
        exact eq_of_clash (fun _ _ hsame => .symm hsame) (mem_filter.mp ht).1
          (mem_filter.mp hmem).1 heq
      unfold availableOf at hmem hne hleast hkey
      unfold spentOf at hspent
      simp only [ShowsOf, unconfirmedOf, availableOf, spentOf, TransfersMultiIndex.updateVisibility,
        toList_update, filter_updateVisibility, hspent]
      refine ⟨by simp, by simp, fun _ _ => ?_, forall_mem_map.mpr (by simp [hne])⟩
      refine ⟨_, mem_map_of_mem hmem, by simp, ?_, ?_⟩
      · intro t ht
        obtain ⟨entry, hentry, rfl⟩ := mem_map.mp ht
        exact hleast entry hentry
      · intro t ht hvisible
        obtain ⟨entry, hentry, rfl⟩ := mem_map.mp ht
        rw [hkey entry hentry (by simpa using hvisible)]
    · rename_i hnone
      have havail := minElement_eq_none.mp hnone
      unfold availableOf at havail
      unfold spentOf at hspent
      simp only [ShowsOf, unconfirmedOf, availableOf, spentOf, TransfersMultiIndex.updateVisibility,
        toList_update, filter_updateVisibility, if_true, hspent, havail, Shown,
        forall_mem_map]
      simp

theorem agreesAt_updateTransfersVisibility {keyImage : KeyImage}
    (hne : descriptor ≠ .key keyImage) :
    AgreesAt descriptor c (c.updateTransfersVisibility keyImage) := by
  unfold updateTransfersVisibility
  split
  · constructor <;> simp [unconfirmedOf, availableOf, spentOf, TransfersMultiIndex.updateVisibility,
      SpentTransfersMultiIndex.updateVisibility, filter_updateVisibility,
        filter_updateVisibility_spent, if_neg hne]
  · split <;> constructor <;> simp [unconfirmedOf, availableOf, spentOf,
      TransfersMultiIndex.updateVisibility, filter_updateVisibility, if_neg hne]

theorem agreesAt_updateVisibilityOf {t : TransactionOutputInformation}
    (hne : descriptor ≠ t.spentOutputDescriptor) :
    AgreesAt descriptor c (c.updateVisibilityOf t.target) := by
  cases htarget : t.target with
  | key keyImage outputKey =>
    rw [spentOutputDescriptor, htarget] at hne
    exact agreesAt_updateTransfersVisibility hne
  | multisignature required term => exact .refl

/-- After a change of outputs with one descriptor, an update of them restores what is shown. -/
theorem shows_updateVisibilityOf {t : TransactionOutputInformation}
    (hother : ∀ descriptor ≠ t.spentOutputDescriptor, c.ShowsOf descriptor)
    (hself : t.IsMultisignature → c.ShowsOf t.spentOutputDescriptor) :
    (c.updateVisibilityOf t.target).Shows := by
  intro descriptor
  by_cases heq : descriptor = t.spentOutputDescriptor
  · rw [heq]
    cases htarget : t.target with
    | key keyImage outputKey =>
      rw [spentOutputDescriptor, htarget]
      exact c.showsOf_updateTransfersVisibility_self keyImage
    | multisignature required term => exact hself ⟨required, term, htarget⟩
  · exact (agreesAt_updateVisibilityOf heq).showsOf (hother descriptor heq)

theorem showsOf_iff_of_isMultisignature {t : TransactionOutputInformation}
    (h : t.IsMultisignature) : c.ShowsOf t.spentOutputDescriptor ↔
      (∀ s ∈ c.spentTransfers.toList, s.spentOutputDescriptor = t.spentOutputDescriptor →
        s.visible = true) ∧ (∀ other ∈ c.availableTransfers.toList,
        other.spentOutputDescriptor = t.spentOutputDescriptor → other.visible = true) ∧
      ∀ other ∈ c.unconfirmedTransfers.toList,
        other.spentOutputDescriptor = t.spentOutputDescriptor → other.visible = true := by
  obtain ⟨amount, index, hdesc⟩ := isMultisignature_iff.mp h
  rw [hdesc]
  simp [ShowsOf, Shown, spentOf, availableOf, unconfirmedOf]

/-- Multisignature outputs are shown as they should if every one that was not recorded is shown. -/
theorem Shows.showsOf_of_mem {t : TransactionOutputInformation} (h : c.Shows)
    (hm : t.IsMultisignature)
    (hspent : ∀ s ∈ c'.spentTransfers.toList, s.visible = true ∨ s ∈ c.spentTransfers.toList)
    (havail : ∀ other ∈ c'.availableTransfers.toList, other.visible = true ∨
      other ∈ c.availableTransfers.toList) (hunconf : ∀ other ∈ c'.unconfirmedTransfers.toList,
      other.visible = true ∨ other ∈ c.unconfirmedTransfers.toList) :
      c'.ShowsOf t.spentOutputDescriptor := by
  obtain ⟨hspent', havailable', hunconfirmed'⟩ := (showsOf_iff_of_isMultisignature hm).mp (h _)
  refine (showsOf_iff_of_isMultisignature hm).mpr ⟨fun s hs heq => ?_, fun other hother heq => ?_,
    fun other hother heq => ?_⟩
  · exact (hspent s hs).elim id fun hold => hspent' s hold heq
  · exact (havail other hother).elim id fun hold => havailable' other hold heq
  · exact (hunconf other hother).elim id fun hold => hunconfirmed' other hold heq

variable {index : TransfersMultiIndex}

theorem visible_or_mem_of_mem_emplace {other : TransactionOutputInformationEx}
    (hvisible : t.visible = true)
    (hother : other ∈ (index.emplace t).toList) : other.visible = true ∨ other ∈ index.toList :=
  (eq_or_mem_of_mem_emplace hother).imp_left (by rintro rfl; exact hvisible)

theorem eq_of_mem_transfers {t : TransferInformation}
    {entry : TransactionOutputInformationEx} (ht : t ∈ index.transfers)
    (hentry : entry ∈ index.toList) (h : entry.transactionOutputKey = t.transactionOutputKey) :
    entry.toTransferInformation = t := by
  obtain ⟨other, hother, rfl⟩ := mem_map.mp ht
  exact congrArg _ (eq_of_clash (fun _ _ hsame => .symm hsame) hentry hother h)

theorem eq_of_mem_records {index : SpentTransfersMultiIndex} {r : SpendingRecord}
    {entry : SpentTransactionOutput} (hr : r ∈ index.records) (hentry : entry ∈ index.toList)
    (h : entry.transactionOutputKey = r.transactionOutputKey) : entry.record = r := by
  obtain ⟨other, hother, rfl⟩ := mem_map.mp hr
  have hsymm : ∀ a b : SpentTransactionOutput, a.SameOutput b → b.SameOutput a := fun a b hsame =>
    hsame.imp .symm .symm
  exact congrArg _ (eq_of_clash hsymm hentry hother (.inl h))

/-- The removal of an output does not touch outputs with other descriptors. -/
theorem filter_descriptor_filter_key {t : TransferInformation}
    (ht : t ∈ index.transfers) (hne : descriptor ≠ t.spentOutputDescriptor) :
    (index.filter fun other => other.transactionOutputKey ≠ t.transactionOutputKey).toList.filter
        (fun other => other.spentOutputDescriptor = descriptor) =
      index.toList.filter fun other => other.spentOutputDescriptor = descriptor := by
  refine filter_toList_filter fun entry hentry hdesc => ?_
  refine decide_eq_true fun hkey => hne ?_
  rw [← of_decide_eq_true hdesc, eq_of_mem_transfers ht hentry hkey]

theorem agreesAt_emplaceUnconfirmed (hne : descriptor ≠ t.spentOutputDescriptor) :
    AgreesAt descriptor c { c with unconfirmedTransfers := c.unconfirmedTransfers.emplace t } :=
  ⟨filter_toList_emplace (by simp [hne.symm]), rfl, rfl⟩

theorem shows_addUnconfirmed (hvisible : t.visible = true) (h : c.Shows) :
    (c.addUnconfirmed t).Shows := by
  refine shows_updateVisibilityOf (fun descriptor hne => ?_) fun hm => ?_
  · exact (agreesAt_emplaceUnconfirmed hne).showsOf (h descriptor)
  · exact h.showsOf_of_mem hm (fun _ => .inr) (fun _ => .inr) fun _ =>
      visible_or_mem_of_mem_emplace hvisible

theorem shows_addAvailable (hvisible : t.visible = true) (h : c.Shows) :
    (c.addAvailable age t).Shows := by
  refine shows_updateVisibilityOf (fun descriptor hne => ?_) fun hm => ?_
  · exact AgreesAt.showsOf (c := c) ⟨rfl, filter_toList_emplace (by simp [hne.symm]), rfl⟩
      (h descriptor)
  · exact h.showsOf_of_mem hm (fun _ => .inr) (fun _ => visible_or_mem_of_mem_emplace hvisible)
      fun _ => .inr

variable (block : TransactionBlockInfo)

theorem agreesAt_moveToSpent (transactionHash : Hash) (inputIndex : Nat)
    (ht : t ∈ c.availableTransfers.toList) (hne : descriptor ≠ t.spentOutputDescriptor) :
    AgreesAt descriptor c { c.deleteUnlockJob t.toTransferInformation with
      spentTransfers := c.spentTransfers.emplace
        { t with
          spendingBlock := block
          spendingTransactionHash := transactionHash
          inputInTransaction := inputIndex }
      availableTransfers := c.availableTransfers.filter fun other =>
        other.transactionOutputKey ≠ t.transactionOutputKey } :=
  ⟨rfl, filter_descriptor_filter_key (mem_map_of_mem ht) hne,
    filter_toList_emplace (by simp [hne.symm])⟩

theorem shows_spendTransfer (transactionHash : Hash) (inputIndex : Nat)
    (ht : t ∈ c.availableTransfers.toList)
    (h : c.Shows) : (c.spendTransfer block transactionHash inputIndex t).Shows := by
  refine shows_updateVisibilityOf (fun descriptor hne => ?_) fun hm => ?_
  · exact (agreesAt_moveToSpent block transactionHash inputIndex ht hne).showsOf (h descriptor)
  · have hvisible := ((showsOf_iff_of_isMultisignature hm).mp (h _)).2.1 t ht rfl
    refine h.showsOf_of_mem hm (fun s hs => ?_) (fun other hother => .inr (mem_filter.mp hother).1)
      fun _ => .inr
    exact (eq_or_mem_of_mem_emplace hs).imp_left (by rintro rfl; exact hvisible)

theorem agreesAt_moveToAvailable {s : SpentTransactionOutput} (hs : c.HasSpent s)
    (hne : descriptor ≠ s.spentOutputDescriptor) :
    AgreesAt descriptor c { c.addUnlockJob age s.toTransferInformation with
      availableTransfers := c.availableTransfers.emplace s.toTransactionOutputInformationEx
      spentTransfers := c.spentTransfers.filter fun other =>
        other.transactionOutputKey ≠ s.transactionOutputKey } := by
  refine ⟨rfl, filter_toList_emplace (by simp [hne.symm]), ?_⟩
  refine filter_toList_filter fun entry hentry hdesc => decide_eq_true fun hkey => hne ?_
  have hrecord := eq_of_mem_records hs.1 hentry hkey
  rw [← of_decide_eq_true hdesc]
  exact congrArg (fun r : SpendingRecord => r.spentOutputDescriptor) hrecord

theorem shows_unspendTransfer {s : SpentTransactionOutput}
    (hs : c.HasSpent s) (h : c.Shows) : (c.unspendTransfer age s).Shows := by
  refine shows_updateVisibilityOf (fun descriptor hne => ?_) fun hm => ?_
  · exact (agreesAt_moveToAvailable hs hne).showsOf (h descriptor)
  · have hvisible := ((showsOf_iff_of_isMultisignature hm).mp (h _)).1 s (hs.2 hm) rfl
    exact h.showsOf_of_mem hm (fun other hother => .inr (mem_filter.mp hother).1)
      (fun _ => visible_or_mem_of_mem_emplace hvisible) fun _ => .inr

theorem agreesAt_filterUnconfirmed (ht : t.toTransferInformation ∈ c.ledger.unconfirmed)
    (hne : descriptor ≠ t.spentOutputDescriptor) :
    AgreesAt descriptor c { c with
      unconfirmedTransfers := c.unconfirmedTransfers.filter fun other =>
        other.transactionOutputKey ≠ t.transactionOutputKey } :=
  ⟨filter_descriptor_filter_key ht hne, rfl, rfl⟩

theorem shows_deleteUnconfirmed (ht : t.toTransferInformation ∈ c.ledger.unconfirmed)
    (h : c.Shows) : (c.deleteUnconfirmed t).Shows := by
  refine shows_updateVisibilityOf (fun descriptor hne => ?_) fun hm => ?_
  · exact (agreesAt_filterUnconfirmed ht hne).showsOf (h descriptor)
  · exact h.showsOf_of_mem hm (fun _ => .inr) (fun _ => .inr) fun other hother =>
      .inr (mem_filter.mp hother).1

theorem shows_deleteAvailable (ht : t.toTransferInformation ∈ c.ledger.available) (h : c.Shows) :
    (c.deleteAvailable t).Shows := by
  refine shows_updateVisibilityOf (fun descriptor hne => ?_) fun hm => ?_
  · exact AgreesAt.showsOf (c := c) ⟨rfl, filter_descriptor_filter_key ht hne, rfl⟩ (h descriptor)
  · exact h.showsOf_of_mem hm (fun _ => .inr) (fun other hother => .inr (mem_filter.mp hother).1)
      fun _ => .inr

theorem shows_confirmTransfer (globalOutputIndex : Nat) (ht : c.HasUnconfirmed t)
    (h : c.Shows) :
    (c.confirmTransfer age t (confirmedRecord block globalOutputIndex t)).Shows := by
  let confirmed := confirmedRecord block globalOutputIndex t
  -- a reference changes when the output gets its global index, a key image does not
  have hvisible : t.IsMultisignature → t.visible = true := fun hm =>
    ((showsOf_iff_of_isMultisignature hm).mp (h _)).2.2 t (ht.2 hm) rfl
  have hkey : ¬t.IsMultisignature → confirmed.spentOutputDescriptor = t.spentOutputDescriptor := by
    intro hm
    obtain ⟨keyImage, outputKey, htarget, hdesc⟩ :=
      exists_keyImage hm
    have hsame : confirmed.target = .key keyImage outputKey := htarget
    rw [hdesc, spentOutputDescriptor, hsame]
  have hshown : ∀ {other : TransactionOutputInformation}, t.IsMultisignature →
      other.IsMultisignature → ShowsOf { c with
        unconfirmedTransfers := c.unconfirmedTransfers.filter fun other =>
          other.transactionOutputKey ≠ t.transactionOutputKey
        availableTransfers := c.availableTransfers.emplace confirmed }
          other.spentOutputDescriptor :=
    fun hm hother => h.showsOf_of_mem hother (fun _ => .inr)
      (fun _ => visible_or_mem_of_mem_emplace (hvisible hm))
      fun other hother => .inr (mem_filter.mp hother).1
  refine shows_updateVisibilityOf (t := confirmed.toTransactionOutputInformation)
    (fun descriptor hne => ?_) fun hm => ?_
  · by_cases hold : descriptor = t.spentOutputDescriptor
    · have hm : t.IsMultisignature := by
        by_contra hm
        exact hne (hold.trans (hkey hm).symm)
      rw [hold]
      exact hshown hm hm
    · exact AgreesAt.showsOf (c := c) ⟨filter_descriptor_filter_key ht.1 hold,
        filter_toList_emplace (by simpa using hne.symm), rfl⟩ (h descriptor)
  · exact hshown hm hm

theorem shows_confirmSpending (transactionHash : Hash) (h : c.Shows) :
    (c.confirmSpending block transactionHash).Shows := by
  intro descriptor
  let f : SpentTransactionOutput → SpentTransactionOutput := fun s =>
    if s.spendingTransactionHash = transactionHash then { s with spendingBlock := block } else s
  have hf : ∀ s, (f s).toTransactionOutputInformationEx = s.toTransactionOutputInformationEx := by
    intro s
    dsimp only [f]
    split <;> rfl
  have hrange : (c.confirmSpending block transactionHash).spentOf descriptor =
      (c.spentOf descriptor).map f := by
    have hfilter : (c.spentTransfers.toList.map f).filter
        (fun s => s.spentOutputDescriptor = descriptor) =
        (c.spentTransfers.toList.filter fun s => s.spentOutputDescriptor = descriptor).map f := by
      rw [filter_map]
      congr 1
      refine filter_congr fun s _ => ?_
      simp [hf]
    exact hfilter
  have hshown : Shown descriptor (c.unconfirmedOf descriptor) (c.availableOf descriptor)
      ((c.spentOf descriptor).map f) := by
    have hbefore := h descriptor
    unfold ShowsOf at hbefore
    cases descriptor with
    | key keyImage => simpa [Shown, hf] using hbefore
    | multisignature amount index => simpa [Shown, hf] using hbefore
  rw [← hrange] at hshown
  exact hshown

theorem shows_invariant (age : Nat) : TransferInvariant age Shows where
  empty descriptor := by
    cases descriptor with
    | key keyImage => simp [ShowsOf, Shown, empty, unconfirmedOf, availableOf, spentOf]
    | multisignature amount index =>
      simp [ShowsOf, Shown, empty, unconfirmedOf, availableOf, spentOf]
  frame _ _ _ h := h
  addUnconfirmed := shows_addUnconfirmed
  addAvailable := shows_addAvailable
  spendTransfer := shows_spendTransfer
  unspendTransfer := shows_unspendTransfer
  deleteUnconfirmed := shows_deleteUnconfirmed
  deleteAvailable := shows_deleteAvailable
  confirmTransfer := shows_confirmTransfer
  confirmSpending := shows_confirmSpending
  reload {c order} horder h descriptor := by
    obtain ⟨hunconf, havail, hspent⟩ := reload_perm horder
    exact (h descriptor).perm (hunconf.filter _) (havail.filter _) (hspent.filter _)

/-- In every state that calls reach, whether they return or throw, outputs are shown as they
should. -/
theorem shows_of_reached (h : Reached age c) : c.Shows :=
  (shows_invariant age).of_reached h

/-- A list of which all elements are one has no more than one, if it has no element twice. -/
theorem length_le_one_of_forall_eq {α : Type*} {l : List α} (hnodup : l.Nodup) {a : α}
    (h : ∀ b ∈ l, b = a) : l.length ≤ 1 := by
  rw [eq_replicate_of_mem h] at hnodup
  exact nodup_replicate.mp hnodup

theorem Shows.length_visible_le (h : c.Shows) :
    (((c.availableOf (.key keyImage)).filter fun t => t.visible) ++
      (c.unconfirmedOf (.key keyImage)).filter fun t => t.visible).length ≤ 1 := by
  obtain ⟨-, hhidden, hearliest, hunconf⟩ := h (.key keyImage)
  rw [length_append]
  by_cases havail : c.availableOf (.key keyImage) = []
  · -- an unconfirmed output is shown only if it is alone
    rw [havail, filter_nil, length_nil, zero_add]
    by_contra hmany
    obtain ⟨t, ht⟩ := exists_mem_of_length_pos (Nat.zero_lt_of_lt (not_le.mp hmany))
    obtain ⟨hmem, hvisible⟩ := mem_filter.mp ht
    have hsingle := ((hunconf t hmem).mp hvisible).2.2
    have hle := length_filter_le (fun t => t.visible) (c.unconfirmedOf (.key keyImage))
    omega
  · have hnone : ((c.unconfirmedOf (.key keyImage)).filter fun t => t.visible) = [] := by
      rw [filter_eq_nil_iff]
      exact fun t ht hvisible => havail ((hunconf t ht).mp hvisible).2.1
    rw [hnone, length_nil]
    by_cases hspent : c.spentOf (.key keyImage) = []
    · obtain ⟨earliest, -, -, -, honly⟩ := hearliest hspent havail
      refine length_le_one_of_forall_eq ?_ fun t ht =>
        honly t (mem_filter.mp ht).1 (mem_filter.mp ht).2
      refine ((c.availableTransfers.distinct.imp ?_).filter _).filter _
      rintro a _ hdist rfl
      exact hdist rfl
    · have hempty : ((c.availableOf (.key keyImage)).filter fun t => t.visible) = [] := by
        rw [filter_eq_nil_iff]
        intro t ht
        simp [hhidden hspent t ht]
      rw [hempty]
      exact Nat.zero_le 1

theorem Shows.length_getOutputs_le (h : c.Shows) (cur : Currency) (age now flags : Nat) :
    ((getOutputs cur age now flags c).filter fun t => t.spentOutputDescriptor =
      .key keyImage).length ≤ 1 := by
  -- what the query selects is among what is shown
  have hselect : ∀ (transfers : List TransactionOutputInformationEx)
      (p : TransactionOutputInformationEx → Bool),
      ((transfers.filter fun t => t.visible && p t).filter fun t =>
        t.spentOutputDescriptor = .key keyImage).Sublist
      ((transfers.filter fun t => t.spentOutputDescriptor = .key keyImage).filter fun t =>
        t.visible) := by
    intro transfers p
    rw [filter_filter, filter_filter]
    refine monotone_filter_right transfers fun t ht => ?_
    simp only [Bool.and_eq_true] at ht ⊢
    exact ⟨ht.2.1, ht.1⟩
  refine le_trans (List.Sublist.length_le ?_) (h.length_visible_le keyImage)
  unfold getOutputs
  rw [filter_append]
  refine (hselect _ _).append ?_
  split
  · exact hselect _ _
  · exact nil_sublist _

end TransfersContainer

end DarknetCoin
