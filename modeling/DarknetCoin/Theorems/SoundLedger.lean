import DarknetCoin.Theorems.TransferVisibility

/-!
# Sound records

Every output is in one place, belongs to a recorded transaction, and comes before the transaction
that spends it. This lets transactions be removed from the last one on, and the removal keeps it.
-/

namespace DarknetCoin

open Semantics Data SpendingRecord List

namespace Ledger

/-- The hashes of the transactions, in their order. -/
def hashes (l : Ledger) : List Hash := l.transactions.map TransactionInformation.transactionHash

/-- The transaction of the output is recorded with the height of the output. -/
def Owned (l : Ledger) (t : TransferInformation) : Prop :=
  ∃ info ∈ l.transactions, info.transactionHash = t.transactionHash ∧ info.blockHeight =
    t.blockHeight

/-- The records of a wallet in order. -/
structure Sound (l : Ledger) : Prop where
  nodup_hashes : l.hashes.Nodup
  /-- An output is in one place only. -/
  nodup_keys : ((l.unconfirmed ++ l.confirmed).map fun t => t.transactionOutputKey).Nodup
  /-- No two confirmed outputs have one reference. -/
  references : l.confirmed.Pairwise fun a b =>
    a.IsMultisignature → a.spentOutputDescriptor ≠ b.spentOutputDescriptor
  height_unconfirmed : ∀ t ∈ l.unconfirmed, t.blockHeight = unconfirmedTransactionHeight
  height_confirmed : ∀ t ∈ l.confirmed, t.blockHeight ≠ unconfirmedTransactionHeight
  owned : ∀ t ∈ l.unconfirmed ++ l.confirmed, l.Owned t
  /-- An output comes before the transaction that spends it. -/
  order : ∀ r ∈ l.spent, r.transactionHash = r.spendingTransactionHash ∨
    [r.transactionHash, r.spendingTransactionHash].Sublist l.hashes

variable {l l' : Ledger} {t t' : TransferInformation} {r : SpendingRecord}

theorem isMultisignature_of_eq (h : t.spentOutputDescriptor = t'.spentOutputDescriptor)
    (ht : t.IsMultisignature) : t'.IsMultisignature := by
  rw [TransactionOutputInformation.isMultisignature_iff] at ht ⊢
  exact h ▸ ht

theorem symm_references : Std.Symm fun a b : TransferInformation =>
    a.IsMultisignature → a.spentOutputDescriptor ≠ b.spentOutputDescriptor :=
  ⟨fun _ _ hab hm heq => hab (isMultisignature_of_eq heq hm) heq.symm⟩

/-- An output is in a container, and no two confirmed outputs have one reference. -/
structure Entered (key : TransactionOutputKey) (l : Ledger) : Prop where
  held : ∃ t ∈ l.unconfirmed ++ l.confirmed, t.transactionOutputKey = key
  references : l.confirmed.Pairwise fun a b =>
    a.IsMultisignature → a.spentOutputDescriptor ≠ b.spentOutputDescriptor

section Entering

variable {key : TransactionOutputKey}

theorem subset_enter (t : TransferInformation) (transfers : List TransferInformation) :
    transfers ⊆ enter t transfers := by
  unfold enter
  split
  · exact Subset.refl _
  · exact subset_cons_self t transfers

theorem exists_mem_enter (t : TransferInformation) (transfers : List TransferInformation) :
    ∃ other ∈ enter t transfers, other.transactionOutputKey = t.transactionOutputKey := by
  unfold enter
  split
  · next hmem => exact mem_map.mp hmem
  · exact ⟨t, mem_cons_self, rfl⟩

theorem Entered.of_eq (h : l.Entered key) (hunconf : l'.unconfirmed = l.unconfirmed)
    (havail : l'.available = l.available) (hspent : l'.spent = l.spent) : l'.Entered key := by
  have hconf : l'.confirmed = l.confirmed := by rw [confirmed, confirmed, havail, hspent]
  exact ⟨by rw [hunconf, hconf]; exact h.held, hconf ▸ h.references⟩

theorem Entered.enterUnconfirmed (h : l.Entered key) :
    Entered key { l with unconfirmed := enter t l.unconfirmed } := by
  obtain ⟨other, hother, hkey⟩ := h.held
  refine ⟨⟨other, ?_, hkey⟩, h.references⟩
  rcases mem_append.mp hother with hmem | hmem
  · exact mem_append_left _ (subset_enter t _ hmem)
  · exact mem_append_right _ hmem

theorem references_enterAvailable
    (h : l.confirmed.Pairwise fun a b =>
      a.IsMultisignature → a.spentOutputDescriptor ≠ b.spentOutputDescriptor)
    (href : t.IsMultisignature → ∀ other ∈ l.confirmed,
      other.spentOutputDescriptor ≠ t.spentOutputDescriptor) :
    (confirmed { l with available := enter t l.available }).Pairwise fun a b =>
      a.IsMultisignature → a.spentOutputDescriptor ≠ b.spentOutputDescriptor := by
  unfold enter
  split
  · exact h
  · exact pairwise_cons.mpr ⟨fun other hother hm => (href hm other hother).symm, h⟩

theorem Entered.enterAvailable (h : l.Entered key)
    (href : t.IsMultisignature → ∀ other ∈ l.confirmed,
      other.spentOutputDescriptor ≠ t.spentOutputDescriptor) :
    Entered key { l with available := enter t l.available } := by
  obtain ⟨other, hother, hkey⟩ := h.held
  refine ⟨⟨other, ?_, hkey⟩, references_enterAvailable h.references href⟩
  rcases mem_append.mp hother with hmem | hmem
  · exact mem_append_left _ hmem
  rcases mem_append.mp hmem with hmem | hmem
  · exact mem_append_right _ (mem_append_left _ (subset_enter t _ hmem))
  · exact mem_append_right _ (mem_append_right _ hmem)

theorem Entered.of_enterUnconfirmed (h : l.confirmed.Pairwise fun a b =>
      a.IsMultisignature → a.spentOutputDescriptor ≠ b.spentOutputDescriptor) :
    Entered t.transactionOutputKey { l with unconfirmed := enter t l.unconfirmed } := by
  obtain ⟨other, hother, hkey⟩ := exists_mem_enter t l.unconfirmed
  exact ⟨⟨other, mem_append_left _ hother, hkey⟩, h⟩

theorem Entered.of_enterAvailable (h : l.confirmed.Pairwise fun a b =>
      a.IsMultisignature → a.spentOutputDescriptor ≠ b.spentOutputDescriptor)
    (href : t.IsMultisignature → ∀ other ∈ l.confirmed,
      other.spentOutputDescriptor ≠ t.spentOutputDescriptor) :
    Entered t.transactionOutputKey { l with available := enter t l.available } := by
  obtain ⟨other, hother, hkey⟩ := exists_mem_enter t l.available
  exact ⟨⟨other, mem_append_right _ (mem_append_left _ hother), hkey⟩,
    references_enterAvailable h href⟩

/-- An output that is spent is among the spent ones, whatever the other is. -/
theorem Entered.spend (h : l.Entered key) (hr : r.toTransferInformation ∈ l.available)
    (hunspent : ¬r.IsMultisignature → ∀ other ∈ l.spent,
      other.spentOutputDescriptor ≠ r.spentOutputDescriptor) :
    Entered key { l with
      spent := enterSpent r l.spent
      available := l.available.filter fun other =>
        other.transactionOutputKey ≠ r.transactionOutputKey } := by
  obtain ⟨havail, hspent, hcross⟩ := pairwise_append.mp h.references
  have hclear : ∀ other ∈ l.spent, r.spentOutputDescriptor ≠ other.spentOutputDescriptor := by
    intro other hother heq
    by_cases hm : r.IsMultisignature
    · exact hcross _ hr _ (mem_map_of_mem hother) hm heq
    · exact hunspent hm other hother heq.symm
  constructor
  · obtain ⟨t, ht, hkey⟩ := h.held
    rcases mem_append.mp ht with hmem | hmem
    · exact ⟨t, mem_append_left _ hmem, hkey⟩
    rcases mem_append.mp hmem with hmem | hmem
    · by_cases hsame : t.transactionOutputKey = r.transactionOutputKey
      · obtain ⟨s, hs, hskey⟩ : ∃ s ∈ enterSpent r l.spent,
            s.transactionOutputKey = r.transactionOutputKey := by
          unfold enterSpent
          split
          · next hclash =>
            obtain ⟨other, hother, hsameKey | hdesc⟩ := hclash
            · exact ⟨other, hother, hsameKey.symm⟩
            · exact absurd hdesc (hclear other hother)
          · exact ⟨r, mem_cons_self, rfl⟩
        exact ⟨s.toTransferInformation, mem_append_right _ (mem_append_right _ (mem_map_of_mem hs)),
          hskey.trans (hsame.symm.trans hkey)⟩
      · exact ⟨t, mem_append_right _
          (mem_append_left _ (mem_filter.mpr ⟨hmem, decide_eq_true hsame⟩)), hkey⟩
    · obtain ⟨s, hs, rfl⟩ := mem_map.mp hmem
      have hkept : s ∈ enterSpent r l.spent := by
        unfold enterSpent
        split
        · exact hs
        · exact mem_cons_of_mem r hs
      exact ⟨_, mem_append_right _ (mem_append_right _ (mem_map_of_mem hkept)), hkey⟩
  · unfold confirmed enterSpent
    dsimp only
    split
    · exact h.references.sublist (filter_sublist.append (.refl _))
    · refine pairwise_append.mpr ⟨havail.sublist filter_sublist, pairwise_cons.mpr
        ⟨fun other hother hm => ?_, hspent⟩, fun a ha b hb => ?_⟩
      · obtain ⟨s, hs, rfl⟩ := mem_map.mp hother
        exact hclear s hs
      · obtain ⟨ha, hne⟩ := mem_filter.mp ha
        rcases mem_cons.mp hb with rfl | hb
        · have := symm_references
          exact havail.forall ha hr fun heq => of_decide_eq_true hne (by rw [heq])
        · exact hcross a ha b hb

end Entering

section

variable (h : l.Sound)

include h

theorem Sound.blockHeight_eq (ht : l.Owned t) (ht' : l.Owned t')
    (hhash : t.transactionHash = t'.transactionHash) : t.blockHeight = t'.blockHeight := by
  obtain ⟨info, hinfo, hinfoHash, hheight⟩ := ht
  obtain ⟨info', hinfo', hinfoHash', hheight'⟩ := ht'
  have heq : info = info' := inj_on_of_nodup_map h.nodup_hashes hinfo hinfo' (by
    rw [hinfoHash, hinfoHash', hhash])
  rw [← hheight, ← hheight', heq]

theorem Sound.blockHeight_of_mem {info : TransactionInformation} (hinfo : info ∈ l.transactions)
    (ht : t ∈ l.unconfirmed ++ l.confirmed) (hhash : t.transactionHash = info.transactionHash) :
    t.blockHeight = info.blockHeight := by
  obtain ⟨owner, howner, hownerHash, hheight⟩ := h.owned t ht
  rw [← hheight, inj_on_of_nodup_map h.nodup_hashes howner hinfo (hownerHash.trans hhash)]

theorem Sound.foreign {info : TransactionInformation} (hinfo : info ∈ l.transactions)
    (hunconf : info.blockHeight = unconfirmedTransactionHeight) :
    ∀ t ∈ l.confirmed, t.transactionHash ≠ info.transactionHash := fun t ht hhash =>
  h.height_confirmed t ht ((h.blockHeight_of_mem hinfo (mem_append_right _ ht) hhash).trans hunconf)

theorem Sound.eq_of_reference (ht : t ∈ l.confirmed) (ht' : t' ∈ l.confirmed)
    (hm : t.IsMultisignature) (heq : t.spentOutputDescriptor = t'.spentOutputDescriptor) :
    t = t' := by
  have := symm_references
  by_contra hne
  exact h.references.forall ht ht' hne hm heq

/-- Records that are those of a sound ledger in other places are sound. -/
theorem Sound.of_perm (htxs : l'.transactions.Perm l.transactions)
    (hunconf : l'.unconfirmed.Perm l.unconfirmed) (hconf : l'.confirmed.Perm l.confirmed)
    (horder : ∀ r ∈ l'.spent, r.transactionHash = r.spendingTransactionHash ∨
      [r.transactionHash, r.spendingTransactionHash].Sublist l'.hashes) : l'.Sound where
  nodup_hashes := (htxs.map _).nodup_iff.mpr h.nodup_hashes
  nodup_keys := ((hunconf.append hconf).map _).nodup_iff.mpr h.nodup_keys
  references := by
    refine (hconf.pairwise_iff fun {a b} hab hm heq => ?_).mpr h.references
    exact hab (isMultisignature_of_eq heq hm) heq.symm
  height_unconfirmed t ht := h.height_unconfirmed t (hunconf.mem_iff.mp ht)
  height_confirmed t ht := h.height_confirmed t (hconf.mem_iff.mp ht)
  owned t ht := by
    obtain ⟨info, hinfo, howner⟩ := h.owned t ((hunconf.append hconf).mem_iff.mp ht)
    exact ⟨info, htxs.mem_iff.mpr hinfo, howner⟩
  order := horder

theorem Sound.record {transactions : List TransactionInformation}
    (hsublist : l.transactions.Sublist transactions)
    (hnodup : (transactions.map TransactionInformation.transactionHash).Nodup) :
    Sound { l with transactions } :=
  { h with
    nodup_hashes := hnodup
    owned := fun t ht =>
      let ⟨info, hinfo, howner⟩ := h.owned t ht
      ⟨info, hsublist.subset hinfo, howner⟩
    order := fun r hr => (h.order r hr).imp_right fun hpair => hpair.trans (hsublist.map _) }

/-- An output with the key of another one has its height. -/
theorem Sound.key_ne (ht : t' ∈ l.unconfirmed ++ l.confirmed) (howned : l.Owned t)
    (hheight : t'.blockHeight ≠ t.blockHeight) : t'.transactionOutputKey ≠ t.transactionOutputKey :=
  fun hkey => hheight (h.blockHeight_eq (h.owned t' ht) howned
    (congrArg TransactionOutputKey.transactionHash hkey))

theorem Sound.enterUnconfirmed (hheight : t.blockHeight = unconfirmedTransactionHeight)
    (howned : l.Owned t) : Sound { l with unconfirmed := enter t l.unconfirmed } := by
  by_cases hold : t.transactionOutputKey ∈ l.unconfirmed.map fun other => other.transactionOutputKey
  · rw [enter_of_mem hold]
    exact h
  rw [enter_of_fresh hold]
  -- a confirmed output of this transaction would have its height
  have hconf : t.transactionOutputKey ∉
      l.confirmed.map fun other => other.transactionOutputKey := by
    intro hmem
    obtain ⟨other, hother, hkey⟩ := mem_map.mp hmem
    exact h.key_ne (mem_append_right _ hother) howned
      (hheight ▸ h.height_confirmed other hother) hkey
  have hfresh : t.transactionOutputKey ∉
      (l.unconfirmed ++ l.confirmed).map fun other => other.transactionOutputKey := by
    rw [map_append, mem_append]
    exact fun hmem => hmem.elim hold hconf
  exact {
    nodup_hashes := h.nodup_hashes
    nodup_keys := nodup_cons.mpr ⟨hfresh, h.nodup_keys⟩
    references := h.references
    height_unconfirmed := forall_mem_cons.mpr ⟨hheight, h.height_unconfirmed⟩
    height_confirmed := h.height_confirmed
    owned := forall_mem_cons.mpr ⟨howned, h.owned⟩
    order := h.order }

/-- A confirmed output of a recorded transaction can be entered. -/
theorem Sound.enterAvailable (hheight : t.blockHeight ≠ unconfirmedTransactionHeight)
    (howned : l.Owned t) (hspent : ∀ r ∈ l.spent, r.transactionHash ≠ t.transactionHash)
    (href : t.IsMultisignature →
      ∀ other ∈ l.confirmed, other.spentOutputDescriptor ≠ t.spentOutputDescriptor) :
    Sound { l with available := enter t l.available } := by
  by_cases hold : t.transactionOutputKey ∈ l.available.map fun other => other.transactionOutputKey
  · rw [enter_of_mem hold]
    exact h
  rw [enter_of_fresh hold]
  have hunconf : t.transactionOutputKey ∉
      l.unconfirmed.map fun other => other.transactionOutputKey := by
    intro hmem
    obtain ⟨other, hother, hkey⟩ := mem_map.mp hmem
    exact h.key_ne (mem_append_left _ hother) howned
      (h.height_unconfirmed other hother ▸ hheight.symm) hkey
  have hconf : t.transactionOutputKey ∉
      l.confirmed.map fun other => other.transactionOutputKey := by
    rw [confirmed, map_append, mem_append, map_map]
    rintro (hmem | hmem)
    · exact hold hmem
    · obtain ⟨r, hr, hkey⟩ := mem_map.mp hmem
      exact hspent r hr (congrArg TransactionOutputKey.transactionHash hkey)
  exact {
    nodup_hashes := h.nodup_hashes
    nodup_keys := by
      have hperm : (l.unconfirmed ++ t :: l.confirmed).Perm (t :: (l.unconfirmed ++ l.confirmed)) :=
        perm_middle
      refine (hperm.map _).nodup_iff.mpr (nodup_cons.mpr ⟨?_, h.nodup_keys⟩)
      rw [map_append, mem_append]
      exact fun hmem => hmem.elim hunconf hconf
    references := pairwise_cons.mpr
      ⟨fun other hother hm => (href hm other hother).symm, h.references⟩
    height_unconfirmed := h.height_unconfirmed
    height_confirmed := forall_mem_cons.mpr ⟨hheight, h.height_confirmed⟩
    owned := by
      intro other hother
      rcases mem_append.mp hother with hmem | hmem
      · exact h.owned other (mem_append_left _ hmem)
      rcases mem_cons.mp hmem with rfl | hmem
      · exact howned
      · exact h.owned other (mem_append_right _ hmem)
    order := h.order }

theorem Sound.nodup_available : (l.available.map fun t => t.transactionOutputKey).Nodup := by
  have hkeys := h.nodup_keys
  rw [confirmed, map_append, map_append] at hkeys
  exact (nodup_append.mp (nodup_append.mp hkeys).2.1).1

theorem Sound.not_mem_spent (ht : t ∈ l.available)
    (hr : r ∈ l.spent) : t.transactionOutputKey ≠ r.transactionOutputKey := by
  have hkeys := h.nodup_keys
  rw [confirmed, map_append, map_append, map_map] at hkeys
  exact (nodup_append.mp (nodup_append.mp hkeys).2.1).2.2 _ (mem_map_of_mem ht) _
    (mem_map_of_mem hr)

variable (hr : r.toTransferInformation ∈ l.available)
  (hunspent : ¬r.IsMultisignature →
    ∀ other ∈ l.spent, other.spentOutputDescriptor ≠ r.spentOutputDescriptor)
include hr hunspent

theorem Sound.enterSpent_eq : enterSpent r l.spent = r :: l.spent := by
  refine if_neg ?_
  rintro ⟨other, hother, hkey | hdesc⟩
  · exact h.not_mem_spent hr hother hkey
  · by_cases hm : r.IsMultisignature
    · have hpair := (pairwise_append.mp h.references).2.2 _ hr _ (mem_map_of_mem hother)
      exact hpair hm hdesc
    · exact hunspent hm other hother hdesc.symm

theorem Sound.spend (horder : r.transactionHash = r.spendingTransactionHash ∨
      [r.transactionHash, r.spendingTransactionHash].Sublist l.hashes) : Sound { l with
      spent := enterSpent r l.spent
      available := l.available.filter fun other =>
        other.transactionOutputKey ≠ r.transactionOutputKey } := by
  rw [h.enterSpent_eq hr hunspent]
  have hout := OrderedIndex.perm_cons_filter_key h.nodup_available hr
  refine h.of_perm (.refl _) (.refl _) ?_ (forall_mem_cons.mpr ⟨horder, h.order⟩)
  exact (perm_middle.trans (hout.symm.append_right _))

omit hr hunspent

theorem Sound.without (hash : Hash) : Sound {
      transactions := l.transactions.filter fun info => info.transactionHash ≠ hash
      unconfirmed := l.unconfirmed.filter fun t => t.transactionHash ≠ hash
      available := l.confirmed.filter fun t => t.transactionHash ≠ hash
      spent := [] } where
  nodup_hashes := h.nodup_hashes.sublist (filter_sublist.map _)
  nodup_keys := by
    simp only [confirmed, map_nil, append_nil, ← filter_append]
    exact h.nodup_keys.sublist (filter_sublist.map _)
  references := by
    simp only [confirmed, map_nil, append_nil]
    exact h.references.filter _
  height_unconfirmed t ht := h.height_unconfirmed t (mem_filter.mp ht).1
  height_confirmed t ht := by
    simp only [confirmed, map_nil, append_nil] at ht
    exact h.height_confirmed t (mem_filter.mp ht).1
  owned t ht := by
    simp only [confirmed, map_nil, append_nil, ← filter_append] at ht
    obtain ⟨hmem, hother⟩ := mem_filter.mp ht
    obtain ⟨info, hinfo, hhash, hheight⟩ := h.owned t hmem
    refine ⟨info, mem_filter.mpr ⟨hinfo, ?_⟩, hhash, hheight⟩
    rw [hhash]
    exact hother
  order r hr := by cases hr

/-- The records without a transaction: what it spent is available again, and its outputs are
gone. -/
def delete (hash : Hash) (l : Ledger) : Ledger where
  transactions := l.transactions.filter fun info => info.transactionHash ≠ hash
  unconfirmed := l.unconfirmed.filter fun t => t.transactionHash ≠ hash
  available := (((l.spent.filter fun r => r.spendingTransactionHash = hash).map
    toTransferInformation).reverse ++ l.available).filter fun t => t.transactionHash ≠ hash
  spent := l.spent.filter fun r => r.spendingTransactionHash ≠ hash

theorem Sound.delete {hash : Hash}
    (hnone : ∀ r ∈ l.spent, r.transactionHash = hash → r.spendingTransactionHash = hash) :
    (l.delete hash).Sound := by
  -- what stays are the outputs of other transactions
  have hstay : (l.spent.filter fun r => r.spendingTransactionHash ≠ hash).map
      toTransferInformation = ((l.spent.filter fun r => r.spendingTransactionHash ≠ hash).map
        toTransferInformation).filter fun t => t.transactionHash ≠ hash := by
    refine (filter_eq_self.mpr fun t ht => ?_).symm
    obtain ⟨r, hr, rfl⟩ := mem_map.mp ht
    obtain ⟨hmem, hspender⟩ := mem_filter.mp hr
    exact decide_eq_true fun heq => of_decide_eq_true hspender (hnone r hmem heq)
  have hspent : ((l.spent.filter fun r => r.spendingTransactionHash = hash) ++
      l.spent.filter fun r => r.spendingTransactionHash ≠ hash).Perm l.spent := by
    simpa using filter_append_perm (fun r => decide (r.spendingTransactionHash = hash)) l.spent
  have hall : ((((l.spent.filter fun r => r.spendingTransactionHash = hash).map
        toTransferInformation).reverse ++ l.available) ++
      (l.spent.filter fun r => r.spendingTransactionHash ≠ hash).map toTransferInformation).Perm
          l.confirmed := by
    refine ((perm_append_comm.trans ((reverse_perm _).append_left _)).append_right _).trans ?_
    rw [append_assoc, ← map_append]
    exact (hspent.map _).append_left _
  refine (h.without hash).of_perm (.refl _) (.refl _) ?_ fun r hr => ?_
  · unfold confirmed Ledger.delete
    rw [hstay, ← filter_append, map_nil, append_nil]
    exact hall.filter _
  · obtain ⟨hmem, hspender⟩ := mem_filter.mp hr
    have hspender : r.spendingTransactionHash ≠ hash := of_decide_eq_true hspender
    have howner : r.transactionHash ≠ hash := fun heq => hspender (hnone r hmem heq)
    refine (h.order r hmem).imp_right fun hsublist => ?_
    have hkept := hsublist.filter fun other => other ≠ hash
    simpa [hashes, Ledger.delete, howner, hspender, filter_map, Function.comp_def] using hkept

end

end Ledger

namespace TransfersContainer

variable {age : Nat} {c : TransfersContainer}

/-- The records with one key are dropped, then those with the keys of a list. -/
theorem filter_key_ne_filter {α κ : Type*} [DecidableEq κ] (key : α → κ) (k : κ) (keys : List κ)
    (l : List α) : ((l.filter fun a => key a ≠ k).filter fun a => key a ∉ keys) =
      l.filter fun a => key a ∉ k :: keys := by
  rw [filter_filter]
  refine filter_congr fun a _ => ?_
  simp [Bool.and_comm]

theorem ledger_foldl_unspendTransfer {records : List SpentTransactionOutput}
    (hnodup : (records.map fun s => s.transactionOutputKey).Nodup)
    (hfresh : ∀ s ∈ records, s.transactionOutputKey ∉ c.ledger.available.map
      fun t => t.transactionOutputKey) : (records.foldl (unspendTransfer age) c).ledger =
      { c.ledger with
        available := (records.map fun s => s.toTransferInformation).reverse ++ c.ledger.available
        spent := c.ledger.spent.filter fun r =>
          r.transactionOutputKey ∉ records.map fun s => s.transactionOutputKey } := by
  induction records generalizing c with
  | nil => simp
  | cons s records ih =>
    obtain ⟨hhead, htail⟩ := nodup_cons.mp hnodup
    obtain ⟨hnew, hrest⟩ := forall_mem_cons.mp hfresh
    have hledger : (c.unspendTransfer age s).ledger = { c.ledger with
        available := s.toTransferInformation :: c.ledger.available
        spent := c.ledger.spent.filter fun other =>
          other.transactionOutputKey ≠ s.transactionOutputKey } := by
      rw [ledger_unspendTransfer, Ledger.enter_of_fresh hnew]
    rw [foldl_cons, ih htail, hledger, map_cons, reverse_cons, append_assoc]
    · exact congrArg (Ledger.mk _ _ _)
        (filter_key_ne_filter (fun r : SpendingRecord => r.transactionOutputKey) _ _ _)
    · intro other hother hmem
      rw [hledger, map_cons, mem_cons] at hmem
      rcases hmem with heq | hmem
      · exact hhead (mem_map.mpr ⟨other, hother, heq⟩)
      · exact hrest other hother hmem

variable (records : List TransactionOutputInformationEx)

theorem ledger_foldl_deleteUnconfirmed : (records.foldl deleteUnconfirmed c).ledger =
    { c.ledger with
      unconfirmed := c.ledger.unconfirmed.filter fun t =>
        t.transactionOutputKey ∉ records.map fun entry => entry.transactionOutputKey } := by
  induction records generalizing c with
  | nil => simp
  | cons t records ih =>
    rw [foldl_cons, ih, ledger_deleteUnconfirmed]
    exact congrArg (fun unconfirmed => { c.ledger with unconfirmed })
      (filter_key_ne_filter (fun t : TransferInformation => t.transactionOutputKey) _ _ _)

theorem ledger_foldl_deleteAvailable : (records.foldl deleteAvailable c).ledger = { c.ledger with
      available := c.ledger.available.filter fun t =>
        t.transactionOutputKey ∉ records.map fun entry => entry.transactionOutputKey } := by
  induction records generalizing c with
  | nil => simp
  | cons t records ih =>
    rw [foldl_cons, ih, ledger_deleteAvailable]
    exact congrArg (fun available => { c.ledger with available })
      (filter_key_ne_filter (fun t : TransferInformation => t.transactionOutputKey) _ _ _)

variable (transactionHash : Hash)

theorem filter_keys_of_transaction (index : TransfersMultiIndex) :
    (index.transfers.filter fun t => t.transactionOutputKey ∉
        (index.toList.filter fun t => t.transactionHash = transactionHash).map fun entry =>
          entry.transactionOutputKey) =
      index.transfers.filter fun t => t.transactionHash ≠ transactionHash := by
  refine filter_congr fun t ht => decide_eq_decide.mpr (not_congr ⟨fun hmem => ?_, fun hhash => ?_⟩)
  · obtain ⟨entry, hentry, hkey⟩ := mem_map.mp hmem
    have hentryHash : entry.transactionHash = transactionHash := by
      simpa using (mem_filter.mp hentry).2
    exact (congrArg TransactionOutputKey.transactionHash hkey).symm.trans hentryHash
  · obtain ⟨entry, hentry, rfl⟩ := mem_map.mp ht
    exact mem_map.mpr ⟨entry, mem_filter.mpr ⟨hentry, decide_eq_true hhash⟩, rfl⟩

/-- The deletion does to the records what `Ledger.delete` says. -/
theorem ledger_deleteTransactionTransfers
    (hdisjoint : ∀ t ∈ c.ledger.available, ∀ r ∈ c.ledger.spent,
      t.transactionOutputKey ≠ r.transactionOutputKey) :
      (c.deleteTransactionTransfers age transactionHash).ledger =
      { c.ledger.delete transactionHash with transactions := c.ledger.transactions } := by
  let unspent := (c.spentBy transactionHash).foldl (unspendTransfer age) c
  have hunspent : unspent.ledger = { c.ledger with
      available := ((c.ledger.spent.filter fun r =>
          r.spendingTransactionHash = transactionHash).map
        toTransferInformation).reverse ++ c.ledger.available
      spent := c.ledger.spent.filter fun r => r.spendingTransactionHash ≠ transactionHash } := by
    have hmem : ∀ s ∈ c.spentBy transactionHash, s.record ∈ c.ledger.spent := fun s hs =>
      mem_map_of_mem (mem_filter.mp hs).1
    have hrecords : (c.spentBy transactionHash).map (fun s => s.toTransferInformation) =
        (c.ledger.spent.filter fun r => r.spendingTransactionHash = transactionHash).map
          toTransferInformation := by
      simp only [ledger, SpentTransfersMultiIndex.records, filter_map, map_map]
      rfl
    have hspent : (c.ledger.spent.filter fun r => r.transactionOutputKey ∉
        (c.spentBy transactionHash).map fun s => s.transactionOutputKey) =
        c.ledger.spent.filter fun r => r.spendingTransactionHash ≠ transactionHash := by
      refine filter_congr fun r hr =>
        decide_eq_decide.mpr (not_congr ⟨fun hkey => ?_, fun hspender => ?_⟩)
      · obtain ⟨s, hs, hkey⟩ := mem_map.mp hkey
        have hrecord : s.record = r := eq_of_mem_records hr (mem_filter.mp hs).1 hkey
        have hspender : s.spendingTransactionHash = transactionHash := by
          simpa using (mem_filter.mp hs).2
        rw [← hrecord]
        exact hspender
      · obtain ⟨s, hs, rfl⟩ := mem_map.mp hr
        exact mem_map.mpr ⟨s, mem_filter.mpr ⟨hs, decide_eq_true hspender⟩, rfl⟩
    rw [ledger_foldl_unspendTransfer, hrecords, hspent]
    · rw [List.Nodup, pairwise_map]
      exact (c.spentTransfers.distinct.filter _).imp fun hdist heq => hdist (.inl heq)
    · intro s hs hkey
      obtain ⟨t, ht, heq⟩ := mem_map.mp hkey
      exact hdisjoint t ht s.record (hmem s hs) heq
  let pending := (unspent.unconfirmedTransfers.toList.filter fun t =>
    t.transactionHash = transactionHash).foldl deleteUnconfirmed unspent
  have hpending : pending.ledger = { unspent.ledger with
      unconfirmed := unspent.ledger.unconfirmed.filter fun t =>
        t.transactionHash ≠ transactionHash } := by
    rw [ledger_foldl_deleteUnconfirmed]
    exact congrArg (fun unconfirmed => { unspent.ledger with unconfirmed })
      (filter_keys_of_transaction transactionHash unspent.unconfirmedTransfers)
  have hdel : (c.deleteTransactionTransfers age transactionHash).ledger =
      { pending.ledger with
        available := pending.ledger.available.filter fun t =>
          t.transactionHash ≠ transactionHash } := by
    unfold deleteTransactionTransfers
    rw [ledger_foldl_deleteAvailable]
    exact congrArg (fun available => { pending.ledger with available })
      (filter_keys_of_transaction transactionHash pending.availableTransfers)
  rw [hdel, hpending, hunspent]
  rfl

theorem ledger_deleteTransaction (h : c.ledger.Sound) :
    (c.deleteTransaction age transactionHash).ledger = c.ledger.delete transactionHash := by
  let deleted := c.deleteTransactionTransfers age transactionHash
  have hframe : (c.deleteTransaction age transactionHash).ledger =
      { deleted.ledger with transactions := (deleted.transactions.erase transactionHash).toList }
        := rfl
  have htxs : deleted.transactions = c.transactions :=
    (deleteTransactionTransfers_fields transactionHash).1
  rw [hframe, htxs]
  have htransfers : deleted.ledger = _ :=
    ledger_deleteTransactionTransfers transactionHash fun t ht r hr => h.not_mem_spent ht hr
  rw [htransfers]
  rfl

theorem sound_deleteTransaction {transactionHash : Hash} (h : c.ledger.Sound)
    (hnone : ∀ r ∈ c.ledger.spent, r.transactionHash = transactionHash →
      r.spendingTransactionHash = transactionHash) :
      (c.deleteTransaction age transactionHash).ledger.Sound := by
  rw [ledger_deleteTransaction transactionHash h]
  exact h.delete hnone

/-- What comes after an element of a list without duplicates. -/
theorem mem_of_pair_sublist {α : Type*} {a b : α} {l₁ l₂ : List α} (hnodup : (l₁ ++ a :: l₂).Nodup)
    (h : [a, b].Sublist (l₁ ++ a :: l₂)) : b ∈ l₂ := by
  obtain ⟨hl₁, hl₂, hdisjoint⟩ := nodup_append.mp hnodup
  induction l₁ with
  | nil =>
    cases h with
    | cons _ hrest =>
      exact absurd (hrest.subset mem_cons_self) (nodup_cons.mp hl₂).1
    | cons_cons _ hrest => exact singleton_sublist.mp hrest
  | cons c l₁ ih =>
    have hne : c ≠ a := hdisjoint c mem_cons_self a mem_cons_self
    cases h with
    | cons _ hrest =>
      exact ih (nodup_cons.mp hnodup).2 hrest (nodup_cons.mp hl₁).2 fun x hx =>
        hdisjoint x (mem_cons_of_mem c hx)
    | cons_cons _ _ => exact absurd rfl hne

/-- Behind the transactions the loop still has to look at are only unconfirmed ones, which spend no
output of the blocks that are undone. -/
theorem sound_detachTransactions {height : Nat} {older kept : List TransactionInformation}
    (h : c.ledger.Sound) (hlist : c.ledger.transactions = older.reverse ++ kept)
    (hkept : ∀ info ∈ kept, ∀ r ∈ c.ledger.spent,
      r.spendingTransactionHash = info.transactionHash → r.blockHeight < height) :
    (detachTransactions age height older c).2.ledger.Sound := by
  induction older generalizing c kept with
  | nil => exact h
  | cons info older ih =>
    have hlist : c.ledger.transactions = older.reverse ++ info :: kept := by simpa using hlist
    have hnodup := h.nodup_hashes
    rw [Ledger.hashes, hlist, map_append] at hnodup
    unfold detachTransactions
    split
    · rename_i hdelete
      have hnone : ∀ r ∈ c.ledger.spent, r.transactionHash = info.transactionHash →
          r.spendingTransactionHash = info.transactionHash := by
        intro r hr howner
        refine (h.order r hr).elim (fun heq => heq.symm.trans howner) fun hpair => ?_
        exfalso
        rw [Ledger.hashes, hlist, map_append, howner] at hpair
        obtain ⟨later, hlater, hspender⟩ := mem_map.mp (mem_of_pair_sublist hnodup hpair)
        have hbelow := hkept later hlater r hr hspender.symm
        have hmem : r.toTransferInformation ∈ c.ledger.confirmed :=
          mem_append_right _ (mem_map_of_mem hr)
        have hinfo : info ∈ c.ledger.transactions := by
          rw [hlist]
          simp
        have hheight := h.height_confirmed r.toTransferInformation hmem
        rw [h.blockHeight_of_mem hinfo (mem_append_right _ hmem) howner] at hheight hbelow
        simp only [doDelete, if_neg hheight, decide_eq_true_eq] at hdelete
        omega
      have hdel : (c.deleteTransaction age info.transactionHash).ledger =
          c.ledger.delete info.transactionHash := ledger_deleteTransaction info.transactionHash h
      refine @ih _ kept (sound_deleteTransaction h hnone) ?_ fun later hlater r hr => ?_
      · rw [hdel, Ledger.delete]
        dsimp only
        obtain ⟨hbefore, hafter, hdisjoint⟩ := nodup_append.mp hnodup
        rw [hlist, filter_append, filter_cons, if_neg (by simp)]
        congr 1
        · refine filter_eq_self.mpr fun other hother => decide_eq_true ?_
          exact hdisjoint _ (mem_map_of_mem hother) _ mem_cons_self
        · refine filter_eq_self.mpr fun other hother => decide_eq_true fun heq => ?_
          exact (nodup_cons.mp hafter).1 (heq ▸ mem_map_of_mem hother)
      · rw [hdel] at hr
        exact hkept later hlater r (mem_filter.mp hr).1
    · rename_i hkeep
      split
      · rename_i hunconf
        refine @ih c (info :: kept) h hlist (forall_mem_cons.mpr ⟨?_, hkept⟩)
        intro r hr hspender
        obtain ⟨s, hs, rfl⟩ := mem_map.mp hr
        simp only [doDelete, if_pos hunconf, Bool.not_eq_true, any_eq_false,
          decide_eq_true_eq, not_le] at hkeep
        exact hkeep s (mem_filter.mpr ⟨hs, decide_eq_true hspender⟩)
      · exact h

end TransfersContainer

end DarknetCoin
