import DarknetCoin.Theorems.SoundLedger
import DarknetCoin.Theorems.TransferCalls

/-!
# Wallets in order

Removing transactions from the last one on undoes them only if an output is recorded by a
transaction that comes before the one that spends it. A transaction that is confirmed too low breaks
this, and so can a wallet that is loaded in the order of a hash table.
-/

namespace DarknetCoin

open Semantics Data OrderedIndex TransactionInformation Program List TransferInformation Ledger
  SpentTransfersMultiIndex TransfersMultiIndex

variable {range : List TransactionOutputInformationEx} {amount : Nat}

/-- The output that is found is an earliest one of its amount. -/
theorem findFirstByAmount_least {t t' : TransactionOutputInformationEx}
    (h : findFirstByAmount range amount = some t)
    (ht' : t' ∈ range) (hamt : t'.amount = amount) : t'.less t.toTransferInformation = false := by
  let le (a b : TransactionOutputInformationEx) : Prop := b.less a.toTransferInformation = false
  have htotal : Std.Total le := ⟨fun a b => by
    simp only [le, not_less_iff]
    omega⟩
  have htrans : IsTrans _ le := ⟨fun a b c hab hbc => by
    simp only [le, not_less_iff] at hab hbc ⊢
    omega⟩
  have hsorted : (range.insertionSort le).Pairwise le := pairwise_insertionSort le range
  have hmem : t' ∈ range.insertionSort le := (mem_insertionSort le).mpr ht'
  obtain ⟨-, before, after, hsplit, hbefore⟩ := find?_eq_some_iff_append.mp h
  rw [show range.insertionSort le = before ++ t :: after from hsplit] at hsorted hmem
  rcases mem_append.mp hmem with hmem | hmem
  · simpa [hamt] using hbefore t' hmem
  rcases mem_cons.mp hmem with rfl | hmem
  · simp [not_less_iff]
  · exact (pairwise_cons.mp (pairwise_append.mp hsorted).2.1).1 t' hmem

theorem findFirstByAmount_isSome {t : TransactionOutputInformationEx} (ht : t ∈ range)
    (hamt : t.amount = amount) : ∃ first, findFirstByAmount range amount = some first := by
  refine Option.isSome_iff_exists.mp (find?_isSome.mpr ⟨t, ?_, by simpa using hamt⟩)
  exact (mem_insertionSort _).mpr ht

namespace TransfersContainer

variable {age : Nat} {c m : TransfersContainer} {block : TransactionBlockInfo}
  {tx : TransactionReader} {transactionHash : Hash} {transactions : List TransactionInformation}
  {transfers : List TransactionOutputInformationIn} {input : TransactionInput}
  {t : TransactionOutputInformationEx} {c' : TransfersContainer}

/-- While the transaction is worked through: its outputs are entered, and outputs of the wallet are
spent. The ledger has the transaction recorded already. -/
structure Adding (c : TransfersContainer) (block : TransactionBlockInfo)
    (transactions : List TransactionInformation) (m : TransfersContainer) : Prop where
  sound : Ledger.Sound { m.ledger with transactions }
  spent : ∀ r ∈ c.ledger.spent, r ∈ m.ledger.spent
  available : ∀ t ∈ c.ledger.available, t ∈ m.ledger.available ∨
    t ∈ m.ledger.spent.map SpendingRecord.toTransferInformation
  new : ∀ t ∈ m.ledger.available, t ∈ c.ledger.available ∨ t.blockHeight = block.height

variable (hold : t.toTransferInformation ∈ c.ledger.available)
include hold

/-- A key input spends no output above the block that was there before the call: an output that was
found then is still the first now, or spent. -/
theorem Adding.blockHeight_le_key (h : Adding c block transactions m) {input : KeyInput}
    (hlow : ∀ t, c.checkInput (.key input) = .spend t → t.blockHeight ≤ block.height)
    (hcheck : m.checkInput (.key input) = .spend t) : t.blockHeight ≤ block.height := by
  obtain ⟨entry, hentry, heq⟩ := mem_map.mp hold
  obtain ⟨hunspent, hfirst⟩ := checkInput_key_eq_spend hcheck
  have hdesc : entry.spentOutputDescriptor = .key input.keyImage := by
    rw [heq]
    exact of_decide_eq_true (mem_filter.mp (mem_of_findFirstByAmount hfirst).1).2
  have hamt : entry.amount = input.amount := by
    rw [heq]
    exact (mem_of_findFirstByAmount hfirst).2
  have hunspentBefore : c.spentOf (.key input.keyImage) = [] :=
    spentOf_eq_nil_iff.mpr fun r hr => spentOf_eq_nil_iff.mp hunspent r (h.spent r hr)
  have hentryOf : entry ∈ c.availableOf (.key input.keyImage) :=
    mem_filter.mpr ⟨hentry, decide_eq_true hdesc⟩
  obtain ⟨first, hfirstBefore⟩ := findFirstByAmount_isSome hentryOf hamt
  have hbound := hlow first (by
    simp [checkInput, hunspentBefore, ne_nil_of_mem hentryOf, hfirstBefore])
  obtain ⟨hfirstMem, hfirstAmount⟩ := mem_of_findFirstByAmount hfirstBefore
  obtain ⟨hfirstIn, hfirstDesc⟩ := mem_filter.mp hfirstMem
  rcases h.available first.toTransferInformation (mem_map_of_mem hfirstIn) with hmem | hmem
  · obtain ⟨entry', hentry', heq'⟩ := mem_map.mp hmem
    have hin : entry' ∈ m.availableOf (.key input.keyImage) := by
      refine mem_filter.mpr ⟨hentry', ?_⟩
      rw [heq']
      exact hfirstDesc
    have hleast := findFirstByAmount_least hfirst hin (by
      rw [heq']
      exact hfirstAmount)
    rw [not_less_iff, heq'] at hleast
    omega
  · obtain ⟨r, hr, hrecord⟩ := mem_map.mp hmem
    refine absurd ?_ (spentOf_eq_nil_iff.mp hunspent r hr)
    rw [hrecord]
    exact of_decide_eq_true hfirstDesc

/-- A multisignature input names one output, so it is the one it named before the call. -/
theorem Adding.blockHeight_le_multisignature (hc : c.ledger.Sound) {input : MultisignatureInput}
    (hlow : ∀ t, c.checkInput (.multisignature input) = .spend t → t.blockHeight ≤ block.height)
    (hcheck : m.checkInput (.multisignature input) = .spend t) : t.blockHeight ≤ block.height := by
  obtain ⟨entry, hentry, heq⟩ := mem_map.mp hold
  have hdesc : t.spentOutputDescriptor = .multisignature input.amount input.outputIndex := by
    have hname := (checkInput_eq_spend hcheck).2.1
    exact (Option.some.inj hname).symm
  have hentryOf : entry ∈ c.availableOf (.multisignature input.amount input.outputIndex) := by
    refine mem_filter.mpr ⟨hentry, decide_eq_true ?_⟩
    rw [heq]
    exact hdesc
  obtain ⟨first, hfirst⟩ := Option.isSome_iff_exists.mp (isSome_head?.mpr (ne_nil_of_mem hentryOf))
  have hbound := hlow first (by simp [checkInput, hfirst])
  obtain ⟨hfirstIn, hfirstDesc⟩ := mem_filter.mp (mem_of_mem_head? hfirst)
  have hsame : t.toTransferInformation = first.toTransferInformation := by
    apply hc.eq_of_reference (mem_append_left _ hold) (mem_append_left _ (mem_map_of_mem hfirstIn))
    · exact TransactionOutputInformation.isMultisignature_iff.mpr ⟨_, _, hdesc⟩
    · rw [hdesc]
      exact (of_decide_eq_true hfirstDesc).symm
  rw [hsame]
  exact hbound

omit hold

section

variable (h : Adding c block transactions m)

include h

/-- An input spends no output above the block, if this holds for the inputs in the container before
the call. -/
theorem Adding.blockHeight_le (hc : c.ledger.Sound)
    (hlow : ∀ t, c.checkInput input = .spend t → t.blockHeight ≤ block.height)
    (hcheck : m.checkInput input = .spend t) : t.blockHeight ≤ block.height := by
  have hmem := (checkInput_eq_spend hcheck).1
  rcases h.new t.toTransferInformation (mem_map_of_mem hmem) with hold | hnew
  · cases input with
    | key input => exact h.blockHeight_le_key hold hlow hcheck
    | multisignature input => exact Adding.blockHeight_le_multisignature hold hc hlow hcheck
    | base input => cases hcheck
  · exact hnew.le

theorem Adding.addUnconfirmed (hheight : t.blockHeight = unconfirmedTransactionHeight)
    (howned : Owned { m.ledger with transactions } t.toTransferInformation) :
    Adding c block transactions (m.addUnconfirmed t) := by
  have hsound := h.sound.enterUnconfirmed hheight howned
  constructor <;> rw [ledger_addUnconfirmed]
  · exact hsound
  · exact h.spent
  · exact h.available
  · exact h.new

theorem Adding.addAvailable
    (hheight : t.blockHeight ≠ unconfirmedTransactionHeight) (hblock : t.blockHeight = block.height)
    (howned : Owned { m.ledger with transactions } t.toTransferInformation)
    (hspent : ∀ r ∈ m.ledger.spent, r.transactionHash ≠ t.transactionHash)
    (hunknown : m.transferExists t.toTransactionOutputInformation = false) :
    Adding c block transactions (m.addAvailable age t) := by
  have hsound := h.sound.enterAvailable hheight howned hspent
    (transferExists_eq_false_iff.mp hunknown)
  constructor <;> rw [ledger_addAvailable]
  · exact hsound
  · exact h.spent
  · intro other hother
    refine (h.available other hother).imp_left fun hmem => ?_
    unfold enter
    split
    · exact hmem
    · exact mem_cons_of_mem _ hmem
  · intro other hother
    rcases eq_or_mem_of_mem_enter hother with rfl | hmem
    · exact .inr hblock
    · exact h.new other hmem

theorem Adding.enterSpent (hcheck : m.checkInput input = .spend t) {r : SpendingRecord}
    (hr : r.toTransferInformation = t.toTransferInformation) :
    r.toTransferInformation ∈ m.ledger.available ∧ (¬r.IsMultisignature → ∀ other ∈ m.ledger.spent,
      other.spentOutputDescriptor ≠ r.spentOutputDescriptor) ∧ enterSpent r m.ledger.spent =
      r :: m.ledger.spent := by
  obtain ⟨hmem, -, hunspent⟩ := checkInput_eq_spend hcheck
  have hin : r.toTransferInformation ∈ m.ledger.available := by
    rw [hr]
    exact mem_map_of_mem hmem
  have hclear : ¬r.IsMultisignature → ∀ other ∈ m.ledger.spent,
      other.spentOutputDescriptor ≠ r.spentOutputDescriptor := by
    intro hm
    obtain ⟨keyImage, outputKey, htarget, hdesc⟩ :=
      TransactionOutputInformation.exists_keyImage hm
    rw [hr] at htarget
    rw [hdesc]
    exact spentOf_eq_nil_iff.mp (hunspent keyImage outputKey htarget)
  exact ⟨hin, hclear, h.sound.enterSpent_eq hin hclear⟩

theorem Adding.spendTransfer (hcheck : m.checkInput input = .spend t) (inputIndex : Nat)
    (horder : t.transactionHash = transactionHash ∨ [t.transactionHash, transactionHash].Sublist
      (transactions.map TransactionInformation.transactionHash)) :
    Adding c block transactions (m.spendTransfer block transactionHash inputIndex t) := by
  let r : SpendingRecord := ⟨t.toTransferInformation, block, transactionHash, inputIndex⟩
  obtain ⟨hr, hclear, henter⟩ := h.enterSpent hcheck (r := r) rfl
  have hsound := h.sound.spend hr hclear horder
  constructor <;> rw [ledger_spendTransfer]
  · exact hsound
  · intro other hother
    rw [henter]
    exact mem_cons_of_mem r (h.spent other hother)
  · intro other hother
    rw [henter]
    rcases h.available other hother with hold | hold
    · by_cases hkey : other.transactionOutputKey = t.transactionOutputKey
      · have heq : other = r.toTransferInformation :=
          inj_on_of_nodup_map h.sound.nodup_available hold hr hkey
        exact .inr (heq ▸ mem_cons_self)
      · exact .inl (mem_filter.mpr ⟨hold, decide_eq_true hkey⟩)
    · exact .inr (mem_cons_of_mem _ hold)
  · exact fun other hother => h.new other (mem_filter.mp hother).1

end

/-- The transactions with the one that is added. -/
def withTransaction (c : TransfersContainer) (block : TransactionBlockInfo) (tx : TransactionReader)
    (messages : List String) (id : Nat) : List TransactionInformation :=
  (c.transactions.emplace (transactionRecord block tx messages id)).toList

section Added

variable {recorded spent : TransfersContainer} {transfers : List TransactionOutputInformationIn}
  {messages : List String} {id : Nat} {outputsAdded inputsAdded : Bool} (hc : c.ledger.Sound)
  (hnew : tx.transactionHash ∉ c.ledger.hashes)
  (hlow : ∀ input ∈ tx.inputs, ∀ t, c.checkInput input = .spend t → t.blockHeight ≤ block.height)
include hc hnew

theorem transactionHash_ne_of_new : ∀ t ∈ c.ledger.unconfirmed ++ c.ledger.confirmed,
    t.transactionHash ≠ tx.transactionHash := by
  intro t ht heq
  obtain ⟨owner, howner, hhash, -⟩ := hc.owned t ht
  exact hnew (mem_map.mpr ⟨owner, howner, hhash.trans heq⟩)

omit hc in
theorem withTransaction_perm : (c.withTransaction block tx messages id).Perm
    (transactionRecord block tx messages id :: c.ledger.transactions) :=
  toList_emplace_perm hnew

variable {J : TransfersContainer → Prop}

/-- What the recording of single outputs keeps holds when the outputs are recorded. -/
theorem adding_of_outputs (hunconf : ∀ {m transfer}, J m →
      block.height = unconfirmedTransactionHeight →
      J (m.addUnconfirmed (transferRecord block tx transfer)))
    (havail : ∀ {m transfer}, J m → block.height ≠ unconfirmedTransactionHeight →
      J (m.addAvailable age (transferRecord block tx transfer)))
    (houts : addTransactionOutputs age block tx transfers c = .done outputsAdded recorded)
    (hstart : J c) :
    Adding c block (c.withTransaction block tx messages id) recorded ∧ J recorded := by
  let info := transactionRecord block tx messages id
  have hinfo : info ∈ c.withTransaction block tx messages id :=
    (withTransaction_perm hnew).mem_iff.mpr mem_cons_self
  have hadding : Adding c block (c.withTransaction block tx messages id) c := {
    sound := hc.record (sublist_emplace_self info c.transactions)
      (c.transactions.emplace info).nodup
    spent := fun r hr => hr
    available := fun t ht => .inl ht
    new := fun t ht => .inl ht }
  refine ((keeps_addTransactionOutputs_of (I := fun m =>
    (Adding c block (c.withTransaction block tx messages id) m ∧ J m) ∧
      m.ledger.spent = c.ledger.spent) ?_ ?_ transfers c ⟨⟨hadding, hstart⟩, rfl⟩).of_done houts).1
  · intro m transfer hm hblock
    refine ⟨⟨hm.1.1.addUnconfirmed hblock ⟨info, hinfo, rfl, rfl⟩, hunconf hm.1.2 hblock⟩, ?_⟩
    rw [ledger_addUnconfirmed]
    exact hm.2
  · intro m transfer hm hblock hunknown
    refine ⟨⟨hm.1.1.addAvailable hblock rfl ⟨info, hinfo, rfl, rfl⟩ (fun r hr => ?_) hunknown,
      havail hm.1.2 hblock⟩, ?_⟩
    · rw [hm.2] at hr
      exact transactionHash_ne_of_new hc hnew r.toTransferInformation (mem_append_right _
        (mem_append_right _ (mem_map_of_mem hr)))
    · rw [ledger_addAvailable]
      exact hm.2

include hlow

theorem Adding.spendInput (hm : Adding c block (c.withTransaction block tx messages id) m)
    (hinput : input ∈ tx.inputs) (hcheck : m.checkInput input = .spend t) (inputIndex : Nat) :
    Adding c block (c.withTransaction block tx messages id)
      (m.spendTransfer block tx.transactionHash inputIndex t) := by
  let info := transactionRecord block tx messages id
  refine hm.spendTransfer hcheck inputIndex ?_
  have hle := hm.blockHeight_le hc (hlow input hinput) hcheck
  have hmem := mem_map_of_mem (f := TransactionOutputInformationEx.toTransferInformation)
    (checkInput_eq_spend hcheck).1
  obtain ⟨owner, howner, hhash, hheight⟩ := hm.sound.owned t.toTransferInformation
    (mem_append_right _ (mem_append_left _ hmem))
  rcases mem_cons.mp ((withTransaction_perm hnew).mem_iff.mp howner) with rfl | hold
  · exact .inl hhash.symm
  have hbefore : [owner, info].Sublist (c.withTransaction block tx messages id) :=
    sublist_emplace hnew hold (hheight.le.trans hle)
  have hpair := hbefore.map transactionHash
  rw [map_cons, map_cons, hhash] at hpair
  exact .inr hpair

/-- What the spending of single outputs keeps holds when the inputs are worked through. -/
theorem adding_of_inputs (hspend : ∀ {m input t} inputIndex,
      Adding c block (c.withTransaction block tx messages id) m → J m →
      m.checkInput input = .spend t → J (m.spendTransfer block tx.transactionHash inputIndex t))
    (hinputs : addTransactionInputs block tx 0 tx.inputs recorded = .done inputsAdded spent)
    (hrecorded : Adding c block (c.withTransaction block tx messages id) recorded)
    (hstart : J recorded) :
    Adding c block (c.withTransaction block tx messages id) spent ∧ J spent :=
  (keeps_addTransactionInputs_of (I := fun m =>
    Adding c block (c.withTransaction block tx messages id) m ∧ J m)
    (fun inputIndex hm hinput hcheck => ⟨hm.1.spendInput hc hnew hlow hinput hcheck inputIndex,
      hspend inputIndex hm.1 hm.2 hcheck⟩) 0 recorded ⟨hrecorded, hstart⟩).of_done hinputs

end Added

theorem transactions_of_loops {recorded spent : TransfersContainer}
    {outputsAdded inputsAdded : Bool} (houts : addTransactionOutputs age block tx transfers c =
      .done outputsAdded recorded)
    (hinputs : addTransactionInputs block tx 0 tx.inputs recorded = .done inputsAdded spent) :
    spent.transactions = c.transactions := by
  refine (keeps_fields_addTransactionInputs (fun transactions _ _ =>
    transactions = c.transactions) block tx 0 tx.inputs recorded ?_).of_done hinputs
  exact (keeps_fields_addTransactionOutputs (fun transactions _ _ =>
    transactions = c.transactions) block age tx transfers c rfl).of_done houts

/-- A transaction that spends only outputs of blocks up to its own keeps the records sound. -/
theorem sound_addTransaction {messages : List String} {id : Nat}
    {result : Bool × List TransactionOutputInformation} (hc : c.ledger.Sound)
    (hlow : ∀ input ∈ tx.inputs, ∀ t, c.checkInput input = .spend t → t.blockHeight ≤ block.height)
    (h : addTransaction age block tx transfers messages id c = .done result c') :
    c'.ledger.Sound := by
  obtain ⟨hnew, outputsAdded, inputsAdded, recorded, spent, houts, hinputs, -, hledger⟩ :=
    addTransaction_eq_done h
  rw [hledger]
  cases hadded : outputsAdded || inputsAdded with
  | false =>
    -- nothing was recorded, and nothing has changed
    obtain ⟨rfl, rfl⟩ := Bool.or_eq_false_iff.mp hadded
    rw [addTransactionInputs_eq_false hinputs, addTransactionOutputs_eq_false houts]
    exact hc
  | true =>
    have hrecorded : Adding c block (c.withTransaction block tx messages id) recorded :=
      (adding_of_outputs (J := fun _ => True) hc hnew (fun _ _ => trivial)
        (fun _ _ => trivial) houts trivial).1
    have hsound := (adding_of_inputs (J := fun _ => True) hc hnew hlow (fun _ _ _ _ => trivial)
      hinputs hrecorded trivial).1.sound
    rw [withTransaction, ← transactions_of_loops houts hinputs] at hsound
    exact hsound

/-- Leaving out an output of a transaction first changes nothing when all its outputs are left
out. -/
theorem filter_transactionHash_of_key
    (records : List TransferInformation) (hhash : t.transactionHash = transactionHash) :
    (records.filter fun other => other.transactionOutputKey ≠ t.transactionOutputKey).filter
        (fun other => other.transactionHash ≠ transactionHash) =
      records.filter fun other => other.transactionHash ≠ transactionHash := by
  rw [filter_filter]
  apply filter_congr
  intro other _
  have himp : other.transactionHash ≠ transactionHash →
      other.transactionOutputKey ≠ t.transactionOutputKey := fun hne heq =>
    hne ((congrArg TransactionOutputKey.transactionHash heq).trans hhash)
  simpa using himp

variable {result : Bool} {globalIndices : List Nat}

/-- The outputs that are still to come are left out of the ledger, since their transaction has got
its block already. -/
theorem sound_confirmTransfers {m' : TransfersContainer}
    {transfers : List TransactionOutputInformationEx}
    (hblock : block.height ≠ unconfirmedTransactionHeight)
    (howner : ∃ info ∈ m.ledger.transactions, info.transactionHash = transactionHash ∧
      info.blockHeight = block.height) (hsound : Sound { m.ledger with
      unconfirmed := m.ledger.unconfirmed.filter fun t => t.transactionHash ≠ transactionHash })
    (hspent : ∀ r ∈ m.ledger.spent, r.transactionHash ≠ transactionHash)
    (htransfers : ∀ t ∈ transfers, t.transactionHash = transactionHash)
    (hrest : ∀ t ∈ m.ledger.unconfirmed, t.transactionHash = transactionHash →
      t.transactionOutputKey ∈ transfers.map fun t => t.transactionOutputKey)
    (h : confirmTransfers age block globalIndices transfers m = .done () m') :
    m'.ledger.Sound := by
  induction transfers generalizing m with
  | nil =>
    have heq : m = m' := by
      cases h
      rfl
    have hself : m.ledger.unconfirmed.filter (fun t => t.transactionHash ≠ transactionHash) =
        m.ledger.unconfirmed :=
      filter_eq_self.mpr fun t ht => decide_eq_true fun heq => by simpa using hrest t ht heq
    rw [hself] at hsound
    rw [← heq]
    exact hsound
  | cons t transfers ih =>
    obtain ⟨hhash, htransfers⟩ := forall_mem_cons.mp htransfers
    obtain ⟨globalOutputIndex, -, hunknown, h⟩ := confirmTransfers_cons_eq_done.mp h
    let confirmed := confirmedRecord block globalOutputIndex t
    have hledger : (m.confirmTransfer age t confirmed).ledger = _ := ledger_confirmTransfer
    have hfilter := filter_transactionHash_of_key m.ledger.unconfirmed hhash
    have hentered := hsound.enterAvailable (t := confirmed.toTransferInformation) hblock (by
      obtain ⟨info, hinfo, hinfoHash, hinfoHeight⟩ := howner
      exact ⟨info, hinfo, hinfoHash.trans hhash.symm, hinfoHeight⟩)
        (fun r hr heq => hspent r hr (heq.trans hhash)) (transferExists_eq_false_iff.mp hunknown)
    refine ih ?_ ?_ ?_ htransfers ?_ h
    · rw [hledger]
      exact howner
    · rw [hledger]
      rw [hfilter]
      exact hentered
    · rw [hledger]
      exact hspent
    · rw [hledger]
      intro other hother hhashOther
      obtain ⟨hmem, hne⟩ := mem_filter.mp hother
      have hkey := hrest other hmem hhashOther
      rw [map_cons, mem_cons] at hkey
      exact hkey.resolve_left (of_decide_eq_true hne)

/-- An unconfirmed transaction gets its block; its outputs are still to come. -/
theorem sound_replace {info : TransactionInformation} {height timestamp : Nat} (hc : c.ledger.Sound)
    (hinfo : info ∈ c.ledger.transactions)
    (hunconf : info.blockHeight = unconfirmedTransactionHeight)
    (hlow : ∀ r ∈ c.ledger.spent, r.spendingTransactionHash = info.transactionHash →
      r.blockHeight ≤ height) : Sound { c.ledger with
      transactions := (c.transactions.replace
        { info with blockHeight := height, timestamp := timestamp }).toList
      unconfirmed := c.ledger.unconfirmed.filter fun t =>
        t.transactionHash ≠ info.transactionHash } := by
  have hforeign := hc.foreign hinfo hunconf
  let replaced : TransactionInformation :=
    { info with blockHeight := height, timestamp := timestamp }
  let others := c.transactions.erase info.transactionHash
  have hfresh : replaced.transactionHash ∉
      others.toList.map transactionHash := by
    simp [others, replaced]
  have hplaced : (c.transactions.replace replaced).toList.Perm (replaced :: others.toList) :=
    toList_emplace_perm hfresh
  have howned : ∀ t ∈ c.ledger.unconfirmed ++ c.ledger.confirmed,
      t.transactionHash ≠ info.transactionHash → ∃ owner ∈ others.toList,
        owner.transactionHash = t.transactionHash ∧ owner.blockHeight = t.blockHeight := by
    intro t ht hne
    obtain ⟨owner, howner, hhash, hheight⟩ := hc.owned t ht
    refine ⟨owner, mem_filter.mpr ⟨howner, decide_eq_true ?_⟩, hhash, hheight⟩
    rw [hhash]
    exact hne
  exact {
    nodup_hashes := (c.transactions.replace replaced).nodup
    nodup_keys := hc.nodup_keys.sublist ((filter_sublist.append_right _).map _)
    references := hc.references
    height_unconfirmed := fun t ht => hc.height_unconfirmed t (mem_filter.mp ht).1
    height_confirmed := hc.height_confirmed
    owned := by
      intro t ht
      have hne : t.transactionHash ≠ info.transactionHash := by
        rcases mem_append.mp ht with hmem | hmem
        · exact of_decide_eq_true (mem_filter.mp hmem).2
        · exact hforeign t hmem
      obtain ⟨owner, howner, hfields⟩ :=
        howned t ((filter_sublist.append_right _).subset ht) hne
      exact ⟨owner, hplaced.mem_iff.mpr (mem_cons_of_mem _ howner), hfields⟩
    order := by
      intro r hr
      have hmem : r.toTransferInformation ∈ c.ledger.confirmed :=
        mem_append_right _ (mem_map_of_mem hr)
      have hne := hforeign r.toTransferInformation hmem
      refine (hc.order r hr).imp_right fun hpair => ?_
      by_cases hspender : r.spendingTransactionHash = info.transactionHash
      · obtain ⟨owner, howner, hhash, hheight⟩ :=
          howned r.toTransferInformation (mem_append_right _ hmem) hne
        have hbefore : [owner, replaced].Sublist (c.transactions.replace replaced).toList :=
          sublist_emplace hfresh howner (hheight.le.trans (hlow r hr hspender))
        have hpair := hbefore.map transactionHash
        rw [map_cons, map_cons, hhash] at hpair
        rw [hspender]
        exact hpair
      · have hkept := hpair.filter fun other => other ≠ info.transactionHash
        have hothers : [r.transactionHash, r.spendingTransactionHash].Sublist
            (others.toList.map transactionHash) := by
          simpa [hashes, ledger, others, hne, hspender, filter_map, Function.comp_def] using hkept
        exact hothers.trans ((sublist_emplace_self replaced others).map _) }

/-- Only the blocks of spent outputs change. -/
theorem sound_confirmSpending (block : TransactionBlockInfo) (transactionHash : Hash)
    (h : c.ledger.Sound) : (c.confirmSpending block transactionHash).ledger.Sound := by
  let f : SpendingRecord → SpendingRecord := fun r =>
    if r.spendingTransactionHash = transactionHash then { r with spendingBlock := block } else r
  have hf : ∀ r, (f r).toTransferInformation = r.toTransferInformation ∧
      (f r).spendingTransactionHash = r.spendingTransactionHash := by
    intro r
    dsimp only [f]
    split <;> exact ⟨rfl, rfl⟩
  have hspent : (c.confirmSpending block transactionHash).ledger.spent = c.ledger.spent.map f := by
    simp only [ledger, records, confirmSpending, HashedIndex.toList_update, map_map]
    refine map_congr_left fun s _ => ?_
    by_cases hs : s.spendingTransactionHash = transactionHash <;>
      simp [f, SpentTransactionOutput.record, hs]
  refine h.of_perm (.refl _) (.refl _) (.of_eq ?_) fun r hr => ?_
  · unfold confirmed
    rw [hspent, map_map]
    exact congrArg (c.ledger.available ++ ·) (map_congr_left fun r _ => (hf r).1)
  · rw [hspent] at hr
    obtain ⟨old, hold, rfl⟩ := mem_map.mp hr
    rw [(hf old).1, (hf old).2]
    exact h.order old hold

/-- A transaction that is confirmed no lower than the outputs it spends keeps the records sound. -/
theorem sound_markTransactionConfirmed (hc : c.ledger.Sound)
    (hlow : (∃ info ∈ c.transactions.find? transactionHash,
      info.blockHeight = unconfirmedTransactionHeight) →
      ∀ r ∈ c.ledger.spent, r.spendingTransactionHash = transactionHash →
      r.blockHeight ≤ block.height)
    (h : markTransactionConfirmed age block transactionHash globalIndices c = .done result c') :
    c'.ledger.Sound := by
  unfold markTransactionConfirmed at h
  split at h
  · cases h
  rename_i hblock
  rw [get_bind_run] at h
  rcases hfind : c.transactions.find? transactionHash with _ | info <;> rw [hfind] at h
  · cases h
    exact hc
  dsimp only at h
  obtain ⟨hinfo, hhash⟩ := find?_eq_some.mp hfind
  split at h
  · cases h
    exact hc
  rename_i hunconf
  have hunconf := not_not.mp hunconf
  rw [modify_bind_run] at h
  obtain ⟨⟨⟩, confirmed, hloop, hrest⟩ := bind_eq_done.mp h
  cases hrest
  rw [← hhash] at hlow hfind hloop ⊢
  have hsound := @sound_replace c info block.height block.timestamp hc hinfo
    hunconf (hlow ⟨info, hfind, hunconf⟩)
  let replaced : TransfersContainer := { c with
    transactions := c.transactions.replace
      { info with blockHeight := block.height, timestamp := block.timestamp } }
  refine sound_confirmSpending block info.transactionHash
    (sound_confirmTransfers (m := replaced) hblock ?_ hsound ?_ ?_ ?_ hloop)
  · refine ⟨{ info with blockHeight := block.height, timestamp := block.timestamp }, ?_, rfl, rfl⟩
    exact (toList_replace_perm _ c.transactions).mem_iff.mpr mem_cons_self
  · intro r hr
    exact hc.foreign hinfo hunconf r.toTransferInformation (mem_append_right _ (mem_map_of_mem hr))
  · intro t ht
    exact of_decide_eq_true (mem_filter.mp ht).2
  · intro t ht hhashT
    obtain ⟨entry, hentry, rfl⟩ := mem_map.mp ht
    exact mem_map.mpr ⟨entry, mem_filter.mpr ⟨hentry, decide_eq_true hhashT⟩, rfl⟩

/-- A transaction that is added or confirmed spends only outputs of blocks up to its own, and a
wallet that is loaded lists the transactions of a block as before, as far as one spends an output of
the other. -/
def Orderly (c : TransfersContainer) : TransfersCall → Prop
  | .addTransaction block tx _ _ _ =>
    ∀ input ∈ tx.inputs, ∀ t, c.checkInput input = .spend t → t.blockHeight ≤ block.height
  | .markTransactionConfirmed block transactionHash _ =>
    (∃ info ∈ c.transactions.find? transactionHash,
      info.blockHeight = unconfirmedTransactionHeight) →
      ∀ r ∈ c.ledger.spent, r.spendingTransactionHash = transactionHash →
        r.blockHeight ≤ block.height
  | .reload order =>
    ∀ r ∈ c.ledger.spent, ∀ a ∈ order.transactions, ∀ b ∈ order.transactions,
      a.transactionHash = r.transactionHash → b.transactionHash = r.spendingTransactionHash →
        a.blockHeight = b.blockHeight → a = b ∨ [a, b].Sublist order.transactions
  | _ => True

theorem sound_reload {order : SavedOrder} (hsaves : order.Of c) (hok : c.Orderly (.reload order))
    (h : c.ledger.Sound) : (c.reload order).ledger.Sound := by
  obtain ⟨hunconf, havail, hspent⟩ := reload_perm hsaves
  have hnodup : (order.transactions.map transactionHash).Nodup :=
    (hsaves.1.map _).nodup_iff.mpr h.nodup_hashes
  let loaded : TransactionMultiIndex := .ofList order.transactions
  have hloaded : loaded.toList.Perm order.transactions := toList_ofList_perm hnodup
  have hrecords : (c.reload order).ledger.spent.Perm c.ledger.spent :=
    hspent.map SpentTransactionOutput.record
  refine h.of_perm (hloaded.trans hsaves.1) (hunconf.map _) ((havail.map _).append (hrecords.map _))
    fun r hr => ?_
  have hr : r ∈ c.ledger.spent := hrecords.mem_iff.mp hr
  refine (h.order r hr).elim .inl fun hpair => ?_
  -- the records of the two transactions, in the order they had
  obtain ⟨pair, hsublist, hmap⟩ := sublist_map_iff.mp hpair
  obtain ⟨a, b, rfl, ha, hb⟩ : ∃ a b, pair = [a, b] ∧ r.transactionHash = a.transactionHash ∧
      r.spendingTransactionHash = b.transactionHash := by
    rcases pair with _ | ⟨a, _ | ⟨b, _ | ⟨rest, more⟩⟩⟩
    · simp at hmap
    · simp at hmap
    · simp only [map_cons, map_nil, cons.injEq, and_true] at hmap
      exact ⟨a, b, rfl, hmap.1, hmap.2⟩
    · simp at hmap
  have hle : a.blockHeight ≤ b.blockHeight := by
    have hsorted := c.transactions.sorted.sublist hsublist
    simpa using hsorted
  have hamem := hsaves.1.mem_iff.mpr (hsublist.subset (show a ∈ [a, b] by simp))
  have hbmem := hsaves.1.mem_iff.mpr (hsublist.subset (show b ∈ [a, b] by simp))
  have hordered : a = b ∨ [a, b].Sublist loaded.toList := by
    rcases hle.lt_or_eq with hlt | heq
    · exact .inr (sublist_of_rank_lt (hloaded.mem_iff.mpr hamem) (hloaded.mem_iff.mpr hbmem) hlt)
    · exact (hok r hr a hamem b hbmem ha.symm hb.symm heq).imp_right fun hbefore =>
        sublist_ofList hnodup hbefore hle
  rw [ha, hb]
  refine hordered.imp (fun heq => by rw [heq]) fun hbefore => ?_
  exact hbefore.map transactionHash

/-- An unconfirmed transaction has no confirmed outputs, so nothing it recorded is spent. -/
theorem sound_deleteUnconfirmedTransaction (hc : c.ledger.Sound)
    (h : deleteUnconfirmedTransaction age transactionHash c = .done result c') :
    c'.ledger.Sound := by
  unfold deleteUnconfirmedTransaction at h
  rw [get_bind_run] at h
  rcases hfind : c.transactions.find? transactionHash with _ | info <;> rw [hfind] at h
  · cases h
    exact hc
  dsimp only at h
  obtain ⟨hinfo, hhash⟩ := find?_eq_some.mp hfind
  split at h
  · cases h
    exact hc
  rename_i hunconf
  cases h
  refine sound_deleteTransaction hc fun r hr heq => ?_
  exact absurd (heq.trans hhash.symm) (hc.foreign hinfo (not_not.mp hunconf)
    r.toTransferInformation (mem_append_right _ (mem_map_of_mem hr)))

/-- Orderly calls keep the records sound. -/
theorem sound_of_run (h : Run age Orderly c) : c.ledger.Sound := by
  induction h with
  | start => constructor <;> simp [ledger, empty, hashes, confirmed,
      transfers, records]
  | @step c c' call _ hok hsaves hcall ih =>
    cases call with
    | addTransaction block tx transfers messages id =>
      obtain ⟨result, after, hadd, ⟨⟩⟩ := bind_eq_done.mp hcall
      exact sound_addTransaction ih hok hadd
    | addTransactionBM block tx messages id =>
      obtain ⟨result, after, hadd, ⟨⟩⟩ := bind_eq_done.mp hcall
      rw [addTransactionBM_eq_done hadd]
      exact ih
    | markTransactionConfirmed block transactionHash globalIndices =>
      obtain ⟨result, after, hmark, ⟨⟩⟩ := bind_eq_done.mp hcall
      exact sound_markTransactionConfirmed ih hok hmark
    | deleteUnconfirmedTransaction transactionHash =>
      obtain ⟨result, after, hdelete, ⟨⟩⟩ := bind_eq_done.mp hcall
      exact sound_deleteUnconfirmedTransaction ih hdelete
    | detach height =>
      obtain ⟨result, after, hdetach, ⟨⟩⟩ := bind_eq_done.mp hcall
      rw [(detach_eq_done hdetach).1]
      have hlist : c.ledger.transactions = c.transactions.toList.reverse.reverse ++ [] := by
        simp [ledger]
      exact sound_detachTransactions ih hlist fun info hinfo => by cases hinfo
    | advanceHeight height =>
      obtain ⟨out, after, hadvance, ⟨⟩⟩ := bind_eq_done.mp hcall
      rw [advanceHeight_eq_done hadvance]
      exact ih
    | reload order =>
      cases hcall
      exact sound_reload hsaves hok ih

/-- The keys of all outputs, with those of the unconfirmed ones first and of the spent ones last. -/
def outputKeys (c : TransfersContainer) : List TransactionOutputKey :=
  c.unconfirmedTransfers.toList.map (fun t => t.transactionOutputKey) ++
    c.availableTransfers.toList.map (fun t => t.transactionOutputKey) ++
    c.spentTransfers.toList.map fun s => s.transactionOutputKey

theorem length_spentOf_le (c : TransfersContainer) (descriptor : SpentOutputDescriptor) :
    (c.spentOf descriptor).length ≤ 1 := by
  have hnodup : (c.spentOf descriptor).Nodup := by
    refine (c.spentTransfers.distinct.imp ?_).filter _
    rintro s _ hdist rfl
    exact hdist (.inl rfl)
  rcases hlist : c.spentOf descriptor with _ | ⟨first, rest⟩
  · exact Nat.zero_le 1
  rw [← hlist]
  refine length_le_one_of_forall_eq hnodup (a := first) fun s hs => ?_
  have hfirst : first ∈ c.spentOf descriptor := hlist ▸ mem_cons_self
  obtain ⟨hmem, hdesc⟩ := mem_filter.mp hs
  obtain ⟨hfirstMem, hfirstDesc⟩ := mem_filter.mp hfirst
  exact HashedIndex.eq_of_clash (fun _ _ hsame => hsame.imp .symm .symm) hmem hfirstMem
    (.inr ((of_decide_eq_true hdesc).trans (of_decide_eq_true hfirstDesc).symm))

end TransfersContainer

open TransfersContainer

/-- In every state that orderly calls reach, an output is in one container only, the unlock jobs are
those of the available outputs, and of the outputs with one key image the right one is shown and no
query counts two. -/
theorem wallet_of_run {age : Nat} {c : TransfersContainer} (h : Run age Orderly c) :
    c.outputKeys.Nodup ∧
    (c.transfersUnlockJobs.toList.map TransferUnlockJob.transactionOutputKey).Perm
      (c.availableTransfers.toList.map fun t => t.transactionOutputKey) ∧
    (∀ keyImage, (c.spentOf (.key keyImage)).length ≤ 1 ∧ Shown (.key keyImage)
      (c.unconfirmedOf (.key keyImage)) (c.availableOf (.key keyImage))
      (c.spentOf (.key keyImage))) ∧
    ∀ cur now flags keyImage, ((getOutputs cur age now flags c).filter fun t =>
      t.spentOutputDescriptor = .key keyImage).length ≤ 1 := by
  have hshows := shows_of_reached h.reached
  refine ⟨?_, ?_, fun keyImage => ⟨c.length_spentOf_le _, hshows (.key keyImage)⟩, ?_⟩
  · have hkeys := (sound_of_run h).nodup_keys
    rw [confirmed] at hkeys
    simpa [outputKeys, ledger, transfers, records, Function.comp_def, SpentTransactionOutput.record]
      using hkeys
  · have hjobs := (jobsFit_of_reached h.reached).map TransferUnlockJob.transactionOutputKey
    simpa [ledger, transfers, Function.comp_def, unlockJob] using hjobs
  · exact fun cur now flags keyImage => hshows.length_getOutputs_le keyImage cur _ now flags

/-- In every state that orderly calls reach, every output of a wallet belongs to a transaction that
is recorded with the height of the output, and the transaction that spends it is recorded too, at no
lower height. -/
theorem records_of_run {age : Nat} {c : TransfersContainer} (h : Run age Orderly c) :
    (∀ t ∈ c.ledger.unconfirmed ++ c.ledger.confirmed, c.ledger.Owned t) ∧
    ∀ r ∈ c.ledger.spent, ∃ info ∈ c.ledger.transactions,
      info.transactionHash = r.spendingTransactionHash ∧ r.blockHeight ≤ info.blockHeight := by
  have hsound := sound_of_run h
  refine ⟨hsound.owned, fun r hr => ?_⟩
  have hown : r.toTransferInformation ∈ c.ledger.unconfirmed ++ c.ledger.confirmed :=
    mem_append_right _ (mem_append_right _ (mem_map_of_mem hr))
  rcases hsound.order r hr with hsame | hsublist
  · obtain ⟨info, hinfo, hhash, hheight⟩ := hsound.owned _ hown
    exact ⟨info, hinfo, hhash.trans hsame, hheight.ge⟩
  · obtain ⟨pair, hpair, hmap⟩ := sublist_map_iff.mp hsublist
    obtain ⟨first, rest, rfl, hfirst, hrest⟩ := map_eq_cons_iff.mp hmap.symm
    obtain ⟨info, _, rfl, hinfo, -⟩ := map_eq_cons_iff.mp hrest
    refine ⟨info, hpair.subset (mem_cons_of_mem _ mem_cons_self), hinfo, ?_⟩
    -- the transactions are ordered by their heights
    rw [hsound.blockHeight_of_mem (hpair.subset mem_cons_self) hown hfirst.symm]
    exact rel_of_pairwise_cons (c.transactions.sorted.sublist hpair) mem_cons_self

/-- An input that spends a key image. -/
def keySpending (amount : Nat) (keyImage : KeyImage) : TransactionInput :=
  .key ⟨amount, [], keyImage⟩

/-- A transaction at height 4 spends the payment of height 3. -/
def spendingCall : TransfersCall :=
  .addTransaction ⟨4, 0, 0⟩ (plainReader 2 [keySpending 5 1]) [ownTransfer 0 4 (.key 2 2)] [] 0

theorem orderly_depositCalls : ∀ call ∈ depositCalls, ∀ c : TransfersContainer, c.Orderly call ∧
    c.Saves call := by
  simp [depositCalls, Saves, Orderly, plainReader]

/-- A payment and a deposit come in, and the payment is spent. -/
theorem exists_orderly_spending : ∃ c, Run 6 Orderly c ∧ c.outputKeys = [⟨2, 0⟩, ⟨1, 1⟩, ⟨1, 0⟩] ∧
    c.ledger.spent.length = 1 := by
  obtain ⟨c, hrun, hlow, hvalue, hkeys⟩ := exists_run_of_calls 6 depositCalls
    (fun c => (∀ t ∈ c.availableTransfers.toList, t.blockHeight ≤ 4) ∧
      (perform 6 spendingCall c).value? = some () ∧
      ((perform 6 spendingCall c).stateD c).outputKeys = [⟨2, 0⟩, ⟨1, 1⟩, ⟨1, 0⟩] ∧
      ((perform 6 spendingCall c).stateD c).ledger.spent.length = 1)
    orderly_depositCalls (by decide +kernel)
  have hok : c.Orderly spendingCall := fun input _ t hcheck =>
    hlow t (checkInput_eq_spend hcheck).1
  exact ⟨_, .step hrun hok trivial (Outcome.eq_done_of_value? hvalue), hkeys⟩

theorem wallet_of_run_spending :
    ∃ c, Run 6 Orderly c ∧ c.outputKeys = [⟨2, 0⟩, ⟨1, 1⟩, ⟨1, 0⟩] ∧ c.outputKeys.Nodup := by
  obtain ⟨c, hrun, hkeys, -⟩ := exists_orderly_spending
  exact ⟨c, hrun, hkeys, (wallet_of_run hrun).1⟩

theorem records_of_run_spending : ∃ c, Run 6 Orderly c ∧ c.ledger.spent ≠ [] ∧
    (∀ t ∈ c.ledger.confirmed, c.ledger.Owned t) ∧ ∀ r ∈ c.ledger.spent,
    ∃ info ∈ c.ledger.transactions,
      info.transactionHash = r.spendingTransactionHash ∧ r.blockHeight ≤ info.blockHeight := by
  obtain ⟨c, hrun, -, hspent⟩ := exists_orderly_spending
  have hrecords := records_of_run hrun
  refine ⟨c, hrun, fun hnil => ?_, fun t ht => hrecords.1 t (mem_append_right _ ht), hrecords.2⟩
  cases hspent.symm.trans (congrArg length hnil)

/-- A payment of height 10 is spent by a transaction that is confirmed at height 5. The block of the
payment is undone, and another one brings the payment again. -/
def latePaymentCalls : List TransfersCall :=
  [.addTransaction ⟨10, 0, 0⟩ (plainReader 1 []) [ownTransfer 0 5 (.key 1 1)] [] 0,
    .addTransaction ⟨unconfirmedTransactionHeight, 0, 0⟩ (plainReader 2 [keySpending 5 1]) [] [] 0,
    .markTransactionConfirmed ⟨5, 0, 0⟩ 2 [],
    .detach 7,
    .addTransaction ⟨11, 0, 0⟩ (plainReader 1 []) [ownTransfer 0 5 (.key 1 1)] [] 0]

/-- A payment and a transaction that spends it come in one block. -/
def sameBlockCalls : List TransfersCall :=
  [.addTransaction ⟨10, 0, 0⟩ (plainReader 1 []) [ownTransfer 0 5 (.key 1 1)] [] 0,
    .addTransaction ⟨10, 0, 0⟩ (plainReader 2 [keySpending 5 1]) [] [] 0]

/-- The block is undone, and the payment goes back to the transactions without a block. -/
def undoneCalls : List TransfersCall :=
  [.detach 10, .addTransaction ⟨unconfirmedTransactionHeight, 0, 0⟩ (plainReader 1 [])
      [ownUnconfirmed 0 5 (.key 1 1)] [] 0]

/-- The records, each list the other way round. -/
def TransfersContainer.reversedOrder (c : TransfersContainer) : SavedOrder where
  transactions := c.transactions.toList.reverse
  transactionsBM := some c.transactionsBM.toList.reverse
  unconfirmedTransfers := c.unconfirmedTransfers.toList.reverse
  availableTransfers := c.availableTransfers.toList.reverse
  spentTransfers := c.spentTransfers.toList.reverse

theorem TransfersContainer.of_reversedOrder (c : TransfersContainer) : c.reversedOrder.Of c := by
  refine ⟨reverse_perm _, ?_, reverse_perm _, reverse_perm _, reverse_perm _⟩
  rintro saved hsaved
  cases hsaved
  exact reverse_perm _

/-- An output is available and spent when its block is undone while the transaction that spends it
stays, and unconfirmed and available when a wallet was loaded with two transactions of a block in
the other order. -/
theorem output_in_two_places :
    (∃ c, Run 6 (fun _ _ => True) c ∧ c.outputKeys = [⟨1, 0⟩, ⟨1, 0⟩] ∧
      c.availableTransfers.toList.length = 1 ∧ c.spentTransfers.toList.length = 1) ∧
    ∃ c, Run 6 (fun _ _ => True) c ∧ c.outputKeys = [⟨1, 0⟩, ⟨1, 0⟩] ∧
      c.unconfirmedTransfers.toList.length = 1 ∧ c.availableTransfers.toList.length = 1 := by
  constructor
  · exact exists_run_of_calls 6 latePaymentCalls _ (by simp [latePaymentCalls, Saves])
      (by decide +kernel)
  · obtain ⟨c, hrun, hloaded⟩ := @exists_run_of_calls (fun _ _ => True) 6 sameBlockCalls
      (fun c => (performAll 6 undoneCalls (c.reload c.reversedOrder)).any (fun c => decide (
        c.outputKeys = [⟨1, 0⟩, ⟨1, 0⟩] ∧ c.unconfirmedTransfers.toList.length = 1 ∧
        c.availableTransfers.toList.length = 1)) = true) _ (by simp [sameBlockCalls, Saves])
      (by decide +kernel)
    have hsaves : c.Saves (.reload c.reversedOrder) := c.of_reversedOrder
    have hreload : Run 6 (fun _ _ => True) (c.reload c.reversedOrder) :=
      .step hrun trivial hsaves rfl
    exact exists_run_of_performAll (by simp [undoneCalls, Saves]) hreload hloaded

end DarknetCoin
