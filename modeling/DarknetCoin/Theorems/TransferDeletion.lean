import DarknetCoin.Theorems.TransferUndo

/-!
# Undoing an unconfirmed transaction

The deletion of an unconfirmed transaction puts the outputs that it spent in front of the others,
and shows the outputs of its key images anew. So a transaction is undone exactly if, with what it
spends in front, the first of the earliest outputs of every key image it touches is the one that was
shown.
-/

namespace DarknetCoin

open Semantics Data List Ledger TransactionOutputInformationEx HashedIndex Program

section Hide

variable {range range' : List TransactionOutputInformationEx}

/-- The output without its flag. -/
def hide (t : TransactionOutputInformationEx) : TransactionOutputInformationEx :=
  { t with visible := false }

theorem map_hide (h : range.map toTransferInformation = range'.map toTransferInformation) :
    range.map hide = range'.map hide := by
  let restore : TransferInformation → TransactionOutputInformationEx :=
    fun t => { t with visible := false }
  have hrestore (range : List TransactionOutputInformationEx) :
      range.map hide = (range.map toTransferInformation).map restore := by
    rw [map_map]
    rfl
  rw [hrestore, hrestore, h]

/-- What is the earliest does not depend on what is shown. -/
theorem minElement_map (visible : TransferInformation → Bool) :
    minElement (range.map fun t => { t with visible := visible t.toTransferInformation }) =
      (minElement range).map fun t => { t with visible := visible t.toTransferInformation } := by
  induction range with
  | nil => rfl
  | cons t range ih =>
    simp only [map_cons, minElement, ih]
    cases minElement range with
    | none => rfl
    | some least =>
      dsimp only [Option.map_some]
      split <;> rfl

theorem minElement_hide (h : range.map hide = range'.map hide) :
    (minElement range).map hide = (minElement range').map hide := by
  have hmap (range : List TransactionOutputInformationEx) :
      minElement (range.map hide) = (minElement range).map hide := minElement_map fun _ => false
  rw [← hmap, ← hmap, h]

theorem findFirstByAmount_hide (h : range.map hide = range'.map hide) (amount : Nat) :
    (findFirstByAmount range amount).map hide = (findFirstByAmount range' amount).map hide := by
  have hmap (range : List TransactionOutputInformationEx) :
      (findFirstByAmount range amount).map hide = findFirstByAmount (range.map hide) amount := by
    unfold findFirstByAmount
    rw [← map_insertionSort (fun a b : TransactionOutputInformationEx =>
      b.less a.toTransferInformation = false) _ hide range fun _ _ _ _ => Iff.rfl, find?_map]
    rfl
  rw [hmap, hmap, h]

end Hide

namespace TransfersContainer

variable {age : Nat} {c c' m m' : TransfersContainer} {block : TransactionBlockInfo}
  {tx : TransactionReader} {keyImage : KeyImage} {t : TransactionOutputInformationEx}

/-- If none is spent, the first of the earliest available outputs of the key image is shown. -/
def Refreshed (c : TransfersContainer) (keyImage : KeyImage) : Prop :=
  c.spentOf (.key keyImage) = [] → ∀ first ∈ minElement (c.availableOf (.key keyImage)),
    first.visible = true

theorem refreshed_updateTransfersVisibility (c : TransfersContainer) (keyImage : KeyImage) :
    (c.updateTransfersVisibility keyImage).Refreshed keyImage := by
  unfold updateTransfersVisibility
  split
  · rename_i hspent
    intro hnone
    unfold spentOf at hspent
    simp [spentOf, SpentTransfersMultiIndex.updateVisibility, filter_updateVisibility_spent, hspent]
      at hnone
  · intro _ first hfirst
    split at hfirst
    · rename_i earliest hearliest
      unfold availableOf at hearliest
      simp only [availableOf, TransfersMultiIndex.updateVisibility, toList_update,
        filter_updateVisibility, if_true] at hfirst
      rw [minElement_map fun t => t.transactionOutputKey = earliest.transactionOutputKey, hearliest]
        at hfirst
      obtain rfl := Option.some.inj hfirst
      simp
    · rename_i hnone
      cases hnone.symm.trans hfirst

/-- An output changes: those with other descriptors stay as they are, and those with its key image
are shown anew. -/
structure Changes (t : TransactionOutputInformation) (c c' : TransfersContainer) : Prop where
  agrees : ∀ descriptor ≠ t.spentOutputDescriptor, AgreesAt descriptor c c'
  refreshed : ∀ keyImage, t.spentOutputDescriptor = .key keyImage → c'.Refreshed keyImage

theorem Changes.of_agrees {t : TransactionOutputInformation}
    (h : ∀ descriptor ≠ t.spentOutputDescriptor, AgreesAt descriptor c m) :
    Changes t c (m.updateVisibilityOf t.target) where
  agrees descriptor hne := (h descriptor hne).trans (agreesAt_updateVisibilityOf hne)
  refreshed keyImage hdesc := by
    rw [TransactionOutputInformation.spentOutputDescriptor] at hdesc
    split at hdesc
    · rename_i htarget
      cases hdesc
      rw [htarget]
      exact refreshed_updateTransfersVisibility m keyImage
    · cases hdesc

theorem changes_addUnconfirmed (t : TransactionOutputInformationEx) :
    Changes t.toTransactionOutputInformation c (c.addUnconfirmed t) :=
  .of_agrees fun _ hne => agreesAt_emplaceUnconfirmed hne

theorem changes_spendTransfer (transactionHash : Hash) (inputIndex : Nat)
    (ht : t ∈ c.availableTransfers.toList) : Changes t.toTransactionOutputInformation c
    (c.spendTransfer block transactionHash inputIndex t) :=
  .of_agrees fun _ hne => agreesAt_moveToSpent block transactionHash inputIndex ht hne

theorem changes_unspendTransfer {s : SpentTransactionOutput} (hs : c.HasSpent s) :
    Changes s.toTransactionOutputInformation c (c.unspendTransfer age s) :=
  .of_agrees fun _ hne => agreesAt_moveToAvailable hs hne

theorem changes_deleteUnconfirmed (ht : t.toTransferInformation ∈ c.ledger.unconfirmed) :
    Changes t.toTransactionOutputInformation c (c.deleteUnconfirmed t) :=
  .of_agrees fun _ hne => agreesAt_filterUnconfirmed ht hne

theorem AgreesAt.refreshed (h : AgreesAt (.key keyImage) c c') (hc : c.Refreshed keyImage) :
    c'.Refreshed keyImage := by
  rw [Refreshed, h.spent, h.available]
  exact hc

/-- The key image is touched and shown anew, or everything with it is as it was. -/
structure Tracks (touched : Prop) (keyImage : KeyImage) (c c' : TransfersContainer) : Prop where
  refreshed : touched → c'.Refreshed keyImage
  agrees : ¬touched → AgreesAt (.key keyImage) c c'

variable {touched touched' : Prop}

theorem Tracks.trans (h : Tracks touched keyImage c m) (h' : Tracks touched' keyImage m m') :
    Tracks (touched ∨ touched') keyImage c m' where
  refreshed := by
    by_cases hlast : touched'
    · exact fun _ => h'.refreshed hlast
    · exact fun hany => (h'.agrees hlast).refreshed (h.refreshed (hany.resolve_right hlast))
  agrees hnot := (h.agrees fun hfirst => hnot (.inl hfirst)).trans
    (h'.agrees fun hlast => hnot (.inr hlast))

theorem Tracks.congr (h : Tracks touched keyImage c c') (heq : touched ↔ touched') :
    Tracks touched' keyImage c c' :=
  propext heq ▸ h

theorem Changes.tracks {t : TransactionOutputInformation} (h : Changes t c c') :
    Tracks (t.spentOutputDescriptor = .key keyImage) keyImage c c' :=
  ⟨h.refreshed keyImage, fun hne => h.agrees _ fun heq => hne heq.symm⟩

/-- Recording the outputs of an unconfirmed transaction touches their key images. -/
theorem tracks_outputs {transfers : List TransactionOutputInformationIn} {added : Bool}
    (hblock : block.height = unconfirmedTransactionHeight)
    (h : addTransactionOutputs age block tx transfers c = .done added m) :
    Tracks (∃ transfer ∈ transfers, transfer.id = accountOwnId ∧ transfer.spentOutputDescriptor =
      .key keyImage) keyImage c m := by
  induction transfers generalizing c added with
  | nil =>
    cases h
    exact ⟨by simp, fun _ => .refl⟩
  | cons transfer transfers ih =>
    rw [addTransactionOutputs] at h
    simp only [mem_cons, or_and_right, exists_or, exists_eq_left]
    split at h
    · rename_i hother
      simpa [hother] using ih h
    rename_i hown
    obtain ⟨_, recorded, houtput, h⟩ := bind_eq_done.mp h
    obtain ⟨_, _, hrest, ⟨⟩⟩ := bind_eq_done.mp h
    have hrecorded : recorded = c.addUnconfirmed (transferRecord block tx transfer) := by
      unfold addTransactionOutput at houtput
      rw [get_bind_run] at houtput
      split at houtput
      · cases houtput
      rename_i hsame
      have hunconf : transfer.globalOutputIndex = unconfirmedTransactionGlobalOutputIndex := by
        simpa [hblock] using hsame
      simp only [hunconf, beq_self_eq_true, if_true] at houtput
      cases houtput
      rfl
    have hfirst : Tracks (transfer.spentOutputDescriptor = .key keyImage) keyImage c recorded := by
      rw [hrecorded]
      exact (changes_addUnconfirmed (transferRecord block tx transfer)).tracks
    simpa [not_not.mp hown] using hfirst.trans (ih hrest)

/-- The output that an input spends. -/
def InputCheck.transfer? : InputCheck → Option TransferInformation
  | .spend t => some t.toTransferInformation
  | _ => none

/-- The available outputs that the inputs of a transaction name. -/
def spendsOf (c : TransfersContainer) (inputs : List TransactionInput) : List TransferInformation :=
  inputs.filterMap fun input => (c.checkInput input).transfer?

/-- Of what was available the transaction has spent some. -/
structure Took (transactionHash : Hash) (c m : TransfersContainer) : Prop where
  spent : ∃ used, m.ledger.spent = used ++ c.ledger.spent ∧
    ∀ r ∈ used, r.toTransferInformation ∈ c.ledger.available ∧ r.spendingTransactionHash =
      transactionHash
  available : m.ledger.available = c.ledger.available.filter fun t =>
    t ∉ m.ledger.spent.map SpendingRecord.toTransferInformation

theorem map_availableOf (c : TransfersContainer) (descriptor : SpentOutputDescriptor) :
    (c.availableOf descriptor).map toTransferInformation =
      c.ledger.available.filter fun t => t.spentOutputDescriptor = descriptor := by
  rw [show c.ledger.available = c.availableTransfers.toList.map toTransferInformation from rfl,
    filter_map]
  rfl

theorem notMem_spent_of_available (hc : c.ledger.Sound) {x : TransferInformation}
    (hx : x ∈ c.ledger.available) :
    x ∉ c.ledger.spent.map SpendingRecord.toTransferInformation := by
  intro hmem
  obtain ⟨r, hr, rfl⟩ := mem_map.mp hmem
  exact hc.not_mem_spent hx hr rfl

section Took

variable {transactionHash : Hash} {input : TransactionInput} {x : TransferInformation}

/-- What the transaction spends is what was available before. -/
theorem Took.spender_iff (h : Took tx.transactionHash c m) (hc : c.ledger.Sound)
    (hnew : tx.transactionHash ∉ c.ledger.hashes) {r : SpendingRecord} (hr : r ∈ m.ledger.spent) :
    r.spendingTransactionHash = tx.transactionHash ↔
      r.toTransferInformation ∈ c.ledger.available := by
  obtain ⟨used, hused, hfrom⟩ := h.spent
  rw [hused] at hr
  rcases mem_append.mp hr with hmem | hold
  · exact iff_of_true (hfrom r hmem).2 (hfrom r hmem).1
  · exact iff_of_false (spendingTransactionHash_ne_of_new hc hnew r hold) fun havail =>
      notMem_spent_of_available hc havail (mem_map_of_mem hold)

/-- As long as nothing with the key image is spent, the outputs with it are those that were
there. -/
theorem Took.availableOf (h : Took transactionHash c m) (hspent : m.spentOf (.key keyImage) = []) :
    c.spentOf (.key keyImage) = [] ∧ (m.availableOf (.key keyImage)).map hide =
      (c.availableOf (.key keyImage)).map hide := by
  have hnone := spentOf_eq_nil_iff.mp hspent
  constructor
  · obtain ⟨used, hused, -⟩ := h.spent
    exact spentOf_eq_nil_iff.mpr fun r hr => hnone r (hused ▸ mem_append_right used hr)
  · refine map_hide ?_
    rw [map_availableOf, map_availableOf, h.available, filter_filter]
    refine filter_congr fun t _ => ?_
    by_cases hdesc : t.spentOutputDescriptor = .key keyImage
    · have hfree : t ∉ m.ledger.spent.map SpendingRecord.toTransferInformation := by
        intro hmem
        obtain ⟨r, hr, rfl⟩ := mem_map.mp hmem
        exact hnone r hr hdesc
      simp [hdesc, hfree]
    · simp [hdesc]

/-- An input that does not fail spends the output of a key image that it named before the call. -/
theorem Took.checkInput (h : Took transactionHash c m)
    (hx : x.spentOutputDescriptor = .key keyImage) (hfails : m.checkInput input ≠ .fail) :
    x ∈ (m.checkInput input).transfer? ↔ x ∈ (c.checkInput input).transfer? := by
  cases input with
  | base input => exact Iff.rfl
  | multisignature input =>
    have hnone (c : TransfersContainer) : x ∉ (c.checkInput (.multisignature input)).transfer? := by
      intro hmem
      cases hcheck : c.checkInput (.multisignature input) with rw [hcheck] at hmem
      | spend t =>
        obtain rfl := Option.some.inj hmem
        have hname := (checkInput_eq_spend hcheck).2.1
        rw [hx] at hname
        cases hname
      | fail => cases hmem
      | foreign => cases hmem
    exact iff_of_false (hnone m) (hnone c)
  | key input =>
    have hspent : m.spentOf (.key input.keyImage) = [] := by
      by_contra hspent
      exact hfails (by simp [TransfersContainer.checkInput, hspent])
    obtain ⟨hspent', hsame⟩ := h.availableOf hspent
    have hnil : m.availableOf (.key input.keyImage) = [] ↔
        c.availableOf (.key input.keyImage) = [] := by
      rw [← map_eq_nil_iff (f := hide), hsame, map_eq_nil_iff]
    have hfirst := findFirstByAmount_hide hsame input.amount
    unfold TransfersContainer.checkInput
    simp only [hspent, hspent', ne_eq, not_true_eq_false, if_false, hnil]
    by_cases hempty : c.availableOf (.key input.keyImage) = []
    · simp only [hempty, if_true]
      refine iff_of_false ?_ ?_ <;> split <;> simp [InputCheck.transfer?]
    simp only [hempty, if_false]
    cases hm : findFirstByAmount (m.availableOf (.key input.keyImage)) input.amount <;>
      cases hc : findFirstByAmount (c.availableOf (.key input.keyImage)) input.amount <;>
      rw [hm, hc] at hfirst <;> simp_all [InputCheck.transfer?, hide]

theorem Took.spendTransfer {transactions : List TransactionInformation}
    (h : Took transactionHash c m) (hc : c.ledger.Sound)
    (hadding : Adding c block transactions m) (hold : t.toTransferInformation ∈ c.ledger.available)
    (hcheck : m.checkInput input = .spend t) (inputIndex : Nat) :
    Took transactionHash c (m.spendTransfer block transactionHash inputIndex t) := by
  let r : SpendingRecord := ⟨t.toTransferInformation, block, transactionHash, inputIndex⟩
  obtain ⟨hr, -, henter⟩ := hadding.enterSpent hcheck (r := r) rfl
  obtain ⟨used, hused, hfrom⟩ := h.spent
  constructor <;> rw [ledger_spendTransfer, henter]
  · exact ⟨r :: used, congrArg (r :: ·) hused, forall_mem_cons.mpr ⟨⟨hold, rfl⟩, hfrom⟩⟩
  · rw [h.available, filter_filter]
    refine filter_congr fun other hother => ?_
    have hkey : other.transactionOutputKey = t.transactionOutputKey ↔
        other = t.toTransferInformation :=
      ⟨fun heq => inj_on_of_nodup_map hc.nodup_available hother hold heq, fun heq => heq ▸ rfl⟩
    simp [hkey, r]

variable {messages : List String} {id inputIndex : Nat} {inputs : List TransactionInput}
  {added : Bool}

/-- Working through the inputs spends what they named before the call, and touches its key
images. -/
theorem took_inputs (hc : c.ledger.Sound) (hnew : tx.transactionHash ∉ c.ledger.hashes)
    (hlow : ∀ input ∈ tx.inputs, ∀ t, c.checkInput input = .spend t → t.blockHeight ≤ block.height)
    (hsub : ∀ input ∈ inputs, input ∈ tx.inputs)
    (h : addTransactionInputs block tx inputIndex inputs m = .done added m')
    (hadding : Adding c block (c.withTransaction block tx messages id) m)
    (htook : Took tx.transactionHash c m) : Took tx.transactionHash c m' ∧ ∀ keyImage,
      (∀ x : TransferInformation, x.spentOutputDescriptor = .key keyImage →
        (x ∈ m'.ledger.spent.map SpendingRecord.toTransferInformation ↔
          x ∈ m.ledger.spent.map SpendingRecord.toTransferInformation ∨ x ∈ c.spendsOf inputs)) ∧
      Tracks (∃ x ∈ c.spendsOf inputs, x.spentOutputDescriptor = .key keyImage) keyImage m m' := by
  induction inputs generalizing m inputIndex added with
  | nil =>
    cases h
    exact ⟨htook, fun _ => ⟨by simp [spendsOf], ⟨by simp [spendsOf], fun _ => .refl⟩⟩⟩
  | cons input inputs ih =>
    obtain ⟨hinput, hsub⟩ := forall_mem_cons.mp hsub
    rw [addTransactionInputs, get_bind_run] at h
    -- what the input names
    have hnamed {keyImage : KeyImage} {x : TransferInformation}
        (hx : x.spentOutputDescriptor = .key keyImage)
        (hfails : m.checkInput input ≠ .fail) : x ∈ c.spendsOf (input :: inputs) ↔
          x ∈ (m.checkInput input).transfer? ∨ x ∈ c.spendsOf inputs := by
      rw [htook.checkInput hx hfails, spendsOf, spendsOf, filterMap_cons]
      cases (c.checkInput input).transfer? <;> simp [eq_comm]
    cases hcheck : m.checkInput input with rw [hcheck] at h hnamed
    | fail => cases h
    | foreign =>
      obtain ⟨htook', hrest⟩ := ih hsub h hadding htook
      refine ⟨htook', fun keyImage => ?_⟩
      obtain ⟨hspent, htracks⟩ := hrest keyImage
      have hsame {x : TransferInformation} (hx : x.spentOutputDescriptor = .key keyImage) :
          x ∈ c.spendsOf (input :: inputs) ↔ x ∈ c.spendsOf inputs := by
        rw [hnamed hx nofun]
        simp [InputCheck.transfer?]
      refine ⟨fun x hx => by rw [hspent x hx, hsame hx], htracks.congr ?_⟩
      exact exists_congr fun x => and_congr_left fun hx => (hsame hx).symm
    | spend t =>
      obtain ⟨_, spent, hmodify, h⟩ := bind_eq_done.mp h
      obtain ⟨_, _, hrest, ⟨⟩⟩ := bind_eq_done.mp h
      obtain rfl : spent = m.spendTransfer block tx.transactionHash inputIndex t := by
        cases hmodify
        rfl
      have hmem := (checkInput_eq_spend hcheck).1
      have hold : t.toTransferInformation ∈ c.ledger.available := by
        have hin : t.toTransferInformation ∈ m.ledger.available := mem_map_of_mem hmem
        rw [htook.available] at hin
        exact (mem_filter.mp hin).1
      obtain ⟨htook', hrest⟩ :=
        ih hsub hrest (hadding.spendInput hc hnew hlow hinput hcheck inputIndex)
        (htook.spendTransfer hc hadding hold hcheck inputIndex)
      refine ⟨htook', fun keyImage => ?_⟩
      obtain ⟨hspent, htracks⟩ := hrest keyImage
      have hsame {x : TransferInformation} (hx : x.spentOutputDescriptor = .key keyImage) :
          x ∈ c.spendsOf (input :: inputs) ↔ x = t.toTransferInformation ∨
              x ∈ c.spendsOf inputs := by
        rw [hnamed hx nofun]
        simp [InputCheck.transfer?, eq_comm]
      let r : SpendingRecord := ⟨t.toTransferInformation, block, tx.transactionHash, inputIndex⟩
      have henter := (hadding.enterSpent hcheck (r := r) rfl).2.2
      constructor
      · intro x hx
        rw [hspent x hx, hsame hx, ledger_spendTransfer, henter, map_cons, mem_cons]
        tauto
      · refine ((changes_spendTransfer tx.transactionHash inputIndex hmem).tracks.trans
          htracks).congr ?_
        constructor
        · rintro (hdesc | ⟨x, hx, hdesc⟩)
          · exact ⟨_, (hsame hdesc).mpr (.inl rfl), hdesc⟩
          · exact ⟨x, (hsame hdesc).mpr (.inr hx), hdesc⟩
        · rintro ⟨x, hx, hdesc⟩
          rcases (hsame hdesc).mp hx with rfl | hx
          · exact .inl hdesc
          · exact .inr ⟨x, hx, hdesc⟩

end Took

/-- The transaction touches the key image: one of its own outputs has it, or it spends an output
with it. -/
def Touches (c : TransfersContainer) (tx : TransactionReader)
    (transfers : List TransactionOutputInformationIn) (keyImage : KeyImage) : Prop :=
  (∃ transfer ∈ transfers, transfer.id = accountOwnId ∧ transfer.spentOutputDescriptor =
    .key keyImage) ∨ ∃ x ∈ c.spendsOf tx.inputs, x.spentOutputDescriptor = .key keyImage

section Added

variable {transfers : List TransactionOutputInformationIn} {messages : List String} {id : Nat}
  {added : Bool} {unlocked : List TransactionOutputInformation} (hc : c.ledger.Sound)
  (hlow : ∀ input ∈ tx.inputs, ∀ t, c.checkInput input = .spend t → t.blockHeight ≤ block.height)
  (hblock : block.height = unconfirmedTransactionHeight)
  (h : addTransaction age block tx transfers messages id c = .done (added, unlocked) m)
include hblock h

theorem addTransaction_unconfirmed : ∃ outputsAdded inputsAdded recorded spent,
    addTransactionOutputs age block tx transfers c = .done outputsAdded recorded ∧
    addTransactionInputs block tx 0 tx.inputs recorded = .done inputsAdded spent ∧
    m = if outputsAdded || inputsAdded then
        spent.recordTransaction (transactionRecord block tx messages id)
      else spent := by
  unfold addTransaction at h
  rw [get_bind_run] at h
  split at h
  · cases h
  split at h
  · cases h
  obtain ⟨outputsAdded, recorded, houts, h⟩ := bind_eq_done.mp h
  obtain ⟨inputsAdded, spent, hinputs, h⟩ := bind_eq_done.mp h
  refine ⟨outputsAdded, inputsAdded, recorded, spent, houts, hinputs, ?_⟩
  rw [modify_bind_run] at h
  cases h
  rfl

include hc hlow

/-- What an unconfirmed transaction spends, and the key images it touches. -/
theorem took_addTransaction : Took tx.transactionHash c m ∧ ∀ keyImage,
    (∀ x : TransferInformation, x.spentOutputDescriptor = .key keyImage →
      (x ∈ m.ledger.spent.map SpendingRecord.toTransferInformation ↔
        x ∈ c.ledger.spent.map SpendingRecord.toTransferInformation ∨ x ∈ c.spendsOf tx.inputs)) ∧
    Tracks (c.Touches tx transfers keyImage) keyImage c m := by
  have hnew := (addTransaction_eq_done h).1
  obtain ⟨outputsAdded, inputsAdded, recorded, spent, houts, hinputs, hm⟩ :=
    addTransaction_unconfirmed hblock h
  obtain ⟨hadding, hspent, havail⟩ :
      Adding c block (c.withTransaction block tx messages id) recorded ∧
      recorded.ledger.spent = c.ledger.spent ∧ recorded.ledger.available = c.ledger.available := by
    refine adding_of_outputs (J := fun m => m.ledger.spent = c.ledger.spent ∧
      m.ledger.available = c.ledger.available) hc hnew (fun hm _ => ?_)
      (fun _ hne => absurd hblock hne) houts ⟨rfl, rfl⟩
    rw [ledger_addUnconfirmed]
    exact hm
  have htook : Took tx.transactionHash c recorded := by
    refine ⟨⟨[], hspent, forall_mem_nil _⟩, ?_⟩
    rw [havail, hspent]
    exact (filter_eq_self.mpr fun t ht =>
      decide_eq_true (notMem_spent_of_available hc ht)).symm
  obtain ⟨htook', hrest⟩ := took_inputs hc hnew hlow (fun _ hinput => hinput) hinputs hadding htook
  have hsame : m.ledger.spent = spent.ledger.spent ∧ m.ledger.available = spent.ledger.available ∧
      ∀ descriptor, AgreesAt descriptor spent m := by
    rw [hm]
    split <;> exact ⟨rfl, rfl, fun _ => ⟨rfl, rfl, rfl⟩⟩
  refine ⟨⟨hsame.1 ▸ htook'.spent, ?_⟩, fun keyImage => ?_⟩
  · rw [hsame.1, hsame.2.1]
    exact htook'.available
  obtain ⟨hmem, htracks⟩ := hrest keyImage
  have hlast : Tracks False keyImage spent m := ⟨False.elim, fun _ => hsame.2.2 _⟩
  refine ⟨fun x hx => by rw [hsame.1, hmem x hx, hspent], ?_⟩
  exact (((tracks_outputs hblock houts).trans htracks).trans hlast).congr (or_iff_left False.elim)

end Added

theorem Tracks.step {t : TransactionOutputInformation} (h : Tracks touched keyImage c m)
    (hchanges : Changes t m m')
    (htouched : t.spentOutputDescriptor = .key keyImage → touched) : Tracks touched keyImage c m' :=
  (h.trans hchanges.tracks).congr (or_iff_left_of_imp htouched)

/-- The deletion of a transaction touches the key images of what it spent and of its outputs. -/
theorem Tracks.deleteTransaction {transactionHash : Hash} (h : Tracks touched keyImage c m)
    (hspent : ∀ r ∈ m.ledger.spent, r.spendingTransactionHash = transactionHash →
      r.transactionHash ≠ transactionHash ∧ (r.spentOutputDescriptor = .key keyImage → touched))
    (hunconf : ∀ t ∈ m.ledger.unconfirmed, t.transactionHash = transactionHash →
      t.spentOutputDescriptor = .key keyImage → touched)
    (havail : ∀ t ∈ m.ledger.available, t.transactionHash ≠ transactionHash) :
    Tracks touched keyImage c (m.deleteTransaction age transactionHash) := by
  let I (s : TransfersContainer) : Prop := Tracks touched keyImage c s ∧
    (∀ r ∈ s.ledger.spent, r ∈ m.ledger.spent) ∧
      (∀ t ∈ s.ledger.unconfirmed, t ∈ m.ledger.unconfirmed) ∧
    ∀ t ∈ s.ledger.available, t.transactionHash ≠ transactionHash
  suffices hdeleted : I (m.deleteTransactionTransfers age transactionHash) by
    have hframe : AgreesAt (.key keyImage) (m.deleteTransactionTransfers age transactionHash)
        (m.deleteTransaction age transactionHash) := ⟨rfl, rfl, rfl⟩
    exact ⟨fun hany => hframe.refreshed (hdeleted.1.refreshed hany),
      fun hnot => (hdeleted.1.agrees hnot).trans hframe⟩
  refine deleteTransactionTransfers_of ?_ ?_ ?_ ⟨h, fun _ => id, fun _ => id, havail⟩
  · rintro s spent hhas hhash ⟨htracks, hs, hu, ha⟩
    obtain ⟨hforeign, htouched⟩ := hspent _ (hs _ hhas.1) hhash
    refine ⟨htracks.step (changes_unspendTransfer hhas) htouched, ?_⟩
    rw [ledger_unspendTransfer]
    refine ⟨fun r hr => hs r (mem_filter.mp hr).1, hu, fun t ht => ?_⟩
    rcases eq_or_mem_of_mem_enter ht with rfl | hold
    · exact hforeign
    · exact ha t hold
  · rintro s t ht hhash ⟨htracks, hs, hu, ha⟩
    refine ⟨htracks.step (changes_deleteUnconfirmed ht) (hunconf _ (hu _ ht) hhash), ?_⟩
    rw [ledger_deleteUnconfirmed]
    exact ⟨hs, fun t ht => hu t (mem_filter.mp ht).1, ha⟩
  · rintro s t ht hhash ⟨-, -, -, ha⟩
    exact absurd hhash (ha _ ht)

/-- The available outputs of a key image, with those that the transaction spends in front. -/
def reordered (c : TransfersContainer) (tx : TransactionReader) (keyImage : KeyImage) :
    List TransactionOutputInformationEx :=
  (c.availableOf (.key keyImage)).filter
    (fun t => t.toTransferInformation ∈ c.spendsOf tx.inputs) ++
    (c.availableOf (.key keyImage)).filter fun t => t.toTransferInformation ∉ c.spendsOf tx.inputs

/-- Lists with the same elements, of which none comes twice and there is one at most. -/
theorem eq_of_mem_iff {α : Type} {l l' : List α} (hl : l.Nodup) (hl' : l'.length ≤ 1)
    (h : ∀ a, a ∈ l ↔ a ∈ l') : l = l' := by
  match l', hl', h with
  | [], _, h => exact eq_nil_iff_forall_not_mem.mpr fun a ha => not_mem_nil ((h a).mp ha)
  | [a], _, h => exact perm_singleton.mp ((perm_ext_iff_of_nodup hl (nodup_singleton a)).mpr h)

/-- No two outputs with one key image are spent. -/
theorem length_spent_le (c : TransfersContainer) (keyImage : KeyImage) :
    ((c.ledger.spent.map SpendingRecord.toTransferInformation).filter fun t =>
      t.spentOutputDescriptor = .key keyImage).length ≤ 1 := by
  have hnodup : ((c.ledger.spent.map SpendingRecord.toTransferInformation).map fun t =>
      t.spentOutputDescriptor).Nodup := by
    rw [List.Nodup, pairwise_map, pairwise_map, ledger, SpentTransfersMultiIndex.records,
      pairwise_map]
    exact c.spentTransfers.distinct.imp fun hne heq => hne (.inr heq)
  have hcount := nodup_iff_count_le_one.mp hnodup (.key keyImage)
  rw [count, countP_map] at hcount
  rw [← countP_eq_length_filter]
  exact (countP_congr fun t _ => by simp).trans_le hcount

section Deleted

variable {transfers : List TransactionOutputInformationIn} {messages : List String} {id : Nat}
  {unlocked : List TransactionOutputInformation} (hc : c.ledger.Sound)
  (hlow : ∀ input ∈ tx.inputs, ∀ t, c.checkInput input = .spend t → t.blockHeight ≤ block.height)
  (hblock : block.height = unconfirmedTransactionHeight)
  (h : addTransaction age block tx transfers messages id c = .done (true, unlocked) m)
include hc hlow hblock h

/-- After the deletion the outputs that the transaction spent stand in front. -/
theorem map_availableOf_deleteTransaction (keyImage : KeyImage) :
    ((m.deleteTransaction age tx.transactionHash).availableOf (.key keyImage)).map
    toTransferInformation = (c.reordered tx keyImage).map toTransferInformation := by
  have hnew := (addTransaction_eq_done h).1
  obtain ⟨htook, hrest⟩ := took_addTransaction hc hlow hblock h
  obtain ⟨hmem, -⟩ := hrest keyImage
  have hforeign := transactionHash_ne_of_new hc hnew
  have hfree {t : TransferInformation} (ht : t ∈ c.ledger.available) :=
    notMem_spent_of_available hc ht
  have hsplit (p : TransferInformation → Bool) :
      ((c.availableOf (.key keyImage)).filter fun t => p t.toTransferInformation).map
        toTransferInformation =
        (c.ledger.available.filter fun t => t.spentOutputDescriptor = .key keyImage).filter p := by
    rw [← map_availableOf, filter_map]
    rfl
  rw [map_availableOf, ledger_deleteTransaction tx.transactionHash (sound_addTransaction hc hlow h),
    reordered, map_append, hsplit fun t => t ∈ c.spendsOf tx.inputs, hsplit fun t =>
      t ∉ c.spendsOf tx.inputs, delete]
  dsimp only
  rw [filter_append, filter_append]
  congr 1
  · -- at most one output with the key image is spent
    refine (eq_of_mem_iff ((hc.nodup_available.of_map.filter _).filter _) ?_ fun x => ?_).symm
    · rw [filter_reverse, filter_reverse, length_reverse]
      exact (Sublist.length_le ((filter_sublist.trans (filter_sublist.map _)).filter _)).trans
        (length_spent_le m keyImage)
    · simp only [mem_filter, decide_eq_true_eq, mem_reverse, mem_map]
      constructor
      · rintro ⟨⟨hx, hdesc⟩, hspends⟩
        obtain ⟨r, hr, rfl⟩ := mem_map.mp ((hmem x hdesc).mpr (.inr hspends))
        exact ⟨⟨⟨r, ⟨hr, (htook.spender_iff hc hnew hr).mpr hx⟩, rfl⟩,
          hforeign _ (mem_append_right _ (mem_append_left _ hx))⟩, hdesc⟩
      · rintro ⟨⟨⟨r, ⟨hr, hhash⟩, rfl⟩, -⟩, hdesc⟩
        have hold := (htook.spender_iff hc hnew hr).mp hhash
        exact ⟨⟨hold, hdesc⟩, ((hmem _ hdesc).mp (mem_map_of_mem hr)).resolve_left (hfree hold)⟩
  · rw [htook.available, filter_filter, filter_filter, filter_filter]
    refine filter_congr fun t ht => ?_
    by_cases hdesc : t.spentOutputDescriptor = .key keyImage
    · have hhash := hforeign t (mem_append_right _ (mem_append_left _ ht))
      have hiff := hmem t hdesc
      simp only [hfree ht, false_or] at hiff
      simp [hdesc, hhash, hiff]
    · simp [hdesc]

/-- A key image that the transaction touches is shown anew, and everything with another one is as it
was. -/
theorem tracks_deleteTransaction (keyImage : KeyImage) :
    Tracks (c.Touches tx transfers keyImage) keyImage c
    (m.deleteTransaction age tx.transactionHash) := by
  have hnew := (addTransaction_eq_done h).1
  obtain ⟨htook, hrest⟩ := took_addTransaction hc hlow hblock h
  have hforeign := transactionHash_ne_of_new hc hnew
  obtain ⟨-, htracks⟩ := hrest keyImage
  -- what the transaction has of a key image that it does not touch would have been there before
  refine htracks.deleteTransaction (fun r hr hhash => ⟨?_, fun hdesc => ?_⟩)
    (fun t ht hhash hdesc => ?_) fun t ht => ?_
  · have hold := (htook.spender_iff hc hnew hr).mp hhash
    exact hforeign _ (mem_append_right _ (mem_append_left _ hold))
  · by_contra hnot
    obtain ⟨s, hs, rfl⟩ := mem_map.mp hr
    have hmem : s ∈ m.spentOf (.key keyImage) := mem_filter.mpr ⟨hs, decide_eq_true hdesc⟩
    rw [(htracks.agrees hnot).spent] at hmem
    exact spendingTransactionHash_ne_of_new hc hnew _ (mem_map_of_mem (mem_filter.mp hmem).1) hhash
  · by_contra hnot
    obtain ⟨entry, hentry, rfl⟩ := mem_map.mp ht
    have hmem : entry ∈ m.unconfirmedOf (.key keyImage) :=
      mem_filter.mpr ⟨hentry, decide_eq_true hdesc⟩
    rw [(htracks.agrees hnot).unconfirmed] at hmem
    exact hforeign _ (mem_append_left _ (mem_map_of_mem (mem_filter.mp hmem).1)) hhash
  · rw [htook.available] at ht
    exact hforeign t (mem_append_right _ (mem_append_left _ (mem_filter.mp ht).1))

end Deleted

/-- With what the transaction spends in front, the first of the earliest outputs of every key image
that it touches is the one that is shown. -/
def KeepsShown (c : TransfersContainer) (tx : TransactionReader)
    (transfers : List TransactionOutputInformationIn) : Prop :=
  ∀ keyImage, c.Touches tx transfers keyImage → c.spentOf (.key keyImage) = [] →
    ∀ first ∈ minElement (c.reordered tx keyImage), first.visible = true

theorem mem_reordered : t ∈ c.reordered tx keyImage ↔ t ∈ c.availableOf (.key keyImage) := by
  simp only [reordered, mem_append, mem_filter, decide_eq_true_eq, ← and_or_left, em, and_true]

theorem spentOf_eq_nil_of_same (hsame : c'.ledger.Same c.ledger) :
    c'.spentOf (.key keyImage) = [] ↔ c.spentOf (.key keyImage) = [] := by
  rw [spentOf_eq_nil_iff, spentOf_eq_nil_iff, hsame.spent]

theorem eq_of_mem_available {t' : TransactionOutputInformationEx}
    (ht : t ∈ c.availableTransfers.toList) (ht' : t' ∈ c.availableTransfers.toList)
    (h : t.toTransferInformation = t'.toTransferInformation) : t = t' :=
  eq_of_clash (fun _ _ hsame => .symm hsame) ht ht'
    (congrArg (fun t : TransferInformation => t.transactionOutputKey) h)

/-- If an output of a key image is shown, no other one is. -/
theorem Shows.visible_iff {first : TransactionOutputInformationEx} (h : c.Shows)
    (hspent : c.spentOf (.key keyImage) = []) (hfirst : first ∈ c.availableOf (.key keyImage))
    (hvisible : first.visible = true) (ht : t ∈ c.availableOf (.key keyImage)) :
    t.visible = true ↔ t.toTransferInformation = first.toTransferInformation := by
  obtain ⟨-, -, hearliest, -⟩ := h (.key keyImage)
  obtain ⟨earliest, -, -, -, honly⟩ := hearliest hspent (ne_nil_of_mem ht)
  constructor
  · intro htVisible
    rw [honly t ht htVisible, honly first hfirst hvisible]
  · intro hsame
    rw [eq_of_mem_available (mem_filter.mp ht).1 (mem_filter.mp hfirst).1 hsame]
    exact hvisible

section Restored

variable {transfers : List TransactionOutputInformationIn} (h : c.Shows) (h' : c'.Shows)
  (hsame : c'.ledger.Same c.ledger)
  (horder : ∀ keyImage, (c'.availableOf (.key keyImage)).map toTransferInformation =
    (c.reordered tx keyImage).map toTransferInformation)
  (htracks : ∀ keyImage, Tracks (c.Touches tx transfers keyImage) keyImage c c')
include hsame horder htracks

/-- What is shown anew: the earliest output in the new order. -/
theorem exists_refreshed (htouches : c.Touches tx transfers keyImage)
    (hspent : c.spentOf (.key keyImage) = [])
    {first : TransactionOutputInformationEx} (hmin : first ∈ minElement (c.reordered tx keyImage)) :
    ∃ first' ∈ c'.availableOf (.key keyImage), first'.visible = true ∧
      first'.toTransferInformation = first.toTransferInformation := by
  have hspent' := (spentOf_eq_nil_of_same hsame).mpr hspent
  have hhide := minElement_hide (map_hide (horder keyImage))
  rw [show minElement (c.reordered tx keyImage) = some first from hmin] at hhide
  obtain ⟨first', hfirst', heq⟩ := Option.map_eq_some_iff.mp hhide
  have hinfo : (hide first').toTransferInformation = (hide first).toTransferInformation := by
    rw [heq]
  exact ⟨first', (minElement_spec hfirst').1,
    (htracks keyImage).refreshed htouches hspent' first' hfirst', hinfo⟩

include h h' in
/-- If the order does not change what is shown, every output is shown as before. -/
theorem KeepsShown.visible_eq {t' : TransactionOutputInformationEx}
    (hkeeps : c.KeepsShown tx transfers)
    (ht : t ∈ c.availableTransfers.toList) (ht' : t' ∈ c'.availableTransfers.toList)
    (hinfo : t.toTransferInformation = t'.toTransferInformation) : t'.visible = t.visible := by
  have hdesc' : t'.spentOutputDescriptor = t.spentOutputDescriptor :=
    congrArg (fun t : TransferInformation => t.spentOutputDescriptor) hinfo.symm
  by_cases hm : t.IsMultisignature
  · rw [((showsOf_iff_of_isMultisignature hm).mp (h _)).2.1 t ht rfl,
      ((showsOf_iff_of_isMultisignature hm).mp (h' _)).2.1 t' ht' hdesc']
  obtain ⟨keyImage, -, -, hdesc⟩ := TransactionOutputInformation.exists_keyImage hm
  have hof : t ∈ c.availableOf (.key keyImage) := mem_filter.mpr ⟨ht, decide_eq_true hdesc⟩
  have hof' : t' ∈ c'.availableOf (.key keyImage) :=
    mem_filter.mpr ⟨ht', decide_eq_true (hdesc'.trans hdesc)⟩
  by_cases htouches : c.Touches tx transfers keyImage
  swap
  · rw [((htracks keyImage).agrees htouches).available] at hof'
    rw [eq_of_mem_available ht (mem_filter.mp hof').1 hinfo]
  by_cases hspent : c.spentOf (.key keyImage) = []
  swap
  · -- nothing of a spent key image is shown
    have hspent' := mt (spentOf_eq_nil_of_same hsame).mp hspent
    rw [(h (.key keyImage)).2.1 hspent t hof, (h' (.key keyImage)).2.1 hspent' t' hof']
  have hmem : t.toTransferInformation ∈ (c.reordered tx keyImage).map toTransferInformation := by
    rw [hinfo, ← horder]
    exact mem_map_of_mem hof'
  obtain ⟨first, hmin⟩ : ∃ first, minElement (c.reordered tx keyImage) = some first := by
    rw [← Option.ne_none_iff_exists']
    intro hnone
    rw [minElement_eq_none.mp hnone] at hmem
    cases hmem
  obtain ⟨first', hfirst', hvisible', hfirstInfo⟩ :=
    exists_refreshed hsame horder htracks htouches hspent hmin
  have hspent' := (spentOf_eq_nil_of_same hsame).mpr hspent
  rw [Bool.eq_iff_iff, h.visible_iff hspent (mem_reordered.mp (minElement_spec hmin).1)
    (hkeeps keyImage htouches hspent first hmin) hof, h'.visible_iff hspent' hfirst' hvisible' hof',
      hinfo, hfirstInfo]

include h h' in
/-- The available outputs are shown as before exactly if the order does not change what is shown. -/
theorem perm_available_iff :
    c'.availableTransfers.toList.Perm c.availableTransfers.toList ↔ c.KeepsShown tx transfers := by
  constructor
  · intro hperm keyImage htouches hspent first hmin
    obtain ⟨first', hfirst', hvisible, hinfo⟩ :=
      exists_refreshed hsame horder htracks htouches hspent hmin
    have hold := (mem_filter.mp (mem_reordered.mp (minElement_spec hmin).1)).1
    rw [← eq_of_mem_available (hperm.mem_iff.mp (mem_filter.mp hfirst').1) hold hinfo]
    exact hvisible
  · intro hkeeps
    let shown : TransferInformation → Prop := fun x =>
      ∃ t ∈ c.availableTransfers.toList, t.visible = true ∧ t.toTransferInformation = x
    have hshown : ∀ t ∈ c.availableTransfers.toList, t.visible = true ↔
        shown t.toTransferInformation := by
      refine fun t ht => ⟨fun hvisible => ⟨t, ht, hvisible, rfl⟩, ?_⟩
      rintro ⟨other, hother, hvisible, heq⟩
      rw [← eq_of_mem_available hother ht heq]
      exact hvisible
    refine perm_of_visible_iff (fun t' ht' => ?_) hshown hsame.available
    obtain ⟨t, ht, hinfo⟩ := mem_map.mp (hsame.available.mem_iff.mp (mem_map_of_mem ht'))
    rw [hkeeps.visible_eq h h' hsame horder htracks ht ht' hinfo, hshown t ht, hinfo]

end Restored

theorem keepsShown_of_noTies {transfers : List TransactionOutputInformationIn} (h : c.Shows)
    (hties : c.ledger.NoTies) : c.KeepsShown tx transfers := by
  intro keyImage _ hspent first hmin
  obtain ⟨hmem, hleast⟩ := minElement_spec hmin
  obtain ⟨hin, hdesc⟩ := mem_filter.mp (mem_reordered.mp hmem)
  rw [h.visible_available_iff hties hin]
  refine .inr ⟨?_, fun other hother heq => ?_⟩
  · rw [of_decide_eq_true hdesc, ← spentOf_eq_nil_iff]
    exact hspent
  · obtain ⟨entry, hentry, rfl⟩ := mem_map.mp hother
    have hof : entry ∈ c.availableOf (.key keyImage) :=
      mem_filter.mpr ⟨hentry, decide_eq_true (heq.trans (of_decide_eq_true hdesc))⟩
    exact hleast entry (mem_reordered.mpr hof)

end TransfersContainer

open TransfersContainer Outcome

/-- A recorded unconfirmed transaction is undone by its deletion, in that the wallet has the
transactions, the outputs with their visibility and the unlock jobs it had, exactly if putting back
what it spends does not change which outputs are shown. -/
theorem deletion_undoes_addition {age id : Nat} {c m : TransfersContainer}
    {block : TransactionBlockInfo} {tx : TransactionReader}
    {transfers : List TransactionOutputInformationIn} {messages : List String}
    {unlocked : List TransactionOutputInformation} (hrun : Run age Orderly c)
    (hwords : ∀ t ∈ c.availableTransfers.toList, t.blockHeight < word32)
    (hblock : block.height = unconfirmedTransactionHeight)
    (hadd : addTransaction age block tx transfers messages id c = .done (true, unlocked) m) :
    (∃ c', deleteUnconfirmedTransaction age tx.transactionHash m = .done true c' ∧
      c'.transactions.toList = c.transactions.toList ∧
      c'.unconfirmedTransfers.toList.Perm c.unconfirmedTransfers.toList ∧
      c'.availableTransfers.toList.Perm c.availableTransfers.toList ∧
      c'.spentTransfers.toList.Perm c.spentTransfers.toList ∧
      c'.transfersUnlockJobs.toList.Perm c.transfersUnlockJobs.toList) ↔
      c.KeepsShown tx transfers := by
  have hsound := sound_of_run hrun
  -- every height of a block is below the one of the unconfirmed transactions
  have hlow : ∀ input ∈ tx.inputs, ∀ t, c.checkInput input = .spend t →
      t.blockHeight ≤ block.height := fun input _ t hcheck => by
    rw [hblock]
    exact Nat.le_pred_of_lt (hwords t (checkInput_eq_spend hcheck).1)
  have hadded : (transactionRecord block tx messages id) ∈ m.transactions.toList := by
    have hplaced : m.transactions.toList = _ := transactions_of_added hadd rfl
    rw [hplaced]
    exact (withTransaction_perm (addTransaction_eq_done hadd).1).mem_iff.mpr mem_cons_self
  have hdelete : deleteUnconfirmedTransaction age tx.transactionHash m =
      .done true (m.deleteTransaction age tx.transactionHash) := by
    have hfound : m.transactions.find? tx.transactionHash =
      some (transactionRecord block tx messages id) := OrderedIndex.find?_eq_some.mpr ⟨hadded, rfl⟩
    unfold deleteUnconfirmedTransaction
    simp only [bind_run, get_run, andThen_done, hfound]
    exact congrFun (if_neg (not_not.mpr hblock)) m
  have hreached : Reached age m := hrun.reached.returned (.addTransaction ..) trivial rfl hadd
  have hafter := hreached.returned (.deleteUnconfirmedTransaction tx.transactionHash)
    trivial rfl hdelete
  have hsame : (m.deleteTransaction age tx.transactionHash).ledger.Same c.ledger := by
    rw [ledger_deleteTransaction tx.transactionHash (sound_addTransaction hsound hlow hadd)]
    exact same_delete_of_added hsound hlow hadd rfl
  -- all but the available outputs is restored in any case
  obtain ⟨htransactions, hunconf, hspent, hjobs⟩ := hafter.restored hrun.reached hsame
  have hiff : _ ↔ c.KeepsShown tx transfers :=
    perm_available_iff (shows_of_reached hrun.reached) (shows_of_reached hafter) hsame
      (map_availableOf_deleteTransaction hsound hlow hblock hadd)
      (tracks_deleteTransaction hsound hlow hblock hadd)
  constructor
  · rintro ⟨c', hc', -, -, havail, -⟩
    rw [hdelete] at hc'
    cases hc'
    exact hiff.mp havail
  · intro hkeeps
    exact ⟨_, hdelete, htransactions, hunconf, hiff.mpr hkeeps, hspent, hjobs⟩

/-- An unconfirmed transaction that spends the payment of `depositCalls`, added to a container. -/
def addPending (c : TransfersContainer) :
    Outcome TransfersContainer (Bool × List TransactionOutputInformation) :=
  TransfersContainer.addTransaction 6 ⟨unconfirmedTransactionHeight, 0, 0⟩
    (plainReader 2 [keySpending 5 1]) [{ ownTransfer 0 4 (.key 2 2) with
      globalOutputIndex := unconfirmedTransactionGlobalOutputIndex }] [] 0 c

/-- A payment that an unconfirmed transaction spends is available again after its deletion. -/
theorem deletion_undoes_addition_pending :
    ∃ c m c', Run 6 Orderly c ∧ addPending c = .done (true, []) m ∧
      m.spentTransfers.toList.length = 1 ∧ deleteUnconfirmedTransaction 6 2 m = .done true c' ∧
      c'.availableTransfers.toList.Perm c.availableTransfers.toList := by
  obtain ⟨c, hrun, hwords, hdist, hvalue, hspent⟩ :=
    exists_run_of_calls 6 depositCalls (fun c =>
      (∀ t ∈ c.availableTransfers.toList, t.blockHeight < word32) ∧
      (∀ a ∈ c.ledger.available, ∀ b ∈ c.ledger.available,
        a.spentOutputDescriptor = b.spentOutputDescriptor → a = b) ∧
      (addPending c).value? = some (true, []) ∧
      ((addPending c).stateD c).spentTransfers.toList.length = 1)
      orderly_depositCalls (by decide +kernel)
  have hadd := eq_done_of_value? (s := c) hvalue
  have hties : c.ledger.NoTies := fun a ha b hb keyImage hka hkb _ _ =>
    hdist a ha b hb (hka.trans hkb.symm)
  obtain ⟨c', hdelete, -, -, havail, -⟩ := (deletion_undoes_addition hrun hwords rfl hadd).mpr
    (keepsShown_of_noTies (shows_of_reached hrun.reached) hties)
  exact ⟨c, _, c', hrun, hadd, hspent, hdelete, havail⟩

/-- Of two outputs with one key image in one transaction the second is shown; after an unconfirmed
transaction that spent the first is deleted, it is the first. -/
theorem deletion_changes_shown_output :
    ∃ c m c', Run 6 Orderly c ∧ addPending c = .done (true, []) m ∧
      deleteUnconfirmedTransaction 6 2 m = .done true c' ∧ shownAmounts c = [7] ∧
      shownAmounts c' = [5] ∧ ¬c'.availableTransfers.toList.Perm c.availableTransfers.toList := by
  obtain ⟨c, hrun, hvalue, hdelete, hshown⟩ := exists_run_of_calls 6 tiedCalls (fun c =>
    let m := (addPending c).stateD c
    let c' := (deleteUnconfirmedTransaction 6 2 m).stateD m
    (addPending c).value? = some (true, []) ∧
      (deleteUnconfirmedTransaction 6 2 m).value? = some true ∧ shownAmounts c = [7] ∧
      shownAmounts c' = [5] ∧ ¬c'.availableTransfers.toList.Perm c.availableTransfers.toList)
    orderly_tiedCalls (by decide +kernel)
  exact ⟨c, _, _, hrun, eq_done_of_value? hvalue, eq_done_of_value? hdelete, hshown⟩

end DarknetCoin
