import DarknetCoin.Theorems.TransferOrder

/-!
# Undoing blocks

A detach gives the records the wallet had before the blocks. What it shows is determined by its
records, unless two available outputs of one key image stand at one place of the chain.
-/

namespace DarknetCoin

open Semantics Data List Ledger TransactionOutputInformationEx OrderedIndex TransactionInformation
  Program Outcome

namespace Ledger

/-- The same records, with the available outputs in any order. -/
structure Same (l l' : Ledger) : Prop where
  transactions : l.transactions = l'.transactions
  unconfirmed : l.unconfirmed = l'.unconfirmed
  available : l.available.Perm l'.available
  spent : l.spent = l'.spent

variable {l l' l'' : Ledger}

theorem Same.refl (l : Ledger) : l.Same l := ⟨rfl, rfl, .refl _, rfl⟩

theorem Same.trans (h : l.Same l') (h' : l'.Same l'') : l.Same l'' where
  transactions := h.transactions.trans h'.transactions
  unconfirmed := h.unconfirmed.trans h'.unconfirmed
  available := h.available.trans h'.available
  spent := h.spent.trans h'.spent

theorem Same.sound (h : l.Same l') (hsound : l'.Sound) : l.Sound := by
  refine hsound.of_perm (.of_eq h.transactions) (.of_eq h.unconfirmed) ?_ fun r hr => ?_
  · exact h.available.append (.of_eq (by rw [h.spent]))
  · rw [hashes, h.transactions]
    rw [h.spent] at hr
    exact hsound.order r hr

theorem Same.delete (h : l.Same l') (hash : Hash) : (l.delete hash).Same (l'.delete hash) where
  transactions := by rw [Ledger.delete, Ledger.delete, h.transactions]
  unconfirmed := by rw [Ledger.delete, Ledger.delete, h.unconfirmed]
  available := by
    unfold Ledger.delete
    rw [h.spent]
    exact (h.available.append_left _).filter _
  spent := by rw [Ledger.delete, Ledger.delete, h.spent]

end Ledger

namespace TransfersContainer

variable {age : Nat} {c m m' : TransfersContainer} {block : TransactionBlockInfo}
  {tx : TransactionReader} {hashes : List Hash} {transactions : List TransactionInformation}
  {height : Nat}

/-- While the transaction is worked through: outputs of its own became unconfirmed or available, and
outputs that were available are spent by it. -/
def Moved (c : TransfersContainer) (transactionHash : Hash) (m : TransfersContainer) : Prop :=
  (∃ pending : List TransferInformation, (∀ t ∈ pending, t.transactionHash = transactionHash) ∧
    m.ledger.unconfirmed = pending ++ c.ledger.unconfirmed) ∧
  ∃ (own : List TransferInformation) (used : List SpendingRecord),
    (∀ t ∈ own, t.transactionHash = transactionHash) ∧
    (∀ r ∈ used, r.spendingTransactionHash = transactionHash) ∧
    m.ledger.spent = used ++ c.ledger.spent ∧
    (own ++ c.ledger.available).Perm
      (used.map SpendingRecord.toTransferInformation ++ m.ledger.available)

theorem Moved.start (c : TransfersContainer) (transactionHash : Hash) : Moved c transactionHash c :=
  ⟨⟨[], by simp, rfl⟩, [], [], by simp, by simp, rfl, .refl _⟩

section

variable {transactionHash : Hash} (h : Moved c transactionHash m)
  {t : TransactionOutputInformationEx}
include h

theorem Moved.addUnconfirmed (ht : t.transactionHash = transactionHash) :
    Moved c transactionHash (m.addUnconfirmed t) := by
  obtain ⟨⟨pending, hpending, hunconf⟩, hmoved⟩ := h
  rw [Moved, ledger_addUnconfirmed]
  refine ⟨?_, hmoved⟩
  by_cases hold : t.transactionOutputKey ∈ m.ledger.unconfirmed.map fun other =>
      other.transactionOutputKey
  · exact ⟨pending, hpending, (enter_of_mem hold).trans hunconf⟩
  refine ⟨t.toTransferInformation :: pending, forall_mem_cons.mpr ⟨ht, hpending⟩, ?_⟩
  rw [cons_append, ← hunconf]
  exact enter_of_fresh hold

theorem Moved.addAvailable (ht : t.transactionHash = transactionHash) :
    Moved c transactionHash (m.addAvailable age t) := by
  obtain ⟨hunconf, own, used, hown, hused, hspent, hperm⟩ := h
  rw [Moved, ledger_addAvailable]
  refine ⟨hunconf, ?_⟩
  by_cases hold : t.transactionOutputKey ∈ m.ledger.available.map fun other =>
      other.transactionOutputKey
  · exact ⟨own, used, hown, hused, hspent, (enter_of_mem hold).symm ▸ hperm⟩
  refine ⟨t.toTransferInformation :: own, used, forall_mem_cons.mpr ⟨ht, hown⟩, hused, hspent, ?_⟩
  rw [enter_of_fresh hold]
  exact (hperm.cons _).trans perm_middle.symm

theorem Moved.spendTransfer {input : TransactionInput} (hadding : Adding c block transactions m)
    (hcheck : m.checkInput input = .spend t) (inputIndex : Nat) :
    Moved c transactionHash (m.spendTransfer block transactionHash inputIndex t) := by
  obtain ⟨hunconf, own, used, hown, hused, hspent, hperm⟩ := h
  let r : SpendingRecord := ⟨t.toTransferInformation, block, transactionHash, inputIndex⟩
  obtain ⟨hr, -, henter⟩ := hadding.enterSpent hcheck (r := r) rfl
  have hout := perm_cons_filter_key hadding.sound.nodup_available hr
  rw [Moved, ledger_spendTransfer]
  refine ⟨hunconf, own, r :: used, hown, forall_mem_cons.mpr ⟨rfl, hused⟩, ?_, ?_⟩
  · rw [henter, hspent]
    rfl
  · exact hperm.trans ((hout.append_left _).trans perm_middle)

end

theorem filter_withTransaction {messages : List String} {id : Nat}
    (hnew : tx.transactionHash ∉ c.ledger.hashes) :
    (c.withTransaction block tx messages id).filter (fun info =>
      info.transactionHash ≠ tx.transactionHash) = c.ledger.transactions := by
  have hothers : ∀ info ∈ c.ledger.transactions, info.transactionHash ≠ tx.transactionHash :=
    fun info hinfo heq => hnew (mem_map.mpr ⟨info, hinfo, heq⟩)
  let info := transactionRecord block tx messages id
  rw [withTransaction, toList_emplace hnew, place, filter_append,
    filter_cons, if_neg (by simp [transactionRecord]), ← filter_append,
    takeWhile_append_dropWhile]
  exact filter_eq_self.mpr fun info hinfo => decide_eq_true (hothers info hinfo)

section Added

variable {transfers : List TransactionOutputInformationIn} {messages : List String} {id : Nat}
  {added : Bool} {unlocked : List TransactionOutputInformation} (hc : c.ledger.Sound)
  (hlow : ∀ input ∈ tx.inputs, ∀ t, c.checkInput input = .spend t → t.blockHeight ≤ block.height)
  (h : addTransaction age block tx transfers messages id c = .done (added, unlocked) m)
include h

theorem ledger_of_not_added (hadded : added = false) : m.ledger = c.ledger := by
  obtain ⟨-, outputsAdded, inputsAdded, recorded, spent, houts, hinputs, hres, hledger⟩ :=
    addTransaction_eq_done h
  have hres : false = (outputsAdded || inputsAdded) := hadded ▸ hres
  obtain ⟨rfl, rfl⟩ := Bool.or_eq_false_iff.mp hres.symm
  rw [hledger, addTransactionInputs_eq_false hinputs, addTransactionOutputs_eq_false houts]
  rfl

theorem transactions_of_added (hadded : added = true) :
    m.ledger.transactions = c.withTransaction block tx messages id := by
  obtain ⟨-, outputsAdded, inputsAdded, recorded, spent, houts, hinputs, hres, hledger⟩ :=
    addTransaction_eq_done h
  have hres : true = (outputsAdded || inputsAdded) := hadded ▸ hres
  rw [hledger, ← hres, withTransaction, ← transactions_of_loops houts hinputs]
  rfl

include hc hlow

/-- Outputs of the transaction are recorded, and outputs that were available are spent. -/
theorem moved_of_addTransaction : Moved c tx.transactionHash m := by
  obtain ⟨hnew, outputsAdded, inputsAdded, recorded, spent, houts, hinputs, -, hledger⟩ :=
    addTransaction_eq_done h
  have hrecorded : Adding c block (c.withTransaction block tx messages id) recorded ∧
      Moved c tx.transactionHash recorded :=
    adding_of_outputs hc hnew (fun hm _ => hm.addUnconfirmed rfl)
      (fun hm _ => hm.addAvailable rfl) houts (.start c tx.transactionHash)
  have hspent := adding_of_inputs (J := Moved c tx.transactionHash) hc hnew hlow
    (fun inputIndex hadding hm hcheck => hm.spendTransfer hadding hcheck inputIndex) hinputs
    hrecorded.1 hrecorded.2
  rw [Moved, hledger]
  split <;> exact hspent.2

omit h hlow in
/-- Nothing was spent by a transaction that is new. -/
theorem spendingTransactionHash_ne_of_new (hnew : tx.transactionHash ∉ c.ledger.hashes) :
    ∀ r ∈ c.ledger.spent, r.spendingTransactionHash ≠ tx.transactionHash := by
  intro r hr heq
  have hmem : r.toTransferInformation ∈ c.ledger.unconfirmed ++ c.ledger.confirmed :=
    mem_append_right _ (mem_append_right _ (mem_map_of_mem hr))
  rcases hc.order r hr with hsame | hpair
  · exact transactionHash_ne_of_new hc hnew _ hmem (hsame.trans heq)
  · exact hnew (heq ▸ hpair.subset (by simp))

/-- Deleting an added transaction gives back the records. -/
theorem same_delete_of_added (hadded : added = true) :
    (m.ledger.delete tx.transactionHash).Same c.ledger := by
  have hnew := (addTransaction_eq_done h).1
  obtain ⟨⟨pending, hpending, hunconf⟩, own, used, hown, hused, hspent, hperm⟩ :=
    moved_of_addTransaction hc hlow h
  have hforeign := transactionHash_ne_of_new hc hnew
  -- what the transaction spends is what was entered for it
  have hspenders := spendingTransactionHash_ne_of_new hc hnew
  unfold delete
  constructor
  · rw [transactions_of_added h hadded]
    exact filter_withTransaction hnew
  · dsimp only
    rw [hunconf, filter_append, filter_eq_nil_iff.mpr fun t ht => by simpa using hpending t ht]
    exact filter_eq_self.mpr fun t ht =>
      decide_eq_true (hforeign t (mem_append_left _ ht))
  · have hself : (used ++ c.ledger.spent).filter (fun r =>
        r.spendingTransactionHash = tx.transactionHash) = used := by
      rw [filter_append, filter_eq_self.mpr fun r hr => decide_eq_true (hused r hr),
        filter_eq_nil_iff.mpr fun r hr => by simpa using hspenders r hr, append_nil]
    have hback : (own ++ c.ledger.available).filter (fun t =>
        t.transactionHash ≠ tx.transactionHash) = c.ledger.available := by
      rw [filter_append, filter_eq_nil_iff.mpr fun t ht => by simpa using hown t ht]
      exact filter_eq_self.mpr fun t ht =>
        decide_eq_true (hforeign t (mem_append_right _ (mem_append_left _ ht)))
    rw [hspent, hself]
    refine ((((reverse_perm _).append_right _).trans hperm.symm).filter _).trans (.of_eq hback)
  · dsimp only
    rw [hspent, filter_append, filter_eq_nil_iff.mpr fun r hr => by simpa using hused r hr]
    exact filter_eq_self.mpr fun r hr => decide_eq_true (hspenders r hr)

end Added

/-- The container `m` after calls on `c` that return: transactions in blocks from `height` on, the
last one at `last`, and changes of the height. The hashes are those of the transactions that were
recorded. -/
inductive Since (age height : Nat) (c : TransfersContainer) :
    List Hash → Nat → TransfersContainer → Prop
  | start : Since age height c [] height c
  | add {hashes last m m' block tx transfers messages id added unlocked}
      (hsince : Since age height c hashes last m)
      (hlast : last ≤ block.height) (hfits : block.height < unconfirmedTransactionHeight)
      (hadd : addTransaction age block tx transfers messages id m = .done (added, unlocked) m') :
      Since age height c (if added then hashes ++ [tx.transactionHash] else hashes) block.height m'
  | advance {hashes last m m' newHeight unlocked}
      (hsince : Since age height c hashes last m)
      (hfits : newHeight + 1 < word32) (hadvance : advanceHeight newHeight m = .done unlocked m') :
      Since age height c hashes last m'

/-- Remove transactions one after the other. -/
def deleteAll (age : Nat) (hashes : List Hash) (c : TransfersContainer) : TransfersContainer :=
  hashes.foldl (fun c hash => c.deleteTransaction age hash) c

theorem Reached.returned {α : Type} {p : Program TransfersContainer α} {result : α}
    (hc : Reached age c) (call : TransfersCall) (hsaves : c.Saves call)
    (hcall : perform age call = (p >>= fun _ => pure ()))
    (h : p c = .done result m) : Reached age m := by
  refine .step hc hsaves ?_
  rw [hcall, bind_run, h]
  exact .done () m

theorem Since.reached {last : Nat} (h : Since age height c hashes last m) (hc : Reached age c) :
    Reached age m := by
  induction h with
  | start => exact hc
  | add _ _ _ hadd ih => exact ih.returned (.addTransaction ..) trivial rfl hadd
  | advance _ _ hadvance ih => exact ih.returned (.advanceHeight _) trivial rfl hadvance

theorem Since.currentHeight_lt {last : Nat} (h : Since age height c hashes last m)
    (hc : c.currentHeight + 1 < word32) : m.currentHeight + 1 < word32 := by
  induction h with
  | start => exact hc
  | add _ _ hfits hadd ih =>
    exact (keeps_currentHeight_addTransaction (hfits.trans (by decide)) _ ih).of_done hadd
  | advance _ hfits hadvance _ =>
    rw [advanceHeight_eq_done hadvance]
    exact hfits

/-- Behind the confirmed transactions of a container come the unconfirmed ones. -/
theorem transactions_split (hheight : height ≤ unconfirmedTransactionHeight)
    (hsorted : transactions.Pairwise fun a b => a.blockHeight ≤ b.blockHeight)
    (hbelow : ∀ info ∈ transactions, Below height info) : transactions =
      transactions.filter (fun info => info.blockHeight ≠ unconfirmedTransactionHeight) ++
        transactions.filter fun info => info.blockHeight = unconfirmedTransactionHeight := by
  induction transactions with
  | nil => rfl
  | cons info transactions ih =>
    obtain ⟨hhead, htail⟩ := pairwise_cons.mp hsorted
    obtain ⟨hinfo, hrest⟩ := forall_mem_cons.mp hbelow
    by_cases hunconf : info.blockHeight = unconfirmedTransactionHeight
    · -- everything behind it is unconfirmed too
      have hall : ∀ other ∈ transactions, other.blockHeight = unconfirmedTransactionHeight := by
        intro other hother
        have hle := hhead other hother
        rcases hrest other hother with heq | hlt
        · exact heq
        · omega
      rw [filter_eq_nil_iff.mpr (by simpa [hunconf] using hall),
        filter_eq_self.mpr (by simpa [hunconf] using hall), nil_append]
    · simpa [hunconf] using ih htail hrest

/-- The new transactions stand between the confirmed and the unconfirmed ones, and all that is spent
beside what was spent before is spent by them. -/
structure Grown (height : Nat) (c : TransfersContainer) (hashes : List Hash) (last : Nat)
    (m : TransfersContainer) (new : List TransactionInformation) : Prop where
  sound : m.ledger.Sound
  height_le : height ≤ last
  hashes_eq : new.map TransactionInformation.transactionHash = hashes
  heights : ∀ info ∈ new, height ≤ info.blockHeight ∧ info.blockHeight ≤ last ∧
    info.blockHeight < unconfirmedTransactionHeight
  transactions : m.ledger.transactions =
    (c.ledger.transactions.filter fun info => info.blockHeight ≠ unconfirmedTransactionHeight) ++
      new ++ c.ledger.transactions.filter fun info =>
        info.blockHeight = unconfirmedTransactionHeight
  spent : ∀ r ∈ m.ledger.spent, r.spendingTransactionHash ∈ hashes ∨ r ∈ c.ledger.spent

section Grown

variable {height last : Nat} {hashes : List Hash} {new : List TransactionInformation}
  (hbelow : ∀ info ∈ c.ledger.transactions, Below height info)
  {transfers : List TransactionOutputInformationIn}
include hbelow

section

variable (h : Grown height c hashes last m new)

include h

/-- No available output is in a block above the last one. -/
theorem Grown.blockHeight_le {t : TransferInformation} (ht : t ∈ m.ledger.available) :
    t.blockHeight ≤ last := by
  have hmem : t ∈ m.ledger.confirmed := mem_append_left _ ht
  obtain ⟨info, hinfo, -, hheight⟩ := h.sound.owned t (mem_append_right _ hmem)
  have hconf := h.sound.height_confirmed t hmem
  rw [← hheight] at hconf ⊢
  rw [h.transactions, mem_append, mem_append] at hinfo
  rcases hinfo with (hold | hnew) | hunconf
  · have hlt := (hbelow info (mem_filter.mp hold).1).resolve_left hconf
    have := h.height_le
    omega
  · exact (h.heights info hnew).2.1
  · exact absurd (of_decide_eq_true (mem_filter.mp hunconf).2) hconf

variable {messages : List String} {id : Nat} (hlast : last ≤ block.height)
  (hfits : block.height < unconfirmedTransactionHeight)
include hlast hfits

/-- The record of a transaction is placed behind the new ones. -/
theorem Grown.withTransaction_eq {result : Bool × List TransactionOutputInformation}
    (hadd : addTransaction age block tx transfers messages id m = .done result m') :
    m.withTransaction block tx messages id = (c.ledger.transactions.filter fun info =>
        info.blockHeight ≠ unconfirmedTransactionHeight) ++
        (new ++ [transactionRecord block tx messages id]) ++
      c.ledger.transactions.filter fun info => info.blockHeight = unconfirmedTransactionHeight := by
  have hplaced : m.withTransaction block tx messages id =
      place blockHeight (transactionRecord block tx messages id) m.ledger.transactions :=
    toList_emplace (addTransaction_eq_done hadd).1
  rw [hplaced, h.transactions, place_append_of_le_of_lt]
  · simp
  · intro other hother
    rcases mem_append.mp hother with hold | hnew
    · obtain ⟨hmem, hne⟩ := mem_filter.mp hold
      have hlt := (hbelow other hmem).resolve_left (of_decide_eq_true hne)
      exact hlt.le.trans (h.height_le.trans hlast)
    · exact (h.heights other hnew).2.1.trans hlast
  · intro other hother
    rw [of_decide_eq_true (mem_filter.mp hother).2]
    exact hfits

theorem Grown.add {added : Bool} {unlocked : List TransactionOutputInformation}
    (hadd : addTransaction age block tx transfers messages id m = .done (added, unlocked) m') :
    ∃ new', Grown height c (if added then hashes ++ [tx.transactionHash] else hashes) block.height
    m' new' := by
  have hlow : ∀ input ∈ tx.inputs, ∀ t, m.checkInput input = .spend t →
      t.blockHeight ≤ block.height := fun input _ t hcheck =>
    (h.blockHeight_le hbelow (mem_map_of_mem (checkInput_eq_spend hcheck).1)).trans hlast
  have hsound := sound_addTransaction h.sound hlow hadd
  have hheights : ∀ info ∈ new, height ≤ info.blockHeight ∧ info.blockHeight ≤ block.height ∧
      info.blockHeight < unconfirmedTransactionHeight := fun info hinfo =>
    ⟨(h.heights info hinfo).1, (h.heights info hinfo).2.1.trans hlast, (h.heights info hinfo).2.2⟩
  cases added with
  | false =>
    have hledger := ledger_of_not_added hadd rfl
    exact ⟨new, {
      sound := hsound
      height_le := h.height_le.trans hlast
      hashes_eq := h.hashes_eq
      heights := hheights
      transactions := by rw [hledger, h.transactions]
      spent := by
        rw [hledger]
        exact h.spent }⟩
  | true =>
    obtain ⟨-, own, used, -, hused, hspent, -⟩ := moved_of_addTransaction h.sound hlow hadd
    let info := transactionRecord block tx messages id
    exact ⟨new ++ [info], {
      sound := hsound
      height_le := h.height_le.trans hlast
      hashes_eq := by
        rw [map_append, h.hashes_eq]
        rfl
      heights := by
        intro other hother
        rcases mem_append.mp hother with hmem | hmem
        · exact hheights other hmem
        · rw [mem_singleton.mp hmem]
          exact ⟨h.height_le.trans hlast, le_rfl, hfits⟩
      transactions := by
        rw [transactions_of_added hadd rfl, h.withTransaction_eq hbelow hlast hfits hadd]
      spent := by
        intro r hr
        rw [hspent] at hr
        rcases mem_append.mp hr with hmem | hmem
        · exact Or.inl (mem_append_right _ (by simp [hused r hmem]))
        · exact (h.spent r hmem).imp_left fun hold => mem_append_left _ hold }⟩

end

section

variable (hc : c.ledger.Sound) (hheight : height ≤ unconfirmedTransactionHeight)
  (h : Since age height c hashes last m)

include hc hheight h

theorem Since.grown : ∃ new, Grown height c hashes last m new := by
  induction h with
  | start =>
    exact ⟨[], {
      sound := hc
      height_le := le_rfl
      hashes_eq := rfl
      heights := by simp
      transactions := by
        rw [append_nil]
        exact transactions_split hheight c.transactions.sorted hbelow
      spent := fun r hr => .inr hr }⟩
  | add _ hlast hfits hadd ih =>
    obtain ⟨new, hgrown⟩ := ih
    exact hgrown.add hbelow hlast hfits hadd
  | advance _ _ hadvance ih =>
    obtain ⟨new, hgrown⟩ := ih
    rw [advanceHeight_eq_done hadvance]
    exact ⟨new, hgrown.sound, hgrown.height_le, hgrown.hashes_eq, hgrown.heights,
      hgrown.transactions, hgrown.spent⟩

/-- The removal of the new transactions, the last one first, undoes the calls. -/
theorem Since.same_deleteAll {x : TransfersContainer} (hx : x.ledger.Same m.ledger) :
    (x.deleteAll age hashes.reverse).ledger.Same c.ledger := by
  induction h generalizing x with
  | start => exact hx
  | @add hashes last m m' block tx transfers messages id added unlocked hsince hlast
      hfits hadd ih =>
    obtain ⟨new, hgrown⟩ := hsince.grown hbelow hc hheight
    have hlow : ∀ input ∈ tx.inputs, ∀ t, m.checkInput input = .spend t →
        t.blockHeight ≤ block.height := fun input _ t hcheck =>
      (hgrown.blockHeight_le hbelow (mem_map_of_mem (checkInput_eq_spend hcheck).1)).trans hlast
    cases added with
    | false => exact ih ((ledger_of_not_added hadd rfl) ▸ hx)
    | true =>
      rw [if_pos rfl, reverse_append, reverse_singleton, singleton_append, deleteAll]
      refine ih ?_
      have hsound := hx.sound (sound_addTransaction hgrown.sound hlow hadd)
      rw [ledger_deleteTransaction tx.transactionHash hsound]
      exact (hx.delete tx.transactionHash).trans (same_delete_of_added hgrown.sound hlow hadd rfl)
  | advance _ _ hadvance ih =>
    rw [advanceHeight_eq_done hadvance] at hx
    exact ih hx

end

end Grown

/-- Unconfirmed transactions that spend nothing of the undone blocks are passed over. -/
theorem detachTransactions_append_kept {kept older : List TransactionInformation}
    (hkept : ∀ info ∈ kept, info.blockHeight = unconfirmedTransactionHeight ∧
      ∀ s ∈ c.spentBy info.transactionHash, s.blockHeight < height) :
    detachTransactions age height (kept ++ older) c = detachTransactions age height older c := by
  induction kept with
  | nil => rfl
  | cons info kept ih =>
    obtain ⟨⟨hunconf, hspent⟩, hrest⟩ := forall_mem_cons.mp hkept
    have hkeep : c.doDelete height info = false := by
      rw [doDelete, if_pos hunconf, any_eq_false]
      intro s hs
      simpa using hspent s hs
    rw [cons_append, detachTransactions, hkeep, if_pos hunconf]
    exact ih hrest

/-- Transactions of the undone blocks are removed, up to the first one below. -/
theorem detachTransactions_append_deleted {new older : List TransactionInformation}
    (hnew : ∀ info ∈ new, height ≤ info.blockHeight ∧
      info.blockHeight ≠ unconfirmedTransactionHeight)
    (holder : ∀ info ∈ older, info.blockHeight < height ∧
      info.blockHeight ≠ unconfirmedTransactionHeight) :
    detachTransactions age height (new ++ older) c = (new.map transactionHash,
        c.deleteAll age (new.map transactionHash)) := by
  induction new generalizing c with
  | nil =>
    cases older with
    | nil => rfl
    | cons info older =>
      obtain ⟨hlt, hconf⟩ := holder info mem_cons_self
      have hkeep : c.doDelete height info = false := by
        rw [doDelete, if_neg hconf]
        simpa using hlt
      rw [nil_append, detachTransactions, hkeep, if_neg hconf]
      rfl
  | cons info new ih =>
    obtain ⟨⟨hle, hconf⟩, hrest⟩ := forall_mem_cons.mp hnew
    have hdelete : c.doDelete height info = true := by
      rw [doDelete, if_neg hconf]
      simpa using hle
    rw [cons_append, detachTransactions, hdelete, ih hrest]
    rfl

theorem Since.detachTransactions_eq {last : Nat} (hc : c.ledger.Sound)
    (hheight : height ≤ unconfirmedTransactionHeight)
    (hbelow : ∀ info ∈ c.ledger.transactions, Below height info)
    (h : Since age height c hashes last m) :
    detachTransactions age height m.transactions.toList.reverse m =
      (hashes.reverse, m.deleteAll age hashes.reverse) ∧ hashes.Nodup := by
  obtain ⟨new, hgrown⟩ := h.grown hbelow hc hheight
  have hnodup := hgrown.sound.nodup_hashes
  have hlist : m.transactions.toList = _ := hgrown.transactions
  rw [Ledger.hashes, hgrown.transactions, map_append, map_append, hgrown.hashes_eq] at hnodup
  refine ⟨?_, (nodup_append.mp (nodup_append.mp hnodup).1).2.1⟩
  rw [hlist, reverse_append, reverse_append, detachTransactions_append_kept,
    detachTransactions_append_deleted, map_reverse, hgrown.hashes_eq]
  · intro info hinfo
    obtain ⟨hle, -, hlt⟩ := hgrown.heights info (mem_reverse.mp hinfo)
    exact ⟨hle, hlt.ne⟩
  · intro info hinfo
    obtain ⟨hmem, hne⟩ := mem_filter.mp (mem_reverse.mp hinfo)
    exact ⟨(hbelow info hmem).resolve_left (of_decide_eq_true hne), of_decide_eq_true hne⟩
  · intro info hinfo
    have hinfo := mem_reverse.mp hinfo
    refine ⟨of_decide_eq_true (mem_filter.mp hinfo).2, fun s hs => ?_⟩
    obtain ⟨hmem, hspender⟩ := mem_filter.mp hs
    have hspender : s.spendingTransactionHash = info.transactionHash := of_decide_eq_true hspender
    -- the transaction was there before, and so were the outputs it spends
    rcases hgrown.spent s.record (mem_map_of_mem hmem) with hnew | hold
    · have hdisjoint := (nodup_append.mp hnodup).2.2 _ (mem_append_right _ hnew) _
        (mem_map_of_mem hinfo)
      exact absurd hspender hdisjoint
    have hconf : s.record.toTransferInformation ∈ c.ledger.confirmed :=
      mem_append_right _ (mem_map_of_mem hold)
    obtain ⟨owner, howner, -, hownerHeight⟩ :=
      hc.owned s.record.toTransferInformation (mem_append_right _ hconf)
    have hne := hc.height_confirmed s.record.toTransferInformation hconf
    rw [← hownerHeight] at hne
    have hlt := (hbelow owner howner).resolve_left hne
    rw [hownerHeight] at hlt
    exact hlt

end TransfersContainer

namespace Ledger

/-- No two available outputs of one key image stand at one place of the chain. -/
def NoTies (l : Ledger) : Prop :=
  ∀ a ∈ l.available, ∀ b ∈ l.available, ∀ keyImage, a.spentOutputDescriptor = .key keyImage →
    b.spentOutputDescriptor = .key keyImage → a.blockHeight = b.blockHeight →
    a.transactionIndex = b.transactionIndex → a = b

/-- An available output is shown: it is the earliest of its key image, of which none is spent. -/
def AvailableShown (l : Ledger) (t : TransferInformation) : Prop :=
  t.IsMultisignature ∨ (∀ r ∈ l.spent, r.spentOutputDescriptor ≠ t.spentOutputDescriptor) ∧
    ∀ other ∈ l.available, other.spentOutputDescriptor = t.spentOutputDescriptor →
      other.less t = false

/-- An unconfirmed output is shown: it is the only output of its key image. -/
def UnconfirmedShown (l : Ledger) (t : TransferInformation) : Prop :=
  t.IsMultisignature ∨ (∀ r ∈ l.spent, r.spentOutputDescriptor ≠ t.spentOutputDescriptor) ∧
    (∀ other ∈ l.available, other.spentOutputDescriptor ≠ t.spentOutputDescriptor) ∧
    (l.unconfirmed.filter fun other =>
      other.spentOutputDescriptor = t.spentOutputDescriptor).length = 1

variable {l l' : Ledger} {t : TransferInformation}

theorem Same.noTies (h : l.Same l') (hties : l'.NoTies) : l.NoTies := fun a ha b hb =>
  hties a (h.available.mem_iff.mp ha) b (h.available.mem_iff.mp hb)

theorem Same.availableShown_iff (h : l.Same l') : l.AvailableShown t ↔ l'.AvailableShown t := by
  simp only [AvailableShown, h.spent, h.available.mem_iff]

theorem Same.unconfirmedShown_iff (h : l.Same l') : l.UnconfirmedShown t ↔
    l'.UnconfirmedShown t := by
  simp only [UnconfirmedShown, h.spent, h.available.mem_iff, h.unconfirmed]

end Ledger

namespace TransfersContainer

variable {c c' : TransfersContainer}

/-- Without ties the records say which available outputs are shown. -/
theorem Shows.visible_available_iff (h : c.Shows) (hties : c.ledger.NoTies)
    {t : TransactionOutputInformationEx} (ht : t ∈ c.availableTransfers.toList) :
    t.visible = true ↔ c.ledger.AvailableShown t.toTransferInformation := by
  by_cases hm : t.IsMultisignature
  · have hvisible := ((showsOf_iff_of_isMultisignature hm).mp (h _)).2.1 t ht rfl
    exact ⟨fun _ => .inl hm, fun _ => hvisible⟩
  obtain ⟨keyImage, -, -, hdesc⟩ := TransactionOutputInformation.exists_keyImage hm
  obtain ⟨-, hhidden, hearliest, -⟩ := h (.key keyImage)
  have hof : t ∈ c.availableOf (.key keyImage) :=
    mem_filter.mpr ⟨ht, decide_eq_true hdesc⟩
  rw [AvailableShown, hdesc, ← spentOf_eq_nil_iff]
  by_cases hspent : c.spentOf (.key keyImage) = []
  · obtain ⟨earliest, hmem, hvisible, hleast, honly⟩ := hearliest hspent (ne_nil_of_mem hof)
    obtain ⟨hin, hearliestOf⟩ := mem_filter.mp hmem
    constructor
    · intro htVisible
      obtain rfl := honly t hof htVisible
      refine .inr ⟨hspent, fun other hother heq => ?_⟩
      obtain ⟨entry, hentry, rfl⟩ := mem_map.mp hother
      exact hleast entry (mem_filter.mpr ⟨hentry, decide_eq_true heq⟩)
    · intro hshown
      obtain ⟨-, hall⟩ := hshown.resolve_left hm
      -- an earliest output is the one that is shown, since there are no ties
      have hnot := hall earliest.toTransferInformation (mem_map_of_mem hin)
        (of_decide_eq_true hearliestOf)
      have hnot' := hleast t hof
      rw [TransferInformation.not_less_iff] at hnot hnot'
      have hsame : t.toTransferInformation = earliest.toTransferInformation :=
        hties _ (mem_map_of_mem ht) _ (mem_map_of_mem hin) keyImage hdesc
          (of_decide_eq_true hearliestOf) (by omega) (by omega)
      have heq : t = earliest := HashedIndex.eq_of_clash (fun _ _ hsame => .symm hsame) ht hin
        (congrArg (fun t : TransferInformation => t.transactionOutputKey) hsame)
      rw [heq]
      exact hvisible
  · constructor
    · intro htVisible
      rw [hhidden hspent t hof] at htVisible
      cases htVisible
    · intro hshown
      exact absurd (hshown.resolve_left hm).1 hspent

theorem Shows.visible_unconfirmed_iff (h : c.Shows) {t : TransactionOutputInformationEx}
    (ht : t ∈ c.unconfirmedTransfers.toList) :
    t.visible = true ↔ c.ledger.UnconfirmedShown t.toTransferInformation := by
  by_cases hm : t.IsMultisignature
  · have hvisible := ((showsOf_iff_of_isMultisignature hm).mp (h _)).2.2 t ht rfl
    exact ⟨fun _ => .inl hm, fun _ => hvisible⟩
  obtain ⟨keyImage, -, -, hdesc⟩ := TransactionOutputInformation.exists_keyImage hm
  obtain ⟨-, -, -, hunconf⟩ := h (.key keyImage)
  have hlen : (c.ledger.unconfirmed.filter fun other =>
      other.spentOutputDescriptor = .key keyImage).length =
      (c.unconfirmedOf (.key keyImage)).length := by
    rw [ledger, TransfersMultiIndex.transfers, filter_map, length_map]
    rfl
  rw [hunconf t (mem_filter.mpr ⟨ht, decide_eq_true hdesc⟩),
    UnconfirmedShown, hdesc, ← spentOf_eq_nil_iff, ← availableOf_eq_nil_iff, hlen]
  exact ⟨.inr, fun hshown => hshown.resolve_left hm⟩

theorem Shows.visible_spent (h : c.Shows) {s : SpentTransactionOutput}
    (hs : s ∈ c.spentTransfers.toList) : s.visible = true := by
  have hof : s ∈ c.spentOf s.spentOutputDescriptor := mem_filter.mpr ⟨hs, decide_eq_true rfl⟩
  have hshown := h s.spentOutputDescriptor
  cases hdesc : s.spentOutputDescriptor with rw [hdesc] at hof hshown
  | key keyImage =>
    exact hshown.1 s hof
  | multisignature amount index =>
    exact hshown.1 s hof

/-- Two lists of outputs with the same records and flags that the records determine. -/
theorem perm_of_visible_iff {entries entries' : List TransactionOutputInformationEx}
    {shown : TransferInformation → Prop}
    (hentries : ∀ t ∈ entries, t.visible = true ↔ shown t.toTransferInformation)
    (hentries' : ∀ t ∈ entries', t.visible = true ↔ shown t.toTransferInformation)
    (h : (entries.map toTransferInformation).Perm (entries'.map toTransferInformation)) :
    entries.Perm entries' := by
  classical
  let restore : TransferInformation → TransactionOutputInformationEx := fun t =>
    { t with visible := decide (shown t) }
  have hrestore : ∀ entries : List TransactionOutputInformationEx,
      (∀ t ∈ entries, t.visible = true ↔ shown t.toTransferInformation) →
      (entries.map toTransferInformation).map restore = entries := by
    intro entries hall
    rw [map_map]
    refine (map_congr_left fun t ht => ?_).trans (map_id entries)
    have hflag : decide (shown t.toTransferInformation) = t.visible :=
      Bool.eq_iff_iff.mpr (by rw [decide_eq_true_iff, hall t ht])
    simp [restore, hflag]
  rw [← hrestore entries hentries, ← hrestore entries' hentries']
  exact h.map restore

section Same

variable (h : c.Shows) (h' : c'.Shows) (hsame : c.ledger.Same c'.ledger)
include h h' hsame

/-- Containers with the same records show the same unconfirmed outputs. -/
theorem Shows.perm_unconfirmed :
    c.unconfirmedTransfers.toList.Perm c'.unconfirmedTransfers.toList := by
  refine perm_of_visible_iff (fun t ht => ?_) (fun t ht => h'.visible_unconfirmed_iff ht)
    (.of_eq hsame.unconfirmed)
  rw [h.visible_unconfirmed_iff ht, hsame.unconfirmedShown_iff]

/-- Containers with the same records show the same available outputs, if there are no ties. -/
theorem Shows.perm_available (hties : c'.ledger.NoTies) :
    c.availableTransfers.toList.Perm c'.availableTransfers.toList := by
  refine perm_of_visible_iff (fun t ht => ?_) (fun t ht => h'.visible_available_iff hties ht)
    hsame.available
  rw [h.visible_available_iff (hsame.noTies hties) ht, hsame.availableShown_iff]

theorem Shows.perm_spent : c.spentTransfers.toList.Perm c'.spentTransfers.toList := by
  let restore : SpendingRecord → SpentTransactionOutput := fun r => { r with visible := true }
  have hrestore : ∀ c : TransfersContainer, c.Shows →
      c.ledger.spent.map restore = c.spentTransfers.toList := by
    intro c hshows
    rw [ledger, SpentTransfersMultiIndex.records, map_map]
    refine (map_congr_left fun s hs => ?_).trans (map_id _)
    have hvisible := hshows.visible_spent hs
    simp [restore, SpentTransactionOutput.record, ← hvisible]
  rw [← hrestore c h, ← hrestore c' h', hsame.spent]

end Same

/-- Calls that lead back to the same records lead back to the same container, apart from which of
the available outputs are shown. -/
theorem Reached.restored {age : Nat} (h : Reached age c) (h' : Reached age c')
    (hsame : c.ledger.Same c'.ledger) : c.transactions.toList = c'.transactions.toList ∧
      c.unconfirmedTransfers.toList.Perm c'.unconfirmedTransfers.toList ∧
      c.spentTransfers.toList.Perm c'.spentTransfers.toList ∧
      c.transfersUnlockJobs.toList.Perm c'.transfersUnlockJobs.toList := by
  have hshows := shows_of_reached h
  have hshows' := shows_of_reached h'
  refine ⟨hsame.transactions, hshows.perm_unconfirmed hshows' hsame,
    hshows.perm_spent hshows' hsame, ?_⟩
  -- there is one job for each available output
  exact (jobsFit_of_reached h).trans ((hsame.available.map _).trans (jobsFit_of_reached h').symm)

end TransfersContainer

open TransfersContainer

/-- Blocks that came from a height on are undone by a detach to it: the wallet has the transactions,
the outputs with their visibility and the unlock jobs it had, and reports the hashes of the
transactions recorded since. -/
theorem detach_undoes {age height last : Nat} {c m : TransfersContainer}
    {hashes : List Hash} (hrun : Run age Orderly c)
    (hcurrent : c.currentHeight + 1 < word32) (hheight : height ≤ unconfirmedTransactionHeight)
    (hbelow : ∀ info ∈ c.transactions.toList, Below height info) (hties : c.ledger.NoTies)
    (hsince : Since age height c hashes last m) :
    hashes.Nodup ∧ ∃ locked c', detach age height m = .done (hashes.reverse, locked) c' ∧
      c'.currentHeight = height - 1 ∧ c'.transactions.toList = c.transactions.toList ∧
      c'.unconfirmedTransfers.toList.Perm c.unconfirmedTransfers.toList ∧
      c'.availableTransfers.toList.Perm c.availableTransfers.toList ∧
      c'.spentTransfers.toList.Perm c.spentTransfers.toList ∧
      c'.transfersUnlockJobs.toList.Perm c.transfersUnlockJobs.toList := by
  have hsound := sound_of_run hrun
  have hreached := hsince.reached hrun.reached
  obtain ⟨hdel, hnodup⟩ := hsince.detachTransactions_eq hsound hheight hbelow
  obtain ⟨deleted, locked, c', hdetach⟩ :=
    detach_returns (jobsFit_of_reached hreached) (hsince.currentHeight_lt hcurrent) height
  obtain ⟨hc', hhashes⟩ := detach_eq_done hdetach
  rw [hdel] at hc' hhashes
  have hsame : c'.ledger.Same c.ledger := by
    rw [hc']
    exact hsince.same_deleteAll hbelow hsound hheight (.refl m.ledger)
  -- the state after the detach is one that calls reach
  have hafter : Reached age c' := hreached.returned (.detach height) trivial rfl hdetach
  obtain ⟨htransactions, hunconf, hspent, hjobs⟩ := hafter.restored hrun.reached hsame
  have havail := (shows_of_reached hafter).perm_available
    (shows_of_reached hrun.reached) hsame hties
  refine ⟨hnodup, locked, c', ?_, by rw [hc'], htransactions, hunconf, havail, hspent, hjobs⟩
  rw [hdetach, show deleted = hashes.reverse from hhashes]

/-- The transaction of `spendingCall`, added to a container. -/
def addSpending (c : TransfersContainer) :
    Outcome TransfersContainer (Bool × List TransactionOutputInformation) :=
  TransfersContainer.addTransaction 6 ⟨4, 0, 0⟩ (plainReader 2 [keySpending 5 1])
    [ownTransfer 0 4 (.key 2 2)] [] 0 c

theorem since_addSpending {c : TransfersContainer} (h : (addSpending c).value? = some (true, [])) :
    Since 6 4 c [2] 4 ((addSpending c).stateD c) :=
  .add .start le_rfl (by decide) (eq_done_of_value? h)

/-- A payment that is spent at height 4 is available again after a detach to that height. -/
theorem detach_undoes_spending :
    ∃ c m locked c', Run 6 Orderly c ∧ Since 6 4 c [2] 4 m ∧ m.spentTransfers.toList.length = 1 ∧
      detach 6 4 m = .done ([2], locked) c' ∧
      c'.availableTransfers.toList.Perm c.availableTransfers.toList := by
  obtain ⟨c, hrun, hheight, hbelow, hdist, hvalue, hspent⟩ :=
    exists_run_of_calls 6 depositCalls (fun c => c.currentHeight = 3 ∧
      (∀ info ∈ c.transactions.toList, Below 4 info) ∧
      (∀ a ∈ c.ledger.available, ∀ b ∈ c.ledger.available,
        a.spentOutputDescriptor = b.spentOutputDescriptor → a = b) ∧
      (addSpending c).value? = some (true, []) ∧
      ((addSpending c).stateD c).spentTransfers.toList.length = 1)
      orderly_depositCalls (by decide +kernel)
  have hsince := since_addSpending hvalue
  obtain ⟨-, locked, c', hdetach, -, -, -, havail, -⟩ := detach_undoes hrun
    (by rw [hheight]; decide) (by decide) hbelow (fun a ha b hb keyImage hka hkb _ _ =>
      hdist a ha b hb (hka.trans hkb.symm)) hsince
  exact ⟨c, _, locked, c', hrun, hsince, hspent, hdetach, havail⟩

/-- Two outputs of one transaction with one key image. -/
def tiedCalls : List TransfersCall :=
  [.addTransaction ⟨3, 0, 0⟩ (plainReader 1 [])
    [ownTransfer 0 5 (.key 1 1), ownTransfer 1 7 (.key 1 2)] [] 0]

theorem orderly_tiedCalls : ∀ call ∈ tiedCalls, ∀ c : TransfersContainer, c.Orderly call ∧
    c.Saves call := by
  simp [tiedCalls, Saves, Orderly, plainReader]

/-- The amounts of the available outputs that are shown. -/
def shownAmounts (c : TransfersContainer) : List Nat :=
  (c.availableTransfers.toList.filter fun t => t.visible).map fun t => t.amount

/-- Of two outputs with one key image in one transaction the second is shown; after the first was
spent and the block that spent it is undone, it is the first. -/
theorem shown_output_changes :
    ∃ c m result c', Run 6 Orderly c ∧ (∀ info ∈ c.transactions.toList, Below 4 info) ∧
      Since 6 4 c [2] 4 m ∧ detach 6 4 m = .done result c' ∧
      shownAmounts c = [7] ∧ shownAmounts c' = [5] ∧
      ¬c'.availableTransfers.toList.Perm c.availableTransfers.toList := by
  obtain ⟨c, hrun, hbelow, hvalue, hdetach, hshown⟩ := exists_run_of_calls 6 tiedCalls (fun c =>
    let m := (addSpending c).stateD c
    let c' := (detach 6 4 m).stateD m
    (∀ info ∈ c.transactions.toList, Below 4 info) ∧
      (addSpending c).value? = some (true, []) ∧ (detach 6 4 m).value? = some ([2], []) ∧
      shownAmounts c = [7] ∧ shownAmounts c' = [5] ∧
      ¬c'.availableTransfers.toList.Perm c.availableTransfers.toList) orderly_tiedCalls
    (by decide +kernel)
  exact ⟨c, _, _, _, hrun, hbelow, since_addSpending hvalue, eq_done_of_value? hdetach, hshown⟩

end DarknetCoin
