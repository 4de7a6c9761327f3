import DarknetCoin.Theorems.TransferInvariant

/-!
# Unlock notifications

A wallet announces outputs by the heights it has stored for them, and its queries compute from the
fields of an output whether it is unlocked. The two agree.
-/

namespace DarknetCoin

open Semantics Data TransferInformation Program OrderedIndex List

namespace TransfersContainer

variable {age : Nat} {c : TransfersContainer}

/-- Every available output has its unlock job, and there are no other jobs. -/
def JobsFit (age : Nat) (c : TransfersContainer) : Prop :=
  c.transfersUnlockJobs.toList.Perm (c.ledger.available.map (unlockJob age))

variable {jobs : TransfersUnlockMultiIndex} {transfers : List TransferInformation}
  (h : jobs.toList.Perm (transfers.map (unlockJob age)))
include h

theorem jobs_emplace (t : TransferInformation) :
    (jobs.emplace (t.unlockJob age)).toList.Perm
    ((Ledger.enter t transfers).map (unlockJob age)) := by
  have hkeys : (jobs.toList.map TransferUnlockJob.transactionOutputKey).Perm
      (transfers.map fun other => other.transactionOutputKey) := by
    have hmap := h.map TransferUnlockJob.transactionOutputKey
    rw [map_map] at hmap
    exact hmap
  by_cases hold : t.transactionOutputKey ∈ transfers.map fun other => other.transactionOutputKey
  · rw [Ledger.enter_of_mem hold, emplace_of_mem (hkeys.mem_iff.mpr hold)]
    exact h
  · rw [Ledger.enter_of_fresh hold]
    exact (toList_emplace_perm fun hmem => hold (hkeys.mem_iff.mp hmem)).trans (h.cons _)

theorem jobs_erase (key : TransactionOutputKey) : (jobs.erase key).toList.Perm
      ((transfers.filter fun other => other.transactionOutputKey ≠ key).map (unlockJob age)) := by
  have hfilter := h.filter fun job => job.transactionOutputKey ≠ key
  rw [filter_map] at hfilter
  exact hfilter

omit h

/-- Every step of a container keeps the jobs fitting. -/
theorem jobsFit_invariant (age : Nat) : TransferInvariant age (JobsFit age) where
  empty := .refl _
  frame _ _ _ h := h
  addUnconfirmed {c t} _ h := by
    rw [JobsFit, ledger_addUnconfirmed, addUnconfirmed, transfersUnlockJobs_updateVisibilityOf]
    exact h
  addAvailable {c t} _ h := by
    rw [JobsFit, ledger_addAvailable, addAvailable, transfersUnlockJobs_updateVisibilityOf]
    exact jobs_emplace h _
  spendTransfer {c t} block transactionHash inputIndex _ h := by
    rw [JobsFit, ledger_spendTransfer, spendTransfer, transfersUnlockJobs_updateVisibilityOf]
    exact jobs_erase h _
  unspendTransfer {c s} _ h := by
    rw [JobsFit, ledger_unspendTransfer, unspendTransfer, transfersUnlockJobs_updateVisibilityOf]
    exact jobs_emplace h _
  deleteUnconfirmed {c t} _ h := by
    rw [JobsFit, ledger_deleteUnconfirmed, deleteUnconfirmed,
      transfersUnlockJobs_updateVisibilityOf]
    exact h
  deleteAvailable {c t} _ h := by
    rw [JobsFit, ledger_deleteAvailable, deleteAvailable, transfersUnlockJobs_updateVisibilityOf]
    exact jobs_erase h _
  confirmTransfer {c t} block globalOutputIndex _ h := by
    rw [JobsFit, ledger_confirmTransfer, confirmTransfer, transfersUnlockJobs_updateVisibilityOf]
    exact jobs_emplace h _
  confirmSpending _ _ h := h
  reload {c order} horder h := by
    have hjobs : (ofList c.transfersUnlockJobs.toList :
        TransfersUnlockMultiIndex).toList.Perm c.transfersUnlockJobs.toList :=
      toList_ofList_perm c.transfersUnlockJobs.nodup
    exact (hjobs.trans h).trans (((reload_perm horder).2.1.map _).map _).symm

theorem jobsFit_of_reached (h : Reached age c) : c.JobsFit age :=
  (jobsFit_invariant age).of_reached h

end TransfersContainer

namespace TransferInformation

/-- The term of a deposit, `0` for other outputs. -/
def term (t : TransferInformation) : Nat :=
  match t.target with
  | .key _ _ => 0
  | .multisignature _ term => term

/-- The heights an output depends on fit into a word, and its unlock time is a height. -/
structure Fits (cur : Currency) (age : Nat) (t : TransferInformation) : Prop where
  unlockTime_lt : t.unlockTime < cur.maxBlockHeight
  unlockTime_fits : t.unlockTime < word32
  spendable_fits : t.blockHeight + age + 1 < word32
  term_fits : t.blockHeight + t.term < word32

variable {cur : Currency} {age : Nat} {t : TransferInformation}

/-- A job is due by a height when the unlock time, the term and the spendable age have passed. -/
theorem Fits.unlockHeight_le_iff (h : t.Fits cur age) (height : Nat) :
    (t.unlockJob age).unlockHeight ≤ height ↔ t.unlockTime ≤ height ∧
    t.blockHeight + age + 1 ≤ height ∧ (t.term ≠ 0 → t.blockHeight + t.term ≤ height) := by
  have hterm := h.term_fits
  -- an output without an unlock time is bound by its own block, which the spendable age exceeds
  have hunlock : (if t.unlockTime = 0 then t.blockHeight else t.unlockTime % word32) ≤ height ↔
      (t.unlockTime = 0 → t.blockHeight ≤ height) ∧ t.unlockTime ≤ height := by
    rw [Nat.mod_eq_of_lt h.unlockTime_fits]
    split <;> omega
  unfold unlockJob term at *
  rw [Nat.mod_eq_of_lt h.spendable_fits]
  cases htarget : t.target with
  | key keyImage outputKey =>
    dsimp only
    omega
  | multisignature required term =>
    rw [htarget] at hterm
    dsimp only at hterm ⊢
    rw [Nat.mod_eq_of_lt hterm]
    split
    · rw [max_le_iff]
      omega
    · rw [max_le_iff]
      omega

variable (h : t.Fits cur age) (hdelta : cur.lockedTxAllowedDeltaBlocks = 1) {now height : Nat}
  (hheight : height + 1 < word32)
include h hdelta hheight

theorem Fits.isSpendTimeUnlocked_iff :
    TransfersContainer.isSpendTimeUnlocked cur now height t = true ↔
      t.unlockTime ≤ height + 1 ∧ (t.term ≠ 0 → t.blockHeight + t.term ≤ height + 1) := by
  have hterm := h.term_fits
  unfold TransfersContainer.isSpendTimeUnlocked term at *
  rw [if_pos h.unlockTime_lt, hdelta, Nat.mod_eq_of_lt hheight]
  cases htarget : t.target with
  | key keyImage outputKey => simp
  | multisignature required term =>
    rw [htarget] at hterm
    dsimp only at hterm ⊢
    rw [Nat.mod_eq_of_lt hterm]
    simp [imp_iff_not_or]

/-- An output is unlocked from the height before that of its job on. -/
theorem Fits.transferState_eq_unlocked :
    TransfersContainer.transferState cur age now height t = .unlocked ↔
      (t.unlockJob age).unlockHeight ≤ height + 1 := by
  have hconf : t.blockHeight ≠ unconfirmedTransactionHeight := by
    have := h.spendable_fits
    unfold unconfirmedTransactionHeight
    omega
  have hiff : TransfersContainer.isSpendTimeUnlocked cur now height t = true ↔ _ :=
    h.isSpendTimeUnlocked_iff hdelta hheight
  rw [h.unlockHeight_le_iff]
  unfold TransfersContainer.transferState
  cases hunlocked : TransfersContainer.isSpendTimeUnlocked cur now height t
    with rw [hunlocked] at hiff
  | true =>
    simp only [hconf, Bool.not_true, Bool.false_eq_true, or_self, if_false]
    split
    · simp only [reduceCtorEq, false_iff]
      omega
    · simp only [true_iff] at hiff ⊢
      exact ⟨hiff.1, by omega, hiff.2⟩
  | false =>
    simp only [Bool.not_false, or_true, if_true, reduceCtorEq, false_iff]
    exact fun hall => absurd (hiff.mpr ⟨hall.1, hall.2.2⟩) Bool.false_ne_true

end TransferInformation

namespace TransfersContainer

variable {cur : Currency} {age now : Nat} {c : TransfersContainer}

/-- The available outputs that are unlocked at the height `after` and were not at `before`. -/
def newlyUnlocked (cur : Currency) (age now : Nat) (c : TransfersContainer)
    (before after : Nat) : List TransactionOutputInformation :=
  (c.ledger.available.filter fun t =>
    transferState cur age now after t = .unlocked ∧
      transferState cur age now before t ≠ .unlocked).map
    toTransactionOutputInformation

/-- Raise the height several times; the announcements of all calls. -/
def advanceHeights : List Nat → Program TransfersContainer (List TransactionOutputInformation)
  | [] => pure []
  | height :: heights => do
    let first ← advanceHeight height
    let rest ← advanceHeights heights
    pure (first ++ rest)

theorem getAvailableOutput_of_mem {t : TransferInformation} (ht : t ∈ c.ledger.available) :
    c.getAvailableOutput t.transactionOutputKey = .ok t.toTransactionOutputInformation := by
  obtain ⟨entry, hentry, rfl⟩ := mem_map.mp ht
  unfold getAvailableOutput
  have hsome : (c.availableTransfers.toList.find? fun other =>
      other.transactionOutputKey = entry.transactionOutputKey).isSome := by
    rw [find?_isSome]
    exact ⟨entry, hentry, by simp⟩
  obtain ⟨found, hfound⟩ := Option.isSome_iff_exists.mp hsome
  have hkey : found.transactionOutputKey = entry.transactionOutputKey := by
    simpa using find?_some hfound
  have heq : found = entry := HashedIndex.eq_of_clash (fun _ _ hsame => .symm hsame)
    (mem_of_find?_eq_some hfound) hentry hkey
  rw [hfound, heq]

theorem transfersBetween_of_jobsFit (h : c.JobsFit age) {lower upper : Nat} (hle : lower ≤ upper) :
    ∃ out, c.transfersBetween (c.transfersUnlockJobs.upperBound lower)
        (c.transfersUnlockJobs.upperBound upper) = .ok out ∧
        out.Perm ((c.ledger.available.filter fun t =>
        lower < (t.unlockJob age).unlockHeight ∧ (t.unlockJob age).unlockHeight ≤ upper).map
        toTransactionOutputInformation) := by
  have hjobs := h.filter fun job => lower < job.unlockHeight ∧ job.unlockHeight ≤ upper
  rw [filter_map] at hjobs
  have hlookup : ∀ transfers : List TransferInformation, (∀ t ∈ transfers, t ∈ c.ledger.available) →
      (transfers.map (unlockJob age)).mapM
        (fun job => c.getAvailableOutput job.transactionOutputKey) =
        .ok (transfers.map toTransactionOutputInformation) := by
    intro transfers hmem
    induction transfers with
    | nil => rfl
    | cons t transfers ih =>
      obtain ⟨ht, hrest⟩ := forall_mem_cons.mp hmem
      exact mapM_cons_eq_ok.mpr ⟨_, _, getAvailableOutput_of_mem ht, ih hrest, rfl⟩
  obtain ⟨out, hout, hperm⟩ :=
    exists_mapM_of_perm hjobs (hlookup _ fun t ht => (mem_filter.mp ht).1)
  refine ⟨out, ?_, hperm⟩
  rw [transfersBetween, if_neg (not_lt.mpr (upperBound_mono hle)), between_eq_filter]
  exact hout

section Fits

variable (hdelta : cur.lockedTxAllowedDeltaBlocks = 1) (hjobs : c.JobsFit age)
  (hfits : ∀ t ∈ c.ledger.available, t.Fits cur age) {before after : Nat}
include hdelta hjobs hfits

/-- The outputs of the jobs between two heights are those that get unlocked. -/
theorem transfersBetween_of_fits (hle : before ≤ after) (hafter : after + 1 < word32) :
    ∃ out, c.transfersBetween (c.transfersUnlockJobs.upperBound (before + 1))
        (c.transfersUnlockJobs.upperBound (after + 1)) = .ok out ∧
      out.Perm (c.newlyUnlocked cur age now before after) := by
  obtain ⟨out, hout, hperm⟩ := transfersBetween_of_jobsFit hjobs (Nat.succ_le_succ hle)
  refine ⟨out, hout, hperm.trans (.of_eq ?_)⟩
  congr 1
  refine filter_congr fun t ht => ?_
  have hbefore : before + 1 < word32 := by omega
  simp only [ne_eq, (hfits t ht).transferState_eq_unlocked hdelta hbefore,
    (hfits t ht).transferState_eq_unlocked hdelta hafter, not_le, decide_eq_decide]
  exact and_comm

omit hjobs in
/-- What gets unlocked between two heights gets unlocked below or above a height between them. -/
theorem newlyUnlocked_append {between : Nat} (hlower : before ≤ between)
    (hupper : between ≤ after) (hafter : after + 1 < word32) :
    (c.newlyUnlocked cur age now before between ++ c.newlyUnlocked cur age now between after).Perm
      (c.newlyUnlocked cur age now before after) := by
  unfold newlyUnlocked
  rw [← map_append]
  refine .map _ ?_
  have hbetween : between + 1 < word32 := by omega
  have hbefore : before + 1 < word32 := by omega
  have hsplit := filter_append_perm
    (fun t => transferState cur age now between t = .unlocked)
    (c.ledger.available.filter fun t =>
      transferState cur age now after t = .unlocked ∧
        transferState cur age now before t ≠ .unlocked)
  rw [filter_filter, filter_filter] at hsplit
  convert hsplit using 2
  all_goals
    refine filter_congr fun t ht => ?_
    simp only [ne_eq, (hfits t ht).transferState_eq_unlocked hdelta hbefore,
      (hfits t ht).transferState_eq_unlocked hdelta hbetween,
      (hfits t ht).transferState_eq_unlocked hdelta hafter, ← Bool.decide_and, ← decide_not,
      decide_eq_decide]
    omega

theorem getUnlockingTransfers_of_fits (hage : 1 ≤ age) (hle : before ≤ after)
    (hafter : after + 1 < word32) : ∃ out, c.getUnlockingTransfers before after = .ok out ∧
    out.Perm (c.newlyUnlocked cur age now before after) := by
  have hstart : (if before = 0 then 0
      else c.transfersUnlockJobs.upperBound ((before + 1) % word32)) =
        c.transfersUnlockJobs.upperBound (before + 1) := by
    split
    · rename_i hzero
      refine (upperBound_eq_zero fun job hjob => ?_).symm
      -- no job is due at the height of the genesis block
      obtain ⟨t, ht, rfl⟩ := mem_map.mp (hjobs.mem_iff.mp hjob)
      have hdue := ((hfits t ht).unlockHeight_le_iff (before + 1)).mp
      by_contra hlow
      omega
    · rw [Nat.mod_eq_of_lt (by omega)]
  rw [getUnlockingTransfers, if_neg (not_lt.mpr hle), hstart, Nat.mod_eq_of_lt hafter]
  exact transfersBetween_of_fits hdelta hjobs hfits hle hafter

theorem getLockingTransfers_of_fits (hbefore : before + 1 < word32) (hafter : after + 1 < word32) :
    ∃ out, c.getLockingTransfers before after = .ok out ∧
    out.Perm (c.newlyUnlocked cur age now after before) := by
  unfold getLockingTransfers
  split
  · rename_i hlt
    refine ⟨[], rfl, .of_eq (.symm ?_)⟩
    -- what is unlocked at a height stays unlocked above it
    rw [newlyUnlocked, map_eq_nil_iff, filter_eq_nil_iff]
    intro t ht hboth
    simp only [ne_eq, (hfits t ht).transferState_eq_unlocked hdelta hbefore,
      (hfits t ht).transferState_eq_unlocked hdelta hafter, decide_eq_true_eq] at hboth
    omega
  · rename_i hle
    rw [Nat.mod_eq_of_lt hafter, Nat.mod_eq_of_lt hbefore]
    exact transfersBetween_of_fits hdelta hjobs hfits (not_lt.mp hle) hbefore

theorem advanceHeight_of_fits (hage : 1 ≤ age) {height : Nat}
    (hle : c.currentHeight ≤ height) (hheight : height + 1 < word32) :
    ∃ out, advanceHeight height c = .done out { c with currentHeight := height } ∧
      out.Perm (c.newlyUnlocked cur age now c.currentHeight height) := by
  obtain ⟨out, hout, hperm⟩ := getUnlockingTransfers_of_fits hdelta
    (c := { c with currentHeight := height }) hjobs hfits hage hle hheight
  have hread : read (fun c' : TransfersContainer =>
      c'.getUnlockingTransfers c.currentHeight height) { c with currentHeight := height } =
        .done out { c with currentHeight := height } := read_ok hout
  refine ⟨out, ?_, hperm⟩
  unfold advanceHeight
  rw [get_bind_run, if_neg (not_lt.mpr hle)]
  exact hread

/-- Going up over heights reports every output that has unlocked on the way, once. -/
theorem advanceHeights_of_fits (hage : 1 ≤ age) {heights : List Nat}
    (hchain : (c.currentHeight :: heights).IsChain (· ≤ ·))
    (hheights : ∀ height ∈ heights, height + 1 < word32) : ∃ out, advanceHeights heights c =
    .done out { c with currentHeight := heights.getLastD c.currentHeight } ∧
      out.Perm (c.newlyUnlocked cur age now c.currentHeight
        (heights.getLastD c.currentHeight)) := by
  induction heights generalizing c with
  | nil =>
    refine ⟨[], rfl, .of_eq (.symm ?_)⟩
    simp [newlyUnlocked]
  | cons height heights ih =>
    obtain ⟨hle, htail⟩ := isChain_cons_cons.mp hchain
    obtain ⟨hheight, hheights⟩ := forall_mem_cons.mp hheights
    obtain ⟨first, hfirst, hpermFirst⟩ : ∃ out, advanceHeight height c =
        .done out { c with currentHeight := height } ∧
      out.Perm (c.newlyUnlocked cur age now c.currentHeight height) :=
      advanceHeight_of_fits hdelta hjobs hfits hage hle hheight
    obtain ⟨rest, hrest, hpermRest⟩ :=
      ih (c := { c with currentHeight := height }) hjobs hfits htail hheights
    refine ⟨first ++ rest, ?_, ?_⟩
    · unfold advanceHeights
      rw [bind_run, hfirst, Outcome.andThen_done, bind_run, hrest, getLastD_cons]
      rfl
    · have hlast : heights.getLastD height ∈ height :: heights := getLastD_mem_cons
      have hupper : height ≤ heights.getLastD height := by
        rcases mem_cons.mp hlast with heq | hmem
        · exact heq.ge
        · exact (pairwise_cons.mp (isChain_iff_pairwise.mp htail)).1 _ hmem
      rw [getLastD_cons]
      refine (hpermFirst.append hpermRest).trans ?_
      exact newlyUnlocked_append hdelta hfits hle hupper (by
        rcases mem_cons.mp hlast with heq | hmem
        · rw [heq]
          exact hheight
        · exact hheights _ hmem)

end Fits

/-- The removal of transactions makes no output available that was not confirmed before. -/
theorem confirmed_invariant (age : Nat) (P : TransferInformation → Prop) :
    RemovalInvariant age fun c => ∀ t ∈ c.ledger.confirmed, P t where
  frame _ _ _ h := h
  unspendTransfer {c s} hs h t ht := by
    rw [ledger_unspendTransfer] at ht
    refine h t ?_
    rcases mem_append.mp ht with havail | hspent
    · rcases Ledger.eq_or_mem_of_mem_enter havail with rfl | hmem
      · exact mem_append_right _ (mem_map.mpr ⟨s.record, hs.1, rfl⟩)
      · exact mem_append_left _ hmem
    · exact mem_append_right _ (List.Sublist.subset (filter_sublist.map _) hspent)
  deleteUnconfirmed {c t} _ h := by
    rw [ledger_deleteUnconfirmed]
    exact h
  deleteAvailable {c t} _ h other hother := by
    rw [ledger_deleteAvailable] at hother
    refine h other ?_
    rcases mem_append.mp hother with havail | hspent
    · exact mem_append_left _ (mem_filter.mp havail).1
    · exact mem_append_right _ hspent

theorem detach_of_fits (hdelta : cur.lockedTxAllowedDeltaBlocks = 1) (hjobs : c.JobsFit age)
    (hfits : ∀ t ∈ c.ledger.confirmed, t.Fits cur age)
    (hcur : c.currentHeight + 1 < word32) {height : Nat} (hheight : height < word32) :
    ∃ deleted locked c', detach age height c = .done (deleted, locked) c' ∧ c'.currentHeight =
    height - 1 ∧ locked.Perm (c'.newlyUnlocked cur age now (height - 1) c.currentHeight) := by
  let result := detachTransactions age height c.transactions.toList.reverse c
  let c' : TransfersContainer := { result.2 with currentHeight := height - 1 }
  have hjobs' : c'.JobsFit age :=
    (jobsFit_invariant age).toRemovalInvariant.detachTransactions height _ hjobs
  have hfits' : ∀ t ∈ c'.ledger.confirmed, t.Fits cur age :=
    (confirmed_invariant age _).detachTransactions height _ hfits
  have hnew : height - 1 + 1 < word32 := by omega
  obtain ⟨locked, hlocked, hperm⟩ := getLockingTransfers_of_fits hdelta hjobs'
    (fun t ht => hfits' t (mem_append_left _ ht)) hcur hnew
  exact ⟨result.1, locked, c', detach_of_ok hlocked, rfl, hperm⟩

end TransfersContainer

instance (cur : Currency) (age : Nat) :
    DecidablePred (Fits cur age) := fun t =>
  decidable_of_iff (t.unlockTime < cur.maxBlockHeight ∧ t.unlockTime < word32 ∧
      t.blockHeight + age + 1 < word32 ∧ t.blockHeight + t.term < word32)
    ⟨fun h => ⟨h.1, h.2.1, h.2.2.1, h.2.2.2⟩, fun h => ⟨h.1, h.2, h.3, h.4⟩⟩

/-- An output of a transaction, handed to the wallet that owns it. -/
def ownTransfer (number amount : Nat) (target : TransferTarget) :
    TransactionOutputInformationIn where
  amount
  globalOutputIndex := number
  outputInTransaction := number
  transactionHash := 0
  transactionPublicKey := 0
  target
  id := accountOwnId

/-- A transaction with the given hash and inputs. -/
def plainReader (hash : Hash) (inputs : List TransactionInput) : TransactionReader where
  transactionHash := hash
  transactionPublicKey := 0
  unlockTime := 0
  paymentId := none
  extra := []
  inputTotalAmount := 0
  outputTotalAmount := 0
  inputs

/-- A payment and a deposit for 40 blocks come in at height 3. -/
def depositCalls : List TransfersCall :=
  [.addTransaction ⟨3, 0, 0⟩ (plainReader 1 [])
    [ownTransfer 0 5 (.key 1 1), ownTransfer 1 7 (.multisignature 1 40)] [] 0]

theorem saves_depositCalls : ∀ call ∈ depositCalls, ∀ c : TransfersContainer, True ∧
    c.Saves call := by
  simp [depositCalls, TransfersContainer.Saves]

end DarknetCoin
