import DarknetCoin.Model.Storage

/-!
# What entering transactions leaves alone

Transactions are pushed and popped through five containers. The rest of the main chain is written
only when a block is linked or unlinked.
-/

namespace DarknetCoin

open Semantics Data Program List

namespace MainChain

variable {cur : Currency} {crypto : Crypto} {now : Nat} {main main' : MainChain}

/-- The two main chains have the same blocks, and agree on everything kept once a block. -/
structure SameStorage (main main' : MainChain) : Prop where
  blocks : main'.blocks = main.blocks
  blockIndex : main'.blockIndex = main.blockIndex
  depositIndex : main'.depositIndex = main.depositIndex
  timestampIndex : main'.timestampIndex = main.timestampIndex
  generatedTransactionsIndex : main'.generatedTransactionsIndex = main.generatedTransactionsIndex
  votingCompleteHeight : main'.votingCompleteHeight = main.votingCompleteHeight

namespace SameStorage

theorem refl : SameStorage main main := ⟨rfl, rfl, rfl, rfl, rfl, rfl⟩

theorem trans {main'' : MainChain} (h : SameStorage main main') (h' : SameStorage main' main'') :
    SameStorage main main'' where
  blocks := h'.blocks.trans h.blocks
  blockIndex := h'.blockIndex.trans h.blockIndex
  depositIndex := h'.depositIndex.trans h.depositIndex
  timestampIndex := h'.timestampIndex.trans h.timestampIndex
  generatedTransactionsIndex := h'.generatedTransactionsIndex.trans h.generatedTransactionsIndex
  votingCompleteHeight := h'.votingCompleteHeight.trans h.votingCompleteHeight

end SameStorage

/-- The containers of `main` with the storage of another main chain. -/
def setStorage (storage main : MainChain) : MainChain :=
  { main with
    blocks := storage.blocks
    blockIndex := storage.blockIndex
    depositIndex := storage.depositIndex
    timestampIndex := storage.timestampIndex
    generatedTransactionsIndex := storage.generatedTransactionsIndex
    votingCompleteHeight := storage.votingCompleteHeight }

theorem sameStorage_of_ignores {α : Type} {p : Program MainChain α}
    (h : ∀ storage, Ignores (setStorage storage) p) : p.Keeps (SameStorage main) := by
  intro state hstate
  have hrun : p state = (p state).mapState (setStorage state) := h state state
  have hsame (final : MainChain) : SameStorage main (setStorage state final) :=
    hstate.trans ⟨rfl, rfl, rfl, rfl, rfl, rfl⟩
  rw [hrun]
  cases p state with
  | done a final => exact hsame final
  | thrown final => exact hsame final
  | stuck => trivial

section Ignores

variable {storage : MainChain} (inputs : List TransactionInput)

theorem ignores_eraseKeyImages : Ignores (setStorage storage) (eraseKeyImages inputs) := by
  induction inputs with
  | nil => exact .pure ()
  | cons input inputs ih =>
    cases input with
    | key input => exact .bind (.modify fun _ => rfl) fun _ => ih
    | base => exact .throw
    | multisignature => exact .throw

theorem ignores_insertKeyImages (inputs before : List TransactionInput) :
    Ignores (setStorage storage) (insertKeyImages before inputs) := by
  induction inputs generalizing before with
  | nil => exact .pure true
  | cons input inputs ih =>
    cases input with
    | base => exact ih _
    | multisignature => exact ih _
    | key input =>
      refine .getBind (fun _ => rfl) fun main => ?_
      refine .ite .undefined (.ite ?_ ?_)
      · exact .bind (ignores_eraseKeyImages before) fun _ => .pure false
      · exact .bind (.modify fun _ => rfl) fun _ => ih _

theorem ignores_markMultisignatureInputs (used : Bool) :
    Ignores (setStorage storage) (markMultisignatureInputs used inputs) := by
  induction inputs with
  | nil => exact .pure ()
  | cons input inputs ih =>
    cases input with
    | base => exact ih
    | key => exact ih
    | multisignature input =>
      refine .getBind (fun _ => rfl) fun main => ?_
      exact .ite (.bind (.modify fun _ => rfl) fun _ => ih) .undefined

variable (index : TransactionIndex) (position : Nat)

theorem pushOutput_setStorage (out : TransactionOutput)
    (main : MainChain) : pushOutput index position out (setStorage storage main) =
      setStorage storage (pushOutput index position out main) := by
  unfold pushOutput
  cases out.target <;> rfl

variable (outs : List TransactionOutput)

theorem ignores_pushOutputs : Ignores (setStorage storage) (pushOutputs index position outs) := by
  induction outs generalizing position with
  | nil => exact .pure []
  | cons out outs ih =>
    refine .getBind (fun _ => rfl) fun main => ?_
    refine .ite .undefined (.bind (.modify ?_) fun _ => .bind (ih _) fun _ => .pure _)
    exact pushOutput_setStorage index position out

theorem ignores_pushTransaction (block : BlockEntry) (hash : Hash) :
    Ignores (setStorage storage) (pushTransaction crypto block hash index) := by
  refine .getBind (fun _ => rfl) fun main => ?_
  refine .ite (.pure _) (.bind (.modify fun _ => rfl) fun _ => ?_)
  cases block.transactions[index.transaction]? with
  | none => exact .undefined
  | some transaction =>
    refine .ite (.bind (.modify fun _ => rfl) fun _ => .pure _) ?_
    refine .bind (ignores_insertKeyImages _ _) fun inserted => .ite ?_ ?_
    · refine .bind (ignores_markMultisignatureInputs _ true) fun _ => .ite .undefined ?_
      refine .bind (ignores_pushOutputs _ _ _) fun indexes => ?_
      exact .bind (.modify fun _ => rfl) fun _ => .pure _
    · exact .bind (.modify fun _ => rfl) fun _ => .pure _

theorem ignores_popInputs : Ignores (setStorage storage) (popInputs inputs) := by
  induction inputs with
  | nil => exact .pure ()
  | cons input inputs ih =>
    cases input with
    | base => exact ih
    | key => exact .bind (.modify fun _ => rfl) fun _ => ih
    | multisignature input =>
      refine .getBind (fun _ => rfl) fun main => ?_
      exact .ite (.bind (.modify fun _ => rfl) fun _ => ih) .undefined

theorem popOutputs_setStorage (main : MainChain) :
    popOutputs index position outs (setStorage storage main) =
      setStorage storage (popOutputs index position outs main) := by
  induction outs generalizing position with
  | nil => rfl
  | cons out outs ih =>
    rw [popOutputs, ih, popOutputs]
    unfold popOutput
    cases out.target with rw [apply_ite (setStorage storage)]
    | key =>
      rfl
    | multisignature =>
      rfl

theorem ignores_popTransaction (tx : Transaction) (hash : Hash) :
    Ignores (setStorage storage) (popTransaction crypto tx hash) := by
  refine .getBind (fun _ => rfl) fun main => ?_
  cases main.transactionMap hash with
  | none => exact .throw
  | some index =>
    refine .bind (.modify (popOutputs_setStorage index _ _)) fun _ => ?_
    refine .bind (ignores_popInputs _) fun _ => ?_
    exact .bind (.modify fun _ => rfl) fun _ => .modify fun _ => rfl

theorem ignores_popTransactions (block : BlockEntry) (hash : Hash) :
    Ignores (setStorage storage) (popTransactions crypto block hash) := by
  have hall : ∀ pairs, Ignores (setStorage storage) (popAll crypto pairs) := by
    intro pairs
    induction pairs with
    | nil => exact .pure ()
    | cons pair pairs ih => exact .bind (ignores_popTransaction _ _) fun _ => ih
  exact .bind (hall _) fun _ => ignores_popTransaction _ _

end Ignores

variable (block : BlockEntry) (index : TransactionIndex) (hash : Hash)

theorem pushTransaction_sameStorage :
    (pushTransaction crypto block hash index).Keeps (SameStorage main) :=
  sameStorage_of_ignores fun _ => ignores_pushTransaction _ _ _

theorem popTransactions_sameStorage :
    (popTransactions crypto block hash).Keeps (SameStorage main) :=
  sameStorage_of_ignores fun _ => ignores_popTransactions _ _

variable (pairs : List (Transaction × Hash))

theorem pushTransactions_sameStorage (minerHash : Hash) (totals : BlockTotals) :
    (pushTransactions cur crypto now minerHash block index totals pairs).Keeps
    (SameStorage main) := by
  induction pairs generalizing block index totals with
  | nil => exact .pure _
  | cons pair pairs ih =>
    refine (Keeps.read _).bind fun valid => Keeps.ite (fun _ => ?_) fun _ => ?_
    · exact (popTransactions_sameStorage _ _).bind fun _ => Keeps.pure _
    · exact (pushTransaction_sameStorage _ _ _).bind fun _ => ih _ _ _

theorem zip_getObjectHash (txs : List Transaction) (rest : List Hash) :
    txs.zip (txs.map crypto.getObjectHash ++ rest) = txs.map fun tx =>
    (tx, crypto.getObjectHash tx) := by
  induction txs with
  | nil => rfl
  | cons tx txs ih => rw [map_cons, cons_append, zip_cons_cons, ih, map_cons]

/-- The block `block'` is `block` with other global indexes in its transactions. -/
structure SameTransactions (block block' : BlockEntry) : Prop where
  bl : block'.bl = block.bl
  tx : block'.transactions.map TransactionEntry.tx = block.transactions.map TransactionEntry.tx

theorem setGlobalOutputIndexes_sameTransactions (position : Nat)
    (indexes : List Nat) : SameTransactions block
    (setGlobalOutputIndexes block position indexes) := by
  refine ⟨rfl, ext_getElem? fun i => ?_⟩
  simp only [setGlobalOutputIndexes, getElem?_map, getElem?_modify]
  cases block.transactions[i]? with
  | none => rfl
  | some entry =>
    by_cases hi : position = i
    · simp [hi]
    · simp [hi]

theorem pushTransaction_sameTransactions : (pushTransaction crypto block hash index).Returns
    fun result =>
      SameTransactions block result.2 := by
  have hsame : SameTransactions block block := ⟨rfl, rfl⟩
  have hundo : (do
      modify (setTransaction hash none)
      pure (false, block) : Program MainChain (Bool × BlockEntry)).Returns fun result =>
        SameTransactions block result.2 :=
    Returns.trivial.bind fun _ _ => .pure hsame
  refine Returns.trivial.bind fun state _ =>
    .ite (fun _ => .pure hsame) fun _ =>
      Returns.trivial.bind fun _ _ => ?_
  cases block.transactions[index.transaction]? with
  | none => exact .undefined
  | some transaction =>
    refine .ite (fun _ => hundo) fun _ =>
      Returns.trivial.bind fun inserted _ =>
        .ite (fun _ => ?_) fun _ => hundo
    refine Returns.trivial.bind fun _ _ =>
      .ite (fun _ => .undefined) fun _ => ?_
    exact Returns.trivial.bind fun _ _ => Returns.trivial.bind fun _ _ =>
      .pure (setGlobalOutputIndexes_sameTransactions _ _ _)

section Loop

variable {minerHash txId : Hash} {tx : Transaction} {rest : List (Transaction × Hash)}
 {totals : BlockTotals}

/-- A round of the transaction loop. A transaction that is not in order undoes the rounds before it,
and one whose check fails to return leaves them in place. -/
theorem pushTransactions_cons :
    pushTransactions cur crypto now minerHash block index totals ((tx, txId) :: rest) main =
      match checkBlockTransaction cur crypto now main block.bl.majorVersion tx with
      | .ok true => (pushTransaction crypto (appendTransaction block tx) txId
          ⟨index.block, (index.transaction + 1) % word16⟩ main).andThen fun pushed state =>
            pushTransactions cur crypto now minerHash pushed.2
              ⟨index.block, (index.transaction + 1) % word16⟩ (totals.add cur tx) rest state
      | .ok false =>
        (popTransactions crypto block minerHash main).andThen fun _ state => .done none state
      | .error .exception => .thrown main
      | .error .undefined => .stuck := by
  rw [pushTransactions, bind_run, Program.read]
  split
  · rename_i valid hcheck
    rw [hcheck]
    cases valid <;> rfl
  · rename_i hcheck
    rw [hcheck]
    rfl
  · rename_i hcheck
    rw [hcheck]
    rfl

end Loop

/-- What the loop over the transactions returns: the block with exactly the transactions it is
given, whose outputs are in order, and their totals. -/
theorem pushTransactions_returns (minerHash : Hash) (totals : BlockTotals) :
    (pushTransactions cur crypto now minerHash block index totals pairs).Returns fun result =>
      ∀ block' totals', result = some (block', totals') →
        block'.bl = block.bl ∧ block'.transactions.map TransactionEntry.tx =
          block.transactions.map TransactionEntry.tx ++ pairs.map Prod.fst ∧
        totals' = (pairs.map Prod.fst).foldl (BlockTotals.add cur) totals ∧
        ∀ pair ∈ pairs, checkTxOutputs cur pair.1 = true := by
  induction pairs generalizing block index totals with
  | nil =>
    refine .pure fun block' totals' h => ?_
    cases h
    simp
  | cons pair pairs ih =>
    have hread : (read fun main => checkBlockTransaction cur crypto now main
        block.bl.majorVersion pair.1).Returns fun valid => valid = true →
            checkTxOutputs cur pair.1 = true := by
      refine .read fun main valid hvalid htrue => ?_
      subst htrue
      exact (checkBlockTransaction_eq_true.mp hvalid).2.2
    refine hread.bind fun valid hvalid => .ite (fun _ => ?_) fun hnot => ?_
    · refine Returns.trivial.bind fun _ _ => .pure fun block' totals' h => ?_
      cases h
    · refine (pushTransaction_sameTransactions _ _ _).bind fun result hsame => ?_
      intro s pushed s' hrun block' totals' hpushed
      obtain ⟨hbl, htx, htotals, hrest⟩ := ih _ _ _ s pushed s' hrun block' totals' hpushed
      refine ⟨hbl.trans hsame.bl, ?_, htotals,
        forall_mem_cons.mpr ⟨hvalid (by simpa using hnot), hrest⟩⟩
      rw [htx, hsame.tx]
      simp [appendTransaction]

variable {checkpoints : Checkpoints} {blockData : Block} {transactions : List Transaction}
  {block : BlockEntry} {totals : BlockTotals} {currentDifficulty : Nat}

/-- A push that succeeds: the header is accepted, the transactions are entered one after the other,
and the last checks pass. -/
structure Steps (cur : Currency) (crypto : Crypto) (now : Nat) (checkpoints : Checkpoints)
    (blockData : Block) (txs : List Transaction) (main : MainChain) (currentDifficulty : Nat)
    (block : BlockEntry) (totals : BlockTotals) (filled : MainChain) (emissionChange : Nat) :
    Prop where
  header : checkHeader cur crypto now checkpoints main blockData = .ok (.accept currentDifficulty)
  entered : ∃ entered start mined, pushTransaction crypto (newBlockEntry blockData)
      (crypto.getObjectHash blockData.baseTransaction) ⟨main.blocks.length, 0⟩ main =
        .done (entered, start) mined ∧
    pushTransactions cur crypto now (crypto.getObjectHash blockData.baseTransaction) start
      ⟨main.blocks.length, 0⟩ (minerTotals blockData) (txs.zip blockData.transactionHashes) mined =
        .done (some (block, totals)) filled
  size : checkCumulativeBlockSize cur totals.cumulativeBlockSize filled.blocks.length = true
  reward : filled.validateMinerTransaction cur blockData filled.blocks.length
    totals.cumulativeBlockSize filled.alreadyGeneratedCoins totals.feeSummary = some emissionChange

theorem finishPush_added {emissionChange : Nat}
    (hsize : checkCumulativeBlockSize cur totals.cumulativeBlockSize main.blocks.length = true)
    (hreward : main.validateMinerTransaction cur blockData main.blocks.length
      totals.cumulativeBlockSize main.alreadyGeneratedCoins totals.feeSummary =
      some emissionChange) : finishPush cur crypto blockData block totals currentDifficulty main =
    .done .added (linkBlock cur crypto
        (finishBlock main block totals currentDifficulty emissionChange)
        totals.interestSummary main) := by
  unfold finishPush
  rw [get_bind_run, if_neg (by simpa using hsize)]
  simp only [hreward]
  rfl

/-- A block is added exactly if all steps succeed, and then it is linked. -/
theorem pushBlock_eq_added_iff :
    pushBlock cur crypto now checkpoints blockData transactions main = .done .added main' ↔
      ∃ difficulty block totals filled emission, Steps cur crypto now checkpoints blockData
          transactions main difficulty block totals filled emission ∧
        main' = linkBlock cur crypto (finishBlock filled block totals difficulty emission)
          totals.interestSummary filled := by
  unfold pushBlock
  constructor
  · intro h
    obtain ⟨check, state, hread, h⟩ := bind_eq_done.mp h
    obtain ⟨hcheck, rfl⟩ := read_eq_done.mp hread
    cases check with
    | reject failed => cases h
    | accept difficulty =>
      dsimp only at h
      rw [get_bind_run, bind_eq_done] at h
      obtain ⟨⟨entered, start⟩, mined, hminer, h⟩ := h
      obtain ⟨pushed, filled, hpushed, h⟩ := bind_eq_done.mp h
      cases pushed with
      | none => cases h
      | some pair =>
        dsimp only [finishPush] at h
        rw [get_bind_run] at h
        split at h
        · cases h
        rename_i hsize
        cases hreward : filled.validateMinerTransaction cur blockData filled.blocks.length
            pair.2.cumulativeBlockSize filled.alreadyGeneratedCoins pair.2.feeSummary with
        | none =>
          rw [hreward] at h
          obtain ⟨_, _, -, h⟩ := bind_eq_done.mp h
          cases h
        | some emission =>
          rw [hreward] at h
          cases h
          exact ⟨difficulty, pair.1, pair.2, filled, emission,
            ⟨hcheck, ⟨entered, start, mined, hminer, hpushed⟩, by simpa using hsize, hreward⟩, rfl⟩
  · rintro ⟨difficulty, block, totals, filled, emission,
      ⟨hcheck, ⟨_, _, _, hminer, hpushed⟩, hsize, hreward⟩, rfl⟩
    have hread : read (fun main => checkHeader cur crypto now checkpoints main blockData) main =
        .done (.accept difficulty) main := read_ok hcheck
    rw [bind_run, hread, Outcome.andThen_done]
    dsimp only
    rw [get_bind_run, bind_run, hminer, Outcome.andThen_done, bind_run, hpushed]
    exact finishPush_added hsize hreward

/-- What the header checks have established. -/
structure HeaderAccepted (cur : Currency) (crypto : Crypto) (now : Nat) (checkpoints : Checkpoints)
    (main : MainChain) (blockData : Block) (currentDifficulty : Nat) : Prop where
  fresh : main.blockIndex.hasBlock (crypto.getBlockHash blockData) = false
  version : main.checkBlockVersion cur blockData = true
  previous : blockData.previousBlockHash = main.getTailId
  timestamp : main.checkBlockTimestampMain cur now blockData = true
  difficulty : currentDifficulty = getDifficultyForNextBlock cur main.blocks
  difficulty_ne_zero : currentDifficulty ≠ 0
  work : workDone crypto checkpoints main.blocks.length currentDifficulty blockData = true
  miner : prevalidateMinerTransaction cur crypto blockData main.blocks.length = .ok true

/-- The header check as one condition. -/
theorem checkHeader_eq_accept :
    checkHeader cur crypto now checkpoints main blockData = .ok (.accept currentDifficulty) ↔
      HeaderAccepted cur crypto now checkpoints main blockData currentDifficulty := by
  unfold checkHeader
  constructor
  · intro h
    dsimp only at h
    -- every check but the last returns a rejection when it fails
    split at h
    · cases h
    rename_i hfresh
    split at h
    · cases h
    rename_i hver
    split at h
    · cases h
    rename_i hprev
    split at h
    · cases h
    rename_i htime
    split at h
    · cases h
    rename_i hdiff
    split at h
    · cases h
    rename_i hwork
    split at h
    · cases h
    · cases h
    rename_i hminer
    cases h
    exact ⟨by simpa using hfresh, by simpa using hver, by simpa using hprev,
      by simpa using htime, rfl, hdiff, by simpa using hwork, hminer⟩
  · rintro ⟨hfresh, hver, hprev, htime, rfl, hdiff, hwork, hminer⟩
    simp [hfresh, hver, hprev, htime, hdiff, hwork, hminer]

/-- What a successful `pushBlock` appends to the storage. -/
structure Appended (cur : Currency) (crypto : Crypto) (blockData : Block)
    (txs : List Transaction) (main : MainChain) (block : BlockEntry) (main' : MainChain) :
    Prop where
  blocks : main'.blocks = main.blocks ++ [block]
  blockIndex : main'.blockIndex = main.blockIndex.push (crypto.getBlockHash blockData)
  bl : block.bl = blockData
  height : block.height = main.blocks.length
  cumulativeDifficulty : block.cumulativeDifficulty =
    add64 (getDifficultyForNextBlock cur main.blocks) main.cumulativeDifficulty
  transactions : block.transactions.map TransactionEntry.tx =
    blockData.baseTransaction :: (txs.zip blockData.transactionHashes).map Prod.fst
  outputs : ∀ pair ∈ txs.zip blockData.transactionHashes, checkTxOutputs cur pair.1 = true

namespace Steps

variable {filled : MainChain} {emission : Nat} (h : Steps cur crypto now checkpoints blockData
  transactions main currentDifficulty block totals filled emission)
include h

theorem storage : SameStorage main filled := by
  obtain ⟨_, _, mined, hminer, hpushed⟩ := h.entered
  have hmined : SameStorage main mined :=
    (pushTransaction_sameStorage _ _ _ main SameStorage.refl).of_done hminer
  exact (pushTransactions_sameStorage _ _ _ _ _ mined hmined).of_done hpushed

theorem totals_eq : totals = ((transactions.zip blockData.transactionHashes).map Prod.fst).foldl
    (BlockTotals.add cur) (minerTotals blockData) := by
  obtain ⟨_, _, mined, -, hpushed⟩ := h.entered
  exact (pushTransactions_returns _ _ _ _ _ mined _ filled hpushed _ _ rfl).2.2.1

theorem appended : Appended cur crypto blockData transactions main
    (finishBlock filled block totals currentDifficulty emission) (linkBlock cur crypto
      (finishBlock filled block totals currentDifficulty emission) totals.interestSummary
      filled) := by
  obtain ⟨_, _, mined, hminer, hpushed⟩ := h.entered
  have hsame := pushTransaction_sameTransactions _ _ _ main _ mined hminer
  obtain ⟨hbl, htx, -, houts⟩ := pushTransactions_returns _ _ _ _ _ mined _ filled hpushed _ _ rfl
  have hbl' : block.bl = blockData := hbl.trans hsame.bl
  constructor
  case blocks => simp [linkBlock, h.storage.blocks]
  case blockIndex => simp [linkBlock, h.storage.blockIndex, finishBlock, hbl']
  case bl => exact hbl'
  case height => simp [finishBlock, h.storage.blocks]
  case cumulativeDifficulty =>
    rw [(checkHeader_eq_accept.mp h.header).difficulty]
    simp [finishBlock, cumulativeDifficulty, h.storage.blocks]
  case transactions =>
    change block.transactions.map TransactionEntry.tx = _
    rw [htx, hsame.tx]
    rfl
  case outputs => exact houts

end Steps

theorem pushBlock_added (h : pushBlock cur crypto now checkpoints blockData transactions main =
      .done .added main') :
    ∃ block, Appended cur crypto blockData transactions main block main' := by
  obtain ⟨_, _, _, _, _, hsteps, rfl⟩ := pushBlock_eq_added_iff.mp h
  exact ⟨_, hsteps.appended⟩

theorem pushBlock_sameStorage :
    (pushBlock cur crypto now checkpoints blockData transactions main).Holds
      (fun result main' => result = .added ∨ SameStorage main main') (SameStorage main) := by
  refine (Keeps.read _ main SameStorage.refl).andThen fun check state hstate => ?_
  cases check with
  | reject failed => exact Or.inr hstate
  | accept difficulty =>
    refine (pushTransaction_sameStorage _ _ _ state hstate).andThen fun entered mined hmined => ?_
    refine (pushTransactions_sameStorage _ _ _ _ _ mined hmined).andThen
      fun pushed filled hfilled => ?_
    cases pushed with
    | none => exact .inr hfilled
    | some pair =>
      dsimp only [finishPush]
      rw [get_bind_run]
      split
      · exact .inr hfilled
      · cases filled.validateMinerTransaction cur blockData filled.blocks.length
          pair.2.cumulativeBlockSize filled.alreadyGeneratedCoins pair.2.feeSummary with
        | some emission => exact .inl rfl
        | none =>
          exact (popTransactions_sameStorage _ _ filled hfilled).andThen fun _ _ hpopped =>
            .inr hpopped

theorem pushBlock_mem_blocks :
    (pushBlock cur crypto now checkpoints blockData transactions main).Holds
      (fun _ main' => ∀ block ∈ main'.blocks, block ∈ main.blocks ∨
        Appended cur crypto blockData transactions main block main') fun main' => main'.blocks =
        main.blocks := by
  have hsame : (pushBlock cur crypto now checkpoints blockData transactions main).Holds
    (fun result main' => result = .added ∨ SameStorage main main') (SameStorage main) :=
    pushBlock_sameStorage
  cases ho : pushBlock cur crypto now checkpoints blockData transactions main with
  | stuck => trivial
  | thrown main' =>
    rw [ho] at hsame
    exact hsame.blocks
  | done result main' =>
    intro block hblock
    rcases hsame.of_done ho with rfl | hstorage
    · obtain ⟨new, happended⟩ := pushBlock_added ho
      rw [happended.blocks, mem_append, mem_singleton] at hblock
      rcases hblock with hold | rfl
      · exact .inl hold
      · exact .inr happended
    · rw [hstorage.blocks] at hblock
      exact .inl hblock

/-- The first output that is not in order is a multisignature output of a transaction of an old
version. -/
def Unversioned (crypto : Crypto) (version : Nat) (outs : List TransactionOutput) : Prop :=
  version < 2 ∧ ∃ before out after target, outs = before ++ out :: after ∧ out.target =
    .multisignature target ∧
    ∀ other ∈ before, other.amount ≠ 0 ∧ ∃ key, other.target = .key key ∧ crypto.checkKey key = true

/-- The check gives a verdict if there is a place for the text of the error. Without one it gives
the same verdict, or it writes through the null pointer. -/
theorem checkOutsValidFrom_cases (version : Nat) (outs : List TransactionOutput) :
    ∃ valid, checkOutsValidFrom crypto true version outs = .ok valid ∧
      (checkOutsValidFrom crypto false version outs = .ok valid ∨
        checkOutsValidFrom crypto false version outs = .error .undefined ∧
        Unversioned crypto version outs) := by
  induction outs with
  | nil => exact ⟨true, rfl, .inl rfl⟩
  | cons out outs ih =>
    obtain ⟨valid, htrue, hfalse⟩ := ih
    unfold checkOutsValidFrom
    cases htarget : out.target with dsimp only
    | key key =>
      split
      · exact ⟨false, rfl, .inl rfl⟩
      rename_i hamt
      split
      · exact ⟨false, rfl, .inl rfl⟩
      rename_i hkey
      refine ⟨valid, htrue, hfalse.imp_right (.imp_right fun hold => ⟨hold.1, ?_⟩)⟩
      obtain ⟨before, first, after, target, rfl, hfirst, hbefore⟩ := hold.2
      exact ⟨out :: before, first, after, target, rfl, hfirst,
        forall_mem_cons.mpr ⟨⟨hamt, key, htarget, by simpa using hkey⟩, hbefore⟩⟩
    | multisignature target =>
      split
      · next hold =>
        exact ⟨false, rfl, .inr ⟨rfl, hold, [], out, outs, target, rfl, htarget, forall_mem_nil _⟩⟩
      rename_i hnew
      split
      · exact ⟨false, rfl, .inl rfl⟩
      split
      · exact ⟨false, rfl, .inl rfl⟩
      · exact ⟨valid, htrue, hfalse.imp_right fun h => absurd h.2.1 hnew⟩

variable {height : Nat} {fault : Fault}

/-- A miner transaction that passes the check names the height of the block. -/
theorem prevalidateMinerTransaction_inv
    (h : prevalidateMinerTransaction cur crypto blockData height = .ok true) :
    blockData.baseTransaction.inputs = [.base ⟨height⟩] ∧
      checkOutsValid crypto false blockData.baseTransaction = .ok true ∧
      checkOutsOverflow blockData.baseTransaction = true := by
  unfold prevalidateMinerTransaction at h
  split at h
  · rename_i input hinputs
    split at h
    · cases h
    rename_i hheight
    split at h
    · cases h
    split at h
    · cases h
    · cases h
    · exact ⟨not_not.mp hheight ▸ hinputs, by assumption, Except.ok.inj h⟩
  · cases h

variable (h : checkOutsValid crypto false blockData.baseTransaction ≠ .error fault)
include h

/-- The check of a miner transaction runs into no fault that the check of its outputs avoids. -/
theorem prevalidateMinerTransaction_ne_error :
    prevalidateMinerTransaction cur crypto blockData height ≠ .error fault := by
  unfold prevalidateMinerTransaction
  split
  · split
    · simp
    split
    · simp
    split
    · rename_i fault' hfault
      rintro ⟨rfl⟩
      exact h hfault
    · simp
    · simp
  · simp

/-- The checks of the header run into no fault that the check of the miner's outputs avoids. -/
theorem checkHeader_ne_error : checkHeader cur crypto now checkpoints main blockData ≠
    .error fault := by
  unfold checkHeader
  dsimp only
  iterate 6
    split
    · simp
  split
  · rename_i fault' hfault
    rintro ⟨rfl⟩
    exact prevalidateMinerTransaction_ne_error h hfault
  · simp
  · simp

omit h

theorem checkHeader_ne_exception : checkHeader cur crypto now checkpoints main blockData ≠
    .error .exception := by
  refine checkHeader_ne_error fun hthrown => ?_
  obtain ⟨valid, -, hsame | ⟨hundef, -⟩⟩ :=
    @checkOutsValidFrom_cases crypto blockData.baseTransaction.version
      blockData.baseTransaction.outputs
  · cases hsame.symm.trans hthrown
  · cases hundef.symm.trans hthrown

theorem pushBlock_of_not_accepted
    (h : ∀ difficulty, checkHeader cur crypto now checkpoints main blockData ≠
      .ok (.accept difficulty)) :
      (pushBlock cur crypto now checkpoints blockData transactions main).Holds
      (fun result main' => result ≠ .added ∧ main' = main) fun _ => False := by
  unfold pushBlock
  rw [bind_run]
  cases hcheck : checkHeader cur crypto now checkpoints main blockData with
  | error fault =>
    cases fault with
    | exception => exact (checkHeader_ne_exception hcheck).elim
    | undefined => simp [Program.read, hcheck]
  | ok check =>
    have hread : Program.read (fun main => checkHeader cur crypto now checkpoints main blockData)
        main = .done check main := read_ok hcheck
    rw [hread]
    cases check with
    | reject failed => exact ⟨by simp, rfl⟩
    | accept difficulty => exact (h difficulty hcheck).elim

/-- What one successful pop does to the storage. -/
structure Unwritten (main main' : MainChain) : Prop where
  ne_nil : main.blocks ≠ []
  blocks : main'.blocks = main.blocks.dropLast
  blockIndex : main'.blockIndex = main.blockIndex.pop
  depositIndex : main'.depositIndex = main.depositIndex.popBlock
  votingCompleteHeight : main'.votingCompleteHeight =
    votingAfterPop main'.blocks main.votingCompleteHeight

/-- `popBlock` takes the last block off the storage, or throws before it does. -/
theorem unlinkBlock_storage : (unlinkBlock crypto hash main).Holds
      (fun _ main' => SameStorage main main' ∧ main.blocks = [] ∨ Unwritten main main')
      (SameStorage main) := by
  unfold unlinkBlock
  rw [get_bind_run]
  cases hlast : main.blocks.getLast? with
  | none => exact .inl ⟨.refl, getLast?_eq_none_iff.mp hlast⟩
  | some block =>
    have hne : main.blocks ≠ [] := by
      intro hnil
      rw [hnil] at hlast
      cases hlast
    refine (popTransactions_sameStorage _ _ main .refl).andThen
      fun _ popped hpopped => .inr ⟨hne, ?_, ?_, ?_, ?_⟩
    · exact congrArg dropLast hpopped.blocks
    · exact congrArg BlockIndex.pop hpopped.blockIndex
    · exact congrArg DepositIndex.popBlock hpopped.depositIndex
    · exact congrArg (votingAfterPop popped.blocks.dropLast) hpopped.votingCompleteHeight

theorem unlinkBlock_blocks : (unlinkBlock crypto hash main).Holds
    (fun _ main' => main'.blocks = main.blocks.dropLast)
      fun main' => main'.blocks = main.blocks := by
  refine (unlinkBlock_storage hash).mono (fun _ main' h => ?_) fun _ h => h.blocks
  rcases h with ⟨hsame, hnil⟩ | hunwritten
  · rw [hsame.blocks, hnil]
    rfl
  · exact hunwritten.blocks

end MainChain

end DarknetCoin
