import DarknetCoin.Theorems.BlockRecording
import DarknetCoin.Theorems.InputChecks

/-!
# `pushBlock` in closed form

On a main chain whose containers hold exactly what its blocks put there, `pushBlock` rejects the
block and leaves the main chain as it was, or appends it, and `popBlock` gives the former main chain
back. The one exit that leaves something behind is the check of the cumulative size.
-/

namespace DarknetCoin

open Semantics Data Program MainChain Outcome

namespace MainChain

variable {cur : Currency} {crypto : Crypto} {now : Nat} {checkpoints : Checkpoints}
  {U : Set Transaction} {main main' : MainChain} {b : Block} {txs : List Transaction}
  {block : BlockEntry} {position : Nat} {tx : Transaction}

/-- The totals of a block with the transactions `txs`. -/
def blockTotals (cur : Currency) (b : Block) (txs : List Transaction) : BlockTotals :=
  txs.foldl (BlockTotals.add cur) (minerTotals b)

/-- What the reward of a block adds to the emission. -/
def emissionChange (cur : Currency) (b : Block) (txs : List Transaction) (main : MainChain) : Nat :=
  (main.validateMinerTransaction cur b main.blocks.length
    (blockTotals cur b txs).cumulativeBlockSize main.alreadyGeneratedCoins
    (blockTotals cur b txs).feeSummary).getD 0

/-- The entry a block gets on top of `main`. -/
def extendedEntry (cur : Currency) (crypto : Crypto) (b : Block) (txs : List Transaction)
    (main : MainChain) : BlockEntry where
  bl := b
  height := main.blocks.length
  blockCumulativeSize := (blockTotals cur b txs).cumulativeBlockSize
  cumulativeDifficulty := add64 (getDifficultyForNextBlock cur main.blocks)
    main.cumulativeDifficulty
  alreadyGeneratedCoins := add64 (add64 main.alreadyGeneratedCoins (emissionChange cur b txs main))
    (blockTotals cur b txs).interestSummary
  transactions := recordEntries crypto main.blocks.length 0 (b.baseTransaction :: txs) main

/-- The main chain with a block on top. -/
def extend (cur : Currency) (crypto : Crypto) (b : Block) (txs : List Transaction)
    (main : MainChain) : MainChain :=
  linkBlock cur crypto (extendedEntry cur crypto b txs main) (blockTotals cur b txs).interestSummary
    (recordAll crypto main.blocks.length 0 (b.baseTransaction :: txs) main)

/-- The containers hold what the blocks put there and nothing else. -/
structure Orderly (crypto : Crypto) (U : Set Transaction) (main : MainChain) : Prop extends
    NoDoubleSpend crypto U main where
  rows : main.NoEmptyRows
  exact : ∀ hash, main.transactionMap hash ≠ none → ∃ tx ∈ main.chainTransactions,
    crypto.getObjectHash tx = hash

/-- What a successful push has checked. -/
structure Linked (cur : Currency) (crypto : Crypto) (now : Nat) (checkpoints : Checkpoints)
    (main : MainChain) (b : Block) (txs : List Transaction) : Prop where
  header : HeaderAccepted cur crypto now checkpoints main b
    (getDifficultyForNextBlock cur main.blocks)
  enterable : EnterableAll crypto main.blocks.length 0 (b.baseTransaction :: txs) main
  checked : ∀ before tx after, txs = before ++ tx :: after →
    checkBlockTransaction cur crypto now (recordAll crypto main.blocks.length 0
      (b.baseTransaction :: before) main) b.majorVersion tx = .ok true
  size : checkCumulativeBlockSize cur (blockTotals cur b txs).cumulativeBlockSize
    main.blocks.length = true

theorem HeaderAccepted.getBlockHeight_eq {difficulty : Nat}
    (h : HeaderAccepted cur crypto now checkpoints main b difficulty) :
    getBlockHeight b = main.blocks.length := by
  unfold getBlockHeight
  rw [inputs_of_prevalidateMinerTransaction h.miner]

theorem Orderly.notEntered (hinj : Set.InjOn crypto.getObjectHash U) (h : main.Orderly crypto U)
    (hU : tx ∈ U) (hnew : tx ∉ main.chainTransactions) :
    main.transactionMap (crypto.getObjectHash tx) = none := by
  by_contra hne
  obtain ⟨other, hother, hhash⟩ := h.exact _ hne
  have hsame : other = tx := hinj (h.consistent.known other hother) hU hhash
  exact hnew (hsame ▸ hother)

variable {hash : Hash} {index : TransactionIndex} {height voting : Nat} {filled : MainChain}
  {blocks : List BlockEntry} {entry : BlockEntry}

/-- A miner transaction spends nothing, so it is fit to be entered when it is new. -/
theorem enterable_of_isMiner (hminer : IsMiner tx)
    (hfresh : main.transactionMap hash = none) : main.Enterable hash tx := by
  refine ⟨hfresh, ?_, ?_, ?_, ?_⟩
  all_goals simp [hminer.keyImages_eq, hminer.references_eq]

theorem Orderly.pushMiner (hinj : Set.InjOn crypto.getObjectHash U) (h : main.Orderly crypto U)
    (hbase : b.baseTransaction ∈ U)
    (hinputs : b.baseTransaction.inputs = [.base ⟨main.blocks.length⟩]) :
    (pushTransaction crypto (newBlockEntry b) (crypto.getObjectHash b.baseTransaction)
      ⟨main.blocks.length, 0⟩ main).Ends
      (fun pushed state => Filled crypto U main [b.baseTransaction] pushed.2 state ∧
        pushed.2.bl = b) fun fault => fault = .undefined ∧ ¬main.Recordable b.baseTransaction := by
  have hnew := h.stored.notMem_chainTransactions hinputs
  have hminer : IsMiner b.baseTransaction := ⟨_, hinputs⟩
  have henter := enterable_of_isMiner hminer (h.notEntered hinj hbase hnew)
  let index : TransactionIndex := ⟨main.blocks.length, 0⟩
  have hentry : (newBlockEntry b).transactions[index.transaction]? = some ⟨b.baseTransaction, []⟩ :=
    rfl
  rcases pushTransaction_of_enterable henter hentry with ⟨hnot, hstuck⟩ | ⟨hrec, hdone⟩
  · rw [hstuck]
    exact ⟨rfl, hnot⟩
  · rw [hdone]
    refine ⟨⟨?_, rfl, ⟨⟨henter, hrec⟩, trivial⟩, rfl⟩, rfl⟩
    exact (h.consistent.record_miner hinj hbase hminer).append_miner hbase hminer hnew
      Consistent.entered_record_self

variable {storage : MainChain}

theorem recordOutputs_setStorage {outs : List TransactionOutput} :
    recordOutputs index position outs (setStorage storage main) =
      setStorage storage (recordOutputs index position outs main) := by
  induction outs generalizing position main with
  | nil => rfl
  | cons out outs ih =>
    rw [recordOutputs, pushOutput_setStorage, ih, recordOutputs]

theorem record_setStorage : record crypto hash index tx (setStorage storage main) =
      setStorage storage (record crypto hash index tx main) := by
  change addPaymentId crypto tx (recordOutputs index 0 tx.outputs
    (setStorage storage (withInputs hash index tx main))) = _
  rw [recordOutputs_setStorage]
  rfl

theorem recordAll_setStorage : recordAll crypto height position txs (setStorage storage main) =
      setStorage storage (recordAll crypto height position txs main) := by
  induction txs generalizing position main with
  | nil => rfl
  | cons tx txs ih => rw [recordAll, record_setStorage, ih, recordAll]

theorem recordAll_sameStorage : SameStorage main (recordAll crypto height position txs main) := by
  have hsame : recordAll crypto height position txs (setStorage main main) =
    setStorage main (recordAll crypto height position txs main) := recordAll_setStorage
  rw [show recordAll crypto height position txs main = _ from hsame]
  exact ⟨rfl, rfl, rfl, rfl, rfl, rfl⟩

theorem Filled.sameStorage {done : List Transaction} {state : MainChain}
    (h : Filled crypto U main done block state) : SameStorage main state := by
  rw [h.state_eq]
  exact recordAll_sameStorage

theorem SameStorage.validateMinerTransaction (h : SameStorage main filled) (size fee : Nat) :
    filled.validateMinerTransaction cur b filled.blocks.length size
    filled.alreadyGeneratedCoins fee = main.validateMinerTransaction cur b main.blocks.length size
      main.alreadyGeneratedCoins fee := by
  unfold MainChain.validateMinerTransaction getLastNBlocksSizes alreadyGeneratedCoins
  rw [h.blocks]

theorem finishPush_extend {emission : Nat} (hbl : block.bl = b) (htxs : block.transactions =
      recordEntries crypto main.blocks.length 0 (b.baseTransaction :: txs) main)
    (hsize : checkCumulativeBlockSize cur (blockTotals cur b txs).cumulativeBlockSize
      main.blocks.length = true) (hreward : main.validateMinerTransaction cur b main.blocks.length
      (blockTotals cur b txs).cumulativeBlockSize main.alreadyGeneratedCoins
      (blockTotals cur b txs).feeSummary = some emission) :
    finishPush cur crypto b block (blockTotals cur b txs)
    (getDifficultyForNextBlock cur main.blocks)
        (recordAll crypto main.blocks.length 0 (b.baseTransaction :: txs) main) =
      .done .added (extend cur crypto b txs main) := by
  subst hbl
  have hsame : SameStorage main
      (recordAll crypto main.blocks.length 0 (block.bl.baseTransaction :: txs) main) :=
    recordAll_sameStorage
  have hreward' := (hsame.validateMinerTransaction _ _).trans hreward
  have hentry : finishBlock (recordAll crypto main.blocks.length 0 (block.bl.baseTransaction :: txs)
      main) block (blockTotals cur block.bl txs)
        (getDifficultyForNextBlock cur main.blocks) emission =
        extendedEntry cur crypto block.bl txs main := by
    unfold finishBlock extendedEntry emissionChange
    rw [hreward, htxs]
    unfold cumulativeDifficulty alreadyGeneratedCoins
    rw [hsame.blocks]
    rfl
  rw [finishPush_added (by rwa [hsame.blocks]) hreward', hentry]
  rfl

theorem Filled.finishPush (h : Filled crypto U main (b.baseTransaction :: txs) block filled)
    (hbl : block.bl = b)
    (hrows : main.NoEmptyRows) (hhashes : b.transactionHashes = txs.map crypto.getObjectHash) :
    finishPush cur crypto b block (blockTotals cur b txs)
    (getDifficultyForNextBlock cur main.blocks) filled =
    if checkCumulativeBlockSize cur (blockTotals cur b txs).cumulativeBlockSize
    main.blocks.length then
      match main.validateMinerTransaction cur b main.blocks.length
          (blockTotals cur b txs).cumulativeBlockSize main.alreadyGeneratedCoins
          (blockTotals cur b txs).feeSummary with
      | none => .done (.rejected true) main
      | some _ => .done .added (extend cur crypto b txs main)
    else .done (.rejected true) filled := by
  have hsame := h.sameStorage
  split
  · rename_i hsize
    split
    · next hemission =>
      subst hbl
      have hnamed : block.bl.transactionHashes = txs.map crypto.getObjectHash ++ [] := by
        rw [List.append_nil, hhashes]
      have hreward := (hsame.validateMinerTransaction _ _).trans hemission
      unfold finishPush
      rw [get_bind_run]
      rw [hsame.blocks] at hreward ⊢
      rw [hsize, Bool.not_true, if_neg Bool.false_ne_true, hreward]
      dsimp only
      rw [bind_run, h.popTransactions hrows hnamed]
      rfl
    · next hemission =>
      rw [h.state_eq]
      exact finishPush_extend hbl h.transactions hsize hemission
  · rename_i hsize
    unfold MainChain.finishPush
    rw [get_bind_run, hsame.blocks, Bool.eq_false_of_not_eq_true hsize]
    rfl

/-- A rejected block leaves the main chain as it was, unless it was found too large; an added one
extends it; a failure comes from the check of the header or of a transaction, or from a transaction
that cannot be recorded. -/
theorem Orderly.pushBlock (hinj : Set.InjOn crypto.getObjectHash U) (h : main.Orderly crypto U)
    (hbase : b.baseTransaction ∈ U) (htxs : ∀ tx ∈ txs, tx ∈ U ∧ SemanticallyValid tx)
    (hhashes : b.transactionHashes = txs.map crypto.getObjectHash) (hcount : txs.length < word16) :
    (pushBlock cur crypto now checkpoints b txs main).Ends (fun result main' =>
        (result ≠ .added → checkCumulativeBlockSize cur (blockTotals cur b txs).cumulativeBlockSize
          (getBlockHeight b) = true → main' = main) ∧
        (result = .added → (Linked cur crypto now checkpoints main b txs ∧
          main' = extend cur crypto b txs main) ∧ main'.NoDoubleSpend crypto U) ∧
        ∀ difficulty, checkHeader cur crypto now checkpoints main b = .ok (.accept difficulty) →
          ∀ before tx, ComesTo cur crypto now b.majorVersion (fun before => recordAll crypto
              main.blocks.length 0 (b.baseTransaction :: before) main) txs before tx →
            ∃ valid, checkBlockTransaction cur crypto now (recordAll crypto main.blocks.length 0
              (b.baseTransaction :: before) main) b.majorVersion tx = .ok valid)
      fun fault => checkHeader cur crypto now checkpoints main b = .error fault ∨
        (∃ difficulty, checkHeader cur crypto now checkpoints main b = .ok (.accept difficulty)) ∧
          (fault = .undefined ∧ IsMiner b.baseTransaction ∧
            ¬main.Recordable b.baseTransaction ∨
          FailsAt cur crypto now b.majorVersion (fun before => recordAll crypto main.blocks.length 0
            (b.baseTransaction :: before) main) txs fault) := by
  unfold MainChain.pushBlock
  rw [Program.bind_run]
  cases hcheck : checkHeader cur crypto now checkpoints main b with
  | error fault => cases fault <;> simp [Program.read, hcheck, Ends]
  | ok check =>
  have hread : read (fun main => checkHeader cur crypto now checkpoints main b) main =
    .done check main := read_ok hcheck
  rw [hread]
  cases check with
  | reject failed => exact ⟨fun _ _ => rfl, (by cases ·), fun _ haccept => by cases haccept⟩
  | accept difficulty =>
  have hheader := checkHeader_eq_accept.mp hcheck
  obtain rfl := hheader.difficulty
  have hpairs : txs.zip b.transactionHashes = txs.map fun tx => (tx, crypto.getObjectHash tx) := by
    rw [hhashes, ← List.append_nil (txs.map crypto.getObjectHash), zip_getObjectHash]
  have hinputs := inputs_of_prevalidateMinerTransaction hheader.miner
  rw [hpairs]
  refine ((h.pushMiner hinj hbase hinputs).mono (fun _ _ h' => h')
    fun _ h' => .inr ⟨⟨_, rfl⟩, .inl ⟨h'.1, ⟨_, hinputs⟩, h'.2⟩⟩).andThen ?_
  rintro ⟨entered, block⟩ mined ⟨hmined, hbl⟩
  change block.bl = b at hbl
  subst hbl
  refine ((hmined.pushTransactions hinj h.rows htxs hhashes hcount).mono (fun _ _ h' => h')
    fun _ h' => .inr ⟨⟨_, rfl⟩, .inr h'⟩).andThen ?_
  rintro (_ | ⟨filledBlock, totals⟩) filled ⟨hnone, hanswers, hsome⟩
  · exact ⟨fun _ _ => hnone rfl, (by cases ·), fun _ _ => hanswers⟩
  obtain ⟨hfilled, hbl, rfl, hchecked⟩ := hsome filledBlock totals rfl
  rw [List.nil_append] at hfilled
  change Ends _ _
    (finishPush cur crypto block.bl filledBlock (blockTotals cur block.bl txs) _ filled)
  rw [hfilled.finishPush hbl h.rows hhashes, hheader.getBlockHeight_eq]
  split
  · rename_i hsize
    split
    · exact ⟨fun _ _ => rfl, (by cases ·), fun _ _ => hanswers⟩
    · refine ⟨fun hne => (hne rfl).elim, fun _ =>
        ⟨⟨⟨hheader, hfilled.enterable, hchecked, hsize⟩, rfl⟩, ?_⟩, fun _ _ => hanswers⟩
      -- the marks that the loop has made are those of the new block
      exact h.toNoDoubleSpend.linkBlock (hfilled.state_eq ▸ hfilled.consistent)
        recordAll_sameStorage ⟨recordEntries_tx, hhashes, hinputs, fun tx hmem => (htxs tx hmem).2⟩
  · rename_i hsize
    exact ⟨fun _ hsize' => (hsize hsize').elim, (by cases ·), fun _ _ => hanswers⟩

section Later

variable {later : Nat} (hlater : now ≤ later)
include hlater

theorem checkBlockTransaction_mono {majorVersion : Nat}
    (h : checkBlockTransaction cur crypto now main majorVersion tx = .ok true) :
    checkBlockTransaction cur crypto later main majorVersion tx = .ok true := by
  rw [checkBlockTransaction_eq_true] at h ⊢
  exact h.imp_left fun ⟨height, hinputs⟩ => ⟨height, checkTransactionInputs_mono hlater hinputs⟩

theorem pushTransactions_mono {minerHash : Hash} {index : TransactionIndex}
    {totals : BlockTotals} {pairs : List (Transaction × Hash)} {result : BlockEntry × BlockTotals}
    (h : pushTransactions cur crypto now minerHash block index totals pairs main =
      .done (some result) main') :
    pushTransactions cur crypto later minerHash block index totals pairs main =
    .done (some result) main' := by
  induction pairs generalizing main block index totals with
  | nil => exact h
  | cons pair pairs ih =>
    obtain ⟨tx, txId⟩ := pair
    cases hcheck : checkBlockTransaction cur crypto now main block.bl.majorVersion tx with
    | error fault =>
      rw [pushTransactions_cons, hcheck] at h
      cases fault <;> cases h
    | ok valid =>
      cases valid with rw [pushTransactions_cons, hcheck] at h
      | false =>
        rw [andThen_eq_done] at h
        obtain ⟨_, _, -, hnone⟩ := h
        cases hnone
      | true =>
        rw [andThen_eq_done] at h
        obtain ⟨pushed, state, hpushed, hrest⟩ := h
        rw [pushTransactions_cons, checkBlockTransaction_mono hlater hcheck]
        rw [hpushed]
        exact ih hrest

theorem HeaderAccepted.mono {difficulty : Nat}
    (h : HeaderAccepted cur crypto now checkpoints main b difficulty) :
    HeaderAccepted cur crypto later checkpoints main b difficulty := by
  refine { h with timestamp := ?_ }
  have htime := h.timestamp
  unfold checkBlockTimestampMain at htime ⊢
  split at htime
  · cases htime
  · rw [if_neg (by omega)]
    exact htime

/-- A push that succeeds does so at every later time, with the same result. -/
theorem pushBlock_mono (h : pushBlock cur crypto now checkpoints b txs main = .done .added main') :
    pushBlock cur crypto later checkpoints b txs main = .done .added main' := by
  obtain ⟨_, _, _, _, _, ⟨hheader, ⟨_, _, _, hminer, hpushed⟩, hsize, hreward⟩, rfl⟩ :=
    pushBlock_eq_added_iff.mp h
  have hheader' := checkHeader_eq_accept.mpr ((checkHeader_eq_accept.mp hheader).mono hlater)
  exact pushBlock_eq_added_iff.mpr ⟨_, _, _, _, _, ⟨hheader',
    ⟨_, _, _, hminer, pushTransactions_mono hlater hpushed⟩, hsize, hreward⟩, rfl⟩

end Later

theorem EnterableAll.setStorage (h : EnterableAll crypto height position txs main) :
    EnterableAll crypto height position txs (setStorage storage main) := by
  induction txs generalizing position main with
  | nil => trivial
  | cons tx txs ih =>
    obtain ⟨⟨henter, hrec⟩, hrest⟩ := h
    refine ⟨⟨⟨henter.fresh, henter.keyImages_nodup, henter.references_nodup,
      henter.unspent, henter.unused⟩, ⟨hrec.keyImages, hrec.references,
      hrec.count, hrec.amounts⟩⟩, ?_⟩
    rw [record_setStorage]
    exact ih hrest

theorem extend_eq_recordAll :
    extend cur crypto b txs main = recordAll crypto main.blocks.length 0 (b.baseTransaction :: txs)
        (setStorage (extend cur crypto b txs main) main) := by
  rw [recordAll_setStorage]
  rfl

/-- What is kept once a block agrees with the blocks. -/
structure Indexed (crypto : Crypto) (main : MainChain) : Prop where
  blockIndex : main.blockIndex = main.blocks.map fun entry => crypto.getBlockHash entry.bl
  nodup : main.blockIndex.Nodup
  deposits : main.depositIndex.WellFormed
  generated : main.generatedTransactionsIndex.WellFormed
  generated_length : main.generatedTransactionsIndex.index.length = main.blocks.length
  voting : main.votingCompleteHeight = undefHeight ∨ main.votingCompleteHeight < main.blocks.length

theorem votingAfterPush_cases : votingAfterPush cur (blocks ++ [entry]) voting = voting ∨
      votingAfterPush cur (blocks ++ [entry]) voting = blocks.length := by
  unfold votingAfterPush
  split
  · exact .inl rfl
  split
  · exact .inl rfl
  split
  · exact .inr (by simp)
  · exact .inl rfl

theorem votingAfterPop_votingAfterPush (h : voting = undefHeight ∨ voting < blocks.length) :
    votingAfterPop blocks (votingAfterPush cur (blocks ++ [entry]) voting) = voting := by
  have hlen : (blocks ++ [entry]).length - 1 = blocks.length := by simp
  have hpop : votingAfterPop blocks voting = voting := by
    unfold votingAfterPop
    rw [if_neg]
    rintro ⟨hdefined, heq⟩
    rcases h with hundef | hlt
    · exact hdefined hundef
    · omega
  unfold votingAfterPush
  split
  · exact hpop
  split
  · exact hpop
  rename_i hundef
  split
  · -- the vote was completed by the block that is popped
    rw [hlen, not_not.mp hundef]
    unfold votingAfterPop
    split
    · rfl
    · rename_i hnot
      by_contra hne
      exact hnot ⟨hne, rfl⟩
  · exact hpop

variable (h : Linked cur crypto now checkpoints main b txs)
include h

theorem Linked.getBlockHeight_eq : getBlockHeight b = main.blocks.length :=
  h.header.getBlockHeight_eq

theorem Linked.notMem_blockIndex : crypto.getBlockHash b ∉ main.blockIndex := by
  simpa [BlockIndex.hasBlock] using h.header.fresh

omit h in
/-- Entering the transactions does not show in the storage. -/
theorem extend_sameStorage : SameStorage (linkBlock cur crypto (extendedEntry cur crypto b txs main)
      (blockTotals cur b txs).interestSummary main) (extend cur crypto b txs main) := by
  have hsame : SameStorage main
      (recordAll crypto main.blocks.length 0 (b.baseTransaction :: txs) main) :=
    recordAll_sameStorage
  unfold extend linkBlock
  constructor
  case blocks => exact congrArg (· ++ _) hsame.blocks
  case blockIndex => exact congrArg (fun index => BlockIndex.push index _) hsame.blockIndex
  case depositIndex =>
    exact congrArg (fun index => DepositIndex.pushBlock index _ _) hsame.depositIndex
  case timestampIndex =>
    exact congrArg (fun index => TimestampIndex.add index _ _) hsame.timestampIndex
  case generatedTransactionsIndex =>
    exact congrArg (fun index => GeneratedTransactionsIndex.add index _)
      hsame.generatedTransactionsIndex
  case votingCompleteHeight =>
    rw [hsame.blocks, hsame.votingCompleteHeight]

omit h in
theorem extend_blocks :
    (extend cur crypto b txs main).blocks = main.blocks ++ [extendedEntry cur crypto b txs main] :=
  extend_sameStorage.blocks

omit h in
theorem tx_extendedEntry :
    (extendedEntry cur crypto b txs main).transactions.map TransactionEntry.tx =
    b.baseTransaction :: txs :=
  recordEntries_tx

/-- `popBlock` gives back the main chain the block was pushed to. -/
theorem unlinkBlock_extend (hrows : main.NoEmptyRows) (hindexed : main.Indexed crypto)
    (hhashes : b.transactionHashes = txs.map crypto.getObjectHash) :
    unlinkBlock crypto (crypto.getBlockHash b) (extend cur crypto b txs main) = .done () main := by
  have hlast : (extend cur crypto b txs main).blocks.getLast? =
      some (extendedEntry cur crypto b txs main) := by
    rw [extend_blocks, List.getLast?_concat]
  have hnamed : b.transactionHashes = txs.map crypto.getObjectHash ++ [] := by
    rw [List.append_nil, hhashes]
  have hpopped : popTransactions crypto (extendedEntry cur crypto b txs main)
      (crypto.getObjectHash b.baseTransaction) (extend cur crypto b txs main) =
        .done () (setStorage (extend cur crypto b txs main) main) := by
    have hpop : popTransactions crypto (extendedEntry cur crypto b txs main)
        (crypto.getObjectHash b.baseTransaction) (recordAll crypto main.blocks.length 0
          (b.baseTransaction :: txs) (setStorage (extend cur crypto b txs main) main)) =
        .done () (setStorage (extend cur crypto b txs main) main) :=
      popTransactions_recordAll hrows tx_extendedEntry hnamed h.enterable.setStorage
    rwa [← extend_eq_recordAll] at hpop
  unfold unlinkBlock
  rw [get_bind_run, hlast]
  change ((popTransactions crypto (extendedEntry cur crypto b txs main)
    (crypto.getObjectHash b.baseTransaction) (extend cur crypto b txs main)).andThen _) = _
  rw [hpopped, andThen_done, modify_run]
  -- every index gives back what it was before the block
  have hblockIndex : (extend cur crypto b txs main).blockIndex.pop = main.blockIndex := by
    rw [extend_sameStorage.blockIndex]
    exact BlockIndex.pop_push h.notMem_blockIndex
  have hdeposits : (extend cur crypto b txs main).depositIndex.popBlock = main.depositIndex := by
    rw [extend_sameStorage.depositIndex]
    exact DepositIndex.popBlock_pushBlock hindexed.deposits _ _
  have htimes : (extend cur crypto b txs main).timestampIndex.remove b.timestamp
      (crypto.getBlockHash b) = main.timestampIndex := by
    rw [extend_sameStorage.timestampIndex]
    exact TimestampIndex.remove_add _ _ _
  have hgenerated : (extend cur crypto b txs main).generatedTransactionsIndex.remove b =
      main.generatedTransactionsIndex := by
    rw [extend_sameStorage.generatedTransactionsIndex]
    exact GeneratedTransactionsIndex.remove_add hindexed.generated
      (h.getBlockHeight_eq.trans hindexed.generated_length.symm)
  have hblocks : (extend cur crypto b txs main).blocks.dropLast = main.blocks := by
    rw [extend_blocks, List.dropLast_concat]
  have hvoting : votingAfterPop main.blocks (extend cur crypto b txs main).votingCompleteHeight =
      main.votingCompleteHeight := by
    rw [extend_sameStorage.votingCompleteHeight]
    exact votingAfterPop_votingAfterPush hindexed.voting
  simp only [setStorage, hblocks, hvoting]
  rw [hblockIndex, hdeposits]
  change done () { main with
    timestampIndex := (extend cur crypto b txs main).timestampIndex.remove b.timestamp
      (crypto.getBlockHash b)
    generatedTransactionsIndex :=
      (extend cur crypto b txs main).generatedTransactionsIndex.remove b } = _
  rw [htimes, hgenerated]

end MainChain

end DarknetCoin
