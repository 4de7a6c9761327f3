import DarknetCoin.Theorems.BlockQueries
import DarknetCoin.Theorems.IndexLoops

/-!
# The state of a node follows from its last block

Over a universe without collisions the last identifier determines the main chain with all its
containers, whatever forks and reorganisations led there; and a node that finds only its blocks
computes the containers again. No transaction of the universe has a key that the hash tables
reserve.
-/

namespace DarknetCoin

open Semantics MainChain DarknetCoin.Core List Program

variable {net : Network} {u : Universe net} {clock clock' now fuel height position : Nat}
  {core core' : Core}
  {main main' storage : MainChain} {b : Block} {txs txs' : List Transaction} {cur : Currency}
    {crypto : Crypto}
  {index : TransactionIndex} {tx : Transaction} {entries : List TransactionEntry}
    {checkpoints : Checkpoints}

theorem TransactionsOf.unique (h : TransactionsOf u b txs) (h' : TransactionsOf u b txs') :
    txs = txs' := by
  have hmap := h.hashes.symm.trans h'.hashes
  refine ext_getElem (h.length_eq.trans h'.length_eq.symm) fun i hi hi' => ?_
  refine u.transactions_injOn (h.known _ (getElem_mem hi)) (h'.known _ (getElem_mem hi')) ?_
  simpa [hi, hi'] using congrArg (·[i]?) hmap

namespace Built

theorem LastPush.getLast?_blockIndex {below : MainChain} {block : BlockEntry}
    (h : LastPush u clock below block txs main) :
    main.blockIndex.getLast? = some (net.crypto.getBlockHash block.bl) := by
  have hmain : Built u clock main :=
    .push h.built le_rfl h.mem h.count h.transactionsOf (h.push clock le_rfl)
  rw [hmain.indexed.blockIndex, h.main_eq, extend_blocks]
  simp [extendedEntry]

/-- The block names the one below it and its own height. -/
theorem LastPush.getLast?_below {below : MainChain} {block : BlockEntry}
    (h : LastPush u clock below block txs main) :
    below.blockIndex.getLast? = if getBlockHeight block.bl = 0 then none
    else some block.bl.previousBlockHash := by
  rw [h.linked.getBlockHeight_eq, h.linked.header.previous, getTailId, BlockIndex.getTailId,
    h.built.indexed.blockIndex]
  rcases eq_nil_or_concat below.blocks with hnil | ⟨blocks, last, hblocks⟩
  · simp [hnil]
  · simp [hblocks]

theorem eq_of_last (h : Built u clock main) (h' : Built u clock' main')
    (hlast : main.blockIndex.getLast? = main'.blockIndex.getLast?) : main = main' := by
  -- from the last push of each down to the empty chain
  induction h generalizing main' clock' with
  | empty =>
    cases h' with
    | empty => rfl
    | push hmain' hnow' hb' hcount' htxs' hpush' =>
      rw [(LastPush.of_push hb' hcount' htxs' hmain' hnow' hpush').getLast?_blockIndex] at hlast
      cases hlast
  | push hmain hnow hb hcount htxs hpush ih =>
    have hpushed := LastPush.of_push hb hcount htxs hmain hnow hpush
    rw [hpushed.getLast?_blockIndex] at hlast
    cases h' with
    | empty => cases hlast
    | push hmain' hnow' hb' hcount' htxs' hpush' =>
      have hpushed' := LastPush.of_push hb' hcount' htxs' hmain' hnow' hpush'
      rw [hpushed'.getLast?_blockIndex, Option.some.injEq] at hlast
      obtain rfl := u.blocks_injOn hb hb' hlast
      have hbelow := ih hmain' (hpushed.getLast?_below.trans hpushed'.getLast?_below.symm)
      rw [hpushed.main_eq, hpushed'.main_eq, hbelow, htxs.unique htxs']

end Built

theorem soundCalls_modestBlock (clock now : Nat) (core : Core) :
    SoundCalls greedyUniverse.toUniverse clock now core (.addNewBlock modestBlock) := by
  have hmodest : modestBlock ∈ greedyUniverse.blocks := mem_cons_of_mem _ mem_cons_self
  exact fun _ => soundBlock_of_no_transactions hmodest rfl (by decide +kernel)

theorem onModestBlock_run : Run numberedNetwork (SoundCalls greedyUniverse.toUniverse) 0
    onModestBlock :=
  .step (.start onGenesis_initial) (soundCalls_modestBlock 0 0 _) (step_perform (by decide +kernel))

/-- A block that was pushed can be popped and pushed again, and each time the state is the same. -/
theorem pushed_block_repeats {u : SparingUniverse net}
    (hrun : Core.Run net (SoundCalls u.toUniverse) clock core) (hb : b ∈ u.blocks)
    (hcount : b.transactionHashes.length < word16) (htxs : TransactionsOf u.toUniverse b txs)
    (hpush : pushBlock net.cur net.crypto now net.checkpoints b txs core.main =
      .done .added main') :
    unlinkBlock net.crypto (net.crypto.getBlockHash b) main' = .done () core.main ∧
      ∀ later, now ≤ later → pushBlock net.cur net.crypto later net.checkpoints b txs core.main =
      .done .added main' := by
  obtain ⟨clock', hbuilt⟩ := hrun.built
  have hpushed := Built.LastPush.of_push hb hcount htxs (hbuilt.mono (le_max_left clock' now))
    (le_max_right _ _) hpush
  exact ⟨hpushed.pop, fun later hlater => pushBlock_mono hlater hpush⟩

theorem pushed_block_repeats_modest :
    ∃ main', unlinkBlock numberedNetwork.crypto 2 main' =
    .done () (onGenesis numberedNetwork).main ∧
      pushBlock numberedNetwork.cur numberedNetwork.crypto 5000 numberedNetwork.checkpoints
      modestBlock [] (onGenesis numberedNetwork).main = .done .added main' := by
  have hpush : (pushBlock numberedNetwork.cur numberedNetwork.crypto 2000
      numberedNetwork.checkpoints modestBlock []
      (onGenesis numberedNetwork).main).value? = some .added := by decide +kernel
  have hagain := pushed_block_repeats (u := greedyUniverse) (.start onGenesis_initial)
    (mem_cons_of_mem _ mem_cons_self) (by decide) ⟨forall_mem_nil _, forall_mem_nil _, rfl⟩
    (Outcome.eq_done_of_value? hpush (s := .empty))
  exact ⟨_, hagain.1, hagain.2 5000 (by decide)⟩

namespace MainChain

theorem spentKeys_recordAll {image : KeyImage} :
    (recordAll crypto height position txs main).spentKeys image = true ↔
      main.spentKeys image = true ∨ image ∈ txs.flatMap Transaction.keyImages := by
  induction txs generalizing position main with
  | nil => simp [recordAll]
  | cons tx txs ih =>
    rw [recordAll, ih, spentKeys_record, flatMap_cons, mem_append]
    split <;> simp [*]

theorem isOutputUsed_recordAll {reference : Nat × Nat}
    (h : EnterableAll crypto height position txs main) :
    (recordAll crypto height position txs main).isOutputUsed reference = true ↔
      main.isOutputUsed reference = true ∨
      reference ∈ txs.flatMap Transaction.multisignatureReferences := by
  induction txs generalizing position main with
  | nil => simp [recordAll]
  | cons tx txs ih =>
    rw [recordAll, ih h.2, isOutputUsed_record, flatMap_cons, mem_append]
    by_cases hmem : reference ∈ tx.multisignatureReferences
    · simp [hmem, isOutputUsed_markOutputs_of_mem hmem fun _ => h.1.2.references reference hmem]
    · simp [hmem, isOutputUsed_markOutputs_of_notMem hmem]

end MainChain

/-- The marks are those of the inputs of the chain. -/
theorem Built.marked (h : Built u clock main) :
    (∀ image, main.spentKeys image = true ↔
      image ∈ main.chainTransactions.flatMap Transaction.keyImages) ∧
      ∀ reference, main.isOutputUsed reference = true ↔
        reference ∈ main.chainTransactions.flatMap Transaction.multisignatureReferences := by
  induction h with
  | empty => exact ⟨fun _ => ⟨nofun, nofun⟩, fun _ => ⟨nofun, nofun⟩⟩
  | push hmain hnow hb hcount htxs hpush ih =>
    obtain ⟨hlinked, rfl⟩ := push_inv hb hcount htxs hmain.orderly hpush
    rw [chainTransactions_append extend_blocks, tx_extendedEntry, flatMap_append, flatMap_append]
    refine ⟨fun image => ?_, fun reference => ?_⟩
    · rw [mem_append, ← ih.1]
      exact spentKeys_recordAll
    · rw [mem_append, ← ih.2]
      exact isOutputUsed_recordAll hlinked.enterable

/-- In every reachable state the chain spends nothing twice, and the marks are those of its
inputs. -/
theorem spent_once_of_run {u : SparingUniverse net}
    (hrun : Core.Run net (SoundCalls u.toUniverse) clock core) :
    (core.main.chainTransactions.flatMap Transaction.keyImages).Nodup ∧
    (core.main.chainTransactions.flatMap Transaction.multisignatureReferences).Nodup ∧
    (∀ image, core.main.spentKeys image = true ↔
      image ∈ core.main.chainTransactions.flatMap Transaction.keyImages) ∧
    ∀ reference, core.main.isOutputUsed reference = true ↔
      reference ∈ core.main.chainTransactions.flatMap Transaction.multisignatureReferences := by
  obtain ⟨_, hbuilt⟩ := hrun.built
  have hspent := hbuilt.orderly.consistent
  exact ⟨hspent.keyImages_nodup, hspent.references_nodup, hbuilt.marked⟩

/-- The universe of a block with a shared output and one that spends it. -/
def spendingUniverse : SparingUniverse openNetwork :=
  .ofBlocks openNetwork [sharedOutputBlock, spendingBlock] [spendingTransaction] (by decide +kernel)
    (by decide +kernel) (by decide +kernel)

theorem transactionsOf_spendingBlock :
    TransactionsOf spendingUniverse.toUniverse spendingBlock [spendingTransaction] where
  known := forall_mem_singleton.mpr (mem_append_right _ mem_cons_self)
  semantic := forall_mem_singleton.mpr (by decide +kernel)
  hashes := by decide +kernel

theorem soundBlock_spendingBlock : SoundBlock spendingUniverse.toUniverse spendingBlock where
  mem := mem_cons_of_mem _ (mem_cons_of_mem _ mem_cons_self)
  count := by decide
  size txs htxs := by
    rw [htxs.unique transactionsOf_spendingBlock]
    decide +kernel
  below clock main txs _ _ htxs before tx after hsplit := by
    rw [htxs.unique transactionsOf_spendingBlock] at hsplit
    obtain ⟨rfl, hsplit⟩ | ⟨_, -, hsplit⟩ := cons_eq_append_iff.mp hsplit
    · obtain ⟨rfl, -⟩ := cons.inj hsplit
      -- the miner transaction of the block has no multisignature output
      refine forall_mem_singleton.mpr fun hnames => absurd hnames.1 (Nat.not_le.mpr hnames.2)
    · simp at hsplit

theorem soundCalls_spending : ∀ entry ∈ spendingCalls, ∀ clock core,
    SoundCalls spendingUniverse.toUniverse clock entry.1 core entry.2 := by
  intro entry hentry clock core
  simp only [spendingCalls, mem_cons, not_mem_nil, or_false] at hentry
  rcases hentry with rfl | rfl | rfl
  · exact fun _ => soundBlock_of_no_transactions (mem_cons_of_mem _ mem_cons_self) rfl
      (by decide +kernel)
  · exact fun _ => mem_append_right _ mem_cons_self
  · exact fun _ => soundBlock_spendingBlock

/-- The output is created in one block and spent in the next. -/
theorem spent_once_of_run_spending :
    ∃ clock core, Run openNetwork (SoundCalls spendingUniverse.toUniverse) clock core ∧
      core.main.blocks.length = 3 ∧ core.main.isOutputUsed (5, 0) = true ∧
      (5, 0) ∈ core.main.chainTransactions.flatMap Transaction.multisignatureReferences := by
  have hstart : Run openNetwork (SoundCalls spendingUniverse.toUniverse) 0
      (onGenesis openNetwork) :=
    .start (onGenesis_initial_of (by decide +kernel))
  obtain ⟨clock, core, hrun, hlen, hused⟩ := exists_run_of_performAll spendingCalls
    (fun core => core.main.blocks.length = 3 ∧ core.main.isOutputUsed (5, 0) = true)
      soundCalls_spending
    hstart (by decide +kernel)
  exact ⟨clock, core, hrun, hlen, hused, ((spent_once_of_run hrun).2.2.2 (5, 0)).mp hused⟩

namespace MainChain

variable {entry : TransactionEntry}

/-- A transaction is found under its hash, and its outputs at the indexes that are stored with
it. -/
structure EnteredAt (crypto : Crypto) (main : MainChain) (index : TransactionIndex)
    (entry : TransactionEntry) : Prop where
  found : main.transactionMap (crypto.getObjectHash entry.tx) = some index
  outputs : RecordsOutputs index entry.tx.outputs main entry.globalOutputIndexes

theorem EnteredAt.recordAll (h : EnteredAt crypto main index entry)
    (hrest : EnterableAll crypto height position txs main) :
    EnteredAt crypto (recordAll crypto height position txs main) index entry := by
  induction txs generalizing position main with
  | nil => exact h
  | cons tx txs ih =>
    refine ih ⟨?_, fun i out hout => ?_⟩ hrest.2
    · rw [transactionMap_record, Function.update_of_ne, h.found]
      intro hsame
      exact Option.some_ne_none index (h.found.symm.trans (hsame ▸ hrest.1.1.fresh))
    · obtain ⟨g, hg, hplace⟩ := h.outputs i out hout
      refine ⟨g, hg, ?_⟩
      -- the rows only grow
      rw [places_record, getElem?_append_left (List.getElem?_eq_some_iff.mp hplace).1, hplace]

theorem enteredAt_recordEntries (h : EnterableAll crypto height position txs main) {t : Nat}
    (hentry : (recordEntries crypto height position txs main)[t]? = some entry) :
    EnteredAt crypto (recordAll crypto height position txs main) ⟨height, position + t⟩ entry := by
  induction txs generalizing position main t with
  | nil => cases hentry
  | cons tx txs ih =>
    cases t with
    | zero =>
      obtain rfl : recordEntry crypto ⟨height, position⟩ tx main = entry := Option.some.inj hentry
      have hhead : EnteredAt crypto
          (record crypto (crypto.getObjectHash tx) ⟨height, position⟩ tx main)
          ⟨height, position⟩ (recordEntry crypto ⟨height, position⟩ tx main) :=
        ⟨(congrFun transactionMap_record _).trans (Function.update_self ..),
          recordsOutputs_recordOutputs⟩
      exact hhead.recordAll h.2
    | succ t =>
      rw [add_comm t, ← add_assoc]
      exact ih h.2 hentry

end MainChain

theorem Built.enteredAt (h : Built u clock main) {block : BlockEntry} {entry : TransactionEntry}
    (hblock : main.blocks[height]? = some block)
    (hentry : block.transactions[position]? = some entry) :
    EnteredAt net.crypto main ⟨height, position⟩ entry := by
  induction h with
  | empty => cases hblock
  | @push below _ _ b txs hmain hnow hb hcount htxs hpush ih =>
    obtain ⟨hlinked, rfl⟩ := push_inv hb hcount htxs hmain.orderly hpush
    rw [extend_blocks] at hblock
    -- an older block keeps its entries, the new one has just been entered
    by_cases hold : height < below.blocks.length
    · rw [getElem?_append_left hold] at hblock
      have hrest := (ih hblock).recordAll hlinked.enterable
      exact ⟨hrest.found, hrest.outputs⟩
    · have hlt := (List.getElem?_eq_some_iff.mp hblock).1
      obtain rfl : height = below.blocks.length := by
        rw [length_append, length_singleton] at hlt
        omega
      rw [getElem?_concat_length, Option.some.injEq] at hblock
      rw [← hblock] at hentry
      have hnew := enteredAt_recordEntries hlinked.enterable hentry
      rw [zero_add] at hnew
      exact ⟨hnew.found, hnew.outputs⟩

/-- In every reachable state the hashes lead to the transactions of the chain, the indexes stored
with a transaction to its outputs, and everything in a row to an output of the chain. -/
theorem outputs_found_of_run {u : SparingUniverse net}
    (hrun : Core.Run net (SoundCalls u.toUniverse) clock core) :
    (∀ hash index, core.main.transactionMap hash = some index ↔
      ∃ tx, lookupTransaction core.main.blocks index = some tx ∧
      net.crypto.getObjectHash tx = hash) ∧
    (∀ height block position entry, core.main.blocks[height]? = some block →
      block.transactions[position]? = some entry →
        RecordsOutputs ⟨height, position⟩ entry.tx.outputs core.main entry.globalOutputIndexes) ∧
    Located core.main.blocks core.main := by
  obtain ⟨_, hbuilt⟩ := hrun.built
  refine ⟨fun hash index => ⟨hbuilt.mapped hash index, ?_⟩, fun _ _ _ _ hblock hentry =>
    (hbuilt.enteredAt hblock hentry).outputs, hbuilt.located⟩
  rintro ⟨tx, htx, rfl⟩
  obtain ⟨block, hblock, hmap⟩ := Option.bind_eq_some_iff.mp htx
  rw [getElem?_map] at hmap
  obtain ⟨entry, hentry, rfl⟩ := Option.map_eq_some_iff.mp hmap
  exact (hbuilt.enteredAt hblock hentry).found

theorem outputs_found_of_run_modest : onModestBlock.main.transactionMap 2 = some ⟨1, 0⟩ ↔
    ∃ tx, lookupTransaction onModestBlock.main.blocks ⟨1, 0⟩ = some tx ∧
    Crypto.numbered.getObjectHash tx = 2 :=
  (outputs_found_of_run onModestBlock_run).1 2 ⟨1, 0⟩

namespace MainChain

theorem rebuildInputs_eq {inputs : List TransactionInput} (hzero : 0 ∉ keyImagesOf inputs) :
    rebuildInputs inputs main = markMultisignatureInputs true inputs
    (setSpentAll true (keyImagesOf inputs) main) := by
  -- the scan marks in one pass what `pushTransaction` marks in two
  induction inputs generalizing main with
  | nil => rfl
  | cons input inputs ih =>
    cases input with
    | base input => exact ih hzero
    | key input =>
      rw [keyImagesOf_key, mem_cons, not_or] at hzero
      rw [keyImagesOf_key, ← setSpentAll_setSpent, rebuildInputs, if_neg (Ne.symm hzero.1)]
      exact ih hzero.2
    | multisignature input =>
      have hrows : (setSpentAll true
          (keyImagesOf (.multisignature input :: inputs)) main).multisignatureOutputs =
        main.multisignatureOutputs := rfl
      rw [rebuildInputs, markMultisignatureInputs, get_bind_run, get_bind_run, hrows]
      split
      · exact ih hzero
      · rfl

/-- The entries of the transactions of `main` with everything else from `storage`. -/
def withEntries (storage main : MainChain) : MainChain :=
  { storage with
    transactionMap := main.transactionMap
    spentKeys := main.spentKeys
    outputs := main.outputs
    multisignatureOutputs := main.multisignatureOutputs }

/-- The containers that `rebuildCache` fills. -/
def withCache (storage main : MainChain) : MainChain :=
  { withEntries storage main with blockIndex := main.blockIndex, depositIndex := main.depositIndex }

/-- The containers that `loadBlockchainIndices` fills. -/
def withIndices (storage main : MainChain) : MainChain :=
  { storage with
    paymentIdIndex := main.paymentIdIndex
    timestampIndex := main.timestampIndex
    generatedTransactionsIndex := main.generatedTransactionsIndex }

theorem recordOutputs_withEntries {outs : List TransactionOutput} :
    recordOutputs index position outs (withEntries storage main) =
      withEntries storage (recordOutputs index position outs main) := by
  induction outs generalizing position main with
  | nil => rfl
  | cons out outs ih =>
    rw [recordOutputs, recordOutputs, ← ih]
    unfold pushOutput
    cases out.target <;> rfl

theorem rebuildTransaction_withEntries (h : main.Enterable (crypto.getObjectHash tx) tx)
    (hrec : main.Recordable tx) : rebuildTransaction crypto index tx (withEntries storage main) =
      .done () (withEntries storage (record crypto (crypto.getObjectHash tx) index tx main)) := by
  have hfresh : (withEntries storage main).transactionMap (crypto.getObjectHash tx) =
      none := h.fresh
  have hinputs : rebuildInputs tx.inputs (setTransaction (crypto.getObjectHash tx) (some index)
      (withEntries storage main)) =
          .done () (withEntries storage (withInputs (crypto.getObjectHash tx) index tx main)) := by
    rw [rebuildInputs_eq hrec.keyImages, markMultisignatureInputs_eq]
    exact if_pos hrec.references
  unfold rebuildTransaction
  rw [get_bind_run]
  simp only [hfresh, Option.isNone_none, if_true, modify_run, bind_run, hinputs,
    Outcome.andThen_done]
  rw [if_neg (not_le.mpr hrec.count), bind_run, pushOutputs_eq, if_pos hrec.amounts,
    recordOutputs_withEntries]
  rfl

theorem rebuildTransactions_withEntries
    (h : EnterableAll crypto height position (entries.map TransactionEntry.tx) main) :
    rebuildTransactions crypto height position entries (withEntries storage main) =
      .done () (withEntries storage
        (recordAll crypto height position (entries.map TransactionEntry.tx) main)) := by
  induction entries generalizing position main with
  | nil => rfl
  | cons entry entries ih =>
    obtain ⟨⟨henter, hrec⟩, hrest⟩ := h
    rw [rebuildTransactions, forEachIdx, bind_run, rebuildTransaction_withEntries henter hrec]
    exact ih hrest

theorem EnterableAll.count (h :
      EnterableAll crypto height position (entries.map TransactionEntry.tx) main) :
    ∀ entry ∈ entries, entry.tx.outputs.length < word16 := by
  induction entries generalizing position main with
  | nil => exact forall_mem_nil _
  | cons entry entries ih => exact forall_mem_cons.mpr ⟨h.1.2.count, ih h.2⟩

variable (hcount : (extendedEntry cur crypto b txs main).transactions.length < word16)
  (hfuel : word16 ≤ fuel)
include hcount hfuel

theorem rebuildBlock_extend (hlinked : Linked cur crypto now checkpoints main b txs) :
    rebuildBlock crypto cur fuel main.blocks.length (extendedEntry cur crypto b txs main)
    (withCache storage main) = .done () (withCache storage (extend cur crypto b txs main)) := by
  have hminer : IsMiner b.baseTransaction :=
    ⟨_, inputs_of_prevalidateMinerTransaction hlinked.header.miner⟩
  have henter := hlinked.enterable
  rw [← @tx_extendedEntry cur crypto main b txs] at henter
  have hsame := @extend_sameStorage cur crypto main b txs
  rw [rebuildBlock, modify_bind_run, bind_run, rebuildLoop_eq henter.count hcount hfuel]
  -- the identifier is entered before the transactions
  change ((rebuildTransactions crypto main.blocks.length 0 _ (withEntries { storage with
    blockIndex := main.blockIndex.push _
    depositIndex := main.depositIndex } main)).andThen _).andThen _ = _
  rw [rebuildTransactions_withEntries henter, tx_extendedEntry, Outcome.andThen_done,
    Outcome.andThen_done, modify_run,
    blockInterest_extendedEntry hminer, withCache, hsame.blockIndex, hsame.depositIndex]
  rfl

omit hcount hfuel in
/-- Entering the transactions of a block has recorded their payments. -/
theorem foldl_addPaymentId (main storage : MainChain) (height position : Nat) :
    entries.foldl (fun main entry => addPaymentId crypto entry.tx main)
        { storage with paymentIdIndex := main.paymentIdIndex } =
      { storage with
        paymentIdIndex := (recordAll crypto height position
          (entries.map TransactionEntry.tx) main).paymentIdIndex } := by
  induction entries generalizing position main with
  | nil => rfl
  | cons entry entries ih =>
    have hrecord : (record crypto (crypto.getObjectHash entry.tx)
      ⟨height, position⟩ entry.tx main).paymentIdIndex = main.paymentIdIndex.add crypto entry.tx :=
      recordOutputs_frame (f := fun main => main.paymentIdIndex.add crypto entry.tx)
        (fun _ _ _ => rfl) 0 _
    rw [foldl_cons, map_cons, recordAll, ← ih, hrecord]
    rfl

theorem loadBlockIndices_extend :
    loadBlockIndices crypto fuel (extendedEntry cur crypto b txs main) (withIndices storage main) =
      .done () (withIndices storage (extend cur crypto b txs main)) := by
  have hsame := @extend_sameStorage cur crypto main b txs
  rw [loadBlockIndices, modify_bind_run, bind_run, paymentIdLoop_eq hcount (by omega),
    Outcome.andThen_done, pure_run]
  refine congrArg (Outcome.done ()) ((foldl_addPaymentId main { storage with
    timestampIndex := main.timestampIndex.add _ _
    generatedTransactionsIndex :=
      main.generatedTransactionsIndex.add _ } main.blocks.length 0).trans ?_)
  rw [tx_extendedEntry, withIndices, hsame.timestampIndex, hsame.generatedTransactionsIndex]
  rfl

end MainChain

/-- A loop over the blocks that does to a part of the main chain what the push of each block has
done. -/
theorem Built.forEachIdx_blocks {p : Nat → BlockEntry → Program MainChain Unit}
    {f : MainChain → MainChain}
    (h : Built u clock main) (hcount : ∀ block ∈ main.blocks, block.transactions.length < word16)
    (hstep : ∀ {now below b txs},
      (extendedEntry net.cur net.crypto b txs below).transactions.length < word16 →
      Linked net.cur net.crypto now net.checkpoints below b txs →
      p below.blocks.length (extendedEntry net.cur net.crypto b txs below) (f below) =
        .done () (f (extend net.cur net.crypto b txs below))) :
    forEachIdx p 0 main.blocks (f .empty) = .done () (f main) := by
  induction h with
  | empty => rfl
  | push hmain hnow hb hnarrow htxs hpush ih =>
    obtain ⟨hlinked, rfl⟩ := push_inv hb hnarrow htxs hmain.orderly hpush
    rw [extend_blocks, forall_mem_append, forall_mem_singleton] at hcount
    rw [extend_blocks, forEachIdx_concat, ih hcount.1, Outcome.andThen_done, Nat.zero_add]
    exact hstep hcount.2 hlinked

/-- A node that has nothing but its blocks and the height of its vote computes all containers
again. -/
theorem restart_restores {u : SparingUniverse net}
    (hrun : Core.Run net (SoundCalls u.toUniverse) clock core)
    (hcount : ∀ block ∈ core.main.blocks, block.transactions.length < word16)
    (hfuel : word16 ≤ fuel) :
    (rebuildCache net.crypto net.cur fuel >>= fun _ => loadBlockchainIndices net.crypto fuel)
      { MainChain.empty with
        blocks := core.main.blocks
        votingCompleteHeight := core.main.votingCompleteHeight } = .done () core.main := by
  obtain ⟨_, hbuilt⟩ := hrun.built
  -- the first scan fills everything but the three indices, which the second one fills
  have hrebuilt := hbuilt.forEachIdx_blocks (f := withCache { MainChain.empty with
      blocks := core.main.blocks
      votingCompleteHeight := core.main.votingCompleteHeight }) hcount
    fun hlength => rebuildBlock_extend hlength hfuel
  have hloaded := hbuilt.forEachIdx_blocks (p := fun _ => loadBlockIndices net.crypto fuel)
    (f := withIndices core.main) hcount fun hlength _ => loadBlockIndices_extend hlength hfuel
  rw [forEachIdx_eq_forEach] at hloaded
  exact (congrArg (Outcome.andThen · fun _ => loadBlockchainIndices net.crypto fuel)
    hrebuilt).trans hloaded

theorem restart_restores_modest :
    (rebuildCache numberedNetwork.crypto numberedNetwork.cur word16 >>= fun _ =>
        loadBlockchainIndices numberedNetwork.crypto word16)
      { MainChain.empty with
        blocks := onModestBlock.main.blocks
        votingCompleteHeight := onModestBlock.main.votingCompleteHeight } =
        .done () onModestBlock.main := by
  have hcount : ∀ block ∈ onModestBlock.main.blocks, block.transactions.length < word16 := by
    decide +kernel
  exact restart_restores onModestBlock_run hcount le_rfl

end DarknetCoin
