import DarknetCoin.Theorems.ThreadedChain

/-!
# Starting over with another genesis block

`resetAndSetGenesisBlock` forgets the multisignature outputs, the deposit index and the running
total of the transactions. Everything else is what a new node would hold, since entering
transactions neither reads nor writes these.
-/

namespace DarknetCoin

open Semantics Data Program MainChain DarknetCoin.Core TxMemoryPool Outcome

namespace MainChain

variable {cur : Currency} {crypto : Crypto} {now : Nat} {checkpoints : Checkpoints}
  {deposits : DepositIndex} {generated : GeneratedTransactionsIndex} {voting : Nat}
  {main main' : MainChain} {b : Block} {txs : List Transaction}

/-- The main chain with other totals and another state of the upgrade detector. -/
def withTotals (deposits : DepositIndex) (generated : GeneratedTransactionsIndex) (voting : Nat)
    (main : MainChain) : MainChain :=
  { main with
    depositIndex := deposits
    generatedTransactionsIndex := generated
    votingCompleteHeight := voting }

section Ignores

theorem ignores_withTotals {α : Type} {p : Program MainChain α}
    (h : ∀ storage, Ignores (setStorage storage) p) :
    Ignores (withTotals deposits generated voting) p := by
  intro state
  have hkeeps := sameStorage_of_ignores h state .refl
  have htotals {final : MainChain} (hsame : SameStorage state final) :
      setStorage (withTotals deposits generated voting state) final =
          withTotals deposits generated voting final := by
    simp [setStorage, withTotals, ← hsame.blocks, ← hsame.blockIndex, ← hsame.timestampIndex]
  refine (h (withTotals deposits generated voting state) state).trans ?_
  cases hrun : p state with rw [hrun] at hkeeps
  | done a final =>
    exact congrArg (done a) (htotals hkeeps)
  | thrown final =>
    exact congrArg thrown (htotals hkeeps)
  | stuck => rfl

theorem scanOutputKeys_withTotals (outs : List (TransactionIndex × Nat)) (offsets : List Nat) :
    scanOutputKeys cur now (withTotals deposits generated voting main) outs offsets =
      scanOutputKeys cur now main outs offsets := by
  induction offsets with
  | nil => rfl
  | cons offset offsets ih =>
    rw [scanOutputKeys_cons, scanOutputKeys_cons, ih]
    rfl

theorem checkTxInput_withTotals (input : KeyInput) (prefixHash : Hash) (sig : List Signature)
    (maxUsedHeight : Nat) :
    checkTxInput cur crypto now (withTotals deposits generated voting main) input prefixHash sig
    maxUsedHeight = checkTxInput cur crypto now main input prefixHash sig maxUsedHeight := by
  have hscan : scanOutputKeysForIndexes cur now (withTotals deposits generated voting main) input =
      scanOutputKeysForIndexes cur now main input := by
    unfold scanOutputKeysForIndexes
    simp only [scanOutputKeys_withTotals]
    rfl
  rw [checkTxInput, checkTxInput, hscan]

theorem checkInputs_withTotals (prefixHash : Hash) (inputs : List TransactionInput)
    (sigs : List (List Signature)) (maxUsedHeight : Nat) :
    checkInputs cur crypto now (withTotals deposits generated voting main) prefixHash inputs sigs
    maxUsedHeight = checkInputs cur crypto now main prefixHash inputs sigs maxUsedHeight := by
  induction inputs generalizing sigs maxUsedHeight with
  | nil => rfl
  | cons input inputs ih =>
    cases input with
    | base => rfl
    | key input =>
      unfold checkInputs
      simp only [checkTxInput_withTotals, ih]
      rfl
    | multisignature input =>
      have hvalid (sig : List Signature) :
          validateInput cur crypto now (withTotals deposits generated voting main) input prefixHash
            sig = validateInput cur crypto now main input prefixHash sig := rfl
      unfold checkInputs
      simp only [hvalid, ih]

theorem ignores_pushTransactions (minerHash : Hash) (pairs : List (Transaction × Hash))
    (block : BlockEntry) (index : TransactionIndex) (totals : BlockTotals) :
    Ignores (withTotals deposits generated voting)
      (pushTransactions cur crypto now minerHash block index totals pairs) := by
  induction pairs generalizing block index totals with
  | nil => exact .pure _
  | cons pair pairs ih =>
    refine .bind (.read fun main => ?_) fun valid => ?_
    · unfold checkBlockTransaction checkTransactionInputs
      rw [checkInputs_withTotals]
    · refine .ite ?_ ?_
      · exact .bind (ignores_withTotals fun _ => ignores_popTransactions _ _) fun _ => .pure none
      · exact .bind (ignores_withTotals fun _ => ignores_pushTransaction _ _ _)
          fun pushed => ih _ _ _

end Ignores

/-- A push that succeeds on a main chain with other totals succeeds without them, and the totals
it leaves are those of the block on top of the others. -/
theorem pushBlock_withTotals (hver :
      checkBlockVersion cur (withTotals deposits generated voting main) b =
      checkBlockVersion cur main b)
    (h : pushBlock cur crypto now checkpoints b txs (withTotals deposits generated voting main) =
      .done .added main') :
    ∃ plain change interest voting', pushBlock cur crypto now checkpoints b txs main =
    .done .added plain ∧
      main' = withTotals (deposits.pushBlock change interest) (generated.add b) voting' plain ∧
      plain.depositIndex = main.depositIndex.pushBlock change interest ∧
      plain.generatedTransactionsIndex = main.generatedTransactionsIndex.add b := by
  have hheader : checkHeader cur crypto now checkpoints
      (withTotals deposits generated voting main) b =
      checkHeader cur crypto now checkpoints main b := by
    unfold checkHeader
    rw [hver]
    rfl
  obtain ⟨difficulty, block, totals, _, emission,
    ⟨hcheck, ⟨entered, start, _, hminer, hpushed⟩, hsize, hreward⟩, rfl⟩ :=
      pushBlock_eq_added_iff.mp h
  obtain ⟨mined, hminer', rfl⟩ :=
    (ignores_withTotals fun _ => ignores_pushTransaction _ _ _).done hminer
  obtain ⟨filled, hpushed', rfl⟩ := (ignores_pushTransactions _ _ _ _ _).done hpushed
  -- the same steps, without the other totals
  have hsteps : Steps cur crypto now checkpoints b txs main difficulty block totals
      filled emission :=
    ⟨hheader ▸ hcheck, ⟨entered, start, mined, hminer', hpushed'⟩, hsize, hreward⟩
  have hbl : (finishBlock filled block totals difficulty emission).bl = b := hsteps.appended.bl
  refine ⟨_, depositChange (finishBlock filled block totals difficulty emission),
    totals.interestSummary, votingAfterPush cur
      (filled.blocks ++ [finishBlock filled block totals difficulty emission]) voting,
    pushBlock_eq_added_iff.mpr ⟨_, _, _, _, _, hsteps, rfl⟩, ?_, ?_, ?_⟩
  · rw [← hbl]
    rfl
  · rw [← hsteps.storage.depositIndex]
    rfl
  · rw [← hsteps.storage.generatedTransactionsIndex, ← hbl]
    rfl

end MainChain

namespace Core

variable {net : Network} {now fuel : Nat} {core core' loaded : Core} {b : Block}
  {txs : List Transaction}

theorem takeTransactions_of_mempool {other : Core} {taken : List Transaction} {hashes : List Hash}
    (hpool : other.mempool = core.mempool)
    (h : takeTransactions net now taken hashes core = .done (some txs) loaded) :
    loaded = { core with mempool := loaded.mempool } ∧ takeTransactions net now taken hashes other =
        .done (some txs) { other with mempool := loaded.mempool } := by
  induction hashes generalizing core other taken with
  | nil =>
    cases h
    exact ⟨rfl, by rw [← hpool]; rfl⟩
  | cons id hashes ih =>
    rw [takeTransactions_cons] at h ⊢
    rw [hpool]
    cases htake : (takeTx net.crypto id core.mempool).1 with rw [htake] at h
    | some tx =>
      exact @ih { core with mempool := (takeTx net.crypto id core.mempool).2 }
        { other with mempool := (takeTx net.crypto id core.mempool).2 } _ rfl h
    | none =>
      obtain ⟨saved, state, -, hnone⟩ := bind_eq_done.mp h
      cases hnone

theorem pushBlock_added (h : pushBlock net now b core = .done .added core') :
    ∃ txs loaded main, loadTransactions net now b core = .done (some txs) loaded ∧
      MainChain.pushBlock net.cur net.crypto now net.checkpoints b txs loaded.main =
      .done .added main ∧ core' = updateNextComulativeSizeLimit net { loaded with main } := by
  obtain ⟨found, loaded, hload, h⟩ := bind_eq_done.mp h
  cases found with
  | none => cases h
  | some txs =>
    obtain ⟨result, pushed, hpush, h⟩ := bind_eq_done.mp h
    cases result with
    | rejected failed =>
      obtain ⟨saved, state, -, hrejected⟩ := bind_eq_done.mp h
      cases hrejected
    | added =>
      cases h
      rw [onMain, zoom_run] at hpush
      cases hmain : MainChain.pushBlock net.cur net.crypto now net.checkpoints b txs loaded.main
        with rw [hmain] at hpush
      | done result main =>
        cases hpush
        exact ⟨txs, loaded, main, hload, hmain, rfl⟩
      | thrown main =>
        cases hpush
      | stuck =>
        cases hpush

theorem pushBlock_eq_added {main : MainChain}
    (hload : loadTransactions net now b core = .done (some txs) loaded)
    (hpush : MainChain.pushBlock net.cur net.crypto now net.checkpoints b txs loaded.main =
      .done .added main) : pushBlock net now b core =
    .done .added (updateNextComulativeSizeLimit net { loaded with main }) := by
  unfold pushBlock
  rw [bind_run, hload, andThen_done]
  dsimp only
  rw [bind_run, onMain, zoom_run, hpush]
  rfl

/-- On a node without blocks only a push can add a block to the main chain. -/
theorem addNewBlock_of_no_blocks {bvc : BlockVerificationContext} {result : Bool}
    (hblocks : core.main.blocks = []) (hidx : core.main.blockIndex = [])
    (halts : core.alternativeChains = []) :
    addNewBlock net now fuel b core = .done (result, bvc) core' ∧ bvc.addedToMainChain = true ↔
      b.previousBlockHash = nullHash ∧ pushBlock net now b core = .done .added core' ∧
        result = true ∧ bvc = { addedToMainChain := true } := by
  have hhave : core.haveBlock (net.crypto.getBlockHash b) = false := by
    rw [haveBlock, findAlternative, hidx, halts]
    rfl
  have htail : core.main.getTailId = nullHash := by
    rw [getTailId, if_pos hblocks]
  unfold addNewBlock
  rw [get_bind_run,
    if_neg (by rw [hhave]; exact Bool.false_ne_true), htail]
  constructor
  · rintro ⟨h, hadded⟩
    split at h
    · -- neither chain has a parent for the block
      exfalso
      cases fuel with
      | zero => cases h
      | succ fuel =>
        obtain ⟨check, state, hread, h⟩ := bind_eq_done.mp h
        obtain ⟨hcheck, rfl⟩ := read_eq_done.mp hread
        cases check with
        | reject failed =>
          cases h
          cases hadded
        | orphaned =>
          cases h
          cases hadded
        | accept bei altChain isACheckpoint =>
          obtain ⟨parent, -, hacc⟩ := checkAlternativeBlock_eq_accept hcheck
          have hknown := hacc.known
          rw [findAlternative, hidx, halts] at hknown
          exact hknown.elim (fun hne => hne rfl) fun hne => hne rfl
    · rename_i hprev
      obtain ⟨pushed, state, hpush, h⟩ := bind_eq_done.mp h
      cases pushed with
      | rejected failed =>
        cases h
        cases hadded
      | added =>
        cases h
        exact ⟨not_not.mp hprev, hpush, rfl, rfl⟩
  · rintro ⟨hprev, hpush, rfl, rfl⟩
    rw [if_neg (not_not.mpr hprev), bind_run, hpush]
    exact ⟨rfl, rfl⟩

/-- The node a reset is compared with: no blocks, and the same pool. -/
def new (mempool : TxMemoryPool) : Core := { empty with mempool }

theorem resetAndSetGenesisBlock_eq_true
    (h : resetAndSetGenesisBlock net now fuel b core = .done true core') :
    b.previousBlockHash = nullHash ∧ pushBlock net now b core.clear = .done .added core' := by
  unfold resetAndSetGenesisBlock at h
  rw [modify_bind_run] at h
  obtain ⟨⟨result, bvc⟩, state, hadd, h⟩ := bind_eq_done.mp h
  obtain ⟨hbvc, rfl⟩ := done.inj h
  have hadded : bvc.addedToMainChain = true := (Bool.and_eq_true_iff.mp hbvc).1
  obtain ⟨hprev, hpush, -⟩ := (addNewBlock_of_no_blocks rfl rfl rfl).mp ⟨hadd, hadded⟩
  exact ⟨hprev, hpush⟩

end Core

variable {net : Network} {now fuel : Nat} {core core' : Core} {b : Block}

theorem depositCount_invariant (net : Network) :
    MainInvariant net anySupply fun main => main.depositIndex.size = main.blocks.length := by
  apply storage_invariant
  · intro main main' hstorage h
    rw [hstorage.depositIndex, hstorage.blocks]
    exact h
  · intro now blockData transactions main block main' _ _ hwritten h
    rw [hwritten.depositIndex, hwritten.appended.blocks, List.length_append, ← h]
    rfl
  · intro main main' hunwritten h
    rw [hunwritten.depositIndex, hunwritten.blocks, List.length_dropLast, ← h]
    rfl

/-- The genesis block is never popped, since every alternative block stands above it, and the
deposit index has an entry for each block. -/
theorem genesis_stays {Ok : Nat → Nat → Core → Call → Prop} {clock : Nat}
    (hrun : Core.Run net Ok clock core) :
    core.Supplied net anySupply (fun main => main.depositIndex.size = main.blocks.length) ∧
      ∃ genesis, core.Retains [genesis] fun entry => entry.2.height ≠ 0 := by
  have hM := depositCount_invariant net
  induction hrun with
  | @start now core hinitial =>
    refine ⟨Supplied.of_initial hM rfl trivial hinitial, ?_⟩
    have hempty : Core.empty.Retains [] fun entry => entry.2.height ≠ 0 :=
      ⟨List.nil_prefix, List.forall_mem_nil _⟩
    have hretains :=
      (Retains.callFrame.pushBlock net.cur.genesisBlock Core.empty hempty).of_done hinitial
    obtain ⟨txs, loaded, main, hload, hmain, rfl⟩ := pushBlock_added hinitial
    obtain ⟨hloaded, -⟩ :=
      @Core.takeTransactions_of_mempool net now .empty loaded txs .empty [] _ rfl hload
    obtain ⟨block, hwritten⟩ := pushBlock_written hmain
    refine ⟨block, ?_, hretains.alternatives⟩
    have hblocks : main.blocks = [block] := by
      rw [hwritten.appended.blocks, hloaded]
      rfl
    exact hblocks ▸ List.prefix_rfl
  | @step clock now core core' call _ hok hstep ih =>
    obtain ⟨hsupplied, genesis, hretains⟩ := ih
    obtain ⟨fuel, hleaves⟩ := hstep
    have hkept : core'.Keeping net anySupply
        (fun main => main.depositIndex.size = main.blocks.length)
        (Retains [genesis] fun entry => entry.2.height ≠ 0) := by
      refine (call_keeps hM Retains.callFrame ?_ fuel ⟨hsupplied, hretains⟩
        (anySupply_admits call)).leaves hleaves
      intro core b bei parent isACheckpoint _ hretains _ hacc
      have habove : bei.height ≠ 0 := by
        rw [hacc.entry]
        exact Nat.succ_ne_zero _
      refine ⟨hretains.insertAlternative habove, fun front hfront => Nat.one_le_iff_ne_zero.mpr ?_⟩
      rcases List.mem_append.mp (List.mem_of_mem_head? hfront) with hold | hnew
      · rcases mem_alternativeChainTo hacc.chain front hold with hnil | hmem
        · cases hnil
        · exact hretains.alternatives front hmem
      · rw [List.mem_singleton.mp hnew]
        exact habove
    exact ⟨hkept.1, genesis, hkept.2⟩

/-- After a reset the deposit index counts the blocks that are gone, so no node has the containers
of a new node that added the block. All others are the same, apart from the index of the generated
transactions, if the node held no multisignature output. -/
theorem reset_never_eq_new {Ok : Nat → Nat → Core → Call → Prop} {clock : Nat}
    (hrun : Core.Run net Ok clock core)
    (h : resetAndSetGenesisBlock net now fuel b core = .done true core') :
    (∀ result fresh, addNewBlock net now fuel b (new core.mempool) = .done result fresh →
      ¬(core'.main.blocks = fresh.main.blocks ∧
        core'.main.depositIndex = fresh.main.depositIndex)) ∧
    (core.main.multisignatureOutputs = Table.empty → ∃ fresh,
      addNewBlock net now fuel b (new core.mempool) =
      .done (true, { addedToMainChain := true }) fresh ∧ core'.main.blocks = fresh.main.blocks ∧
      core'.main.blockIndex = fresh.main.blockIndex ∧
      core'.main.transactionMap = fresh.main.transactionMap ∧
      core'.main.spentKeys = fresh.main.spentKeys ∧
      core'.main.outputs = fresh.main.outputs ∧
      core'.main.multisignatureOutputs = fresh.main.multisignatureOutputs ∧
      core'.alternativeChains = fresh.alternativeChains ∧
      core'.main.paymentIdIndex = fresh.main.paymentIdIndex ∧
      core'.main.timestampIndex = fresh.main.timestampIndex ∧
      core'.orthanBlocksIndex = fresh.orthanBlocksIndex) := by
  obtain ⟨hprev, hpush⟩ := resetAndSetGenesisBlock_eq_true h
  obtain ⟨txs, loaded, main, hload, hmain, rfl⟩ := pushBlock_added hpush
  obtain ⟨hloaded, hload'⟩ :=
    @Core.takeTransactions_of_mempool net now core.clear loaded txs (new core.mempool)
      [] _ rfl hload
  constructor
  · rintro result fresh hfresh ⟨hblocks, hdeposits⟩
    obtain ⟨hsupplied, genesis, hretains⟩ := genesis_stays hrun
    obtain ⟨block, hwritten⟩ := pushBlock_written hmain
    have hsize : main.depositIndex.size = core.main.blocks.length + 1 := by
      rw [hwritten.depositIndex, hloaded, ← hsupplied.main]
      rfl
    have hone : main.blocks.length = 1 := by
      rw [hwritten.appended.blocks, hloaded]
      rfl
    -- the index of a new node counts its own blocks
    have hempty : Core.empty.Supplied net anySupply fun main =>
        main.depositIndex.size = main.blocks.length := Supplied.empty rfl
    have hnew : (new core.mempool).Supplied net anySupply fun main =>
        main.depositIndex.size = main.blocks.length := hempty.setPool hsupplied.pool
    have hkept := (addNewBlock_keeps (depositCount_invariant net) Retains.callFrame
      (fun _ h _ _ => ⟨h.insertAlternative trivial, fun _ _ => Nat.zero_le _⟩) fuel
      ⟨hnew, Supplied.retains_nothing _⟩ fun _ => trivial).of_done hfresh
    have hcounted := hkept.1.main
    have hheld := hretains.blocks.length_le
    rw [← hdeposits, ← hblocks] at hcounted
    change main.depositIndex.size = main.blocks.length at hcounted
    rw [hsize, hone] at hcounted
    rw [List.length_singleton] at hheld
    omega
  · intro hmultisignature
    -- what is left of the old main chain are its totals
    have hstart : loaded.main = withTotals core.main.depositIndex
        core.main.generatedTransactionsIndex.clear core.main.votingCompleteHeight empty := by
      rw [hloaded]
      dsimp only [clear]
      rw [hmultisignature]
      rfl
    rw [hstart] at hmain
    have hheight : getBlockHeight b = 0 := by
      obtain ⟨block, hwritten⟩ := pushBlock_written hmain
      exact hwritten.header.getBlockHeight_eq
    have hver (voting : MainChain) : voting.checkBlockVersion net.cur b =
        (b.majorVersion == 1) := by
      rw [checkBlockVersion, getBlockMajorVersionForHeight, hheight, if_neg (Nat.not_lt_zero _)]
    obtain ⟨plain, change, interest, voting, hplain, hmain', -, -⟩ :=
      pushBlock_withTotals ((hver _).trans (hver _).symm) hmain
    have hpush' := pushBlock_eq_added hload' hplain
    refine ⟨_, ((addNewBlock_of_no_blocks rfl rfl rfl).mpr ⟨hprev, hpush', rfl, rfl⟩).1, ?_⟩
    rw [hmain', hloaded]
    exact ⟨rfl, rfl, rfl, rfl, rfl, rfl, rfl, rfl, rfl, rfl⟩

/-- Another genesis block for the main network. -/
def otherGenesisBlock : Block := { Currency.mainnet.genesisBlock with nonce := 99 }

theorem reset_never_eq_new_other :
    ∃ core' fresh, resetAndSetGenesisBlock numberedNetwork 0 1 otherGenesisBlock
        (onGenesis numberedNetwork) = .done true core' ∧
      addNewBlock numberedNetwork 0 1 otherGenesisBlock (new TxMemoryPool.empty) =
        .done (true, { addedToMainChain := true }) fresh ∧
      core'.main.blocks = fresh.main.blocks ∧ core'.main.depositIndex ≠
      fresh.main.depositIndex := by
  have hreset : resetAndSetGenesisBlock numberedNetwork 0 1 otherGenesisBlock
      (.onGenesis numberedNetwork) = .done true _ :=
    @eq_done_of_value? _ _ _ .empty _ (by decide +kernel)
  have hrun : Run numberedNetwork (fun _ _ _ _ => True) 0 (.onGenesis numberedNetwork) :=
    .start onGenesis_initial
  obtain ⟨hnever, hothers⟩ := reset_never_eq_new hrun hreset
  obtain ⟨fresh, hfresh, hblocks, -⟩ := hothers rfl
  exact ⟨_, fresh, hreset, hfresh, hblocks, fun hdeposits =>
    hnever _ fresh hfresh ⟨hblocks, hdeposits⟩⟩

/-- A reset leaves a multisignature output of a block that is gone, a deposit index of three blocks
and a total of three transactions. -/
theorem reset_keeps_old_totals :
    ∃ core core' fresh, Run numberedNetwork (fun _ _ _ _ => True) 0 core ∧
      resetAndSetGenesisBlock numberedNetwork 0 1 otherGenesisBlock core = .done true core' ∧
      addNewBlock numberedNetwork 0 1 otherGenesisBlock (new core.mempool) =
        .done (true, { addedToMainChain := true }) fresh ∧
      core'.main.multisignatureOutputs.row 5 = [⟨⟨1, 0⟩, 0, false⟩] ∧
      fresh.main.multisignatureOutputs.row 5 = [] ∧
      core'.main.depositIndex.size = 3 ∧ fresh.main.depositIndex.size = 1 ∧
      core'.main.generatedTransactionsIndex = ⟨[3], 3⟩ ∧
      fresh.main.generatedTransactionsIndex = ⟨[1], 1⟩ := by
  have hrun : Run numberedNetwork (fun _ _ _ _ => True) 0
      (perform numberedNetwork 0 (.addNewBlock sharedOutputBlock) (onGenesis numberedNetwork)) :=
    .step (.start onGenesis_initial) trivial (Core.step_perform (by decide +kernel))
  refine ⟨_, _, _, hrun, @eq_done_of_value? _ _ _ Core.empty _ ?_,
    @eq_done_of_value? _ _ _ Core.empty _ ?_, ?_⟩
  all_goals decide +kernel

end DarknetCoin
