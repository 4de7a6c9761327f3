import DarknetCoin.Theorems.Verdicts

/-!
# The keys the hash tables reserve

The hash tables reserve the amount zero and the key image zero; entering either is undefined.
`check_outs_valid` rejects the amount zero for key outputs only, and nothing looks at a key image.
-/

namespace DarknetCoin

open Semantics MainChain DarknetCoin.Core Program List

/-- A call of `pushTransaction`: the transaction and its hash, and the main chain it is made on. -/
structure PushCall where
  tx : Transaction
  hash : Hash
  main : MainChain

namespace MainChain

/-- The calls of the transaction loop of `pushBlock`. -/
def pushTransactionsCalls (cur : Currency) (crypto : Crypto) (now : Nat) (block : BlockEntry)
    (index : TransactionIndex) : List (Transaction × Hash) → MainChain → Set PushCall
  | [], _ => ∅
  | (tx, txId) :: rest, main =>
    let index := { index with transaction := (index.transaction + 1) % word16 }
    { call | checkBlockTransaction cur crypto now main block.bl.majorVersion tx = .ok true ∧
      (call = ⟨tx, txId, main⟩ ∨
        call ∈ Program.after (pushTransaction crypto (appendTransaction block tx) txId index)
          (fun pushed => pushTransactionsCalls cur crypto now pushed.2 index rest) main) }

/-- The calls of `pushBlock`. -/
def pushBlockCalls (cur : Currency) (crypto : Crypto) (now : Nat) (checkpoints : Checkpoints)
    (blockData : Block) (transactions : List Transaction) (main : MainChain) : Set PushCall :=
  let minerTransactionHash := crypto.getObjectHash blockData.baseTransaction
  let index : TransactionIndex := ⟨main.blocks.length, 0⟩
  { call | (∃ currentDifficulty, checkHeader cur crypto now checkpoints main blockData =
        .ok (.accept currentDifficulty)) ∧
    (call = ⟨blockData.baseTransaction, minerTransactionHash, main⟩ ∨ call ∈ Program.after
        (pushTransaction crypto (newBlockEntry blockData) minerTransactionHash index)
        (fun pushed => pushTransactionsCalls cur crypto now pushed.2 index
          (transactions.zip blockData.transactionHashes)) main) }

end MainChain

namespace Core

variable (net : Network) (now : Nat)

/-- The calls of `pushBlock`, once the transactions were found. -/
def pushBlockCalls (blockData : Block) : Core → Set PushCall :=
  Program.after (loadTransactions net now blockData) fun found core =>
    { call | ∃ transactions, found = some transactions ∧
      call ∈ MainChain.pushBlockCalls net.cur net.crypto now net.checkpoints blockData
        transactions core.main }

/-- The calls of `rollback_blockchain_switching`. -/
def rollbackCalls (originalChain : List Block) (rollbackHeight : Nat) (core : Core) :
    Set PushCall :=
  Program.after (popBlocks net now (core.main.blocks.length - rollbackHeight) [])
    (fun _ => afterEach (tryPushBlock net now) (pushBlockCalls net now) originalChain) core

/-- The calls made while alternative blocks are pushed. -/
def connectCalls (altChain : List AlternativeBlock) : Core → Set PushCall :=
  afterEach (fun entry => tryPushBlock net now entry.2.bl)
    (fun entry => pushBlockCalls net now entry.2.bl) altChain

/-- The calls made while the disconnected blocks become alternative blocks. -/
def readdCalls (handle : Block → Program Core Bool) (handleCalls : Block → Core → Set PushCall)
    (discardDisconnectedChain : Bool) (disconnectedChain : List Block) (core : Core) :
    Set PushCall :=
  if discardDisconnectedChain then ∅
  else afterEach handle handleCalls disconnectedChain core

/-- The calls of a switch after the blocks above the fork were popped. -/
def reconnectCalls (handle : Block → Program Core Bool) (handleCalls : Block → Core → Set PushCall)
    (altChain : List AlternativeBlock) (splitHeight : Nat) (discardDisconnectedChain : Bool)
    (disconnectedChain : List Block) (core : Core) : Set PushCall :=
  connectCalls net now altChain core ∪
    Program.after (connectAlternatives net now altChain) (fun failed core =>
      if failed ≠ [] then rollbackCalls net now disconnectedChain splitHeight core
      else
        readdCalls handle handleCalls discardDisconnectedChain disconnectedChain core ∪
          Program.after (readdDisconnected handle discardDisconnectedChain disconnectedChain)
            (fun kept core => if kept then ∅
              else rollbackCalls net now disconnectedChain splitHeight core) core) core

/-- The calls of `switch_to_alternative_blockchain`. -/
def switchCalls (handle : Block → Program Core Bool) (handleCalls : Block → Core → Set PushCall)
    (altChain : List AlternativeBlock) (discardDisconnectedChain : Bool) (core : Core) :
    Set PushCall :=
  match altChain with
  | [] => ∅
  | front :: _ =>
    let splitHeight := front.2.height
    if core.main.blocks.length ≤ splitHeight then ∅
    else
      Program.after (popBlocks net now (core.main.blocks.length - splitHeight) [])
        (reconnectCalls net now handle handleCalls altChain splitHeight discardDisconnectedChain)
        core

/-- The calls of `handle_alternative_block`. -/
def handleAlternativeCalls : Nat → Block → Hash → Core → Set PushCall
  | 0, _, _, _ => ∅
  | fuel + 1, b, id, core =>
    match core.checkAlternativeBlock net b id with
    | .ok (.accept bei altChain isACheckpoint) =>
      let core := insertAlternative net id bei core
      if isACheckpoint || core.main.cumulativeDifficulty < bei.cumulativeDifficulty then
        switchCalls net now (fun old => do
            let (kept, _) ← handleAlternativeBlock net now fuel old (net.crypto.getBlockHash old)
            pure kept)
          (fun old => handleAlternativeCalls fuel old (net.crypto.getBlockHash old))
          (altChain ++ [(id, bei)]) isACheckpoint core
      else ∅
    | _ => ∅

/-- The calls of `addNewBlock`. -/
def addNewBlockCalls (fuel : Nat) (bl : Block) (core : Core) : Set PushCall :=
  let id := net.crypto.getBlockHash bl
  if core.haveBlock id then ∅
  else if bl.previousBlockHash ≠ core.main.getTailId then
    handleAlternativeCalls net now fuel bl id core
  else pushBlockCalls net now bl core

end Core

/-- The call enters no reserved key: no output has the amount zero, no key image is zero, and the
inputs that are marked as used name rows that exist. -/
structure PushCall.SparesSentinels (call : PushCall) : Prop where
  amounts : ∀ out ∈ call.tx.outputs, out.amount ≠ 0
  keyImages : 0 ∉ call.tx.keyImages
  references : ∀ reference ∈ call.tx.multisignatureReferences, call.main.HasOutput reference

/-- A block that gets written has no multisignature output of amount zero in its miner transaction,
and a transaction whose outputs pass the checks has none either and does not use the key image
zero. -/
def SentinelFree (net : Network) (_clock now : Nat) (core : Core) : Call → Prop
  | .addNewBlock bl => core.Stores net now bl → NoZeroMultisignature bl.baseTransaction
  | .handleIncomingTransaction tx _ => checkTxSemantic net.cur net.crypto tx = .ok true →
    checkTxOutputs net.cur tx = true → NoZeroMultisignature tx ∧ 0 ∉ tx.keyImages
  | .onIdle => True
  | .getBlockTemplate => True

/-- The blocks and transactions of calls that meet the condition. -/
def sentinelSupply (net : Network) : Supply where
  Good b := NoZeroMultisignature b.baseTransaction
  Tx tx := checkTxSemantic net.cur net.crypto tx = .ok true ∧
    (checkTxOutputs net.cur tx = true → NoZeroMultisignature tx ∧ 0 ∉ tx.keyImages)
  semantic _ h := semanticallyValid_of_checkTxSemantic h.1

section Checks

variable {crypto : Crypto}

theorem amount_ne_zero_of_checkOutsValidFrom {hasError : Bool} {version : Nat}
    {outs : List TransactionOutput} (h : checkOutsValidFrom crypto hasError version outs = .ok true)
    (hzero : ∀ out ∈ outs, out.isZeroMultisignature = false) : ∀ out ∈ outs, out.amount ≠ 0 := by
  induction outs with
  | nil => exact forall_mem_nil _
  | cons out outs ih =>
    obtain ⟨hzeroHead, hzeroTail⟩ := forall_mem_cons.mp hzero
    unfold checkOutsValidFrom at h
    unfold TransactionOutput.isZeroMultisignature at hzeroHead
    split at h
    · split at h
      · cases h
      rename_i hamt
      split at h
      · cases h
      exact forall_mem_cons.mpr ⟨hamt, ih h hzeroTail⟩
    · rename_i target htarget
      rw [htarget] at hzeroHead
      split at h
      · split at h <;> cases h
      split at h
      · cases h
      split at h
      · cases h
      exact forall_mem_cons.mpr ⟨by simpa using hzeroHead, ih h hzeroTail⟩

end Checks

namespace MainChain

variable {net : Network} {now : Nat} {main : MainChain} {tx : Transaction} {hash : Hash}

theorem spares_of_checkBlockTransaction {majorVersion : Nat} (htx : (sentinelSupply net).Tx tx)
    (h : checkBlockTransaction net.cur net.crypto now main majorVersion tx = .ok true) :
    (PushCall.mk tx hash main).SparesSentinels := by
  obtain ⟨hsem, hfree⟩ := htx
  obtain ⟨⟨height, hinputs⟩, -, houts⟩ := checkBlockTransaction_eq_true.mp h
  obtain ⟨hzero, himages⟩ := hfree houts
  exact ⟨amount_ne_zero_of_checkOutsValidFrom (checkTxSemantic_inv hsem).2.1 hzero,
    himages, hasOutput_of_checkInputs hinputs⟩

theorem spares_of_checkHeader {b : Block} {currentDifficulty : Nat}
    (hzero : NoZeroMultisignature b.baseTransaction)
    (h : checkHeader net.cur net.crypto now net.checkpoints main b =
      .ok (.accept currentDifficulty)) :
    (PushCall.mk b.baseTransaction hash main).SparesSentinels := by
  have hminer := (checkHeader_eq_accept.mp h).miner
  have hinputs := inputs_of_prevalidateMinerTransaction hminer
  constructor
  · exact amount_ne_zero_of_checkOutsValidFrom (prevalidateMinerTransaction_inv hminer).2.1 hzero
  · simp [Transaction.keyImages, hinputs]
  · simp [Transaction.multisignatureReferences, hinputs]

theorem pushTransactionsCalls_spare {block : BlockEntry} {index : TransactionIndex}
    {pairs : List (Transaction × Hash)} (htx : ∀ pair ∈ pairs, (sentinelSupply net).Tx pair.1) :
    pushTransactionsCalls net.cur net.crypto now block index pairs main ⊆
    { call | call.SparesSentinels } := by
  induction pairs generalizing main block index with
  | nil => exact Set.empty_subset _
  | cons pair pairs ih =>
    obtain ⟨htxHead, htxTail⟩ := forall_mem_cons.mp htx
    rintro call ⟨hcheck, rfl | ⟨pushed, main', -, hcall⟩⟩
    · exact spares_of_checkBlockTransaction htxHead hcheck
    · exact ih htxTail hcall

theorem pushBlockCalls_spare {b : Block} {txs : List Transaction}
    (hgood : (sentinelSupply net).Good b) (htxs : ∀ tx ∈ txs, (sentinelSupply net).Tx tx) :
    pushBlockCalls net.cur net.crypto now net.checkpoints b txs main ⊆
    { call | call.SparesSentinels } := by
  rintro call ⟨⟨currentDifficulty, hcheck⟩, rfl | ⟨pushed, main', -, hcall⟩⟩
  · exact spares_of_checkHeader hgood hcheck
  · apply pushTransactionsCalls_spare _ hcall
    exact fun pair hpair => htxs pair.1 (of_mem_zip hpair).1

end MainChain

namespace Core.Supplied

variable {net : Network} {now : Nat} {core : Core} {M : MainChain → Prop}

theorem pushBlockCalls_spare {b : Block} (h : core.Supplied net (sentinelSupply net) M)
    (hgood : (∃ difficulty, checkHeader net.cur net.crypto now net.checkpoints core.main b =
      .ok (.accept difficulty)) → (sentinelSupply net).Good b) :
    pushBlockCalls net now b core ⊆ { call | call.SparesSentinels } := by
  apply after_subset (h.loadTransactions b)
  rintro found loaded ⟨hloaded, hmain, hfound⟩ call ⟨txs, rfl, hcall⟩
  have hheader := hcall.1
  rw [hmain] at hheader
  exact MainChain.pushBlockCalls_spare (hgood hheader) (hfound txs rfl).1 hcall

section

variable (hM : MainInvariant net (sentinelSupply net) M)
  (h : core.Supplied net (sentinelSupply net) M)

include hM h

theorem rollbackCalls_spare {originalChain : List Block}
    (hgood : ∀ b ∈ originalChain, (sentinelSupply net).Good b) (rollbackHeight : Nat) :
    rollbackCalls net now originalChain rollbackHeight core ⊆ { call | call.SparesSentinels } := by
  apply after_subset (h.popBlocks hM _ (forall_mem_nil _))
  rintro _ popped ⟨hpopped, -⟩
  apply afterEach_subset (fun b hb => tryPushBlock hM (hgood b hb)) _ hpopped
  exact fun b hb state hstate => hstate.pushBlockCalls_spare fun _ => hgood b hb

theorem connectCalls_spare {altChain : List AlternativeBlock}
    (hgood : ∀ entry ∈ altChain, (sentinelSupply net).Good entry.2.bl) :
    connectCalls net now altChain core ⊆ { call | call.SparesSentinels } := by
  apply afterEach_subset (fun entry hentry => tryPushBlock hM (hgood entry hentry)) _ h
  exact fun entry hentry state hstate => hstate.pushBlockCalls_spare fun _ => hgood entry hentry

end

section Switch

variable {handle : Block → Program Core Bool} {handleCalls : Block → Core → Set PushCall}
  {altChain : List AlternativeBlock} (hM : MainInvariant net (sentinelSupply net) M)
  (hhandle : ∀ b, (sentinelSupply net).Good b →
    (handle b).Keeps (Supplied net (sentinelSupply net) M))
  (hcalls : ∀ b, (sentinelSupply net).Good b → ∀ core, core.Supplied net (sentinelSupply net) M →
    handleCalls b core ⊆ { call | call.SparesSentinels })
  (hgood : ∀ entry ∈ altChain, (sentinelSupply net).Good entry.2.bl)

include hM hhandle hcalls hgood

variable (h : core.Supplied net (sentinelSupply net) M)
include h

theorem reconnectCalls_spare {disconnected : List Block}
    (hdisc : ∀ b ∈ disconnected, (sentinelSupply net).Good b) (splitHeight : Nat) (discard : Bool) :
    reconnectCalls net now handle handleCalls altChain splitHeight discard disconnected core ⊆
      { call | call.SparesSentinels } := by
  apply Set.union_subset (h.connectCalls_spare hM hgood)
  apply after_subset (connectAlternatives hM hgood core h)
  intro failed connected hconn
  split
  · exact hconn.rollbackCalls_spare hM hdisc splitHeight
  -- the alternative chain is in place: the old blocks are stored, or everything is undone
  have hreadd : (readdDisconnected handle discard disconnected).Keeps
      (Supplied net (sentinelSupply net) M) :=
    .ite (fun _ => .pure true) fun _ =>
      .forAllM fun b hb => hhandle b (hdisc b hb)
  apply Set.union_subset
  · unfold readdCalls
    split
    · exact Set.empty_subset _
    · exact afterEach_subset (fun b hb => hhandle b (hdisc b hb))
        (fun b hb => hcalls b (hdisc b hb)) hconn
  · apply after_subset (hreadd connected hconn)
    intro kept readded hreadded
    split
    · exact Set.empty_subset _
    · exact hreadded.rollbackCalls_spare hM hdisc splitHeight

theorem switchCalls_spare (discard : Bool) :
    switchCalls net now handle handleCalls altChain discard core ⊆
      { call | call.SparesSentinels } := by
  unfold switchCalls
  cases altChain with
  | nil => exact Set.empty_subset _
  | cons front rest =>
    dsimp only
    split
    · exact Set.empty_subset _
    · apply after_subset (h.popBlocks hM _ (forall_mem_nil _))
      rintro disconnected popped ⟨hpopped, hdisc⟩
      exact hpopped.reconnectCalls_spare hM hhandle hcalls hgood hdisc _ discard

end Switch

section

variable (hM : MainInvariant net (sentinelSupply net) M) (fuel : Nat)
  (h : core.Supplied net (sentinelSupply net) M)

include hM fuel h

theorem handleAlternativeCalls_spare {b : Block} {id : Hash}
    (hgood : (∃ bei altChain isACheckpoint, core.checkAlternativeBlock net b id =
      .ok (.accept bei altChain isACheckpoint)) → (sentinelSupply net).Good b) :
    handleAlternativeCalls net now fuel b id core ⊆ { call | call.SparesSentinels } := by
  induction fuel generalizing core b id with
  | zero => exact Set.empty_subset _
  | succ fuel ih =>
    unfold handleAlternativeCalls
    split
    · rename_i bei altChain isACheckpoint hcheck
      obtain ⟨hinserted, hchain⟩ := h.accepted (hgood ⟨bei, altChain, isACheckpoint, hcheck⟩) hcheck
      dsimp only
      split
      · apply hinserted.switchCalls_spare hM _ _ hchain isACheckpoint
        · intro old hold
          exact .bind (fun core' h' => h'.handleAlternativeBlock hM fuel hold)
            fun _ => .pure _
        · exact fun old hold core' h' => ih h' fun _ => hold
      · exact Set.empty_subset _
    · exact Set.empty_subset _

theorem addNewBlockCalls_spare {bl : Block}
    (hadmits : core.Stores net now bl → (sentinelSupply net).Good bl) :
    addNewBlockCalls net now fuel bl core ⊆ { call | call.SparesSentinels } := by
  unfold addNewBlockCalls
  unfold Stores at hadmits
  dsimp only
  split
  · exact Set.empty_subset _
  split
  · rename_i hprevious
    rw [if_neg hprevious] at hadmits
    exact h.handleAlternativeCalls_spare hM fuel hadmits
  · rename_i hprevious
    rw [if_pos (not_not.mp hprevious)] at hadmits
    exact h.pushBlockCalls_spare hadmits

end

end Core.Supplied

namespace Core

variable {net : Network} {now : Nat} {core loaded : Core} {bl : Block} {txs : List Transaction}
  {currentDifficulty : Nat}
  (hfresh : core.haveBlock (net.crypto.getBlockHash bl) = false)
  (hprevious : bl.previousBlockHash = core.main.getTailId)
  (hload : loadTransactions net now bl core = .done (some txs) loaded)
  (hheader : checkHeader net.cur net.crypto now net.checkpoints loaded.main bl =
    .ok (.accept currentDifficulty))

include hfresh hprevious hload hheader

/-- A block that extends the main chain hands over its miner transaction. -/
theorem miner_mem_addNewBlockCalls (fuel : Nat) :
    ⟨bl.baseTransaction, net.crypto.getObjectHash bl.baseTransaction, loaded.main⟩ ∈
      addNewBlockCalls net now fuel bl core := by
  rw [addNewBlockCalls, hfresh, if_neg (not_not.mpr hprevious)]
  exact ⟨some txs, loaded, hload, txs, rfl, ⟨currentDifficulty, hheader⟩, .inl rfl⟩

/-- And then its first transaction, if it passes the checks. -/
theorem first_mem_addNewBlockCalls {tx : Transaction} {txId : Hash}
    {rest : List (Transaction × Hash)} {pushed : Bool × BlockEntry} {main : MainChain}
    (hminer : pushTransaction net.crypto (newBlockEntry bl)
      (net.crypto.getObjectHash bl.baseTransaction) ⟨loaded.main.blocks.length, 0⟩ loaded.main =
      .done pushed main) (hfirst : txs.zip bl.transactionHashes = (tx, txId) :: rest)
    (hcheck : checkBlockTransaction net.cur net.crypto now main pushed.2.bl.majorVersion tx =
      .ok true) (fuel : Nat) : ⟨tx, txId, main⟩ ∈ addNewBlockCalls net now fuel bl core := by
  rw [addNewBlockCalls, hfresh, if_neg (not_not.mpr hprevious)]
  refine ⟨some txs, loaded, hload, txs, rfl, ⟨currentDifficulty, hheader⟩, .inr ?_⟩
  refine ⟨_, _, hminer, ?_⟩
  rw [hfirst]
  exact ⟨hcheck, .inl rfl⟩

end Core

theorem mainInvariant_true {net : Network} {supply : Supply} :
    MainInvariant net supply fun _ => True where
  push _ _ _ _ _ _ _ _ := Outcome.holds_true
  pop _ _ _ _ := Outcome.holds_true

/-- Submitting a block, in any state of a run, enters no reserved key. -/
theorem sentinels_spared_of_run {net : Network} {clock now : Nat} {core : Core} {bl : Block}
    (hgenesis : NoZeroMultisignature net.cur.genesisBlock.baseTransaction)
    (hrun : Run net (SentinelFree net) clock core)
    (hok : SentinelFree net clock now core (.addNewBlock bl)) (fuel : Nat) :
    ∀ call ∈ addNewBlockCalls net now fuel bl core, call.SparesSentinels := by
  have hsupplied : core.Supplied net (sentinelSupply net) fun _ => True :=
    .of_run mainInvariant_true trivial (fun _ => hgenesis) hrun id
      fun hok hsem => ⟨hsem, hok hsem⟩
  exact hsupplied.addNewBlockCalls_spare mainInvariant_true fuel hok

theorem sentinels_spared_of_run_sharedOutputBlock :
    ∃ call ∈ addNewBlockCalls numberedNetwork 1000 0 sharedOutputBlock (onGenesis numberedNetwork),
      call.tx = sharedOutputBlock.baseTransaction ∧ call.SparesSentinels := by
  have hheader : checkHeader numberedNetwork.cur numberedNetwork.crypto 1000
      numberedNetwork.checkpoints (onGenesis numberedNetwork).main sharedOutputBlock =
        .ok (.accept 1) := by decide +kernel
  have hcall := miner_mem_addNewBlockCalls (by decide +kernel) (by decide +kernel) rfl hheader 0
  refine ⟨_, hcall, rfl, sentinels_spared_of_run (by decide)
    (.start onGenesis_initial) ?_ 0 _ hcall⟩
  exact fun _ => by decide

/-- A block whose miner transaction has a multisignature output of amount zero that anyone may
spend. -/
def zeroAmountBlock : Block := numberedBlock 1 420 1 [⟨0, .multisignature ⟨[], 0, 0⟩⟩] []

/-- A transaction that spends the output of the genesis block with the key image zero. -/
def zeroImageSpender : Transaction := { genesisSpender with inputs := [.key ⟨100000000, [0], 0⟩] }

/-- The node that knows the transaction. -/
def zeroImageNode : Core :=
  Core.perform openNetwork 0 (.handleIncomingTransaction zeroImageSpender true)
    (onGenesis openNetwork)

/-- The node that has taken the transaction out of its pool to push the block with it. -/
def zeroImageLoaded : Core :=
  (loadTransactions openNetwork 1000 genesisSpendingBlock zeroImageNode).stateD zeroImageNode

/-- Entering the miner transaction of the block. -/
def zeroImageMiner : Outcome MainChain (Bool × BlockEntry) :=
  pushTransaction openNetwork.crypto (newBlockEntry genesisSpendingBlock)
    (openNetwork.crypto.getObjectHash genesisSpendingBlock.baseTransaction)
    ⟨zeroImageLoaded.main.blocks.length, 0⟩ zeroImageLoaded.main

/-- A miner transaction enters the amount zero, and a transaction the key image zero. -/
theorem sentinels_entered :
    (∃ clock core, Run numberedNetwork (fun _ _ _ _ => True) clock core ∧
      ∃ call ∈ addNewBlockCalls numberedNetwork 1000 0 zeroAmountBlock core,
        call.main.Enterable call.hash call.tx ∧ ∃ out ∈ call.tx.outputs, out.amount = 0) ∧
    (∃ clock core, Run openNetwork (fun _ _ _ _ => True) clock core ∧
      ∃ call ∈ addNewBlockCalls openNetwork 1000 0 genesisSpendingBlock core,
        call.main.Enterable call.hash call.tx ∧ 0 ∈ call.tx.keyImages) := by
  constructor
  · have hheader : checkHeader numberedNetwork.cur numberedNetwork.crypto 1000
        numberedNetwork.checkpoints (onGenesis numberedNetwork).main zeroAmountBlock =
          .ok (.accept 1) := by decide +kernel
    have hcall := miner_mem_addNewBlockCalls (by decide +kernel) (by decide +kernel) rfl hheader 0
    refine ⟨0, _, .start onGenesis_initial, _, hcall, ?_, _, mem_cons_self, rfl⟩
    exact enterable_of_isMiner ⟨_, rfl⟩ (by decide +kernel)
  · have hload : loadTransactions openNetwork 1000 genesisSpendingBlock zeroImageNode =
        .done (some [zeroImageSpender]) zeroImageLoaded :=
      Outcome.eq_done_of_value? (by decide +kernel)
    have hheader : checkHeader openNetwork.cur openNetwork.crypto 1000
        openNetwork.checkpoints zeroImageLoaded.main genesisSpendingBlock = .ok (.accept 1) := by
      decide +kernel
    have hvalue : zeroImageMiner.value? = some (true, setGlobalOutputIndexes
        (newBlockEntry genesisSpendingBlock) 0 [0]) := by decide +kernel
    have hminer := Outcome.eq_done_of_value? hvalue (s := MainChain.empty)
    have hcheck : checkBlockTransaction openNetwork.cur openNetwork.crypto 1000
        (zeroImageMiner.stateD empty) 2 zeroImageSpender = .ok true := by decide +kernel
    have hcall := first_mem_addNewBlockCalls (by decide +kernel) (by decide +kernel) hload
      hheader hminer rfl hcheck 0
    have hrun : Run openNetwork (fun _ _ _ _ => True) 0 zeroImageNode :=
      .step (.start (onGenesis_initial_of (by decide +kernel))) trivial
        (step_perform (by decide +kernel))
    have hunspent : (zeroImageMiner.stateD empty).spentKeys 0 = false := by decide +kernel
    refine ⟨0, _, hrun, _, hcall, ⟨by decide +kernel, by decide, by decide, ?_, ?_⟩, mem_cons_self⟩
    · intro image himage
      exact hunspent
    · exact forall_mem_nil _

end DarknetCoin
