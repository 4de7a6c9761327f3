import DarknetCoin.Model.Storage

/-!
# The node: main chain, alternative chains and pool together

The functions of `Blockchain.cpp` that move transactions between the pool and the chain, keep
alternative blocks, and switch to an alternative chain that has more work; and the entry points of
`Core.cpp` that reach them. A call of an entry point reads the clock once here.
`handle_alternative_block` and `switch_to_alternative_blockchain` call each other; a run of the node
is one for some amount of fuel.
-/

namespace DarknetCoin

open Semantics Program

/-- What every call of a node depends on besides its state and the clock. -/
structure Network where
  cur : Currency
  crypto : Crypto
  checkpoints : Checkpoints

/-- `block_verification_context`. -/
structure BlockVerificationContext where
  addedToMainChain : Bool := false
  verifivationFailed : Bool := false
  markedAsOrphaned : Bool := false
  alreadyExists : Bool := false
  switchedToAltChain : Bool := false
  deriving DecidableEq, Repr

/-- An entry of `m_alternative_chains`. -/
abbrev AlternativeBlock := Hash × BlockEntry

/-- The state of a node. -/
structure Core where
  main : MainChain
  /-- `m_alternative_chains`; no identifier occurs twice. -/
  alternativeChains : List AlternativeBlock
  /-- `m_orthanBlocksIndex`: the alternative blocks by the height in their miner transaction. -/
  orthanBlocksIndex : Multiset (Nat × Hash)
  currentBlockCumulSzLimit : Nat
  mempool : TxMemoryPool

namespace Core

def empty : Core where
  main := MainChain.empty
  alternativeChains := []
  orthanBlocksIndex := 0
  currentBlockCumulSzLimit := 0
  mempool := TxMemoryPool.empty

variable (net : Network) (now : Nat)

def checkTransactionSize (core : Core) (blobSize : Nat) : Bool :=
  blobSize ≤ sub64 core.currentBlockCumulSzLimit net.cur.minerTxBlobReservedSize

/-- `checkTransactionInputs(tx, maxUsedBlock)`. -/
def checkTransactionInputs (core : Core) (tx : Transaction) : Except Fault (Bool × BlockInfo) :=
  match core.main.checkTransactionInputsInto net.cur net.crypto now tx BlockInfo.clear with
  | .error fault => .error fault
  | .ok (valid, maxUsedBlock) => .ok (valid && MainChain.checkTxOutputs net.cur tx, maxUsedBlock)

/-- The block storage as the validator the pool asks. -/
def validator (core : Core) : TransactionValidator where
  checkTransactionInputs := core.checkTransactionInputs net now
  recheckTransactionInputs := core.main.recheckTransactionInputs net.cur net.crypto now
  haveSpentKeyImages := core.main.haveTransactionKeyImagesAsSpent
  checkTransactionSize := core.checkTransactionSize net

/-- A program on the main chain. -/
def onMain {α : Type} (p : Program MainChain α) : Program Core α :=
  p.zoom Core.main fun main core => { core with main }

/-- A program on the pool, which may ask the block storage. -/
def onPool {α : Type} (p : TransactionValidator → Program TxMemoryPool α) : Program Core α := do
  let core ← get
  (p (core.validator net now)).zoom Core.mempool fun mempool core => { core with mempool }

/-! ### Transactions between pool and chain -/

/-- Return transactions to the pool, in the order given; one the pool refuses throws. -/
def saveInOrder : List Transaction → Program Core Unit
  | [] => pure ()
  | tx :: rest => do
    let (added, _) ← onPool net now fun validator =>
      TxMemoryPool.addTxHashed net.cur net.crypto validator now tx true
    if added then saveInOrder rest else throw

/-- `saveTransactions`: the last transaction first. -/
def saveTransactions (transactions : List Transaction) : Program Core Unit :=
  saveInOrder net now transactions.reverse

/-- The loop of `loadTransactions`; `taken` are the transactions taken so far, the last first. A
missing transaction returns them to the pool. -/
def takeTransactions (taken : List Transaction) : List Hash →
    Program Core (Option (List Transaction))
  | [] => pure (some taken.reverse)
  | id :: ids => do
    match ← onPool net now fun _ => modifyGet (TxMemoryPool.takeTx net.crypto id) with
    | some tx => takeTransactions (tx :: taken) ids
    | none => do
      saveInOrder net now taken
      pure none

/-- `loadTransactions`: the transactions of a block, or `none`. -/
def loadTransactions (blockData : Block) : Program Core (Option (List Transaction)) :=
  takeTransactions net now [] blockData.transactionHashes

/-- `update_next_comulative_size_limit`. -/
def updateNextComulativeSizeLimit (core : Core) : Core :=
  let median := medianValue (core.main.getLastNBlocksSizes net.cur.rewardBlocksWindow)
  { core with
    currentBlockCumulSzLimit := mul64 (max median net.cur.blockGrantedFullRewardZone) 2 }

/-- `pushBlock(blockData, bvc)`. -/
def pushBlock (blockData : Block) : Program Core MainChain.PushResult := do
  match ← loadTransactions net now blockData with
  | none => pure (.rejected true)
  | some transactions => do
    match ← onMain
        (MainChain.pushBlock net.cur net.crypto now net.checkpoints blockData transactions) with
    | .added => do
      modify (updateNextComulativeSizeLimit net)
      pure .added
    | .rejected failed => do
      saveTransactions net now transactions
      pure (.rejected failed)

/-- `popBlock`, on the identifier of the last block. -/
def popBlock : Program Core Unit := do
  let core ← get
  match core.main.blocks.getLast? with
  | none => pure ()
  | some block => do
    saveTransactions net now ((block.transactions.drop 1).map TransactionEntry.tx)
    onMain (MainChain.unlinkBlock net.crypto (net.crypto.getBlockHash block.bl))

/-! ### Switching chains -/

/-- Pop a number of blocks; returns them in chain order before `disconnected`. -/
def popBlocks : Nat → List Block → Program Core (List Block)
  | 0, disconnected => pure disconnected
  | count + 1, disconnected => do
    let core ← get
    match core.main.blocks.getLast? with
    | none => throw
    | some block => do
      popBlock net now
      popBlocks count (block.bl :: disconnected)

/-- Push a block and say whether it was added. -/
def tryPushBlock (blockData : Block) : Program Core Bool := do
  match ← pushBlock net now blockData with
  | .added => pure true
  | .rejected _ => pure false

/-- `rollback_blockchain_switching`. -/
def rollbackBlockchainSwitching (originalChain : List Block) (rollbackHeight : Nat) :
    Program Core Bool := do
  let core ← get
  let _ ← popBlocks net now (core.main.blocks.length - rollbackHeight) []
  forAllM (tryPushBlock net now) originalChain

/-- Push alternative blocks; returns the first that fails with its successors, or `[]`. -/
def connectAlternatives : List AlternativeBlock → Program Core (List AlternativeBlock)
  | [] => pure []
  | entry :: rest => do
    if ← tryPushBlock net now entry.2.bl then connectAlternatives rest
    else pure (entry :: rest)

/-- The key of an alternative block in the index of orphans. -/
def orthanKey (crypto : Crypto) (b : Block) : Nat × Hash :=
  (getBlockHeight b, crypto.getBlockHash b)

/-- Erase one alternative block. -/
def eraseAlternative (core : Core) (entry : AlternativeBlock) : Core :=
  { core with
    alternativeChains := core.alternativeChains.filter fun other => other.1 != entry.1
    orthanBlocksIndex := core.orthanBlocksIndex.erase (orthanKey net.crypto entry.2.bl) }

/-- Insert one alternative block. -/
def insertAlternative (id : Hash) (bei : BlockEntry) (core : Core) : Core :=
  { core with
    alternativeChains := core.alternativeChains ++ [(id, bei)]
    orthanBlocksIndex := orthanKey net.crypto bei.bl ::ₘ core.orthanBlocksIndex }

/-- The disconnected blocks become alternative blocks, unless they are discarded; `false` when one
is refused. -/
def readdDisconnected (handle : Block → Program Core Bool) (discardDisconnectedChain : Bool)
    (disconnectedChain : List Block) : Program Core Bool :=
  if discardDisconnectedChain then pure true else forAllM handle disconnectedChain

/-- `switch_to_alternative_blockchain`; `handle` stands for `handle_alternative_block`. -/
def switchToAlternativeBlockchain (handle : Block → Program Core Bool)
    (altChain : List AlternativeBlock) (discardDisconnectedChain : Bool) : Program Core Bool := do
  let core ← get
  match altChain with
  | [] => pure false
  | front :: _ =>
    let splitHeight := front.2.height
    if core.main.blocks.length ≤ splitHeight then pure false
    else do
      let disconnectedChain ← popBlocks net now (core.main.blocks.length - splitHeight) []
      match ← connectAlternatives net now altChain with
      | failed@(_ :: _) => do
        let _ ← rollbackBlockchainSwitching net now disconnectedChain splitHeight
        modify fun core => failed.foldl (eraseAlternative net) core
        pure false
      | [] => do
        let kept ← readdDisconnected handle discardDisconnectedChain disconnectedChain
        if kept then do
          modify fun core => altChain.foldl (eraseAlternative net) core
          pure true
        else do
          let _ ← rollbackBlockchainSwitching net now disconnectedChain splitHeight
          pure false

/-! ### Alternative blocks -/

/-- The entry of an alternative block. -/
def findAlternative (core : Core) (id : Hash) : Option BlockEntry :=
  core.alternativeChains.lookup id

/-- The chain of alternative blocks that ends in `id`, the first of them in front, put before
`altChain`. It does not end when the blocks form a cycle. -/
def alternativeChainTo (core : Core) : Nat → Hash → List AlternativeBlock →
    Except Fault (List AlternativeBlock)
  | steps, id, altChain =>
    match core.findAlternative id with
    | none => .ok altChain
    | some entry =>
      match steps with
      | 0 => .error .undefined
      | steps + 1 =>
        alternativeChainTo core steps entry.bl.previousBlockHash ((id, entry) :: altChain)

/-- `complete_timestamps_vector`. It stops above the genesis block unless it starts there. -/
def completeTimestampsVector (main : MainChain) (startTopHeight : Nat) (timestamps : List Nat) :
    List Nat :=
  if net.cur.timestampCheckWindow ≤ timestamps.length then timestamps
  else if main.blocks.length ≤ startTopHeight then timestamps
  else
    let needElements := net.cur.timestampCheckWindow - timestamps.length
    let stopOffset := startTopHeight - needElements
    let visited :=
      if startTopHeight = 0 then main.blocks.take 1
      else ((main.blocks.take (startTopHeight + 1)).drop (stopOffset + 1)).reverse
    timestamps ++ visited.map fun entry => entry.bl.timestamp

/-- `get_next_difficulty_for_alternative_chain`, for a block at `height` on top of `altChain`. -/
def getNextDifficultyForAlternativeChain (main : MainChain) (altChain : List AlternativeBlock)
    (height : Nat) : Nat :=
  let count := net.cur.difficultyBlocksCount
  let entries := altChain.map Prod.snd
  if altChain.length < count then
    let mainChainStopOffset := (entries.head?.map BlockEntry.height).getD height
    let mainChainCount := min (count - min count altChain.length) mainChainStopOffset
    let mainChainStartOffset := mainChainStopOffset - mainChainCount
    let mainChainStartOffset := if mainChainStartOffset = 0 then 1 else mainChainStartOffset
    let window := (main.blocks.take mainChainStopOffset).drop mainChainStartOffset ++ entries
    if count < window.length then 0
    else
      net.cur.nextDifficulty (window.map fun entry => entry.bl.timestamp)
        (window.map BlockEntry.cumulativeDifficulty)
  else
    let window := entries.drop (entries.length - min entries.length count)
    net.cur.nextDifficulty (window.map fun entry => entry.bl.timestamp)
      (window.map BlockEntry.cumulativeDifficulty)

/-- `getBlockCumulativeSize`: the miner transaction and the transactions that are known. -/
def getBlockCumulativeSize (core : Core) (b : Block) : Except Fault Nat :=
  b.transactionHashes.foldlM (fun size hash =>
    match core.main.transactionMap hash with
    | some index =>
      match core.main.transactionByIndex index with
      | .error fault => .error fault
      | .ok entry => .ok (size + getObjectBinarySize entry.tx)
    | none =>
      match core.mempool.find? hash with
      | some txd => .ok (size + getObjectBinarySize txd.tx)
      | none => .ok size) (getObjectBinarySize b.baseTransaction)

/-- What `handle_alternative_block` finds before it stores the block. -/
inductive AlternativeCheck
  | reject (failed : Bool)
  /-- Neither chain has the parent. -/
  | orphaned
  /-- The entry of the block, the alternative chain below it, and whether it is a checkpoint. -/
  | accept (bei : BlockEntry) (altChain : List AlternativeBlock) (isACheckpoint : Bool)
  deriving DecidableEq, Repr

/-- The place an alternative block is put on: the alternative chain below it, the timestamps to
compare with, and the height and the work of its parent. -/
structure AlternativeParent where
  altChain : List AlternativeBlock
  timestamps : List Nat
  height : Nat
  cumulativeDifficulty : Nat

/-- The first half of `handle_alternative_block` on a block whose parent is known: the alternative
chain must leave the main chain at the block it says. -/
def alternativeParent (core : Core) (b : Block) (mainPrevHeight : Option Nat) :
    Except Fault (Option AlternativeParent) :=
  match core.alternativeChainTo core.alternativeChains.length b.previousBlockHash [] with
  | .error fault => .error fault
  | .ok altChain =>
    match altChain.head?, altChain.getLast? with
    | some (_, front), some (_, prev) =>
      if core.main.blocks.length ≤ front.height then .ok none
      else
        match core.main.blocks[front.height - 1]? with
        | none => .error .exception
        | some fork =>
          if net.crypto.getBlockHash fork.bl ≠ front.bl.previousBlockHash then .ok none
          else
            let timestamps := altChain.reverse.map fun entry => entry.2.bl.timestamp
            .ok (some
              { altChain
                timestamps := completeTimestampsVector net core.main (front.height - 1) timestamps
                height := prev.height
                cumulativeDifficulty := prev.cumulativeDifficulty })
    | _, _ =>
      match mainPrevHeight with
      | none => .ok none
      | some height =>
        match core.main.blocks[height]? with
        | none => .error .exception
        | some entry =>
          .ok (some
            { altChain
              timestamps := completeTimestampsVector net core.main height []
              height
              cumulativeDifficulty := entry.cumulativeDifficulty })

/-- The entry of an alternative block on its parent. -/
def alternativeEntry (parent : AlternativeParent) (b : Block) (currentDiff : Nat) : BlockEntry where
  bl := b
  height := parent.height + 1
  blockCumulativeSize := 0
  cumulativeDifficulty := add64 parent.cumulativeDifficulty currentDiff
  alreadyGeneratedCoins := 0
  transactions := []

/-- The second half of `handle_alternative_block` up to the insertion. -/
def checkOnParent (core : Core) (b : Block) (id : Hash) (parent : AlternativeParent) :
    Except Fault AlternativeCheck :=
  let height := parent.height + 1
  let currentDiff := getNextDifficultyForAlternativeChain net core.main parent.altChain height
  if !MainChain.checkBlockTimestamp net.cur parent.timestamps b then .ok (.reject true)
  else if !net.checkpoints.checkBlock height id then .ok (.reject true)
  else if currentDiff = 0 then .ok (.reject false)
  else if !Currency.checkProofOfWork net.crypto b currentDiff then .ok (.reject true)
  else
    match MainChain.prevalidateMinerTransaction net.cur net.crypto b height with
    | .error fault => .error fault
    | .ok false => .ok (.reject true)
    | .ok true =>
      if (core.findAlternative id).isSome then .ok (.reject false)
      else
        .ok (.accept (alternativeEntry parent b currentDiff) parent.altChain
          (net.checkpoints.point? height).isSome)

/-- `handle_alternative_block` up to the insertion of the block. -/
def checkAlternativeBlock (core : Core) (b : Block) (id : Hash) : Except Fault AlternativeCheck :=
  let blockHeight := getBlockHeight b
  if blockHeight = 0 then .ok (.reject true)
  else if !net.checkpoints.isAlternativeBlockAllowed core.main.blocks.length blockHeight then
    .ok (.reject true)
  else if !core.main.checkBlockVersion net.cur b then .ok (.reject true)
  else
    match core.getBlockCumulativeSize b with
    | .error fault => .error fault
    | .ok cumulativeSize =>
      if !MainChain.checkCumulativeBlockSize net.cur cumulativeSize blockHeight then
        .ok (.reject true)
      else
        let mainPrevHeight := core.main.blockIndex.blockHeight? b.previousBlockHash
        if mainPrevHeight = none ∧ core.findAlternative b.previousBlockHash = none then
          .ok .orphaned
        else
          match core.alternativeParent net b mainPrevHeight with
          | .error fault => .error fault
          | .ok none => .ok (.reject false)
          | .ok (some parent) => core.checkOnParent net b id parent

/-- The result of a switch as `handle_alternative_block` reports it. -/
def switchResult (switched : Bool) : Bool × BlockVerificationContext :=
  if switched then (true, { addedToMainChain := true, switchedToAltChain := true })
  else (false, { verifivationFailed := true })

/-- `handle_alternative_block`. -/
def handleAlternativeBlock : Nat → Block → Hash → Program Core (Bool × BlockVerificationContext)
  | 0, _, _ => undefined
  | fuel + 1, b, id => do
    match ← read fun core => core.checkAlternativeBlock net b id with
    | .reject failed => pure (false, { verifivationFailed := failed })
    | .orphaned => pure (true, { markedAsOrphaned := true })
    | .accept bei altChain isACheckpoint => do
      modify (insertAlternative net id bei)
      let core ← get
      if isACheckpoint || core.main.cumulativeDifficulty < bei.cumulativeDifficulty then do
        let switched ← switchToAlternativeBlockchain net now
          (fun old => do
            let (kept, _) ← handleAlternativeBlock fuel old (net.crypto.getBlockHash old)
            pure kept)
          (altChain ++ [(id, bei)]) isACheckpoint
        pure (switchResult switched)
      else pure (true, {})

/-! ### Entry points -/

def haveBlock (core : Core) (id : Hash) : Bool :=
  core.main.blockIndex.hasBlock id || (core.findAlternative id).isSome

def addNewBlock (fuel : Nat) (bl : Block) : Program Core (Bool × BlockVerificationContext) := do
  let core ← get
  let id := net.crypto.getBlockHash bl
  if core.haveBlock id then pure (false, { alreadyExists := true })
  else if bl.previousBlockHash ≠ core.main.getTailId then
    handleAlternativeBlock net now fuel bl id
  else do
    match ← pushBlock net now bl with
    | .added => pure (true, { addedToMainChain := true })
    | .rejected failed => pure (false, { verifivationFailed := failed })

/-- What `resetAndSetGenesisBlock` clears: not the multisignature outputs, the deposit index, the
running total of the transactions and the upgrade detector. -/
def clear (core : Core) : Core :=
  { core with
    main := { core.main with
      blocks := []
      blockIndex := []
      transactionMap := fun _ => none
      spentKeys := fun _ => false
      outputs := Data.Table.empty
      paymentIdIndex := 0
      timestampIndex := 0
      generatedTransactionsIndex := core.main.generatedTransactionsIndex.clear }
    alternativeChains := []
    orthanBlocksIndex := 0 }

def resetAndSetGenesisBlock (fuel : Nat) (b : Block) : Program Core Bool := do
  modify clear
  let (_, bvc) ← addNewBlock net now fuel b
  pure (bvc.addedToMainChain && !bvc.verifivationFailed)

/-- `handleIncomingTransaction`, with the hash and the size of the transaction itself. -/
def handleIncomingTransaction (tx : Transaction) (keptByBlock : Bool) :
    Program Core (Bool × TxVerificationContext) := do
  let core ← get
  let txHash := net.crypto.getObjectHash tx
  let valid ← read fun _ => checkTxSemantic net.cur net.crypto tx
  if !valid then pure TxMemoryPool.rejected
  else if (core.main.transactionMap txHash).isSome then pure (true, {})
  else if core.mempool.haveTx txHash then pure (true, {})
  else
    onPool net now fun validator =>
      TxMemoryPool.addTxHashed net.cur net.crypto validator now tx keptByBlock

/-- `on_idle`. -/
def onIdle : Program Core Unit :=
  onPool net now fun _ =>
    modify (TxMemoryPool.removeExpiredTransactions net.cur net.crypto now)

/-- The part of `get_block_template` that fills the template from the pool. -/
def getBlockTemplate : Program Core TxMemoryPool.BlockTemplate := do
  let core ← get
  onPool net now fun validator =>
    TxMemoryPool.fillBlockTemplate net.cur validator (core.currentBlockCumulSzLimit / 2)
      (net.cur.maxBlockCumulativeSize core.main.blocks.length)

end Core

/-- The calls that change a node. -/
inductive Call
  | addNewBlock (bl : Block)
  | handleIncomingTransaction (tx : Transaction) (keptByBlock : Bool)
  | onIdle
  | getBlockTemplate

/-- A call, with its result forgotten. -/
def Call.run (net : Network) (now fuel : Nat) : Call → Program Core Unit
  | .addNewBlock bl => do
    let _ ← Core.addNewBlock net now fuel bl
    pure ()
  | .handleIncomingTransaction tx keptByBlock => do
    let _ ← Core.handleIncomingTransaction net now tx keptByBlock
    pure ()
  | .onIdle => Core.onIdle net now
  | .getBlockTemplate => do
    let _ ← Core.getBlockTemplate net now
    pure ()

namespace Core

/-- `core` is the state of a node that was started at `now` on an empty storage: the genesis block
was pushed. -/
def Initial (net : Network) (now : Nat) (core : Core) : Prop :=
  pushBlock net now net.cur.genesisBlock empty = .done .added core

/-- A call made at `now` can leave the state `core'`. -/
def Step (net : Network) (now : Nat) (core : Core) (call : Call) (core' : Core) : Prop :=
  ∃ fuel, (call.run net now fuel core).Leaves core'

/-- The state `core` is reached, with the last call at `clock`, by calls that all meet `Ok`, a
condition on the time of the call before, the time of the call, and the state it is made in. -/
inductive Run (net : Network) (Ok : Nat → Nat → Core → Call → Prop) : Nat → Core → Prop
  | start {now : Nat} {core : Core} (hinitial : Initial net now core) : Run net Ok now core
  | step {clock now : Nat} {core core' : Core} {call : Call} (hrun : Run net Ok clock core)
      (hok : Ok clock now core call) (hstep : Step net now core call core') : Run net Ok now core'

/-- A submitted block gets as far as being written: it extends the main chain and its header is
accepted, or it is accepted as an alternative block. -/
def Stores (net : Network) (now : Nat) (core : Core) (bl : Block) : Prop :=
  if bl.previousBlockHash = core.main.getTailId then
    ∃ difficulty, MainChain.checkHeader net.cur net.crypto now net.checkpoints core.main bl =
      .ok (.accept difficulty)
  else
    ∃ bei altChain isACheckpoint,
      core.checkAlternativeBlock net bl (net.crypto.getBlockHash bl) =
        .ok (.accept bei altChain isACheckpoint)

/-! ### Evaluation -/

/-- The state after a call that does not get stuck. -/
def perform (net : Network) (now : Nat) (call : Call) (core : Core) : Core :=
  (call.run net now 2 core).stateD core

theorem step_perform {net : Network} {now : Nat} {call : Call} {core : Core}
    (h : (call.run net now 2 core).isStuck = false) :
    Step net now core call (perform net now call core) :=
  ⟨2, Outcome.leaves_stateD h⟩

/-- The state after a list of calls with their times, `none` when one of them gets stuck. -/
def performAll (net : Network) : List (Nat × Call) → Core → Option Core
  | [], core => some core
  | (now, call) :: calls, core =>
    if (call.run net now 2 core).isStuck then none
    else performAll net calls (perform net now call core)

/-- What holds after evaluating a list of calls holds in a state that a run reaches. -/
theorem exists_run_of_performAll {net : Network} {Ok : Nat → Nat → Core → Call → Prop}
    {clock : Nat} {core : Core} (calls : List (Nat × Call)) (P : Core → Prop) [DecidablePred P]
    (hok : ∀ entry ∈ calls, ∀ clock core, Ok clock entry.1 core entry.2)
    (hrun : Run net Ok clock core)
    (h : (performAll net calls core).any (fun core' => decide (P core')) = true) :
    ∃ clock' core', Run net Ok clock' core' ∧ P core' := by
  induction calls generalizing clock core with
  | nil => exact ⟨clock, core, hrun, of_decide_eq_true h⟩
  | cons head calls ih =>
    obtain ⟨hfirst, hrest⟩ := List.forall_mem_cons.mp hok
    rw [performAll] at h
    split at h
    · cases h
    · rename_i hstuck
      exact ih hrest (.step hrun (hfirst clock core) (step_perform (by simpa using hstuck))) h

/-- The state of a node on the genesis block. -/
def onGenesis (net : Network) : Core :=
  (pushBlock net 0 net.cur.genesisBlock empty).stateD empty

theorem onGenesis_initial_of {net : Network}
    (h : (pushBlock net 0 net.cur.genesisBlock empty).value? = some .added) :
    Initial net 0 (onGenesis net) :=
  Outcome.eq_done_of_value? h

theorem exists_run_of_genesis (net : Network) (calls : List (Nat × Call)) (P : Core → Prop)
    [DecidablePred P] (hinitial : Initial net 0 (onGenesis net))
    (h : (performAll net calls (onGenesis net)).any (fun core => decide (P core)) = true) :
    ∃ clock core, Run net (fun _ _ _ _ => True) clock core ∧ P core :=
  exists_run_of_performAll calls P (fun _ _ _ _ => trivial) (.start hinitial) h

end Core

/-- The main network without checkpoints, over `Crypto.numbered`. -/
def numberedNetwork : Network := ⟨Currency.mainnet, Crypto.numbered, []⟩

/-- A miner transaction as the template of a block has it. -/
def minerTransaction (height : Nat) (number : UInt8) (outputs : List TransactionOutput) :
    Transaction where
  version := 2
  unlockTime := height + 30
  inputs := [.base ⟨height⟩]
  outputs
  extra := [number]
  signatures := [[]]

/-- A block of the main network with the identifier `1 + nonce`. -/
def numberedBlock (nonce previous height : Nat) (outputs : List TransactionOutput)
    (transactionHashes : List Hash) : Block where
  majorVersion := 2
  minorVersion := 0
  nonce
  timestamp := 1000 * height
  previousBlockHash := BitVec.ofNat 256 (1 + previous)
  baseTransaction := minerTransaction height (UInt8.ofNat nonce) outputs
  transactionHashes

theorem onGenesis_initial : Core.Initial numberedNetwork 0 (Core.onGenesis numberedNetwork) := rfl

end DarknetCoin
