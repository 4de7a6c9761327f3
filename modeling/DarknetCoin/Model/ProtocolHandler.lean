import DarknetCoin.Model.Core

/-!
# The protocol between nodes

The handlers of `CryptoNoteProtocolHandler.cpp` for what a peer sends, and those of `NetNode.cpp`
for the handshake and the timed synchronisation. The calls of `ICore` may throw, and where a handler
gives way to the other connections it finds what they have made of the core and of `m_stop`.
-/

namespace DarknetCoin

open Semantics Program

/-- `CryptoNoteConnectionContext::state`. -/
inductive ConnectionState
  | beforHandshake
  | synchronizing
  | idle
  | normal
  | syncRequired
  | poolSyncRequired
  | shutdown
  deriving DecidableEq, Repr

/-- What the handlers use of a `P2pConnectionContext`. Until the handshake the source leaves
`version` uninitialised. -/
structure ConnectionContext where
  version : Nat := 0
  isIncome : Bool := true
  peerId : Nat := 0
  state : ConnectionState := .beforHandshake
  neededObjects : List Hash := []
  requestedObjects : Finset Hash := ∅
  remoteBlockchainHeight : UInt32 := 0
  lastResponseHeight : UInt32 := 0
  deriving DecidableEq

/-- `block_complete_entry`. -/
structure BlockCompleteEntry where
  block : List UInt8
  txs : List (List UInt8)
  deriving DecidableEq

/-- `NOTIFY_RESPONSE_CHAIN_ENTRY::request`. -/
structure ChainEntryResponse where
  startHeight : UInt32
  totalHeight : UInt32
  blockIds : List Hash
  deriving DecidableEq

/-- `NOTIFY_RESPONSE_GET_OBJECTS::request`. -/
structure ObjectsResponse where
  blocks : List BlockCompleteEntry
  currentBlockchainHeight : UInt32
  txs : List (List UInt8) := []
  missedIds : List Hash := []
  deriving DecidableEq

/-- `CORE_SYNC_DATA`. -/
structure CoreSyncData where
  currentHeight : UInt32
  topId : Hash

/-- What is read of `COMMAND_HANDSHAKE::request`. -/
structure HandshakeRequest where
  networkId : Nat
  version : Nat
  peerId : Nat
  payloadData : CoreSyncData

/-- What is sent on a connection. -/
inductive PeerMessage
  | requestChain (blockIds : List Hash)
  | requestGetObjects (blocks : List Hash)
  | requestTxPool (txs : List Hash)
  | responseChainEntry (response : ChainEntryResponse)
  | responseGetObjects (response : ObjectsResponse)
  | newTransactions (txs : List (List UInt8))
  deriving DecidableEq

/-- What arrives on a connection. The peer list of a response to COMMAND_TIMED_SYNC may not be
valid. -/
inductive PeerCommand
  | handshake (arg : HandshakeRequest)
  | timedSync (payloadData : CoreSyncData)
  | timedSyncResponse (valid : Bool) (payloadData : CoreSyncData)
  | newBlock (b : BlockCompleteEntry) (currentBlockchainHeight : UInt32)
  | newTransactions (txs : List (List UInt8))
  | requestGetObjects (txs blocks : List Hash)
  | responseGetObjects (arg : ObjectsResponse)
  | requestChain (blockIds : List Hash)
  | responseChainEntry (arg : ChainEntryResponse)
  | requestTxPool (txs : List Hash)
  /-- A command that cannot be decoded. -/
  | malformed
  /-- A ping, or a command without a handler. -/
  | other

/-- The core as the handlers see it. -/
structure ICore (σ : Type) where
  haveBlock : Hash → σ → Bool
  buildSparseChain : σ → List Hash
  /-- The hashes of the transactions in the pool. -/
  getPoolTransactions : σ → List Hash
  handleIncomingTx : List UInt8 → Bool → Program σ TxVerificationContext
  handleIncomingBlockBlob : List UInt8 → Program σ BlockVerificationContext
  onSynchronized : σ → σ
  getBlockIdByHeight : Nat → σ → Hash
  handleGetObjects : List Hash → List Hash → σ → Bool × ObjectsResponse
  findBlockchainSupplement : List Hash → Nat → σ → ChainEntryResponse
  /-- The transactions of the pool that are not among those given. -/
  getPoolChanges : List Hash → σ → List (List UInt8)

/-- What the connections share. -/
structure ProtocolNode (σ : Type) where
  core : σ
  stop : Bool := false
  synchronized : Bool := false
  peersCount : UInt64 := 0

/-- A connection, with what was sent on it so far and what it has passed to the core. -/
structure Connection (σ : Type) where
  context : ConnectionContext
  node : ProtocolNode σ
  sent : List PeerMessage := []
  passed : List (List UInt8) := []

namespace Connection

variable {σ : Type} (core : ICore σ)

/-- `post_notify`. -/
def post (message : PeerMessage) (c : Connection σ) : Connection σ :=
  { c with sent := c.sent ++ [message] }

def setState (state : ConnectionState) (c : Connection σ) : Connection σ :=
  { c with context.state := state }

/-- The connection waits until it is told of something new. -/
def setIdle (c : Connection σ) : Connection σ :=
  { c with context.state := .idle, context.neededObjects := [], context.requestedObjects := ∅ }

def requestMissingPoolTransactions (c : Connection σ) : Connection σ :=
  if c.context.version < 1 then c
    else c.post (.requestTxPool (core.getPoolTransactions c.node.core))

/-- `on_connection_synchronized`. -/
def onConnectionSynchronized (c : Connection σ) : Connection σ :=
  if c.node.synchronized then c
  else { c with node.synchronized := true, node.core := core.onSynchronized c.node.core }

/-- `BLOCKS_SYNCHRONIZING_DEFAULT_COUNT`. -/
def blocksSynchronizingDefaultCount : Nat := 200

/-- The loop of `request_missing_objects` that goes through the needed objects: those to be
requested, not more than `count`, and those that remain. -/
def takeNeeded (known : Hash → Bool) : Nat → List Hash → List Hash × List Hash
  | 0, needed => ([], needed)
  | _, [] => ([], [])
  | count + 1, id :: needed =>
    if known id then takeNeeded known (count + 1) needed
    else
      let (requested, rest) := takeNeeded known count needed
      (id :: requested, rest)

/-- `request_missing_objects`. Its result, whether the last condition holds, is ignored. -/
def requestMissingObjects (checkHavingBlocks : Bool) (c : Connection σ) : Connection σ :=
  if c.context.neededObjects ≠ [] then
    let (blocks, rest) := takeNeeded (fun id => checkHavingBlocks && core.haveBlock id c.node.core)
      blocksSynchronizingDefaultCount c.context.neededObjects
    { c with
      context.neededObjects := rest
      context.requestedObjects :=
        c.context.requestedObjects ∪ blocks.toFinset }.post (.requestGetObjects blocks)
  else if c.context.lastResponseHeight < c.context.remoteBlockchainHeight - 1 then
    c.post (.requestChain (core.buildSparseChain c.node.core))
  else if c.context.lastResponseHeight = c.context.remoteBlockchainHeight - 1 ∧
      c.context.neededObjects = [] ∧ c.context.requestedObjects = ∅ then
    onConnectionSynchronized core ((requestMissingPoolTransactions core c).setState .normal)
  else c

/-- `handle_response_chain_entry`. The connection is not dropped at once when the heights are
wrong. -/
def handleResponseChainEntry (arg : ChainEntryResponse) (c : Connection σ) : Connection σ :=
  match arg.blockIds with
  | [] => c.setState .shutdown
  | first :: _ =>
    if !core.haveBlock first c.node.core then c.setState .shutdown
    else
      let last := arg.startHeight + UInt32.ofNat arg.blockIds.length - 1
      let needed := arg.blockIds.filter fun id => !core.haveBlock id c.node.core
      requestMissingObjects core false { c with
        context.remoteBlockchainHeight := arg.totalHeight
        context.lastResponseHeight := last
        context.state := if last > arg.totalHeight then .shutdown else c.context.state
        context.neededObjects := c.context.neededObjects ++ needed }

/-- Pass something that was received to the core. -/
def pass {α : Type} (blob : List UInt8) (call : Program σ α) : Program (Connection σ) α :=
  zoom (fun c => c.node.core) (fun core c =>
    { c with node.core := core, passed := c.passed ++ [blob] })
    call

/-- Pass the transactions of a block to the core until one is refused. -/
def passTransactions (txs : List (List UInt8)) : Program (Connection σ) Bool :=
  forAllM (fun tx => do
    let tvc ← pass tx (core.handleIncomingTx tx true)
    pure !tvc.verifivationFailed) txs

/-- What the other connections do while this one gives way: `m_dispatcher.yield()`. -/
def yield (others : σ × Bool → σ × Bool) (c : Connection σ) : Connection σ :=
  { c with
    node.core := (others (c.node.core, c.node.stop)).1
    node.stop := (others (c.node.core, c.node.stop)).2 }

variable (parse : List UInt8 → Option Block) (crypto : Crypto) (others : Nat → σ × Bool → σ × Bool)

/-- `processObjects`, from the block with the number `i` on; `true` when its result is zero. -/
def processObjects : Nat → List BlockCompleteEntry → Program (Connection σ) Bool
  | _, [] => pure true
  | i, entry :: entries => do
    let c ← get
    if c.node.stop then pure true
    else if ← passTransactions core entry.txs then do
      let bvc ← pass entry.block (core.handleIncomingBlockBlob entry.block)
      if bvc.verifivationFailed || bvc.markedAsOrphaned then do
        modify (setState .shutdown)
        pure false
      else if bvc.alreadyExists then do
        modify setIdle
        pure false
      else do
        modify (yield (others i))
        processObjects (i + 1) entries
    else do
      modify (setState .shutdown)
      pure false

/-- The loop of `handle_response_get_objects` that checks the blocks, of which `count` are
checked. -/
def checkObjects : Nat → List BlockCompleteEntry → Connection σ → Bool × Connection σ
  | _, [], c => (true, c)
  | count, entry :: entries, c =>
    match parse entry.block with
    | none => (false, c.setState .shutdown)
    | some b =>
      let blockHash := crypto.getBlockHash b
      if count + 1 = 2 && core.haveBlock blockHash c.node.core then (false, c.setIdle)
      else if blockHash ∉ c.context.requestedObjects then (false, c.setState .shutdown)
      else if b.transactionHashes.length ≠ entry.txs.length then (false, c.setState .shutdown)
      else checkObjects (count + 1) entries
        { c with context.requestedObjects := c.context.requestedObjects.erase blockHash }

/-- The end of `handle_response_get_objects`, on blocks that are checked. -/
def processResponse (blocks : List BlockCompleteEntry) : Program (Connection σ) Unit := do
  if ← processObjects core others 0 blocks then
    modify fun c =>
      if !c.node.stop && c.context.state = .synchronizing then
        requestMissingObjects core true c
      else c

/-- `handle_response_get_objects`. -/
def handleResponseGetObjects (arg : ObjectsResponse) : Program (Connection σ) Unit := fun c =>
  if c.context.lastResponseHeight > arg.currentBlockchainHeight then .done () (c.setState .shutdown)
  else match checkObjects core parse crypto 0 arg.blocks
      { c with context.remoteBlockchainHeight := arg.currentBlockchainHeight } with
    | (false, c) => .done () c
    | (true, c) =>
      if c.context.requestedObjects ≠ ∅ then .done () (c.setState .shutdown)
      else processResponse core others arg.blocks c

/-- `handle_notify_new_block`. -/
def handleNotifyNewBlock (b : BlockCompleteEntry) (currentBlockchainHeight : UInt32) :
    Program (Connection σ) Unit := do
  modify fun c => { c with context.remoteBlockchainHeight := currentBlockchainHeight }
  let c ← get
  if c.context.state ≠ .normal then pure ()
  else if ← passTransactions core b.txs then do
    let bvc ← pass b.block (core.handleIncomingBlockBlob b.block)
    modify fun c =>
      if bvc.verifivationFailed then c.setState .shutdown
      else if bvc.addedToMainChain then
        if bvc.switchedToAltChain then requestMissingPoolTransactions core c else c
      else if bvc.markedAsOrphaned then
        (c.setState .synchronizing).post (.requestChain (core.buildSparseChain c.node.core))
      else c
  else modify (setState .shutdown)

/-- `handle_notify_new_transactions`. -/
def handleNotifyNewTransactions (txs : List (List UInt8)) : Program (Connection σ) Unit := do
  let c ← get
  if c.context.state ≠ .normal then pure ()
  else do
    let _ ← forAllM (fun tx => do
      let _ ← pass tx (core.handleIncomingTx tx false)
      pure true) txs

/-- `handle_request_get_objects`. What was found is sent even when the request fails. -/
def handleRequestGetObjects (txs blocks : List Hash) (c : Connection σ) : Connection σ :=
  let (found, response) := core.handleGetObjects txs blocks c.node.core
  (if found then c else c.setState .shutdown).post (.responseGetObjects response)

/-- `BLOCKS_IDS_SYNCHRONIZING_DEFAULT_COUNT`. -/
def blocksIdsSynchronizingDefaultCount : Nat := 10000

/-- `handle_request_chain`. -/
def handleRequestChain (blockIds : List Hash) (c : Connection σ) : Connection σ :=
  match blockIds.getLast? with
  | none => c.setState .shutdown
  | some last =>
    if last ≠ core.getBlockIdByHeight 0 c.node.core then c.setState .shutdown
    else c.post (.responseChainEntry
      (core.findBlockchainSupplement blockIds blocksIdsSynchronizingDefaultCount c.node.core))

def handleRequestTxPool (txs : List Hash) (c : Connection σ) : Connection σ :=
  let added := core.getPoolChanges txs c.node.core
  if added = [] then c else c.post (.newTransactions added)

/-- `process_payload_sync_data`. -/
def processPayloadSyncData (hshd : CoreSyncData) (isInital : Bool) (c : Connection σ) :
    Connection σ :=
  if c.context.state = .beforHandshake && !isInital then c
  else
    let c := if c.context.state = .synchronizing then c
      else if core.haveBlock hshd.topId c.node.core then
        if isInital then (onConnectionSynchronized core c).setState .poolSyncRequired
        else c.setState .normal
      else c.setState .syncRequired
    { c with
      context.remoteBlockchainHeight := hshd.currentHeight
      node.peersCount := if isInital then c.node.peersCount + 1 else c.node.peersCount }

/-- `handle_handshake`. -/
def handleHandshake (networkId : Nat) (arg : HandshakeRequest) (c : Connection σ) : Connection σ :=
  let c := { c with context.version := arg.version }
  if arg.networkId ≠ networkId then c.setState .shutdown
  else if !c.context.isIncome then c.setState .shutdown
  else if c.context.peerId ≠ 0 then c.setState .shutdown
  else { processPayloadSyncData core arg.payloadData true c with context.peerId := arg.peerId }

/-- `start_sync`, whose assertions are not part of the program. -/
def startSync (c : Connection σ) : Connection σ :=
  if c.context.state = .synchronizing then
    c.post (.requestChain (core.buildSparseChain c.node.core)) else c

/-- What `connectionHandler` does before it reads a command. -/
def beginRound (c : Connection σ) : Connection σ :=
  match c.context.state with
  | .syncRequired => startSync core (c.setState .synchronizing)
  | .poolSyncRequired => requestMissingPoolTransactions core (c.setState .normal)
  | _ => c

/-- `NodeServer::handleCommand`, and `CryptoNoteProtocolHandler::handleCommand` for the rest. -/
def handleCommand (networkId : Nat) : PeerCommand → Program (Connection σ) Unit
  | .handshake arg => modify (handleHandshake core networkId arg)
  | .timedSync payloadData => modify (processPayloadSyncData core payloadData false)
  | .timedSyncResponse valid payloadData => modify
      (if valid then processPayloadSyncData core payloadData false else setState .shutdown)
  | .newBlock b height => handleNotifyNewBlock core b height
  | .newTransactions txs => handleNotifyNewTransactions core txs
  | .requestGetObjects txs blocks => modify (handleRequestGetObjects core txs blocks)
  | .responseGetObjects arg => handleResponseGetObjects core parse crypto others arg
  | .requestChain blockIds => modify (handleRequestChain core blockIds)
  | .responseChainEntry arg => modify (handleResponseChainEntry core arg)
  | .requestTxPool txs => modify (handleRequestTxPool core txs)
  | .malformed => throw
  | .other => pure ()

end Connection

end DarknetCoin
