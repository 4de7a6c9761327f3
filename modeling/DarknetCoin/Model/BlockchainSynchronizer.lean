import DarknetCoin.Model.OutputScanning

/-!
# Following the chain of a node

`Transfers/SynchronizationState.cpp` and `BlockchainSynchronizer::updateConsumers`: for every
consumer the identifiers of the blocks it was given. It is told to undo its blocks from the first on
that a response of the node contradicts, and is given those it does not have. Heights are 32-bit
words. The consumers are the states of a type, with the two calls as programs.
-/

namespace DarknetCoin

open Semantics

/-- `CompleteBlock`; the block itself is known from its timestamp, and need not be there. -/
structure CompleteBlock where
  blockHash : Hash
  timestamp : Option Nat
  transactions : List ScannedTransaction
  deriving DecidableEq, Repr

structure BlockchainInterval where
  startHeight : Nat
  blocks : List Hash
  deriving DecidableEq, Repr

structure CheckResult where
  detachRequired : Bool
  detachHeight : Nat
  hasNewBlocks : Bool
  newBlockHeight : Nat
  deriving DecidableEq, Repr

structure SynchronizationState where
  blockchain : List Hash
  deriving DecidableEq, Repr

namespace SynchronizationState

/-- The loop of `checkInterval`: the first height with another block. -/
def firstDifference (state : SynchronizationState) (interval : BlockchainInterval)
    (iterationEnd : Nat) : Option Nat :=
  (List.range' interval.startHeight (iterationEnd - interval.startHeight)).find? fun i =>
    state.blockchain[i]? ≠ interval.blocks[i - interval.startHeight]?

def checkInterval (state : SynchronizationState) (interval : BlockchainInterval) : CheckResult :=
  let intervalEnd := (interval.startHeight + interval.blocks.length) % word32
  let iterationEnd := min (state.blockchain.length % word32) intervalEnd
  match state.firstDifference interval iterationEnd with
  | some height => ⟨true, height, true, height⟩
  | none =>
    if state.blockchain.length < intervalEnd then
      ⟨false, 0, true, state.blockchain.length % word32⟩
    else ⟨false, 0, false, 0⟩

/-- `detach`: the list is cut, or filled up with zeros. -/
def detach (height : Nat) (state : SynchronizationState) : SynchronizationState :=
  ⟨state.blockchain.take height ++ List.replicate (height - state.blockchain.length) nullHash⟩

def addBlocks (blockHashes : List Hash) (state : SynchronizationState) : SynchronizationState :=
  ⟨state.blockchain ++ blockHashes⟩

end SynchronizationState

/-- `IBlockchainConsumer`, as far as blocks go. -/
structure BlockchainConsumer (κ : Type) where
  onBlockchainDetach : Nat → Program κ Unit
  onNewBlocks : List CompleteBlock → Nat → Program κ Bool

/-- A consumer of a synchroniser, with its state. -/
structure Synchronized (κ : Type) where
  consumer : κ
  state : SynchronizationState

inductive UpdateConsumersResult
  | nothingChanged
  | addedNewBlocks
  | errorOccurred
  deriving DecidableEq, Repr

/-- The result for several consumers. -/
def UpdateConsumersResult.and : UpdateConsumersResult → UpdateConsumersResult →
    UpdateConsumersResult
  | nothingChanged, result => result
  | addedNewBlocks, nothingChanged => addedNewBlocks
  | addedNewBlocks, result => result
  | errorOccurred, _ => errorOccurred

section

variable {κ : Type} (calls : BlockchainConsumer κ)

/-- A call on a consumer. -/
def onConsumer {α : Type} (call : Program κ α) : Program (Synchronized κ) α :=
  Program.zoom Synchronized.consumer
    (fun consumer synchronized => { synchronized with consumer }) call

/-- The part of the loop of `updateConsumers` that detaches. -/
def detachConsumer (result : CheckResult) : Program (Synchronized κ) Unit :=
  if result.detachRequired then do
    onConsumer (calls.onBlockchainDetach result.detachHeight)
    Program.modify fun synchronized =>
      { synchronized with state := synchronized.state.detach result.detachHeight }
  else pure ()

/-- The part of the loop that hands the blocks over. -/
def extendConsumer (interval : BlockchainInterval) (blocks : List CompleteBlock)
    (result : CheckResult) : Program (Synchronized κ) UpdateConsumersResult :=
  if result.hasNewBlocks then do
    let startOffset := (result.newBlockHeight + word32 - interval.startHeight) % word32
    if ← onConsumer (calls.onNewBlocks (blocks.drop startOffset) result.newBlockHeight) then do
      Program.modify fun synchronized =>
        { synchronized with
          state := synchronized.state.addBlocks (interval.blocks.drop startOffset) }
      pure .addedNewBlocks
    else pure .errorOccurred
  else pure .nothingChanged

/-- The body of the loop of `updateConsumers`. -/
def updateConsumer (interval : BlockchainInterval) (blocks : List CompleteBlock) :
    Program (Synchronized κ) UpdateConsumersResult := do
  let synchronized ← Program.get
  let result := synchronized.state.checkInterval interval
  detachConsumer calls result
  extendConsumer calls interval blocks result

def updateConsumers (interval : BlockchainInterval) (blocks : List CompleteBlock) :
    List (Synchronized κ) → Outcome (List (Synchronized κ)) UpdateConsumersResult
  | [] => .done .nothingChanged []
  | first :: others =>
    match updateConsumer calls interval blocks first with
    | .done result first =>
      if result = .errorOccurred then .done .errorOccurred (first :: others)
      else
        match updateConsumers interval blocks others with
        | .done rest others => .done (result.and rest) (first :: others)
        | .thrown others => .thrown (first :: others)
        | .stuck => .stuck
    | .thrown first => .thrown (first :: others)
    | .stuck => .stuck

/-- `processBlocks`: the interval of a response, and the update of the consumers. -/
def processBlocks (startHeight : Nat) (newBlocks : List CompleteBlock) :
    List (Synchronized κ) → Outcome (List (Synchronized κ)) UpdateConsumersResult :=
  updateConsumers calls ⟨startHeight, newBlocks.map CompleteBlock.blockHash⟩ newBlocks

end

end DarknetCoin
