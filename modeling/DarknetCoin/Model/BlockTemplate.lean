import DarknetCoin.Model.Core

/-!
# Block templates

`get_block_template` after the transactions were chosen: the code guesses the size of the block,
constructs the miner transaction for it, and pads its extra field with zeros until both agree, in at
most ten tries. Key pairs are random and output keys are derived by `crypto/`; both enter as
parameters.
-/

namespace DarknetCoin

open Semantics Data

/-- The keys of a miner: the public keys that are generated one after the other, and the output keys
derived from them for its address, where `none` is a failed derivation. -/
structure MinerKeys where
  txPublicKey : Nat → PublicKey
  outputKey : Nat → Nat → Option PublicKey

namespace Currency

/-- The extra field of a miner transaction: `addTransactionPublicKeyToExtra`, then
`addExtraNonceToTransactionExtra`, which fails for a nonce of more than 255 bytes. -/
def minerExtra (key : PublicKey) (extraNonce : List UInt8) : Option (List UInt8) :=
  let extra := 0x01 :: LittleEndian.encode 32 key.toNat
  if extraNonce = [] then some extra
  else if 255 < extraNonce.length then none
  else some (extra ++ (0x02 :: UInt8.ofNat extraNonce.length :: extraNonce))

/-- One round of the loop that merges the last two amounts. -/
def mergeLast (amounts : List Nat) : List Nat :=
  match amounts.reverse with
  | last :: previous :: rest => (add64 previous last :: rest).reverse
  | _ => amounts

/-- The loop, which takes at most as many rounds as there are amounts. -/
def mergeAmounts (maxOuts : Nat) : Nat → List Nat → List Nat
  | 0, amounts => amounts
  | fuel + 1, amounts =>
    if maxOuts < amounts.length then mergeAmounts maxOuts fuel (mergeLast amounts) else amounts

/-- The outputs of a miner transaction. -/
def minerOutputs (keys : MinerKeys) (attempt : Nat) (amounts : List Nat) :
    Option (List TransactionOutput) :=
  amounts.zipIdx.mapM fun (amount, no) =>
    (keys.outputKey attempt no).map fun key => ⟨amount, .key key⟩

/-- `constructMinerTx`, with the keys of the given attempt. -/
def constructMinerTx (cur : Currency)
    (height medianSize alreadyGeneratedCoins currentBlockSize fee : Nat) (keys : MinerKeys)
    (attempt : Nat) (extraNonce : List UInt8) (maxOuts : Nat) : Option Transaction := do
  let extra ← minerExtra (keys.txPublicKey attempt) extraNonce
  let (blockReward, _) ←
    cur.getBlockReward medianSize currentBlockSize alreadyGeneratedCoins fee height
  let outAmounts := decomposeAmount blockReward cur.defaultDustThreshold
  if maxOuts < 1 then none
  else
    let outAmounts := mergeAmounts maxOuts outAmounts.length outAmounts
    let outputs ← minerOutputs keys attempt outAmounts
    if outAmounts.foldl add64 0 ≠ blockReward then none
    else
      pure {
        version := 1
        unlockTime := height + cur.minedMoneyUnlockWindow
        inputs := [.base ⟨height⟩]
        outputs
        extra
        signatures := [] }

end Currency

/-- Zeros at the end of the extra field. -/
def Transaction.pad (tx : Transaction) (count : Nat) : Transaction :=
  { tx with extra := tx.extra ++ List.replicate count 0 }

/-- The loop of `get_block_template` with the tries that are left. `construct` makes the miner
transaction of an attempt for a size of the block. -/
def fitMinerTx (construct : Nat → Nat → Option Transaction) (txsSize : Nat) : Nat → Nat → Nat →
    Option Transaction
  | 0, _, _ => none
  | tries + 1, attempt, cumulativeSize =>
    match construct attempt cumulativeSize with
    | none => none
    | some tx =>
      let coinbaseBlobSize := getObjectBinarySize tx
      if cumulativeSize - txsSize < coinbaseBlobSize then
        fitMinerTx construct txsSize tries (attempt + 1) (txsSize + coinbaseBlobSize)
      else if coinbaseBlobSize < cumulativeSize - txsSize then
        let delta := cumulativeSize - txsSize - coinbaseBlobSize
        -- the length of the extra field may need one more byte than before
        if cumulativeSize = txsSize + getObjectBinarySize (tx.pad delta) then some (tx.pad delta)
        else if cumulativeSize + 1 ≠ txsSize + getObjectBinarySize (tx.pad delta) then none
        else if cumulativeSize = txsSize + getObjectBinarySize (tx.pad (delta - 1)) then
          some (tx.pad (delta - 1))
        else fitMinerTx construct txsSize tries (attempt + 1) (cumulativeSize + (delta - 1))
      else some tx

/-- The miner transaction of `get_block_template`: a first attempt that gives the size to start
with, then at most ten tries. -/
def minerTransactionFor (construct : Nat → Nat → Option Transaction) (txsSize : Nat) :
    Option Transaction :=
  match construct 0 txsSize with
  | none => none
  | some tx => fitMinerTx construct txsSize 10 1 (txsSize + getObjectBinarySize tx)

namespace Core

/-- `get_block_template`; `none` when it returns `false`. -/
def getBlockTemplateFor (net : Network) (now : Nat) (keys : MinerKeys) (exNonce : List UInt8) :
    Program Core (Option Block) := do
  let core ← Program.get
  let height := core.main.blocks.length
  if MainChain.getDifficultyForNextBlock net.cur core.main.blocks = 0 then pure none
  else do
    let template ← getBlockTemplate net now
    let construct := fun attempt currentBlockSize =>
      net.cur.constructMinerTx height (core.currentBlockCumulSzLimit / 2)
        core.main.alreadyGeneratedCoins currentBlockSize template.fee keys attempt exNonce 11
    let majorVersion := core.main.getBlockMajorVersionForHeight net.cur height
    pure ((minerTransactionFor construct template.totalSize).map fun baseTransaction =>
      { majorVersion
        minorVersion := if majorVersion = 1 then 1 else 0
        nonce := 0
        timestamp := now
        previousBlockHash := core.main.getTailId
        baseTransaction
        transactionHashes := template.txHashes })

end Core

end DarknetCoin
