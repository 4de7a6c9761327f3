import DarknetCoin.Model.IntUtil
import DarknetCoin.Model.TransactionExtra

/-!
# The currency

`Currency.cpp` and the constants of `CryptoNoteConfig.h`. The genesis block is not a parameter: it
is built from a hard-coded transaction. What the configuration states as `static_assert`s, and the
bound `calculateInterest` asserts of the longest term, are fields of `Currency`.
-/

namespace DarknetCoin

/-- `UpgradeDetectorBase::UNDEF_HEIGHT`. -/
def undefHeight : Nat := 2 ^ 64 - 1

/-- The parameters of a network. -/
structure Currency where
  maxBlockHeight : Nat
  minedMoneyUnlockWindow : Nat
  timestampCheckWindow : Nat
  blockFutureTimeLimit : Nat
  moneySupply : Nat
  rewardBlocksWindow : Nat
  blockGrantedFullRewardZone : Nat
  minerTxBlobReservedSize : Nat
  minimumFee : Nat
  defaultDustThreshold : Nat
  difficultyTarget : Nat
  difficultyWindow : Nat
  difficultyLag : Nat
  difficultyCut : Nat
  depositMinAmount : Nat
  depositMinTerm : Nat
  depositMaxTerm : Nat
  depositMinTotalRateFactor : Nat
  depositMaxTotalRate : Nat
  maxBlockSizeInitial : Nat
  maxBlockSizeGrowthSpeedNumerator : Nat
  maxBlockSizeGrowthSpeedDenominator : Nat
  lockedTxAllowedDeltaSeconds : Nat
  lockedTxAllowedDeltaBlocks : Nat
  mempoolTxLiveTime : Nat
  mempoolTxFromAltBlockLiveTime : Nat
  numberOfPeriodsToForgetTxDeletedFromPool : Nat
  upgradeHeight : Nat
  upgradeVotingThreshold : Nat
  upgradeVotingWindow : Nat
  upgradeWindow : Nat
  fusionTxMaxSize : Nat
  fusionTxMinInputCount : Nat
  fusionTxMinInOutCountRatio : Nat
  testnet : Bool
  two_le_difficultyWindow : 2 ≤ difficultyWindow
  difficultyCut_le : 2 * difficultyCut + 2 ≤ difficultyWindow
  depositMinTerm_pos : 0 < depositMinTerm
  depositMinTerm_le : depositMinTerm ≤ depositMaxTerm
  depositRate_lt : depositMinTotalRateFactor < depositMinTerm * depositMaxTotalRate
  depositMaxTerm_lt : depositMaxTerm < (2 ^ 32 - 1) / 1000

/-- What `decompose_amount_into_digits` hands to its two handlers. -/
inductive AmountPart
  | chunk (amount : Nat)
  | dust (amount : Nat)
  deriving DecidableEq, Repr

def AmountPart.amount : AmountPart → Nat
  | chunk amount | dust amount => amount

def AmountPart.chunk? : AmountPart → Option Nat
  | chunk amount => some amount
  | dust _ => none

def AmountPart.dust? : AmountPart → Option Nat
  | chunk _ => none
  | dust amount => some amount

/-- The loop of `decompose_amount_into_digits`; a 64-bit amount has at most twenty digits. -/
def decomposeParts (dustThreshold : Nat) : Nat → Nat → Nat → Nat → Bool → List AmountPart
  | 0, _, _, _, _ => []
  | fuel + 1, amount, order, dust, isDustHandled =>
    let pendingDust := if !isDustHandled && dust ≠ 0 then [.dust dust] else []
    if amount = 0 then pendingDust
    else
      let chunk := mul64 (amount % 10) order
      if add64 dust chunk ≤ dustThreshold then
        decomposeParts dustThreshold fuel (amount / 10) (mul64 order 10)
          (add64 dust chunk) isDustHandled
      else
        pendingDust ++ (if chunk ≠ 0 then [.chunk chunk] else []) ++
          decomposeParts dustThreshold fuel (amount / 10) (mul64 order 10) dust
            (isDustHandled || dust ≠ 0)

/-- `decompose_amount_into_digits`. -/
def decomposeAmountIntoDigits (amount dustThreshold : Nat) : List AmountPart :=
  if amount = 0 then [] else decomposeParts dustThreshold 21 amount 1 0 false

namespace Currency

/-- `COIN`: the smallest units in one coin. -/
def coin : Nat := 100000000

/-- The parameters `CryptoNoteConfig.h` gives to `CurrencyBuilder`. -/
def mainnet : Currency where
  maxBlockHeight := 500000000
  minedMoneyUnlockWindow := 30
  timestampCheckWindow := 30
  blockFutureTimeLimit := 60 * 60 * 2
  moneySupply := 500000000000000000
  rewardBlocksWindow := 100
  blockGrantedFullRewardZone := 32000
  minerTxBlobReservedSize := 600
  minimumFee := 100000
  defaultDustThreshold := 100000
  difficultyTarget := 240
  difficultyWindow := 240
  difficultyLag := 15
  difficultyCut := 30
  depositMinAmount := 150 * coin
  depositMinTerm := 11000
  depositMaxTerm := 12 * 11000
  depositMinTotalRateFactor := 77000
  depositMaxTotalRate := 11
  maxBlockSizeInitial := 32000 * 10
  maxBlockSizeGrowthSpeedNumerator := 100 * 1024
  maxBlockSizeGrowthSpeedDenominator := 365 * 24 * 60 * 60 / 240
  lockedTxAllowedDeltaSeconds := 240
  lockedTxAllowedDeltaBlocks := 1
  mempoolTxLiveTime := 60 * 60 * 14
  mempoolTxFromAltBlockLiveTime := 60 * 60 * 24
  numberOfPeriodsToForgetTxDeletedFromPool := 7
  upgradeHeight := 0
  upgradeVotingThreshold := 90
  upgradeVotingWindow := 360
  upgradeWindow := 360
  fusionTxMaxSize := 32000 * 30 / 100
  fusionTxMinInputCount := 12
  fusionTxMinInOutCountRatio := 4
  testnet := false
  two_le_difficultyWindow := by decide
  difficultyCut_le := by decide
  depositMinTerm_pos := by decide
  depositMinTerm_le := by decide
  depositRate_lt := by decide
  depositMaxTerm_lt := by decide

/-! ### The genesis block -/

/-- The one output key of the genesis transaction. -/
def genesisOutputKey : PublicKey :=
  Extra.digestOfBytes [0x11, 0x5d, 0x19, 0xdb, 0xa1, 0x31, 0x92, 0x54, 0x47, 0x10, 0x84, 0x07,
    0x13, 0xa7, 0xc9, 0x50, 0x7d, 0x7e, 0xd1, 0x8c, 0x1a, 0x50, 0xc4, 0xb0, 0x57, 0x59, 0xfe,
    0xb0, 0x66, 0x0d, 0x09, 0x9e]

/-- The transaction `GENESIS_COINBASE_TX_HEX` parses to. -/
def genesisTransaction : Transaction where
  version := 1
  unlockTime := 30
  inputs := [.base ⟨0⟩]
  outputs := [⟨100000000, .key genesisOutputKey⟩]
  extra := [0x01, 0x70, 0x1b, 0x8c, 0x4f, 0xbd, 0x8a, 0x08, 0xf9, 0xd4, 0x65, 0x0a, 0x16, 0x67,
    0xb9, 0x20, 0x8a, 0xe1, 0x0a, 0x2d, 0xa2, 0xaf, 0xa3, 0x08, 0x4d, 0x48, 0xfd, 0xb6, 0xcd,
    0x50, 0x86, 0x45, 0x2b]
  signatures := [[]]

/-- `generateGenesisBlock`. -/
def genesisBlock (cur : Currency) : Block where
  majorVersion := 1
  minorVersion := 0
  nonce := if cur.testnet then 421 else 420
  timestamp := 0
  previousBlockHash := nullHash
  baseTransaction := genesisTransaction
  transactionHashes := []

variable (cur : Currency)

/-! ### Rewards -/

def baseRewardFunction (alreadyGeneratedCoins height : Nat) : Nat :=
  let baseReward :=
    if height = 0 then 1 * coin
    else if height = 1 then 1844000000 * coin
    else sub64 (200 * coin) (height / 11000 * (0 * coin))
  min (max baseReward (200 * coin)) (sub64 cur.moneySupply alreadyGeneratedCoins)

def getPenalizedAmount (amount medianSize currentBlockSize : Nat) : Nat :=
  if amount = 0 then 0
  else if currentBlockSize ≤ medianSize then amount
  else
    let (productLo, productHi) :=
      mul128 amount (mul64 currentBlockSize (sub64 (mul64 2 medianSize) currentBlockSize))
    let (hi, lo) := div128By32 productHi productLo (medianSize % word32)
    (div128By32 hi lo (medianSize % word32)).2

/-- `getBlockReward`: the reward and the change of the emission; `none` for a block more than
twice as large as the median. -/
def getBlockReward (medianSize currentBlockSize alreadyGeneratedCoins fee height : Nat) :
    Option (Nat × Nat) :=
  let baseReward := cur.baseRewardFunction alreadyGeneratedCoins height
  let medianSize := max medianSize cur.blockGrantedFullRewardZone
  if mul64 2 medianSize < currentBlockSize then none
  else
    let penalizedBaseReward := getPenalizedAmount baseReward medianSize currentBlockSize
    some (add64 penalizedBaseReward fee, penalizedBaseReward)

/-! ### Deposits and fees -/

/-- `calculateInterest`. Its assertions are `CalculateInterestPre`. -/
def calculateInterest (amount term : Nat) : Nat :=
  let a := sub64 (mul64 term cur.depositMaxTotalRate) cur.depositMinTotalRateFactor
  let a := mul64 a 5000 / 1037
  let (bLo, bHi) := mul128 amount a
  (div128By32 bHi bLo (1000 * cur.depositMaxTerm % word32)).2

def calculateTotalTransactionInterest (tx : Transaction) : Nat :=
  tx.inputs.foldl (fun interest input =>
    match input with
    | .multisignature input =>
      if input.term ≠ 0 then add64 interest (cur.calculateInterest input.amount input.term)
      else interest
    | _ => interest) 0

def getTransactionInputAmount : TransactionInput → Nat
  | .key input => input.amount
  | .multisignature input =>
    if input.term = 0 then input.amount
    else add64 input.amount (cur.calculateInterest input.amount input.term)
  | .base _ => 0

def getTransactionAllInputsAmount (tx : Transaction) : Nat :=
  tx.inputs.foldl (fun amount input => add64 amount (cur.getTransactionInputAmount input)) 0

def maxBlockCumulativeSize (height : Nat) : Nat :=
  cur.maxBlockSizeInitial +
    height * cur.maxBlockSizeGrowthSpeedNumerator / cur.maxBlockSizeGrowthSpeedDenominator

/-! ### Fusion transactions -/

/-- `decomposeAmount`, whose two handlers push to one list. -/
def decomposeAmount (amount dustThreshold : Nat) : List Nat :=
  (decomposeAmountIntoDigits amount dustThreshold).map AmountPart.amount

def getInputsAmounts (tx : Transaction) : List Nat :=
  tx.inputs.filterMap fun input =>
    match input with
    | .key input => some input.amount
    | .multisignature input => some input.amount
    | .base _ => none

def isFusionTransaction (tx : Transaction) (size : Nat) : Bool :=
  let inputsAmounts := getInputsAmounts tx
  let outputsAmounts := tx.outputs.map TransactionOutput.amount
  let inputAmount := inputsAmounts.foldl add64 0
  size ≤ cur.fusionTxMaxSize &&
    cur.fusionTxMinInputCount ≤ inputsAmounts.length &&
    outputsAmounts.length * cur.fusionTxMinInOutCountRatio ≤ inputsAmounts.length &&
    inputsAmounts.all (fun amount => cur.defaultDustThreshold ≤ amount) &&
    (decomposeAmount inputAmount cur.defaultDustThreshold).insertionSort (· ≤ ·) == outputsAmounts

/-! ### Difficulty -/

def difficultyBlocksCount : Nat := cur.difficultyWindow + cur.difficultyLag

/-- `nextDifficulty`: the work the next block needs, `0` when it does not fit in a word. -/
def nextDifficulty (timestamps cumulativeDifficulties : List Nat) : Nat :=
  let timestamps := timestamps.take cur.difficultyWindow
  let cumulativeDifficulties := cumulativeDifficulties.take cur.difficultyWindow
  let length := timestamps.length
  if length ≤ 1 then 1
  else
    let timestamps := timestamps.insertionSort (· ≤ ·)
    let kept := cur.difficultyWindow - 2 * cur.difficultyCut
    let cutBegin := if length ≤ kept then 0 else (length - kept + 1) / 2
    let cutEnd := if length ≤ kept then length else cutBegin + kept
    let timeSpan := max 1 (sub64 (timestamps.getD (cutEnd - 1) 0) (timestamps.getD cutBegin 0))
    let totalWork := sub64 (cumulativeDifficulties.getD (cutEnd - 1) 0)
      (cumulativeDifficulties.getD cutBegin 0)
    let (low, high) := mul128 totalWork cur.difficultyTarget
    let sum := sub64 (add64 low timeSpan) 1
    if high ≠ 0 || sum < low then 0 else sum / timeSpan

def checkProofOfWork (crypto : Crypto) (block : Block) (currentDifficulty : Nat) : Bool :=
  match crypto.getBlockLonghash block with
  | none => false
  | some proofOfWork => checkHash proofOfWork currentDifficulty

def calculateUpgradeHeight (voteCompleteHeight : Nat) : Nat :=
  add64 voteCompleteHeight cur.upgradeWindow

/-! ### Facts about the parameters -/

/-- What `calculateInterest` asserts before it computes. -/
def CalculateInterestPre (term : Nat) : Prop :=
  cur.depositMinTerm ≤ term ∧ term ≤ cur.depositMaxTerm ∧
    cur.depositMinTotalRateFactor < term * cur.depositMaxTotalRate ∧
    cur.depositMaxTerm < (2 ^ 32 - 1) / 1000

theorem calculateInterestPre_of_bounds {term : Nat} (hmin : cur.depositMinTerm ≤ term)
    (hmax : term ≤ cur.depositMaxTerm) : cur.CalculateInterestPre term := by
  refine ⟨hmin, hmax, ?_, cur.depositMaxTerm_lt⟩
  calc cur.depositMinTotalRateFactor
      < cur.depositMinTerm * cur.depositMaxTotalRate := cur.depositRate_lt
    _ ≤ term * cur.depositMaxTotalRate := Nat.mul_le_mul_right _ hmin

example : (genesisTransaction.outputs.map TransactionOutput.amount) = [coin] := by decide

end Currency

end DarknetCoin
