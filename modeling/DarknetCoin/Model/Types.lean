import Mathlib.Data.BitVec

/-!
# Transactions, blocks and the cryptographic interface

The records of `CryptoNote.h` and `CryptoTypes.h`. Unsigned machine words are natural numbers; where
the code computes with them modulo their width, so do the definitions of this development. The
primitives of `crypto/` and the serialised forms that are only ever hashed enter as the fields of
`Crypto`. Definitions without a comment are those of the source with the same name.
-/

namespace DarknetCoin

abbrev Hash := BitVec 256

abbrev PublicKey := BitVec 256

abbrev KeyImage := BitVec 256

instance : LawfulBEq Hash := inferInstance

instance lawfulBEqPair : LawfulBEq (Nat × Nat) := inferInstance

abbrev Signature := BitVec 512

/-- The all-zero hash. -/
def nullHash : Hash := 0

structure BaseInput where
  blockIndex : Nat
  deriving DecidableEq, Repr

structure KeyInput where
  amount : Nat
  /-- Positions of the ring members among the outputs of `amount`, each relative to the previous. -/
  outputIndexes : List Nat
  keyImage : KeyImage
  deriving DecidableEq, Repr

structure MultisignatureInput where
  amount : Nat
  signatureCount : Nat
  outputIndex : Nat
  term : Nat
  deriving DecidableEq, Repr

inductive TransactionInput
  | base (input : BaseInput)
  | key (input : KeyInput)
  | multisignature (input : MultisignatureInput)
  deriving DecidableEq, Repr

/-- `getTransactionInputAmount` of the transaction readers: what an input spends, without
interest. -/
def TransactionInput.amount : TransactionInput → Nat
  | .base _ => 0
  | .key input => input.amount
  | .multisignature input => input.amount

structure MultisignatureOutput where
  keys : List PublicKey
  requiredSignatureCount : Nat
  term : Nat
  deriving DecidableEq, Repr

inductive TransactionOutputTarget
  | key (key : PublicKey)
  | multisignature (output : MultisignatureOutput)
  deriving DecidableEq, Repr

structure TransactionOutput where
  amount : Nat
  target : TransactionOutputTarget
  deriving DecidableEq, Repr

structure TransactionPrefix where
  version : Nat
  unlockTime : Nat
  inputs : List TransactionInput
  outputs : List TransactionOutput
  extra : List UInt8
  deriving DecidableEq, Repr

structure Transaction extends TransactionPrefix where
  signatures : List (List Signature)
  deriving DecidableEq, Repr

structure Block where
  majorVersion : Nat
  minorVersion : Nat
  nonce : Nat
  timestamp : Nat
  previousBlockHash : Hash
  baseTransaction : Transaction
  transactionHashes : List Hash
  deriving DecidableEq, Repr

/-- Where a transaction stands in the main chain. `transaction` is a 16-bit word: position `0`
is the miner transaction. -/
structure TransactionIndex where
  block : Nat
  transaction : Nat
  deriving DecidableEq, Repr

structure MultisignatureOutputUsage where
  transactionIndex : TransactionIndex
  outputIndex : Nat
  isUsed : Bool
  deriving DecidableEq, Repr

structure TransactionEntry where
  tx : Transaction
  globalOutputIndexes : List Nat
  deriving DecidableEq, Repr

structure BlockEntry where
  bl : Block
  height : Nat
  blockCumulativeSize : Nat
  cumulativeDifficulty : Nat
  alreadyGeneratedCoins : Nat
  transactions : List TransactionEntry
  deriving DecidableEq, Repr

/-- A remembered block; `clear`ed, it is height `0` and the null hash. -/
structure BlockInfo where
  height : Nat
  id : Hash
  deriving DecidableEq, Repr

namespace BlockInfo

def clear : BlockInfo := ⟨0, nullHash⟩

/-- Only the identifier says whether a block is remembered. -/
def empty (info : BlockInfo) : Bool := info.id == nullHash

end BlockInfo

namespace TransactionInput

def keyInput? : TransactionInput → Option KeyInput
  | key input => some input
  | _ => none

def multisignatureInput? : TransactionInput → Option MultisignatureInput
  | multisignature input => some input
  | _ => none

end TransactionInput

/-- The key images spent by a list of inputs, in their order. -/
def keyImagesOf (inputs : List TransactionInput) : List KeyImage :=
  inputs.filterMap fun input => input.keyInput?.map KeyInput.keyImage

/-- The multisignature outputs spent by a list of inputs, in their order. -/
def multisignatureReferencesOf (inputs : List TransactionInput) : List (Nat × Nat) :=
  inputs.filterMap fun input =>
    input.multisignatureInput?.map fun spent => (spent.amount, spent.outputIndex)

section Inputs

variable (inputs : List TransactionInput)

@[simp] theorem keyImagesOf_nil : keyImagesOf [] = [] := rfl

@[simp] theorem keyImagesOf_key (input : KeyInput) :
    keyImagesOf (.key input :: inputs) = input.keyImage :: keyImagesOf inputs := rfl

@[simp] theorem keyImagesOf_multisignature (input : MultisignatureInput) :
    keyImagesOf (.multisignature input :: inputs) = keyImagesOf inputs := rfl

@[simp] theorem keyImagesOf_base (input : BaseInput) : keyImagesOf (.base input :: inputs) =
    keyImagesOf inputs := rfl

@[simp] theorem multisignatureReferencesOf_nil : multisignatureReferencesOf [] = [] := rfl

@[simp] theorem multisignatureReferencesOf_key (input : KeyInput) :
    multisignatureReferencesOf (.key input :: inputs) = multisignatureReferencesOf inputs := rfl

@[simp] theorem multisignatureReferencesOf_multisignature (input : MultisignatureInput) :
    multisignatureReferencesOf (.multisignature input :: inputs) =
      (input.amount, input.outputIndex) :: multisignatureReferencesOf inputs := rfl

@[simp] theorem multisignatureReferencesOf_base (input : BaseInput) :
    multisignatureReferencesOf (.base input :: inputs) = multisignatureReferencesOf inputs := rfl

end Inputs

theorem exists_of_mem_multisignatureReferencesOf {inputs : List TransactionInput}
    {reference : Nat × Nat} (h : reference ∈ multisignatureReferencesOf inputs) :
    ∃ input, .multisignature input ∈ inputs ∧ (input.amount, input.outputIndex) = reference := by
  obtain ⟨input, hinput, href⟩ := List.mem_filterMap.mp h
  cases input with
  | base => cases href
  | key => cases href
  | multisignature input => exact ⟨input, hinput, Option.some.inj href⟩

namespace Transaction

/-- The key images a transaction spends. -/
def keyImages (tx : Transaction) : List KeyImage := keyImagesOf tx.inputs

/-- The multisignature outputs a transaction spends. -/
def multisignatureReferences (tx : Transaction) : List (Nat × Nat) :=
  multisignatureReferencesOf tx.inputs

end Transaction

/-- The hash functions and signature checks the storage and the pool call. -/
structure Crypto where
  /-- `getObjectHash(tx)`: the hash of the serialised transaction. -/
  getObjectHash : Transaction → Hash
  /-- `getObjectHash` of the part of a transaction its signatures cover. -/
  getPrefixHash : TransactionPrefix → Hash
  /-- `get_block_hash`. -/
  getBlockHash : Block → Hash
  /-- `get_block_longhash`, the slow hash of the proof of work; `none` when it cannot be built. -/
  getBlockLonghash : Block → Option Hash
  /-- `check_key`: the bytes are a point of the curve. -/
  checkKey : PublicKey → Bool
  /-- `check_signature`. -/
  checkSignature : Hash → PublicKey → Signature → Bool
  /-- `check_ring_signature`. -/
  checkRingSignature : Hash → KeyImage → List PublicKey → List Signature → Bool

/-- An interface to evaluate the model with: a block is identified by its nonce and a transaction
by the last byte of its extra field, and every signature is accepted. -/
def Crypto.numbered : Crypto where
  getObjectHash tx := BitVec.ofNat 256 (1 + (tx.extra.getLast?.getD 0).toNat)
  getPrefixHash tx := BitVec.ofNat 256 (1 + (tx.extra.getLast?.getD 0).toNat)
  getBlockHash block := BitVec.ofNat 256 (1 + block.nonce)
  getBlockLonghash _ := some 0
  checkKey _ := true
  checkSignature _ _ _ := true
  checkRingSignature _ _ _ _ := true

end DarknetCoin
