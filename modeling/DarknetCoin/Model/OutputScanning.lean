import DarknetCoin.Model.TransfersContainer

/-!
# One-time keys and the outputs of an account

An output carries a one-time key that the sender derives from the address of the recipient, the key
of the transaction and a number. Sender (`TransactionImpl::addOutput`) and scanners
(`findMyOutputs`, `findOutputsToAccount`) number the keys independently. The key image of a found
output (`createTransfers`) is computed from its position.

The primitives of `crypto/` enter as the fields of `KeyCrypto`. A call that fails does not write its
result, and none of the callers looks at what it returns; what they then read is a field of
`Unwritten`.
-/

namespace DarknetCoin

open Semantics

abbrev SecretKey := BitVec 256

abbrev KeyDerivation := BitVec 256

structure AccountPublicAddress where
  spendPublicKey : PublicKey
  viewPublicKey : PublicKey
  deriving DecidableEq, Repr

/-- `AccountKeys`; `id` is the number of the address in the wallet. -/
structure AccountKeys where
  address : AccountPublicAddress
  spendSecretKey : SecretKey
  viewSecretKey : SecretKey
  id : Nat
  deriving DecidableEq, Repr

structure KeyPair where
  publicKey : PublicKey
  secretKey : SecretKey
  deriving DecidableEq, Repr

/-- The derivation of keys; `none` where the bytes are no point of the curve. -/
structure KeyCrypto where
  secretKeyToPublicKey : SecretKey → PublicKey
  generateKeyDerivation : PublicKey → SecretKey → Option KeyDerivation
  derivePublicKey : KeyDerivation → Nat → PublicKey → Option PublicKey
  deriveSecretKey : KeyDerivation → Nat → SecretKey → SecretKey
  underivePublicKey : KeyDerivation → Nat → PublicKey → Option PublicKey
  generateKeyImage : PublicKey → SecretKey → KeyImage

/-- What variables hold that are read without having been written. -/
structure Unwritten where
  publicKey : PublicKey
  derivation : KeyDerivation
  keyImage : KeyImage
  /-- The number of an address. -/
  id : Nat
  /-- The place of a transaction without a block. -/
  transactionIndex : Nat

/-- Public keys are points of the curve, and so are the keys derived from points. Both sides compute
one shared secret, a derived key can be taken apart, and the derived secret key belongs to the
derived public key. -/
structure KeyCrypto.Lawful (keys : KeyCrypto) : Prop where
  derivation_isSome : ∀ r v, (keys.generateKeyDerivation (keys.secretKeyToPublicKey v) r).isSome
  derivation_comm : ∀ r v, keys.generateKeyDerivation (keys.secretKeyToPublicKey v) r =
    keys.generateKeyDerivation (keys.secretKeyToPublicKey r) v
  derive_isSome : ∀ derivation n s,
    (keys.derivePublicKey derivation n (keys.secretKeyToPublicKey s)).isSome
  underive_isSome : ∀ derivation derivation' n n' base key,
    keys.derivePublicKey derivation n base = some key →
      (keys.underivePublicKey derivation' n' key).isSome
  underive_eq_some_iff : ∀ derivation n base key,
    keys.underivePublicKey derivation n key = some base ↔
      keys.derivePublicKey derivation n base = some key
  derive_secret : ∀ derivation n s key,
    keys.derivePublicKey derivation n (keys.secretKeyToPublicKey s) = some key →
      keys.secretKeyToPublicKey (keys.deriveSecretKey derivation n s) = key

/-- The derived key tells the numbers of a word apart. -/
def KeyCrypto.TellsNumbersApart (keys : KeyCrypto) : Prop :=
  ∀ derivation base key n m, n < word64 → m < word64 →
    keys.derivePublicKey derivation n base = some key →
      keys.derivePublicKey derivation m base = some key → n = m

section

variable (keys : KeyCrypto) (unwritten : Unwritten)

/-- `derivePublicKey` of `Transaction.cpp`: the one-time key of an output for an address. -/
def deriveOutputKey (recipient : AccountPublicAddress) (txKey : SecretKey) (outputIndex : Nat) :
    PublicKey :=
  let derivation :=
    (keys.generateKeyDerivation recipient.viewPublicKey txKey).getD unwritten.derivation
  (keys.derivePublicKey derivation outputIndex recipient.spendPublicKey).getD unwritten.publicKey

/-- The part of `TransactionImpl` that concerns its outputs. -/
structure TransactionImpl where
  version : Nat
  outputs : List TransactionOutput
  secretKey : SecretKey
  deriving DecidableEq, Repr

namespace TransactionImpl

/-- `createTransaction`, with the secret key it generates. -/
def create (secretKey : SecretKey) : TransactionImpl := ⟨1, [], secretKey⟩

/-- The public key the extra field gets. -/
def publicKey (tx : TransactionImpl) : PublicKey := keys.secretKeyToPublicKey tx.secretKey

/-- `addOutput(amount, to)`. -/
def addOutput (amount : Nat) (recipient : AccountPublicAddress) (tx : TransactionImpl) :
    TransactionImpl :=
  { tx with
    outputs := tx.outputs ++
      [⟨amount, .key (deriveOutputKey keys unwritten recipient tx.secretKey tx.outputs.length)⟩] }

/-- `addOutput(amount, to, requiredSignatures, term)`. -/
def addMultisignatureOutput (amount : Nat) (recipients : List AccountPublicAddress)
    (requiredSignatures term : Nat) (tx : TransactionImpl) : TransactionImpl :=
  { tx with
    version := 2
    outputs := tx.outputs ++
      [⟨amount, .multisignature
        { keys := recipients.map fun address =>
            deriveOutputKey keys unwritten address tx.secretKey tx.outputs.length
          requiredSignatureCount := requiredSignatures
          term }⟩] }

end TransactionImpl

/-- A call of one of the two forms of `addOutput`. -/
inductive OutputRequest
  | key (amount : Nat) (recipient : AccountPublicAddress)
  | multisignature (amount : Nat) (recipients : List AccountPublicAddress)
      (requiredSignatures term : Nat)
  deriving DecidableEq, Repr

namespace OutputRequest

/-- The addresses an output is for. -/
def addresses : OutputRequest → List AccountPublicAddress
  | key _ recipient => [recipient]
  | multisignature _ recipients _ _ => recipients

def perform (request : OutputRequest) (tx : TransactionImpl) : TransactionImpl :=
  match request with
  | key amount recipient => tx.addOutput keys unwritten amount recipient
  | multisignature amount recipients requiredSignatures term =>
    tx.addMultisignatureOutput keys unwritten amount recipients requiredSignatures term

end OutputRequest

/-- The transaction that a sequence of calls assembles. -/
def assemble (secretKey : SecretKey) (requests : List OutputRequest) : TransactionImpl :=
  requests.foldl (fun tx request => request.perform keys unwritten tx) (.create secretKey)

end

/-- The number of keys of an output. -/
def TransactionOutput.keyCount (output : TransactionOutput) : Nat :=
  match output.target with
  | .key _ => 1
  | .multisignature target => target.keys.length

/-- What a scanner gets from the keys of the output at `index` with `keyIndex` keys before it. `hit`
looks at a key and its number. -/
def hitsOf {κ : Type} (hit : PublicKey → Nat → Option κ) (keyIndex index : Nat)
    (output : TransactionOutput) : List κ :=
  match output.target with
  | .key key => (hit key keyIndex).toList
  | .multisignature target => target.keys.filterMap fun key => hit key index

/-- The loop of the scanners. -/
def scanOutputs {κ : Type} (hit : PublicKey → Nat → Option κ) :
    Nat → Nat → List TransactionOutput → List (κ × Nat × TransactionOutput)
  | _, _, [] => []
  | keyIndex, index, output :: outputs =>
    ((hitsOf hit keyIndex index output).map fun a => (a, index, output)) ++
      scanOutputs hit (keyIndex + output.keyCount) (index + 1) outputs

section

variable (keys : KeyCrypto) (unwritten : Unwritten)

/-- `checkOutputKey`: the spend key the output is for, if it is one of those looked for. -/
def checkOutputKey (derivation : KeyDerivation) (spendKeys : List PublicKey) (key : PublicKey)
    (keyIndex : Nat) : Option PublicKey :=
  let spendKey := (keys.underivePublicKey derivation keyIndex key).getD unwritten.publicKey
  if spendKey ∈ spendKeys then some spendKey else none

/-- `findMyOutputs`: spend keys with the positions of their outputs, in the order in which they are
found. -/
def findMyOutputs (outputs : List TransactionOutput) (txPublicKey : PublicKey)
    (viewSecretKey : SecretKey) (spendKeys : List PublicKey) : List (PublicKey × Nat) :=
  match keys.generateKeyDerivation txPublicKey viewSecretKey with
  | none => []
  | some derivation =>
    (scanOutputs (checkOutputKey keys unwritten derivation spendKeys) 0 0 outputs).map
      fun found => (found.1, found.2.1)

/-- The entry of a spend key in the map of `findMyOutputs`. -/
def outputsOf (spendKey : PublicKey) (found : List (PublicKey × Nat)) : List Nat :=
  found.filterMap fun entry => if entry.1 = spendKey then some entry.2 else none

/-- `is_out_to_acc` and `isOutToKey`. -/
def isOutToKey (derivation : KeyDerivation) (spendPublicKey outKey : PublicKey) (keyIndex : Nat) :
    Bool :=
  (keys.derivePublicKey derivation keyIndex spendPublicKey).getD unwritten.publicKey == outKey

/-- `findOutputsToAccount`: the positions of the outputs, and the sum of those with a key. -/
def findOutputsToAccount (outputs : List TransactionOutput) (txPublicKey : PublicKey)
    (address : AccountPublicAddress) (viewSecretKey : SecretKey) : List Nat × Nat :=
  let derivation :=
    (keys.generateKeyDerivation txPublicKey viewSecretKey).getD unwritten.derivation
  let found := scanOutputs (fun key keyIndex =>
    if isOutToKey keys unwritten derivation address.spendPublicKey key keyIndex then
      some () else none) 0 0 outputs
  (found.map fun entry => entry.2.1,
    found.foldl (fun amount entry =>
      match entry.2.2.target with
      | .key _ => add64 amount entry.2.2.amount
      | .multisignature _ => amount) 0)

/-- `generate_key_image_helper`: the one-time keys of an output and its key image. -/
def generateKeyImageHelper (account : AccountKeys) (txPublicKey : PublicKey)
    (realOutputIndex : Nat) : Option (KeyPair × KeyImage) :=
  match keys.generateKeyDerivation txPublicKey account.viewSecretKey with
  | none => none
  | some derivation =>
    match keys.derivePublicKey derivation realOutputIndex account.address.spendPublicKey with
    | none => none
    | some publicKey =>
      let secretKey := keys.deriveSecretKey derivation realOutputIndex account.spendSecretKey
      some (⟨publicKey, secretKey⟩, keys.generateKeyImage publicKey secretKey)

/-- A transaction as the wallet reads it, with its outputs. -/
structure ScannedTransaction extends TransactionReader where
  outputs : List TransactionOutput
  deriving DecidableEq, Repr

/-- The target of a transfer, with the key image of a key output. -/
def transferTarget (account : AccountKeys) (txPublicKey : PublicKey) (index : Nat) :
    TransactionOutputTarget → TransferTarget
  | .key key => .key (((generateKeyImageHelper keys account txPublicKey index).map Prod.snd).getD
      unwritten.keyImage) key
  | .multisignature target => .multisignature target.requiredSignatureCount target.term

/-- The body of the loop of `createTransfers`; the hash of the transaction is filled in later. A
global index that the node did not give is read out of bounds. -/
def createTransfer (account : AccountKeys) (block : TransactionBlockInfo) (tx : ScannedTransaction)
    (globalIdxs : List Nat) (id index : Nat) (output : TransactionOutput) :
    Except Fault TransactionOutputInformationIn :=
  match if block.height = unconfirmedTransactionHeight then
      some unconfirmedTransactionGlobalOutputIndex else globalIdxs[index]? with
  | none => .error .undefined
  | some globalOutputIndex =>
    .ok
      { amount := output.amount
        globalOutputIndex
        outputInTransaction := index
        transactionHash := tx.transactionHash
        transactionPublicKey := tx.transactionPublicKey
        target := transferTarget keys unwritten account tx.transactionPublicKey index output.target
        id }

/-- `createTransfers`: the transfers of the outputs at the given positions, and whether all
positions exist. -/
def createTransfers (account : AccountKeys) (block : TransactionBlockInfo) (tx : ScannedTransaction)
    (globalIdxs : List Nat) (id : Nat) : List Nat →
    Except Fault (List TransactionOutputInformationIn × Bool)
  | [] => .ok ([], true)
  | index :: indexes =>
    match tx.outputs[index]? with
    | none => .ok ([], false)
    | some output =>
      match createTransfer keys unwritten account block tx globalIdxs id index output with
      | .error fault => .error fault
      | .ok transfer =>
        match createTransfers account block tx globalIdxs id indexes with
        | .error fault => .error fault
        | .ok (transfers, complete) => .ok (transfer :: transfers, complete)

end

/-- Keys to evaluate the model with: a derived key is the sum of its parts. -/
def KeyCrypto.additive : KeyCrypto where
  secretKeyToPublicKey s := s
  generateKeyDerivation key secret := some (key * secret)
  derivePublicKey derivation n base := some (base + (derivation + BitVec.ofNat 256 n))
  deriveSecretKey derivation n base := base + (derivation + BitVec.ofNat 256 n)
  underivePublicKey derivation n key := some (key - (derivation + BitVec.ofNat 256 n))
  generateKeyImage key secret := key + secret

/-- All variables hold zero. -/
def Unwritten.zero : Unwritten := ⟨0, 0, 0, 0, 0⟩

end DarknetCoin
