import DarknetCoin.Semantics.Program
import DarknetCoin.Model.Currency

/-!
# Checks and measures of single transactions

`CryptoNoteFormatUtils.cpp` and the size computed by the binary serialiser: what can be said of a
transaction or a block without a chain.
-/

namespace DarknetCoin

open Semantics

/-- The bytes a word takes as a varint. -/
def varintSize (n : Nat) : Nat :=
  1 + (List.range 9).countP fun i => 2 ^ (7 * (i + 1)) ≤ n

def inputBinarySize : TransactionInput → Nat
  | .base input => 1 + varintSize input.blockIndex
  | .key input =>
    1 + varintSize input.amount + varintSize input.outputIndexes.length +
      (input.outputIndexes.map varintSize).sum + 32
  | .multisignature input =>
    1 + varintSize input.amount + varintSize input.signatureCount +
      varintSize input.outputIndex + varintSize input.term

def outputBinarySize (output : TransactionOutput) : Nat :=
  varintSize output.amount + 1 +
    match output.target with
    | .key _ => 32
    | .multisignature out =>
      varintSize out.keys.length + 32 * out.keys.length +
        varintSize out.requiredSignatureCount + varintSize out.term

/-- `getSignaturesCount`: the signatures that belong to an input. -/
def getSignaturesCount : TransactionInput → Nat
  | .base _ => 0
  | .key input => input.outputIndexes.length
  | .multisignature input => input.signatureCount

/-- The serialiser accepts a transaction: a known version, and for every input as many signatures
as it needs (or none at all when no input needs any). -/
def isSerializable (tx : Transaction) : Bool :=
  tx.version ≤ 2 &&
    if tx.signatures = [] then tx.inputs.all fun input => getSignaturesCount input == 0
    else tx.signatures.map List.length == tx.inputs.map getSignaturesCount

/-- `getObjectBinarySize`; the largest word when the transaction cannot be serialised. -/
def getObjectBinarySize (tx : Transaction) : Nat :=
  if isSerializable tx then
    varintSize tx.version + varintSize tx.unlockTime +
      (varintSize tx.inputs.length + (tx.inputs.map inputBinarySize).sum) +
      (varintSize tx.outputs.length + (tx.outputs.map outputBinarySize).sum) +
      (varintSize tx.extra.length + tx.extra.length) +
      64 * (tx.signatures.map List.length).sum
  else word64 - 1

/-- `get_block_height`: the height a block claims in its miner transaction. -/
def getBlockHeight (b : Block) : Nat :=
  match b.baseTransaction.inputs with
  | [.base input] => input.blockIndex
  | _ => 0

/-- `check_inputs_types_supported`. -/
def checkInputsTypesSupported (tx : Transaction) : Bool :=
  tx.inputs.all fun input =>
    match input with
    | .multisignature _ => 2 ≤ tx.version
    | .key _ => true
    | .base _ => false

/-- The loop of `check_outs_valid`. With no place to put the error text, the branch for
multisignature outputs of old versions writes through a null pointer. -/
def checkOutsValidFrom (crypto : Crypto) (hasError : Bool) (version : Nat) :
    List TransactionOutput → Except Fault Bool
  | [] => .ok true
  | out :: outs =>
    match out.target with
    | .key key =>
      if out.amount = 0 then .ok false
      else if !crypto.checkKey key then .ok false
      else checkOutsValidFrom crypto hasError version outs
    | .multisignature target =>
      if version < 2 then if hasError then .ok false else .error .undefined
      else if target.keys.length < target.requiredSignatureCount then .ok false
      else if !target.keys.all crypto.checkKey then .ok false
      else checkOutsValidFrom crypto hasError version outs

/-- `check_outs_valid`. -/
def checkOutsValid (crypto : Crypto) (hasError : Bool) (tx : Transaction) : Except Fault Bool :=
  checkOutsValidFrom crypto hasError tx.version tx.outputs

def checkMultisignatureInputsDiff (tx : Transaction) : Bool :=
  tx.multisignatureReferences.Nodup

/-- `check_tx_inputs_keyimages_diff`. -/
def checkTxInputsKeyimagesDiff (tx : Transaction) : Bool :=
  tx.keyImages.Nodup

/-- The most an input can be worth in `check_inputs_overflow`; `none` when the interest does not
fit. -/
def inputOverflowAmount : TransactionInput → Option Nat
  | .base _ => some 0
  | .key input => some input.amount
  | .multisignature input =>
    if input.term = 0 then some input.amount
    else
      -- the code uses the configured constant here, not the parameter of the currency
      let (lo, hi) := mul128 input.amount 11
      let (maxInterestHi, maxInterestLo) := div128By32 hi lo 100
      if 0 < maxInterestHi then none
      else if word64 - 1 - maxInterestLo < input.amount then none
      else some (add64 input.amount maxInterestLo)

/-- `check_inputs_overflow`, from `money` on. -/
def checkInputsOverflowFrom (money : Nat) : List TransactionInput → Bool
  | [] => true
  | input :: inputs =>
    match inputOverflowAmount input with
    | none => false
    | some amount =>
      if add64 amount money < money then false
      else checkInputsOverflowFrom (add64 money amount) inputs

/-- `check_outs_overflow`, from `money` on. -/
def checkOutsOverflowFrom (money : Nat) : List TransactionOutput → Bool
  | [] => true
  | out :: outs =>
    if add64 out.amount money < money then false
    else checkOutsOverflowFrom (add64 money out.amount) outs

/-- `check_inputs_overflow`. -/
def checkInputsOverflow (tx : Transaction) : Bool := checkInputsOverflowFrom 0 tx.inputs

/-- `check_outs_overflow`. -/
def checkOutsOverflow (tx : Transaction) : Bool := checkOutsOverflowFrom 0 tx.outputs

/-- `validateOutputs` of `TransactionImpl` and of `TransactionPrefixImpl`. -/
def validateOutputs (crypto : Crypto) (tx : Transaction) : Except Fault Bool :=
  match checkOutsValid crypto false tx with
  | .error fault => .error fault
  | .ok valid => .ok (valid && checkOutsOverflow tx)

/-- `check_money_overflow`. -/
def checkMoneyOverflow (tx : Transaction) : Bool :=
  checkInputsOverflow tx && checkOutsOverflow tx

/-- `get_outs_money_amount`. -/
def getOutsMoneyAmount (tx : Transaction) : Nat :=
  tx.outputs.foldl (fun amount out => add64 amount out.amount) 0

/-- `core::check_tx_semantic`. -/
def checkTxSemantic (cur : Currency) (crypto : Crypto) (tx : Transaction) : Except Fault Bool :=
  if tx.inputs = [] then .ok false
  else if !checkInputsTypesSupported tx then .ok false
  else
    match checkOutsValid crypto true tx with
    | .error fault => .error fault
    | .ok false => .ok false
    | .ok true =>
      .ok (checkMoneyOverflow tx &&
        getOutsMoneyAmount tx ≤ cur.getTransactionAllInputsAmount tx &&
        checkTxInputsKeyimagesDiff tx && checkMultisignatureInputsDiff tx)

/-- `relative_output_offsets_to_absolute`: running sums of 32-bit words. -/
def relativeOutputOffsetsToAbsolute : List Nat → List Nat
  | [] => []
  | first :: rest => rest.scanl (fun sum offset => (offset + sum) % word32) first

section Semantic

variable {cur : Currency} {crypto : Crypto} {tx : Transaction}

/-- A transaction the core lets through spends something, spends nothing twice and has only
inputs of the kinds ordinary transactions may have. -/
structure SemanticallyValid (tx : Transaction) : Prop where
  inputs_ne_nil : tx.inputs ≠ []
  inputsTypesSupported : checkInputsTypesSupported tx = true
  keyImages_nodup : tx.keyImages.Nodup
  multisignatureReferences_nodup : tx.multisignatureReferences.Nodup

theorem checkTxSemantic_inv (h : checkTxSemantic cur crypto tx = .ok true) :
    SemanticallyValid tx ∧ checkOutsValid crypto true tx = .ok true ∧
      (checkInputsOverflow tx = true ∧ checkOutsOverflow tx = true) ∧
      getOutsMoneyAmount tx ≤ cur.getTransactionAllInputsAmount tx := by
  unfold checkTxSemantic at h
  split at h
  · cases h
  rename_i hne
  split at h
  · cases h
  rename_i hsupported
  split at h
  · cases h
  · cases h
  rename_i houts
  simp only [Except.ok.injEq, Bool.and_eq_true, checkMoneyOverflow, checkTxInputsKeyimagesDiff,
    checkMultisignatureInputsDiff, decide_eq_true_eq] at h
  obtain ⟨⟨⟨hoverflow, hpaid⟩, himages⟩, hrefs⟩ := h
  exact ⟨⟨hne, by simpa using hsupported, himages, hrefs⟩, houts, hoverflow, hpaid⟩

theorem semanticallyValid_of_checkTxSemantic (h : checkTxSemantic cur crypto tx = .ok true) :
    SemanticallyValid tx :=
  (checkTxSemantic_inv h).1

theorem SemanticallyValid.not_base (h : SemanticallyValid tx) {input : BaseInput} :
    TransactionInput.base input ∉ tx.inputs := by
  intro hmem
  have hall := List.all_eq_true.mp h.inputsTypesSupported _ hmem
  simp at hall

end Semantic

/-- `alias_info`. -/
structure AliasInfo where
  aliasName : List UInt8
  spendPublicKey : PublicKey
  viewPublicKey : PublicKey
  viewKey : BitVec 256
  sign : Signature
  textComment : List UInt8

/-- The error, if there is one. -/
def validateAliasName (al : List UInt8) : Option String :=
  if 255 < al.length then some "Too long alias name, please use name no longer than 255."
  else (al.find? fun ch => ¬(48 ≤ ch ∧ ch ≤ 57 ∨ 97 ≤ ch ∧ ch ≤ 122 ∨ ch = 45 ∨ ch = 46)).map
      fun ch =>
    "Wrong character in alias: " ++ .singleton (.ofNat ch.toNat) ++ "."

open Data.LittleEndian in
def makeTxExtraAliasEntry (alinfo : AliasInfo) (makeBuffToSign : Bool) :
    Except String (List UInt8) :=
  if alinfo.aliasName = [] then .error "alias cant be empty"
  else if alinfo.aliasName.length ≤ 255 then .error "alias is too big size"
  else if alinfo.textComment.length ≤ 255 then .error "alias comment is too big size"
  else
    let (track, viewKey) := if alinfo.viewKey ≠ 0 then (0x02, encode 32 alinfo.viewKey.toNat)
      else (0, [])
    let (update, sign) := if !makeBuffToSign ∧ alinfo.sign ≠ 0 then
      (0x01, encode 64 alinfo.sign.toNat) else (0, [])
    .ok (0x07 :: (track ||| update) :: .ofNat alinfo.aliasName.length :: alinfo.aliasName ++
      encode 32 alinfo.spendPublicKey.toNat ++ encode 32 alinfo.viewPublicKey.toNat ++ viewKey ++
      .ofNat alinfo.textComment.length :: alinfo.textComment ++ sign)

/-- The transaction afterwards, and the error. -/
def addTxExtraAlias (tx : Transaction) (alinfo : AliasInfo) : Transaction × Option String :=
  match makeTxExtraAliasEntry alinfo false with
  | .error err => (tx, some err)
  | .ok buff => ({ tx with extra := tx.extra ++ buff }, none)

end DarknetCoin
