import DarknetCoin.Model.TransfersStorage
import DarknetCoin.Model.WalletOutputs

/-!
# Wallet files

`WalletLegacySerializer`, the `serialize` functions of the records of a wallet, and the parts of
`WalletLegacy`, `AccountBase` and `WalletUserTransactionsCache` that load, save and reset. With
version 3 in `m_wallet_version` the records have the number of their address group. `serializeBM`
sets it; `serialize` leaves it as it happens to be and writes the version 2 into the file, which is
what the reader goes by.

The serialiser of transactions, the cipher, the check of keys and the reading of payment ids are
parameters. Files of version 1 are left out.
-/

namespace DarknetCoin

open Data

/-- The keys of an address group, with its number and name. -/
structure GroupKeys extends AccountKeys where
  name : String

structure AccountBase where
  keys : GroupKeys
  keysBM : List GroupKeys
  creationTimestamp : Nat

def AccountBase.getAccountKeys (account : AccountBase) : GroupKeys :=
  account.keysBM.headD account.keys

structure StoredTransaction extends WalletLegacyTransaction where
  firstTransferId : Option Nat
  transferCount : Nat
  isCoinbase : Bool
  blockHeight : Nat
  timestamp : Nat
  unlockTime : Nat
  extra : String
  messages : List String
  sentTime : Nat
  id : Nat

structure StoredTransfer extends WalletLegacyTransfer where
  id : Nat

/-- `DepositInfo`, with the numbers of the group in it and in its deposit. -/
structure StoredDeposit extends Deposit where
  id : Nat
  infoId : Nat

structure StoredUnconfirmed (τ : Type) extends UnconfirmedTransferDetails where
  tx : τ
  id : Nat

structure StoredSpentDeposit extends UnconfirmedSpentDepositDetails where
  id : Nat

/-- `WalletUserTransactionsCache`, for a type of transactions. -/
structure LegacyCache (τ : Type) where
  transactions : List StoredTransaction
  transactionsBM : List StoredTransaction
  transfers : List StoredTransfer
  deposits : List StoredDeposit
  transactionOutputToDepositIndex : AList fun _ : TransactionOutputKey => DepositId
  paymentsIndex : AList fun _ : Hash => List Nat
  unconfirmedTxs : AList fun _ : Hash => StoredUnconfirmed τ
  usedOutputs : Finset TransactionOutputId
  createdDeposits : AList fun _ : DepositId => Nat
  spentDeposits : AList fun _ : Hash => StoredSpentDeposit

structure LegacyWallet (τ : Type) where
  account : AccountBase
  cache : LegacyCache τ

variable {τ : Type}

def LegacyCache.empty : LegacyCache τ := ⟨[], [], [], [], ∅, ∅, ∅, ∅, ∅, ∅⟩

/-- An identifier; the greatest word is the invalid one. -/
def idCodec : Layout UInt8 (Option Nat) :=
  word64Codec.map (fun id => if id = word64 - 1 then none else some id) fun id =>
    id.getD (word64 - 1)

def signedCodec : Layout UInt8 Int :=
  word64Codec.map (fun value => (value : Int).bmod word64) fun value =>
    (value % (word64 : Int)).toNat

/-- The states in the order of their enumeration. -/
def stateCodec : Layout UInt8 WalletLegacyTransactionState :=
  (word8Codec.check (· < 5)).map
    (fun n => match n with
      | 0 => .active | 1 => .deleted | 2 => .sending | 3 => .cancelled | _ => .failed)
    fun | .active => 0 | .deleted => 1 | .sending => 2 | .cancelled => 3 | .failed => 4

/-- The number of a group, which a serialiser of another version does not have. -/
def groupCodec (bm : Bool) : Layout UInt8 Nat := if bm then word8Codec else .done accountOwnId

structure KeysStorage where
  creationTimestamp : Nat
  keys : GroupKeys

def KeysStorage.null : KeysStorage := ⟨0, ⟨⟨⟨0, 0⟩, 0, 0, 0⟩, ""⟩⟩

def KeysStorage.codec (bm : Bool) : Layout UInt8 KeysStorage :=
  .field word64Codec (·.creationTimestamp) fun creationTimestamp =>
  .field digestCodec (·.keys.address.spendPublicKey) fun spendPublicKey =>
  .field digestCodec (·.keys.spendSecretKey) fun spendSecretKey =>
  .field digestCodec (·.keys.address.viewPublicKey) fun viewPublicKey =>
  .field digestCodec (·.keys.viewSecretKey) fun viewSecretKey =>
  .field (groupCodec bm) (·.keys.id) fun id =>
  .field (if bm then stringCodec else .done "group_0") (·.keys.name) fun name =>
  .done ⟨creationTimestamp,
    ⟨⟨⟨spendPublicKey, viewPublicKey⟩, spendSecretKey, viewSecretKey, id⟩, name⟩⟩

/-- The groups. They are counted with a byte, which wraps around for more than it holds. -/
def keysCodec (bm : Bool) : Layout UInt8 (List KeysStorage) :=
  if bm then .array (word64Codec.check (· < 256)) (KeysStorage.codec true)
  else (KeysStorage.codec false).map ([·]) (·.headD .null)

def StoredTransaction.codec (bm : Bool) : Layout UInt8 StoredTransaction :=
  .field idCodec (·.firstTransferId) fun firstTransferId =>
  .field word64Codec (·.transferCount) fun transferCount =>
  .field idCodec (·.firstDepositId) fun firstDepositId =>
  .field word64Codec (·.depositCount) fun depositCount =>
  .field signedCodec (·.totalAmount) fun totalAmount =>
  .field word64Codec (·.fee) fun fee =>
  .field digestCodec (·.hash) fun hash =>
  .field boolCodec (·.isCoinbase) fun isCoinbase =>
  .field heightCodec (·.blockHeight) fun blockHeight =>
  .field word64Codec (·.timestamp) fun timestamp =>
  .field word64Codec (·.unlockTime) fun unlockTime =>
  .field stringCodec (·.extra) fun extra =>
  .field stateCodec (·.state) fun state =>
  .field (sequenceCodec stringCodec) (·.messages) fun messages =>
  .field (groupCodec bm) (·.id) fun id =>
  .done { firstTransferId, transferCount, firstDepositId, depositCount, totalAmount, fee, hash,
          isCoinbase, blockHeight, timestamp, unlockTime, extra, state, messages, id
          sentTime := 0 }

def StoredTransfer.codec (bm : Bool) : Layout UInt8 StoredTransfer :=
  .field stringCodec (·.address) fun address =>
  .field signedCodec (·.amount) fun amount =>
  .field (groupCodec bm) (·.id) fun id =>
  .done ⟨⟨address, amount⟩, id⟩

def StoredDeposit.codec (bm : Bool) : Layout UInt8 StoredDeposit :=
  .field word64Codec (·.creatingTransactionId) fun creatingTransactionId =>
  .field idCodec (·.spendingTransactionId) fun spendingTransactionId =>
  .field word32Codec (·.term) fun term =>
  .field word64Codec (·.amount) fun amount =>
  .field word64Codec (·.interest) fun interest =>
  .field boolCodec (·.locked) fun locked =>
  .field (groupCodec bm) (·.id) fun id =>
  .field word32Codec (·.outputInTransaction) fun outputInTransaction =>
  .field (groupCodec bm) (·.infoId) fun infoId =>
  .done ⟨⟨creatingTransactionId, spendingTransactionId, term, amount, interest,
    locked, outputInTransaction⟩, id, infoId⟩

/-- The outputs a transaction uses are not stored. -/
def StoredUnconfirmed.codec (txCodec : Layout UInt8 τ) (bm : Bool) :
    Layout UInt8 (StoredUnconfirmed τ) :=
  .field txCodec (·.tx) fun tx =>
  .field word64Codec (·.amount) fun amount =>
  .field word64Codec (·.outsAmount) fun outsAmount =>
  .field word64Codec (·.sentTime) fun sentTime =>
  .field word64Codec (·.transactionId) fun transactionId =>
  .field (groupCodec bm) (·.id) fun id =>
  .done ⟨⟨amount, outsAmount, sentTime, transactionId, []⟩, tx, id⟩

def StoredSpentDeposit.codec (bm : Bool) : Layout UInt8 StoredSpentDeposit :=
  .field word64Codec (·.transactionId) fun transactionId =>
  .field word64Codec (·.depositsSum) fun depositsSum =>
  .field word64Codec (·.fee) fun fee =>
  .field (groupCodec bm) (·.id) fun id =>
  .done ⟨⟨transactionId, depositsSum, fee⟩, id⟩

/-- An entry of a map. -/
def entryCodec {α β : Type} (key : Layout UInt8 α) (value : Layout UInt8 β) :
    Layout UInt8 ((_ : α) × β) :=
  .field key (·.1) fun a => .field value (·.2) fun b => .done ⟨a, b⟩

/-- What is stored of a cache. -/
structure SavedCache (τ : Type) where
  transactions : List StoredTransaction
  transactionsBM : List StoredTransaction
  transfers : List StoredTransfer
  unconfirmedTxs : List ((_ : Hash) × StoredUnconfirmed τ)
  createdDeposits : List ((_ : DepositId) × Nat)
  spentDeposits : List ((_ : Hash) × StoredSpentDeposit)
  deposits : List StoredDeposit

/-- `WalletUserTransactionsCache::serialize`. -/
def SavedCache.codec (txCodec : Layout UInt8 τ) (bm : Bool) : Layout UInt8 (SavedCache τ) :=
  .field (sequenceCodec (StoredTransaction.codec bm)) (·.transactions) fun transactions =>
  .field (if bm then sequenceCodec (StoredTransaction.codec true) else .done []) (·.transactionsBM)
      fun transactionsBM =>
  .field (sequenceCodec (StoredTransfer.codec bm)) (·.transfers) fun transfers =>
  .field (sequenceCodec (entryCodec digestCodec (StoredUnconfirmed.codec txCodec bm)))
    (·.unconfirmedTxs) fun unconfirmedTxs =>
  .field (sequenceCodec (entryCodec word64Codec word64Codec)) (·.createdDeposits)
      fun createdDeposits =>
  .field (sequenceCodec (entryCodec digestCodec (StoredSpentDeposit.codec bm))) (·.spentDeposits)
      fun spentDeposits =>
  .field (sequenceCodec (StoredDeposit.codec bm)) (·.deposits) fun deposits =>
  .done ⟨transactions, transactionsBM, transfers, unconfirmedTxs, createdDeposits,
    spentDeposits, deposits⟩

/-- A file before it is encrypted; it has details or not. -/
structure PlainWallet (τ : Type) where
  keys : List KeysStorage
  details : Option (SavedCache τ)
  cache : List UInt8

/-- The layout, for the serialiser of the keys and of the details. -/
def PlainWallet.codec (txCodec : Layout UInt8 τ) (bm detailsBM : Bool) :
    Layout UInt8 (PlainWallet τ) :=
  .field (keysCodec bm) (·.keys) fun keys =>
  .field (.option boolCodec (SavedCache.codec txCodec detailsBM)) (·.details) fun details =>
  .field blobCodec (·.cache) fun cache =>
  .done ⟨keys, details, cache⟩

structure EncryptedFile where
  version : Nat
  iv : List UInt8
  data : List UInt8

def EncryptedFile.codec : Layout UInt8 EncryptedFile :=
  .field word32Codec (·.version) fun version =>
  .field (bytesCodec 8) (·.iv) fun iv =>
  .field blobCodec (·.data) fun data =>
  .done ⟨version, iv, data⟩

/-- What a file has of a cache. -/
def LegacyCache.saved (cache : LegacyCache τ) : SavedCache τ :=
  ⟨cache.transactions, cache.transactionsBM, cache.transfers, cache.unconfirmedTxs.entries,
    cache.createdDeposits.entries, cache.spentDeposits.entries, cache.deposits⟩

/-- What is outside of a wallet: the serialiser of transactions, the cipher, the test of a pair of
keys and of a public key, and the payment id of an extra field. -/
structure WalletContext (τ : Type) where
  txCodec : Layout UInt8 τ
  chacha8 : String → List UInt8 → List UInt8 → List UInt8
  verifyKeys : SecretKey → PublicKey → Bool
  checkKey : PublicKey → Bool
  paymentId : String → Option Hash
  mempoolTxLiveTime : Nat

namespace LegacyWallet

variable (ctx : WalletContext τ)

/-- What a file has of a wallet; one without address groups has the first one only. -/
def plain (bm saveDetailed : Bool) (cache : List UInt8) (w : LegacyWallet τ) : PlainWallet τ :=
  let keys := if bm then w.account.keysBM else [w.account.getAccountKeys]
  ⟨keys.map (⟨w.account.creationTimestamp, ·⟩), if saveDetailed then some w.cache.saved
    else none, cache⟩

/-- `serialize` (`bm` is false) and `serializeBM`. `unsetVersion` is the version of the serialiser
that `serialize` does not set. -/
def serialize (bm : Bool) (unsetVersion : Nat) (password : String) (iv : List UInt8)
    (saveDetailed : Bool) (cache : List UInt8) (w : LegacyWallet τ) : List UInt8 :=
  let detailsBM := bm || unsetVersion == walletVersionBM
  EncryptedFile.codec.write ⟨if bm then walletVersionBM else 2, iv,
    ctx.chacha8 password iv ((PlainWallet.codec ctx.txCodec bm detailsBM).write
      (w.plain bm saveDetailed cache))⟩

end LegacyWallet

namespace LegacyCache

def updateUnconfirmedTransactions (cache : LegacyCache τ) : LegacyCache τ :=
  { cache with
    unconfirmedTxs := cache.transactions.zipIdx.foldl (fun unconfirmedTxs (transaction, id) =>
      if transaction.blockHeight = unconfirmedTransactionHeight then
        match unconfirmedTxs.lookup transaction.hash with
        | none => unconfirmedTxs
        | some details =>
          unconfirmedTxs.insert transaction.hash { details with transactionId := id }
      else unconfirmedTxs) cache.unconfirmedTxs }

/-- Whether an unconfirmed transaction is outdated, at a time. -/
def outdated (mempoolTxLiveTime now : Nat) (details : StoredUnconfirmed τ) : Bool :=
  details.sentTime ≤ now - mempoolTxLiveTime

def deleteOutdatedTransactions (mempoolTxLiveTime now : Nat) (cache : LegacyCache τ) :
    LegacyCache τ :=
  let deleted := cache.unconfirmedTxs.entries.filter fun entry =>
    outdated mempoolTxLiveTime now entry.2
  { cache with
    unconfirmedTxs := deleted.foldl (fun unconfirmedTxs entry => unconfirmedTxs.erase entry.1)
      cache.unconfirmedTxs
    usedOutputs := deleted.foldl
      (fun usedOutputs entry => usedOutputs \ entry.2.usedOutputs.toFinset)
      cache.usedOutputs
    transactions := deleted.foldl
      (fun transactions entry => transactions.modify entry.2.transactionId
      fun transaction => { transaction with state := .deleted }) cache.transactions }

/-- `restoreTransactionOutputToDepositIndex`; a transaction that is not there has an arbitrary
hash. -/
def restoreTransactionOutputToDepositIndex (cache : LegacyCache τ) : LegacyCache τ :=
  { cache with
    transactionOutputToDepositIndex := cache.deposits.zipIdx.foldl (fun index (deposit, id) =>
      index.insert ⟨((cache.transactions[deposit.creatingTransactionId]?).map (·.hash)).getD 0,
        deposit.outputInTransaction⟩ id) ∅ }

def rebuildPaymentsIndex (paymentId : String → Option Hash) (cache : LegacyCache τ) :
    LegacyCache τ :=
  { cache with
    paymentsIndex := cache.transactions.zipIdx.foldl (fun index (transaction, id) =>
      if transaction.state = .active ∧ transaction.blockHeight ≠ unconfirmedTransactionHeight ∧
          0 < transaction.totalAmount ∧ transaction.extra ≠ "" then
        match paymentId transaction.extra with
        | none => index
        | some payment => index.insert payment ((index.lookup payment).getD [] ++ [id])
      else index) cache.paymentsIndex }

/-- The members a file is read into: vectors are replaced, and new entries are inserted into
maps. -/
def withSaved (saved : SavedCache τ) (cache : LegacyCache τ) : LegacyCache τ :=
  let unconfirmedTxs := saved.unconfirmedTxs.foldl (fun map entry =>
    if entry.1 ∈ map then map else map.insert entry.1 entry.2) cache.unconfirmedTxs
  { cache with
    transactions := saved.transactions
    transactionsBM := saved.transactionsBM
    transfers := saved.transfers
    deposits := saved.deposits
    unconfirmedTxs
    usedOutputs := (unconfirmedTxs.entries.flatMap fun entry => entry.2.usedOutputs).toFinset
    createdDeposits := saved.createdDeposits.foldl (fun map entry =>
      if entry.1 ∈ map then map else map.insert entry.1 entry.2) cache.createdDeposits
    spentDeposits := saved.spentDeposits.foldl (fun map entry =>
      if entry.1 ∈ map then map else map.insert entry.1 entry.2) cache.spentDeposits }

/-- What `WalletUserTransactionsCache::serialize` does with an input. -/
def load (ctx : WalletContext τ) (now : Nat) (saved : SavedCache τ) (cache : LegacyCache τ) :
    LegacyCache τ :=
  (((cache.withSaved saved).updateUnconfirmedTransactions.deleteOutdatedTransactions
    ctx.mempoolTxLiveTime
    now).restoreTransactionOutputToDepositIndex).rebuildPaymentsIndex ctx.paymentId

/-- `reset`, with that of the unconfirmed transactions. -/
def reset (cache : LegacyCache τ) : LegacyCache τ :=
  { cache with transactions := [], transfers := [], unconfirmedTxs := ∅, usedOutputs := ∅ }

end LegacyCache

namespace LegacyWallet

variable (ctx : WalletContext τ)

/-- The test of the keys that were loaded, or were there before. -/
def keysMatch (keys : GroupKeys) : Bool :=
  ctx.verifyKeys keys.viewSecretKey keys.address.viewPublicKey &&
    if keys.spendSecretKey ≠ 0 then ctx.verifyKeys keys.spendSecretKey keys.address.spendPublicKey
    else ctx.checkKey keys.address.spendPublicKey

/-- What is read from a file. -/
def readPlain (password : String) (input : List UInt8) : Option (PlainWallet τ) := do
  let (file, _) ← EncryptedFile.codec.read input
  let bm := file.version == walletVersionBM
  let (plain, _) ← (PlainWallet.codec ctx.txCodec bm bm).read
    (ctx.chacha8 password file.iv file.data)
  pure plain

/-- The account with the keys of a file; the creation time is that of the first ones. -/
def addKeys (plain : PlainWallet τ) (account : AccountBase) : AccountBase :=
  { account with
    keysBM := account.keysBM ++ plain.keys.map (·.keys)
    creationTimestamp := (plain.keys.head?.map (·.creationTimestamp)).getD
      account.creationTimestamp }

/-- `deserialize` of files of the versions 2 and 3, `none` when it throws: the wallet, and the
stored cache of the synchroniser. -/
def deserialize (password : String) (now : Nat) (input : List UInt8) (w : LegacyWallet τ) :
    Option (LegacyWallet τ × List UInt8) := do
  let plain ← readPlain ctx password input
  let account := addKeys plain w.account
  if keysMatch ctx account.getAccountKeys then
    let cache := match plain.details with
      | none => w.cache
      | some saved => w.cache.load ctx now saved
    some (⟨account, cache⟩, plain.cache)
  else none

/-- A new wallet; the keys and the time have no meaning yet. -/
def new (keys : GroupKeys) (creationTimestamp : Nat) : LegacyWallet τ :=
  ⟨⟨keys, [], creationTimestamp⟩, .empty⟩

/-- `shutdown`, of a wallet that is initialised: the account stays. -/
def shutdown (w : LegacyWallet τ) : LegacyWallet τ := { w with cache := w.cache.reset }

end LegacyWallet

end DarknetCoin
