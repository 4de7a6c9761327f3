import DarknetCoin.Model.WalletFile
import DarknetCoin.Model.WalletGreen

/-!
# Files of the wallet of many addresses

`Wallet/WalletSerialization.cpp`, with `unsafeSave` and `filterOutTransactions` of
`Wallet/WalletGreen.cpp`. Each record of a file is encrypted on its own, with an initialisation
vector that counts up. What was read stays in the wallet when the loader throws. The synchroniser,
the serialiser of transactions, the cipher and the test of keys are parameters.
-/

namespace DarknetCoin

open Data Semantics Program

/-- A pointer to a container; the loader puts a number in its place for a while. -/
inductive ContainerPointer
  | null
  | number (i : Nat)
  | subscription (spendPublicKey : PublicKey)
  deriving DecidableEq, Repr

/-- A number as a pointer. -/
def ContainerPointer.ofNumber (i : Nat) : ContainerPointer := if i = 0 then null else number i

theorem ContainerPointer.ofNumber_injective {i j : Nat} (h : ofNumber i = ofNumber j) : i = j := by
  by_cases hi : i = 0 <;> by_cases hj : j = 0 <;> simp_all [ofNumber]

/-- `WalletRecord`. -/
structure AddressRecord where
  spendPublicKey : PublicKey
  spendSecretKey : SecretKey
  container : ContainerPointer
  pendingBalance : Nat
  actualBalance : Nat
  creationTimestamp : Nat
  deriving DecidableEq, Repr

structure UnlockTransactionJob where
  blockHeight : Nat
  container : ContainerPointer
  transactionHash : Hash
  deriving DecidableEq, Repr

/-- A `WalletTransfer`, with the type as it is stored. -/
structure StoredWalletTransfer where
  address : String
  amount : Int
  type : Nat
  deriving DecidableEq, Repr

structure GreenMembers (σ τ : Type) where
  viewPublicKey : PublicKey
  viewSecretKey : SecretKey
  actualBalance : Nat
  pendingBalance : Nat
  wallets : List AddressRecord
  synchronizer : σ
  unlockTransactions : List UnlockTransactionJob
  transactions : List WalletTransaction
  transfers : List (Nat × StoredWalletTransfer)
  uncommitedTransactions : AList fun _ : Nat => τ

/-- What `AccountSubscription` is filled with. -/
structure GreenSubscription where
  viewPublicKey : PublicKey
  spendPublicKey : PublicKey
  viewSecretKey : SecretKey
  spendSecretKey : SecretKey
  transactionSpendableAge : Nat
  syncStart : Nat
  deriving DecidableEq, Repr

/-- What is outside of the wallet. `addSubscription` also adds the observer; `totalAmountIn` is what
the container of an address knows of a transaction. What a file of an old version leaves open is
`unsetType` and `unsetBM`. -/
structure GreenContext (σ τ : Type) where
  txCodec : Layout UInt8 τ
  getObjectHash : τ → Hash
  chacha8 : String → Nat → List UInt8 → List UInt8
  verifyKeys : SecretKey → PublicKey → Bool
  checkKey : PublicKey → Bool
  addSubscription : GreenSubscription → Program σ Unit
  saveSynchronizer : σ → List UInt8
  loadSynchronizer : List UInt8 → Program σ Unit
  initTransactionPool : List Hash → σ → σ
  totalAmountIn : σ → PublicKey → Hash → Option Nat
  transactionSoftLockTime : Nat
  unsetType : Nat
  unsetBM : Bool

variable {σ τ : Type}

def greenStateCodec : Layout UInt8 WalletTransactionState :=
  word8Codec.map
    (fun n => match n with
      | 0 => .succeeded | 1 => .failed | 2 => .cancelled | 3 => .created | 4 => .deleted
      | n => .unknown n)
    fun
      | .succeeded => 0 | .failed => 1 | .cancelled => 2 | .created => 3 | .deleted => 4
      | .unknown n => n

/-- `WalletRecordDto`; the container is not stored. -/
def AddressRecord.codec : Layout UInt8 AddressRecord :=
  .field digestCodec (·.spendPublicKey) fun spendPublicKey =>
  .field digestCodec (·.spendSecretKey) fun spendSecretKey =>
  .field word64Codec (·.pendingBalance) fun pendingBalance =>
  .field word64Codec (·.actualBalance) fun actualBalance =>
  .field word64Codec (·.creationTimestamp) fun creationTimestamp =>
  .done ⟨spendPublicKey, spendSecretKey, .null, pendingBalance, actualBalance, creationTimestamp⟩

/-- `WalletTransactionDto`. -/
def WalletTransaction.codec : Layout UInt8 WalletTransaction :=
  .field greenStateCodec (·.state) fun state =>
  .field word64Codec (·.timestamp) fun timestamp =>
  .field heightCodec (·.blockHeight) fun blockHeight =>
  .field digestCodec (·.hash) fun hash =>
  .field signedCodec (·.totalAmount) fun totalAmount =>
  .field word64Codec (·.fee) fun fee =>
  .field word64Codec (·.creationTime) fun creationTime =>
  .field word64Codec (·.unlockTime) fun unlockTime =>
  .field stringCodec (·.extra) fun extra =>
  .done ⟨state, timestamp, blockHeight, hash, totalAmount, fee, creationTime, unlockTime,
    extra, false⟩

/-- `WalletTransferDto`, of a version after the second. -/
def StoredWalletTransfer.codec : Layout UInt8 StoredWalletTransfer :=
  .field stringCodec (·.address) fun address =>
  .field signedCodec (·.amount) fun amount =>
  .field word8Codec (·.type) fun type =>
  .done ⟨address, amount, type⟩

structure UnlockTransactionJobDto where
  blockHeight : Nat
  transactionHash : Hash
  walletIndex : Nat

def UnlockTransactionJobDto.codec : Layout UInt8 UnlockTransactionJobDto :=
  .field word32Codec (·.blockHeight) fun blockHeight =>
  .field digestCodec (·.transactionHash) fun transactionHash =>
  .field word64Codec (·.walletIndex) fun walletIndex =>
  .done ⟨blockHeight, transactionHash, walletIndex⟩

/-- The counter of the initialisation vectors. -/
def ivCodec : Layout UInt8 Nat := (bytesCodec 8).map LittleEndian.decode (LittleEndian.encode 8)

namespace GreenMembers

/-- `getTransactionTransfers`, of transfers that are sorted. -/
def getTransactionTransfers (transactionId : Nat) (w : GreenMembers σ τ) :
    List StoredWalletTransfer :=
  (w.transfers.filter fun transfer => transfer.1 = transactionId).map (·.2)

/-- `filterOutTransactions`, for the transactions from the one with number `i` on. -/
def filterOutTransactions (pred : WalletTransaction → Bool) (w : GreenMembers σ τ) :
    (i cancelledTransactions : Nat) → List WalletTransaction →
      List WalletTransaction × List (Nat × StoredWalletTransfer)
  | _, _, [] => ([], [])
  | i, cancelledTransactions, transaction :: transactions =>
    if pred transaction then filterOutTransactions pred w (i + 1)
      (cancelledTransactions + 1) transactions
    else
      let (kept, transfers) :=
        filterOutTransactions pred w (i + 1) cancelledTransactions transactions
      (transaction :: kept, (w.getTransactionTransfers i).map
        (i - cancelledTransactions, ·) ++ transfers)

/-- The transactions that are left out of a file. -/
def leftOut (saveCache : Bool) (transaction : WalletTransaction) : Bool :=
  transaction.state = .deleted || !saveCache && transaction.state = .created

/-- The transactions and transfers that `unsafeSave` hands over. -/
def details (saveDetails saveCache : Bool) (w : GreenMembers σ τ) :
    List WalletTransaction × List (Nat × StoredWalletTransfer) :=
  if saveDetails then filterOutTransactions (leftOut saveCache) w 0 0 w.transactions else ([], [])

/-- `saveTransactions` and `saveTransfers`. -/
def detailRecords (transactions : List WalletTransaction)
    (transfers : List (Nat × StoredWalletTransfer)) : List (List UInt8) :=
  (word64Codec.write transactions.length :: transactions.map WalletTransaction.codec.write) ++
  word64Codec.write transfers.length :: transfers.flatMap fun (id, transfer) =>
    [word64Codec.write id, StoredWalletTransfer.codec.write transfer]

/-- `saveBalances`, `saveTransfersSynchronizer`, `saveUnlockTransactionsJobs` and
`saveUncommitedTransactions`. -/
def cacheRecords (ctx : GreenContext σ τ) (w : GreenMembers σ τ) : List (List UInt8) :=
  let jobs := w.unlockTransactions.map fun job =>
    UnlockTransactionJobDto.mk job.blockHeight job.transactionHash
    (w.wallets.findIdx fun wallet => wallet.container = job.container)
  word64Codec.write w.actualBalance :: word64Codec.write w.pendingBalance ::
  blobCodec.write (ctx.saveSynchronizer w.synchronizer) ::
  ((word64Codec.write jobs.length :: jobs.map UnlockTransactionJobDto.codec.write) ++
  [(sequenceCodec (entryCodec word64Codec ctx.txCodec)).write w.uncommitedTransactions.entries])

/-- The records of a file, before they are encrypted. -/
def records (ctx : GreenContext σ τ) (saveDetails saveCache : Bool) (w : GreenMembers σ τ) :
    List (List UInt8) :=
  let (transactions, transfers) := w.details saveDetails saveCache
  digestCodec.write w.viewPublicKey :: digestCodec.write w.viewSecretKey ::
  word64Codec.write w.wallets.length ::
  (w.wallets.map (fun wallet => AddressRecord.codec.write { wallet with
    pendingBalance := if saveCache then wallet.pendingBalance else 0
    actualBalance := if saveCache then wallet.actualBalance else 0 }) ++
  boolCodec.write saveDetails :: boolCodec.write saveCache ::
  ((if saveDetails then detailRecords transactions transfers else []) ++
  if saveCache then cacheRecords ctx w else []))

/-- `serializeEncrypted` of one record after the other. -/
def encrypted (ctx : GreenContext σ τ) (password : String) : Nat → List (List UInt8) → List UInt8
  | _, [] => []
  | iv, plain :: records =>
    blobCodec.write (ctx.chacha8 password iv plain) ++ encrypted ctx password (add64 iv 1) records

def unsafeSave (ctx : GreenContext σ τ) (password : String) (iv : Nat)
    (saveDetails saveCache : Bool) (w : GreenMembers σ τ) : List UInt8 :=
  word32Codec.write 5 ++ ivCodec.write iv ++ encrypted ctx password iv
    (w.records ctx saveDetails saveCache)

end GreenMembers

/-- The members, with the counter of the records. -/
structure Loading (σ τ : Type) where
  iv : Nat
  members : GreenMembers σ τ

namespace GreenFile

variable (ctx : GreenContext σ τ) (password : String)

/-- Write to the members. -/
def update (f : GreenMembers σ τ → GreenMembers σ τ) : Program (Feed UInt8 (Loading σ τ)) Unit :=
  Feed.update fun s => { s with members := f s.members }

/-- Read the members. -/
def members : Program (Feed UInt8 (Loading σ τ)) (GreenMembers σ τ) :=
  Program.read fun s => .ok s.target.members

/-- Call the synchroniser. -/
def synchronizer (call : Program σ Unit) : Program (Feed UInt8 (Loading σ τ)) Unit :=
  Program.zoom (fun s => s.target.members.synchronizer)
    (fun synchronizer s =>
      { s with target := { s.target with members := { s.target.members with synchronizer } } }) call

/-- The part of `deserializeEncrypted` after the cipher was read, and `incIv`. -/
def decrypt {α : Type} (codec : Layout UInt8 α) (cipher : List UInt8) :
    Program (Feed UInt8 (Loading σ τ)) α := fun s =>
  match codec.read (ctx.chacha8 password s.target.iv cipher) with
  | none => .thrown s
  | some (value, _) => .done value { s with target := { s.target with iv := add64 s.target.iv 1 } }

def deserializeEncrypted {α : Type} (codec : Layout UInt8 α) :
    Program (Feed UInt8 (Loading σ τ)) α := do
  let cipher ← Feed.take blobCodec.read
  decrypt ctx password codec cipher

/-- `loadKeys` and `checkKeys`. -/
def loadKeys : Program (Feed UInt8 (Loading σ τ)) Unit := do
  let viewPublicKey ← deserializeEncrypted ctx password digestCodec
  update fun w => { w with viewPublicKey }
  let viewSecretKey ← deserializeEncrypted ctx password digestCodec
  update fun w => { w with viewSecretKey }
  if ctx.verifyKeys viewSecretKey viewPublicKey then pure () else throw

/-- A new wallet record; keys and pointers are unique, and another record with one of them is
refused. -/
def pushWallet (wallet : AddressRecord) (w : GreenMembers σ τ) : GreenMembers σ τ :=
  if w.wallets.any fun other => other.spendPublicKey = wallet.spendPublicKey || other.container =
    wallet.container
  then w else { w with wallets := w.wallets ++ [wallet] }

/-- A new transaction; hashes are unique. -/
def pushTransaction (transaction : WalletTransaction) (w : GreenMembers σ τ) : GreenMembers σ τ :=
  if w.transactions.any fun other => other.hash = transaction.hash then w
  else { w with transactions := w.transactions ++ [transaction] }

/-- A record of `loadWallets`; the addresses before it are for tracking only, or are not. -/
def loadRecord (isTrackingMode : Option Bool) :
    Program (Feed UInt8 (Loading σ τ)) AddressRecord := do
  let dto ← deserializeEncrypted ctx password AddressRecord.codec
  if isTrackingMode.any (· != decide (dto.spendSecretKey = 0)) then throw
  else if dto.spendSecretKey ≠ 0 then
    if ctx.verifyKeys dto.spendSecretKey dto.spendPublicKey then pure dto else throw
  else if ctx.checkKey dto.spendPublicKey then pure dto
  else throw

/-- The loop of `loadWallets`, with the number of the record. -/
def loadWallets : (count i : Nat) → Option Bool → Program (Feed UInt8 (Loading σ τ)) Unit
  | 0, _, _ => pure ()
  | count + 1, i, isTrackingMode => do
    let dto ← loadRecord ctx password isTrackingMode
    update (pushWallet { dto with container := .ofNumber i })
    loadWallets count (i + 1) (some (isTrackingMode.getD (decide (dto.spendSecretKey = 0))))

def subscribeWallets : List AddressRecord → Program (Feed UInt8 (Loading σ τ)) Unit
  | [] => pure ()
  | wallet :: wallets => do
    let w ← members
    synchronizer (ctx.addSubscription
      ⟨w.viewPublicKey, wallet.spendPublicKey, w.viewSecretKey, wallet.spendSecretKey,
      ctx.transactionSoftLockTime, max wallet.creationTimestamp 86400 - 86400⟩)
    update fun w => { w with wallets := w.wallets.map fun other =>
      if other.spendPublicKey = wallet.spendPublicKey
      then { other with container := .subscription wallet.spendPublicKey } else other }
    subscribeWallets wallets

def loadTransactions : Program (Feed UInt8 (Loading σ τ)) Unit := do
  let count ← deserializeEncrypted ctx password word64Codec
  times (do
    let dto ← deserializeEncrypted ctx password WalletTransaction.codec
    update (pushTransaction dto)) count

def loadTransfers : Program (Feed UInt8 (Loading σ τ)) Unit := do
  let count ← deserializeEncrypted ctx password word64Codec
  times (do
    let id ← deserializeEncrypted ctx password word64Codec
    let dto ← deserializeEncrypted ctx password StoredWalletTransfer.codec
    update fun w => { w with transfers := w.transfers ++ [(id, dto)] }) count

def updateTransfersSign (w : GreenMembers σ τ) : GreenMembers σ τ :=
  { w with transfers := w.transfers.filterMap fun (id, transfer) =>
      if transfer.amount < 0 then some (id, { transfer with amount := -transfer.amount })
        else none }

def loadUnlockTransactionsJobs : Program (Feed UInt8 (Loading σ τ)) Unit := do
  let count ← deserializeEncrypted ctx password word64Codec
  times (do
    let dto ← deserializeEncrypted ctx password UnlockTransactionJobDto.codec
    let w ← members
    match w.wallets[dto.walletIndex]? with
    | none => undefined
    | some wallet => update fun w => { w with unlockTransactions :=
        w.unlockTransactions ++ [⟨dto.blockHeight, wallet.container, dto.transactionHash⟩] }) count

/-- `loadUncommitedTransactions`: entries that are new are inserted. -/
def insertUncommited (entries : List ((_ : Nat) × τ)) (w : GreenMembers σ τ) : GreenMembers σ τ :=
  { w with uncommitedTransactions := entries.foldl (fun map entry =>
      if entry.1 ∈ map then map else map.insert entry.1 entry.2) w.uncommitedTransactions }

def initTransactionPool (w : GreenMembers σ τ) : GreenMembers σ τ :=
  let hashes := w.uncommitedTransactions.entries.map fun entry => ctx.getObjectHash entry.2
  { w with synchronizer := ctx.initTransactionPool hashes w.synchronizer }

/-- `loadBalances` and the rest of what is stored as a cache. -/
def loadCache : Program (Feed UInt8 (Loading σ τ)) Unit := do
  let actualBalance ← deserializeEncrypted ctx password word64Codec
  update fun w => { w with actualBalance }
  let pendingBalance ← deserializeEncrypted ctx password word64Codec
  update fun w => { w with pendingBalance }
  let deciphered ← deserializeEncrypted ctx password blobCodec
  synchronizer (ctx.loadSynchronizer deciphered)
  loadUnlockTransactionsJobs ctx password
  let uncommited ← deserializeEncrypted ctx password
    (sequenceCodec (entryCodec word64Codec ctx.txCodec))
  update (insertUncommited uncommited)
  update (initTransactionPool ctx)

def resetCachedBalance (w : GreenMembers σ τ) : GreenMembers σ τ :=
  { w with
    wallets := w.wallets.map fun wallet =>
      { wallet with actualBalance := 0, pendingBalance := 0 } }

/-- `updateTransactionsBaseStatus`: what the first address that knows a transaction says of it. -/
def updateTransactionsBaseStatus (w : GreenMembers σ τ) : GreenMembers σ τ :=
  { w with transactions := w.transactions.map fun transaction => { transaction with
      isBase := w.wallets.findSome?
        (fun wallet => ctx.totalAmountIn w.synchronizer wallet.spendPublicKey
        transaction.hash) = some 0 } }

/-- `loadTransactions` and `loadTransfers`, if there are details. -/
def loadDetails (details : Bool) : Program (Feed UInt8 (Loading σ τ)) Unit :=
  if details then do
    loadTransactions ctx password
    loadTransfers ctx password
  else pure ()

/-- What `loadWallet` does after the details. -/
def loadRest (version : Nat) (details cache : Bool) : Program (Feed UInt8 (Loading σ τ)) Unit :=
  if version < 5 then update fun w => resetCachedBalance (updateTransfersSign w)
  else if cache then do
    loadCache ctx password
    update fun w => if details then updateTransactionsBaseStatus ctx w else w
  else update resetCachedBalance

/-- The part of `loadWallet` that reads records. -/
def loadRecords (version : Nat) : Program (Feed UInt8 (Loading σ τ)) Unit := do
  loadKeys ctx password
  let count ← deserializeEncrypted ctx password word64Codec
  loadWallets ctx password count 0 none
  let w ← members
  subscribeWallets ctx w.wallets
  let details ← deserializeEncrypted ctx password boolCodec
  let cache ← deserializeEncrypted ctx password boolCodec
  loadDetails ctx password details
  loadRest ctx password version details cache

def loadWallet (version : Nat) : Program (Feed UInt8 (Loading σ τ)) Unit := do
  let iv ← Feed.take ivCodec.read
  Feed.update fun s => { s with iv }
  loadRecords ctx password version

/-- The transfers of a transaction of an old file. -/
def pushTransfers (id : Nat) (transfers : List StoredTransfer) (w : GreenMembers σ τ) :
    GreenMembers σ τ :=
  { w with transfers := w.transfers ++ transfers.map fun transfer =>
      (id, ⟨transfer.address, transfer.amount, ctx.unsetType⟩) }

def addWalletV1Details (transfers : List StoredTransfer) :
    Nat → List StoredTransaction → Program (Feed UInt8 (Loading σ τ)) Unit
  | _, [] => pure ()
  | id, tx :: txs => do
    update (pushTransaction ⟨.succeeded, tx.timestamp, tx.blockHeight, tx.hash, tx.totalAmount,
      tx.fee, tx.sentTime, tx.unlockTime, tx.extra, tx.isCoinbase⟩)
    match tx.firstTransferId with
    | none => addWalletV1Details transfers (id + 1) txs
    | some first =>
      if tx.transferCount ≠ 0 ∧ transfers.length < add64 first tx.transferCount then throw
      else do
        update (pushTransfers ctx id ((transfers.take (add64 first tx.transferCount)).drop first))
        addWalletV1Details transfers (id + 1) txs

/-- `loadWalletV1`, from the decrypted part of the file. -/
def loadPlainV1 : Program (Feed UInt8 (Loading σ τ)) Unit := do
  let storage ← Feed.take (KeysStorage.codec false).read
  update fun w => pushWallet ⟨storage.keys.address.spendPublicKey, storage.keys.spendSecretKey,
    .null, 0, 0, storage.creationTimestamp⟩ { w with
      viewPublicKey := storage.keys.address.viewPublicKey
      viewSecretKey := storage.keys.viewSecretKey }
  if ctx.verifyKeys storage.keys.viewSecretKey storage.keys.address.viewPublicKey then do
    let w ← members
    subscribeWallets ctx w.wallets
    let detailsSaved ← Feed.take boolCodec.read
    if detailsSaved then do
      let txs ← Feed.take (sequenceCodec (StoredTransaction.codec ctx.unsetBM)).read
      let transfers ← Feed.take (sequenceCodec (StoredTransfer.codec ctx.unsetBM)).read
      addWalletV1Details ctx transfers 0 txs
    else pure ()
  else throw

def loadWalletV1 : Program (Feed UInt8 (Loading σ τ)) Unit := do
  let iv ← Feed.take ivCodec.read
  let cipher ← Feed.take blobCodec.read
  Program.modify fun s => { s with input := ctx.chacha8 password iv cipher }
  loadPlainV1 ctx

def load : Program (Feed UInt8 (Loading σ τ)) Unit := do
  let version ← Feed.take word32Codec.read
  if version > 5 then throw
  else if version > 2 then loadWallet ctx password version
  else loadWalletV1 ctx password

def unsafeLoad (input : List UInt8) : Program (GreenMembers σ τ) Unit := fun w =>
  (load ctx password ⟨input, ⟨0, w⟩⟩).mapState fun s => s.target.members

end GreenFile

/-- A new wallet; the keys have no meaning yet. -/
def GreenMembers.new (viewPublicKey : PublicKey) (viewSecretKey : SecretKey) (synchronizer : σ) :
    GreenMembers σ τ :=
  ⟨viewPublicKey, viewSecretKey, 0, 0, [], synchronizer, [], [], [], ∅⟩

/-! ### Balances

The part of `Wallet/WalletGreen.cpp` that keeps balances. They are not read from the containers but
stored with the addresses, and brought up to date when a transaction of an address changes, and at
heights at which outputs are expected to unlock; these are kept in a queue of jobs.

Of the transactions of the wallet only the hashes are modelled. The containers are those of the
moment in which a notification is handled. -/

abbrev Containers := ContainerPointer → TransfersContainer

structure GreenBalances where
  wallets : List AddressRecord
  actualBalance : Nat
  pendingBalance : Nat
  /-- `m_unlockTransactionsJob`, in the order of the heights. -/
  unlockTransactions : List UnlockTransactionJob
  /-- The hashes of `m_transactions`. -/
  transactions : List Hash

/-- A total after the balance of one address has changed. -/
def adjusted (total before after : Nat) : Nat :=
  if before < after then add64 total (sub64 after before) else sub64 total (sub64 before after)

namespace GreenBalances

variable (cur : Currency) (transactionSoftLockTime now : Nat) (containers : Containers)

def updateBalance (container : ContainerPointer) (w : GreenBalances) : GreenBalances :=
  match w.wallets.find? fun wallet => wallet.container = container with
  | none => w
  | some wallet =>
    let actual := (containers container).balance cur transactionSoftLockTime now 0xff01
    let pending := (containers container).balance cur transactionSoftLockTime now 0xff06
    { w with
      actualBalance := adjusted w.actualBalance wallet.actualBalance actual
      pendingBalance := adjusted w.pendingBalance wallet.pendingBalance pending
      wallets := w.wallets.map fun other =>
        if other.container = container then
          { other with actualBalance := actual, pendingBalance := pending }
        else other }

def unlockBalances (height : Nat) (w : GreenBalances) : GreenBalances :=
  let due := w.unlockTransactions.filter fun job => job.blockHeight ≤ height
  let w := due.foldl (fun w job =>
    updateBalance cur transactionSoftLockTime now containers job.container w) w
  { w with unlockTransactions := w.unlockTransactions.filter fun job => ¬ job.blockHeight ≤ height }

/-- `onSynchronizationProgressUpdated`; there is a block. -/
def onSynchronizationProgressUpdated (processedBlockCount : Nat) : GreenBalances → GreenBalances :=
  unlockBalances cur transactionSoftLockTime now containers (processedBlockCount - 1)

/-- The height at which the outputs of a transaction are expected to unlock. -/
def unlockHeight (blockHeight unlockTime : Nat) : Nat :=
  max ((blockHeight + transactionSoftLockTime) % word32) (unlockTime % word32)

def insertUnlockTransactionJob (job : UnlockTransactionJob) (w : GreenBalances) : GreenBalances :=
  { w with
    unlockTransactions := w.unlockTransactions.orderedInsert
      (fun a b => a.blockHeight < b.blockHeight) job }

/-- A round of the loop of `transactionUpdated`. -/
def updatedRound (hash : Hash) (blockHeight unlockTime : Nat) (w : GreenBalances)
    (container : ContainerPointer) : GreenBalances :=
  let w := updateBalance cur transactionSoftLockTime now containers container w
  if blockHeight = unconfirmedTransactionHeight then w
  else insertUnlockTransactionJob
    ⟨unlockHeight transactionSoftLockTime blockHeight unlockTime, container, hash⟩ w

/-- `transactionUpdated`. For a transaction that is new the code also reads an iterator at its end,
for a cache that is not modelled. -/
def transactionUpdated (hash : Hash) (blockHeight unlockTime : Nat)
    (changed : List ContainerPointer) (w : GreenBalances) : GreenBalances :=
  let w := if hash ∈ w.transactions then w else { w with transactions := w.transactions ++ [hash] }
  changed.foldl
    (updatedRound cur transactionSoftLockTime now containers hash blockHeight unlockTime) w

def transactionDeleted (container : ContainerPointer) (hash : Hash) (w : GreenBalances) :
    GreenBalances :=
  if hash ∈ w.transactions then
    let w := updateBalance cur transactionSoftLockTime now containers container w
    { w with
      unlockTransactions := w.unlockTransactions.filter fun job => job.transactionHash ≠ hash }
  else w

end GreenBalances

end DarknetCoin
