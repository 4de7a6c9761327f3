import DarknetCoin.Model.TransfersContainer
import DarknetCoin.Theorems.BinarySerializer

/-!
# Storage of a container

`TransfersContainer::save` and `TransfersContainer::load`, with the `serialize` functions of the
records, which are codecs here. Heights are written as words of 32 bits and read as words of 64.

Whether a transaction is stored with its number depends on `m_wallet_version` of the serialiser,
which has no initial value: `save` and `load` set it behind the first array of transactions. A
number that is not read is what the variable for the record happens to hold, and so is the key image
of a multisignature output.
-/

namespace DarknetCoin

open Data Semantics

def wordCodec (bits : Nat) (h : bits ≤ 64) : Layout UInt8 Nat :=
  ⟨writeVarint, Extra.readVarint bits, fun value => value < 2 ^ bits, fun _ hvalue rest =>
    readVarint_writeVarint h hvalue rest⟩

def word8Codec : Layout UInt8 Nat := wordCodec 8 (by decide)
def word32Codec : Layout UInt8 Nat := wordCodec 32 (by decide)
def word64Codec : Layout UInt8 Nat := wordCodec 64 (by decide)

/-- A number of bytes as they are. -/
def bytesCodec (n : Nat) : Layout UInt8 (List UInt8) :=
  ⟨id, Extra.readBytes n, fun bytes => bytes.length = n, fun _ hbytes rest =>
    readBytes_append hbytes rest⟩

def digestCodec : Layout UInt8 (BitVec 256) := (bytesCodec 32).map Extra.digestOfBytes writeDigest

def boolCodec : Layout UInt8 Bool :=
  (bytesCodec 1).map (fun bytes => bytes != [0]) fun value => [if value then 1 else 0]

/-- The length of an array or a string. -/
def sizeCodec : Layout UInt8 Nat := word64Codec.check fun size => size ≤ maxArraySize

/-- `writeSequence` and `readSequence`, and `serializeContainer`. -/
def sequenceCodec {α : Type} (codec : Layout UInt8 α) : Layout UInt8 (List α) :=
  .array sizeCodec codec

/-- A string that is kept as it is. -/
def blobCodec : Layout UInt8 (List UInt8) := .field sizeCodec List.length bytesCodec

/-- A byte of a vector; it is an integer. -/
def byteCodec : Layout UInt8 UInt8 := word8Codec.map UInt8.ofNat UInt8.toNat

/-- A string, of characters of one byte. -/
def stringCodec : Layout UInt8 String :=
  (Layout.field sizeCodec List.length bytesCodec).map
    (fun bytes => String.ofList (bytes.map fun byte => Char.ofNat byte.toNat))
    fun value => value.toList.map fun char => UInt8.ofNat char.toNat

/-- `serializeBlockHeight` and `serializeGlobalOutputIndex`. -/
def heightCodec : Layout UInt8 Nat where
  write := writeVarint
  read input := (Extra.readVarint 64 input).bind fun (height, rest) =>
    if height = word64 - 1 then some (word32 - 1, rest)
    else if word32 - 1 < height then none
    else some (height, rest)
  Fits height := height < word32
  read_write height hheight rest := by
    have hread := readVarint_writeVarint le_rfl (hheight.trans (by decide : word32 < 2 ^ 64)) rest
    have hword : height ≠ word64 - 1 := (hheight.trans_le (by decide : word32 ≤ word64 - 1)).ne
    rw [hread, Option.bind_some]
    dsimp only
    rw [if_neg hword, if_neg (Nat.le_sub_one_of_lt hheight).not_gt]

/-- `WALLET_VERSION_BM`. -/
def walletVersionBM : Nat := 3

/-- `serialize` of a transaction, for a value of `m_wallet_version`. -/
def TransactionInformation.codec (walletVersion unreadId : Nat) :
    Layout UInt8 TransactionInformation :=
  .field digestCodec (·.transactionHash) fun transactionHash =>
  .field digestCodec (·.publicKey) fun publicKey =>
  .field heightCodec (·.blockHeight) fun blockHeight =>
  .field word64Codec (·.timestamp) fun timestamp =>
  .field word64Codec (·.unlockTime) fun unlockTime =>
  .field word64Codec (·.totalAmountIn) fun totalAmountIn =>
  .field word64Codec (·.totalAmountOut) fun totalAmountOut =>
  .field (sequenceCodec byteCodec) (·.extra) fun extra =>
  .field digestCodec (·.paymentId) fun paymentId =>
  .field (sequenceCodec stringCodec) (·.messages) fun messages =>
  .field (if walletVersion = walletVersionBM then word8Codec else .done unreadId) (·.id) fun id =>
  .done ⟨transactionHash, publicKey, blockHeight, timestamp, unlockTime, totalAmountIn,
    totalAmountOut, extra, paymentId, messages, id⟩

namespace TransferTarget

/-- `TransactionTypes::OutputType`. -/
def type : TransferTarget → Nat
  | key _ _ => 1
  | multisignature _ _ => 2

/-- The key image, which is written in any case. -/
def keyImage (unwritten : KeyImage) : TransferTarget → KeyImage
  | key image _ => image
  | multisignature _ _ => unwritten

/-- The fields behind the type. Records of no other type are written. -/
def codec (type : Nat) (keyImage : KeyImage) : Layout UInt8 TransferTarget :=
  if type = 1 then digestCodec.map (key keyImage) fun
    | key _ outputKey => outputKey
    | multisignature _ _ => 0
  else if type = 2 then
    .field word32Codec (fun | key _ _ => 0 | multisignature required _ => required) fun required =>
    .field word32Codec (fun | key _ _ => 0 | multisignature _ term => term) fun term =>
    .done (multisignature required term)
  else .fail

end TransferTarget

def TransactionOutputInformationEx.codec (unwritten : KeyImage) :
    Layout UInt8 TransactionOutputInformationEx :=
  .field word8Codec (·.target.type) fun type =>
  .field word64Codec (·.amount) fun amount =>
  .field heightCodec (·.globalOutputIndex) fun globalOutputIndex =>
  .field word32Codec (·.outputInTransaction) fun outputInTransaction =>
  .field digestCodec (·.transactionPublicKey) fun transactionPublicKey =>
  .field digestCodec (·.target.keyImage unwritten) fun keyImage =>
  .field word64Codec (·.unlockTime) fun unlockTime =>
  .field heightCodec (·.blockHeight) fun blockHeight =>
  .field word32Codec (·.transactionIndex) fun transactionIndex =>
  .field digestCodec (·.transactionHash) fun transactionHash =>
  .field boolCodec (·.visible) fun visible =>
  .field (TransferTarget.codec type keyImage) (·.target) fun target =>
  .done { amount, globalOutputIndex, outputInTransaction, transactionHash, transactionPublicKey,
          target, unlockTime, blockHeight, transactionIndex, visible }

def TransactionBlockInfo.codec : Layout UInt8 TransactionBlockInfo :=
  .field heightCodec (·.height) fun height =>
  .field word64Codec (·.timestamp) fun timestamp =>
  .field word32Codec (·.transactionIndex) fun transactionIndex =>
  .done ⟨height, timestamp, transactionIndex⟩

def SpentTransactionOutput.codec (unwritten : KeyImage) : Layout UInt8 SpentTransactionOutput :=
  .field (TransactionOutputInformationEx.codec unwritten) (·.toTransactionOutputInformationEx)
      fun output =>
  .field TransactionBlockInfo.codec (·.spendingBlock) fun spendingBlock =>
  .field digestCodec (·.spendingTransactionHash) fun spendingTransactionHash =>
  .field word32Codec (·.inputInTransaction) fun inputInTransaction =>
  .done ⟨output, spendingBlock, spendingTransactionHash, inputInTransaction⟩

def TransferUnlockJob.codec : Layout UInt8 TransferUnlockJob :=
  .field word32Codec (·.unlockHeight) fun unlockHeight =>
  .field digestCodec (·.transactionOutputKey.transactionHash) fun transactionHash =>
  .field word32Codec (·.transactionOutputKey.outputInTransaction) fun outputInTransaction =>
  .done ⟨unlockHeight, transactionHash, outputInTransaction⟩

/-- What is in variables that nothing was written to. -/
structure Leftovers where
  /-- The number of a transaction that is read without one. -/
  id : Nat
  /-- The key image of a multisignature output that is written. -/
  keyImage : KeyImage

/-- What is stored of a container. -/
structure SavedContainer where
  version : Nat
  currentHeight : Nat
  transactions : List TransactionInformation
  transactionsBM : List TransactionInformation
  unconfirmedTransfers : List TransactionOutputInformationEx
  availableTransfers : List TransactionOutputInformationEx
  spentTransfers : List SpentTransactionOutput
  transfersUnlockJobs : List TransferUnlockJob

/-- `TRANSFERS_CONTAINER_STORAGE_VERSION`. -/
def transfersContainerStorageVersion : Nat := 1

/-- The layout of a stored container, for the first value of `m_wallet_version` in the serialiser
and the one of the container. -/
def SavedContainer.codec (leftovers : Leftovers) (initialVersion walletVersion : Nat) :
    Layout UInt8 SavedContainer :=
  .field (word32Codec.check fun version => version ≤ transfersContainerStorageVersion) (·.version)
    fun version =>
  .field word32Codec (·.currentHeight) fun currentHeight =>
  .field (sequenceCodec (TransactionInformation.codec initialVersion leftovers.id))
    (·.transactions) fun transactions =>
  .field (if walletVersion = walletVersionBM then
      sequenceCodec (TransactionInformation.codec walletVersion leftovers.id)
    else .done []) (·.transactionsBM) fun transactionsBM =>
  .field (sequenceCodec (TransactionOutputInformationEx.codec leftovers.keyImage))
    (·.unconfirmedTransfers) fun unconfirmedTransfers =>
  .field (sequenceCodec (TransactionOutputInformationEx.codec leftovers.keyImage))
    (·.availableTransfers) fun availableTransfers =>
  .field (sequenceCodec (SpentTransactionOutput.codec leftovers.keyImage))
    (·.spentTransfers) fun spentTransfers =>
  .field (if version ≠ 0 then sequenceCodec TransferUnlockJob.codec else .done [])
    (·.transfersUnlockJobs) fun transfersUnlockJobs =>
  .done ⟨version, currentHeight, transactions, transactionsBM, unconfirmedTransfers,
    availableTransfers, spentTransfers, transfersUnlockJobs⟩

namespace TransfersContainer

/-- What `save` stores, with the records of the hashed containers in the given order. -/
def saved (order : SavedOrder) (c : TransfersContainer) : SavedContainer where
  version := transfersContainerStorageVersion
  currentHeight := c.currentHeight
  transactions := order.transactions
  transactionsBM := order.transactionsBM.getD []
  unconfirmedTransfers := order.unconfirmedTransfers
  availableTransfers := order.availableTransfers
  spentTransfers := order.spentTransfers
  transfersUnlockJobs := c.transfersUnlockJobs.toList

def save (leftovers : Leftovers) (initialVersion walletVersion : Nat) (order : SavedOrder)
    (c : TransfersContainer) : List UInt8 :=
  (SavedContainer.codec leftovers initialVersion walletVersion).write (c.saved order)

def rebuildTransfersUnlockJobs (transactionSpendableAge : Nat)
    (availableTransfers : TransfersMultiIndex)
    (spentTransfers : SpentTransfersMultiIndex) : TransfersUnlockMultiIndex :=
  .ofList (availableTransfers.toList.map (fun t => t.unlockJob transactionSpendableAge) ++
    spentTransfers.toList.map fun s => s.unlockJob transactionSpendableAge)

/-- The containers of `load`. -/
def ofSaved (transactionSpendableAge : Nat) (saved : SavedContainer) : TransfersContainer :=
  let availableTransfers : TransfersMultiIndex := .ofList saved.availableTransfers
  let spentTransfers : SpentTransfersMultiIndex := .ofList saved.spentTransfers
  { transactions := .ofList saved.transactions
    transactionsBM := .ofList saved.transactionsBM
    unconfirmedTransfers := .ofList saved.unconfirmedTransfers
    availableTransfers
    spentTransfers
    transfersUnlockJobs :=
      if saved.version ≠ 0 then .ofList saved.transfersUnlockJobs
      else rebuildTransfersUnlockJobs transactionSpendableAge availableTransfers spentTransfers
    currentHeight := saved.currentHeight }

/-- `load`. The members are written when everything has been read. -/
def load (leftovers : Leftovers) (initialVersion walletVersion transactionSpendableAge : Nat)
    (input : List UInt8) : Program TransfersContainer Unit := fun c =>
  match (SavedContainer.codec leftovers initialVersion walletVersion).read input with
  | none => .thrown c
  | some (saved, _) => .done () (ofSaved transactionSpendableAge saved)

end TransfersContainer

end DarknetCoin
