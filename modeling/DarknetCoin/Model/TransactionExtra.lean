import DarknetCoin.Data.Layout
import DarknetCoin.Model.Types

/-!
# The extra field of a transaction

`TransactionExtra.cpp`: a transaction's `extra` bytes are a sequence of tagged fields. The parser
stops at the first malformed field and reports it, but the fields read before it stay in its
output; the pool and the payment index read them without asking whether the parse succeeded.
-/

namespace DarknetCoin

inductive TransactionExtraField
  | padding (size : Nat)
  | publicKey (key : PublicKey)
  | nonce (nonce : List UInt8)
  | mergeMiningTag (depth : Nat) (merkleRoot : Hash)
  | message (data : List UInt8)
  | ttl (ttl : Nat)
  deriving DecidableEq, Repr

/-- The limit of the reader for arrays and strings. -/
def maxArraySize : Nat := 100 * 1024 * 1024

namespace Extra

/-- Read one byte. -/
def readByte : List UInt8 → Option (UInt8 × List UInt8)
  | [] => none
  | b :: bs => some (b, bs)

/-- Read exactly `n` bytes. -/
def readBytes (n : Nat) (bs : List UInt8) : Option (List UInt8 × List UInt8) :=
  if n ≤ bs.length then some (bs.take n, bs.drop n) else none

/-- The loop of `readVarint` for a `bits`-wide word. Values that do not fit and encodings with a
superfluous last zero byte are rejected. -/
def readVarintFrom (bits shift temp : Nat) : List UInt8 → Option (Nat × List UInt8)
  | [] => none
  | piece :: bs =>
    if bits - 7 ≤ shift ∧ 2 ^ (bits - shift) ≤ piece.toNat then none
    else
      let temp := temp + piece.toNat % 128 * 2 ^ shift
      if piece.toNat < 128 then
        if piece.toNat = 0 ∧ shift ≠ 0 then none else some (temp, bs)
      else readVarintFrom bits (shift + 7) temp bs

def readVarint (bits : Nat) (bs : List UInt8) : Option (Nat × List UInt8) :=
  readVarintFrom bits 0 0 bs

/-- A length-prefixed string of the binary serialiser. -/
def readString (bs : List UInt8) : Option (List UInt8 × List UInt8) := do
  let (size, bs) ← readVarint 64 bs
  if maxArraySize < size then none else readBytes size bs

/-- The little-endian bytes of a digest. -/
def digestOfBytes (bs : List UInt8) : Hash :=
  bs.foldr (fun b acc => acc <<< 8 ||| BitVec.ofNat 256 b.toNat) 0

/-- The zero bytes of a padding field that starts with `size` bytes already read; at most 255
in all. `none` when a byte is not zero or there are too many. -/
def readPadding (size : Nat) : List UInt8 → Option (Nat × List UInt8)
  | [] => if 255 < size then none else some (size, [])
  | b :: bs =>
    if 255 < size then none
    else if b = 0 then readPadding (size + 1) bs else none

/-- The merge-mining tag, serialised inside a string of its own. -/
def readMergeMiningTag (bs : List UInt8) : Option (TransactionExtraField × List UInt8) := do
  let (field, rest) ← readString bs
  let (depth, field) ← readVarint 64 field
  let (root, _) ← readBytes 32 field
  pure (.mergeMiningTag depth (digestOfBytes root), rest)

/-- Read the field that follows the tag `c`. An unknown tag is skipped without a field. -/
def readField (c : UInt8) (bs : List UInt8) : Option (Option TransactionExtraField × List UInt8) :=
  if c = 0x00 then do
    let (size, bs) ← readPadding 1 bs
    pure (some (.padding size), bs)
  else if c = 0x01 then do
    let (key, bs) ← readBytes 32 bs
    pure (some (.publicKey (digestOfBytes key)), bs)
  else if c = 0x02 then do
    let (size, bs) ← readByte bs
    let (nonce, bs) ← readBytes size.toNat bs
    pure (some (.nonce nonce), bs)
  else if c = 0x03 then do
    let (tag, bs) ← readMergeMiningTag bs
    pure (some tag, bs)
  else if c = 0x04 then do
    let (data, bs) ← readString bs
    pure (some (.message data), bs)
  else if c = 0x05 then do
    let (_, bs) ← readVarint 8 bs
    let (ttl, bs) ← readVarint 64 bs
    pure (some (.ttl ttl), bs)
  else pure (none, bs)

/-- The field loop. Every round consumes the tag byte, so a fuel of the input's length is
enough. -/
def readFields : Nat → List UInt8 → Bool × List TransactionExtraField
  | _, [] => (true, [])
  | 0, _ => (false, [])
  | fuel + 1, c :: bs =>
    match readField c bs with
    | none => (false, [])
    | some (field, rest) =>
      let (ok, fields) := readFields fuel rest
      (ok, field.toList ++ fields)

end Extra

/-- `parseTransactionExtra`: its result, and the fields it has pushed when it returns. -/
def parseTransactionExtra (extra : List UInt8) : Bool × List TransactionExtraField :=
  Extra.readFields extra.length extra

def getPaymentIdFromTransactionExtraNonce : List UInt8 → Option Hash
  | [] => none
  | tag :: bytes =>
    if bytes.length = 32 ∧ tag = 0x00 then some (Extra.digestOfBytes bytes) else none

def TransactionExtraField.nonce? : TransactionExtraField → Option (List UInt8)
  | nonce bytes => some bytes
  | _ => none

def TransactionExtraField.ttl? : TransactionExtraField → Option Nat
  | ttl value => some value
  | _ => none

/-- `BlockchainExplorerDataBuilder::getPaymentId`: only the first nonce field counts, and it
counts also when the parse failed after it. -/
def getPaymentId (tx : Transaction) : Option Hash :=
  ((parseTransactionExtra tx.extra).2.findSome? TransactionExtraField.nonce?).bind
    getPaymentIdFromTransactionExtraNonce

/-- The time-to-live the pool assigns to a transaction: the first such field that was read,
also when the parse failed after it. -/
def getTransactionTtl (extra : List UInt8) : Nat :=
  ((parseTransactionExtra extra).2.findSome? TransactionExtraField.ttl?).getD 0

example : getTransactionTtl [0x05, 0x01, 0x07, 0x01] = 7 := by decide

/-! ### The binary serialiser

`Serialization/BinaryOutputStreamSerializer.cpp`: integers are written as varints, digests as their
bytes, arrays with their length in front. The reader refuses arrays that are too long. -/

open Data

/-- The loop of `writeVarint`, for a word that takes at most `fuel + 1` bytes. -/
def writeVarintFrom : Nat → Nat → List UInt8
  | 0, value => [UInt8.ofNat value]
  | fuel + 1, value =>
    if 0x80 ≤ value then UInt8.ofNat (value % 0x80 + 0x80) :: writeVarintFrom fuel (value / 0x80)
    else [UInt8.ofNat value]

/-- `writeVarint` of a word of at most 64 bits. -/
def writeVarint (value : Nat) : List UInt8 := writeVarintFrom 9 value

/-- The bytes of a digest. -/
def writeDigest (digest : BitVec 256) : List UInt8 := LittleEndian.encode 32 digest.toNat

/-- A string with its length in front. -/
def writeString (bytes : List UInt8) : List UInt8 := writeVarint bytes.length ++ bytes

/-- A call of `ExtraSerializerVisitor`: what it appends, `none` when it refuses the field. -/
def TransactionExtraField.write : TransactionExtraField → Option (List UInt8)
  | padding size => if 255 < size then none else some (List.replicate size 0)
  | publicKey key => some (0x01 :: writeDigest key)
  | nonce bytes =>
    if 255 < bytes.length then none else some (0x02 :: UInt8.ofNat bytes.length :: bytes)
  | mergeMiningTag depth merkleRoot =>
    some (0x03 :: writeString (writeVarint depth ++ writeDigest merkleRoot))
  | message data => some (0x04 :: writeString data)
  | ttl value => some (0x05 :: writeVarint (writeVarint value).length ++ writeVarint value)

/-- `writeTransactionExtra`: its result, and the bytes afterwards. -/
def writeTransactionExtra (extra : List UInt8) : List TransactionExtraField → Bool × List UInt8
  | [] => (true, extra)
  | field :: fields =>
    match field.write with
    | none => (false, extra)
    | some bytes => writeTransactionExtra (extra ++ bytes) fields

end DarknetCoin
