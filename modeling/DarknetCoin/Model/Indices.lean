import DarknetCoin.Data.BinarySearch
import DarknetCoin.Model.FormatUtils

/-!
# Indices over blocks and transactions

The small containers beside the block storage: `BlockIndex`, `DepositIndex`, the indices of
`BlockchainIndices.cpp` and the checkpoints. Hash multimaps are multisets of key–value pairs; the
order of equal keys is not observable.
-/

namespace DarknetCoin

open Semantics Data

/-- The identifiers of the main chain by height; no identifier is kept twice. -/
abbrev BlockIndex := List Hash

namespace BlockIndex

def push (index : BlockIndex) (h : Hash) : BlockIndex :=
  if h ∈ index then index else index ++ [h]

def pop (index : BlockIndex) : BlockIndex := index.dropLast

def hasBlock (index : BlockIndex) (h : Hash) : Bool := h ∈ index

/-- `getBlockHeight`. -/
def blockHeight? (index : BlockIndex) (h : Hash) : Option Nat := index.findIdx? (· == h)

/-- `getBlockId`; past the end the container is indexed out of its range. -/
def getBlockId (index : BlockIndex) (height : Nat) : Except Fault Hash :=
  match index[height]? with
  | some h => .ok h
  | none => .error .undefined

/-- `getTailId` of a chain that may be empty. -/
def getTailId (index : BlockIndex) : Hash := index.getLast?.getD nullHash

theorem push_of_notMem {index : BlockIndex} {h : Hash} (hnew : h ∉ index) :
    index.push h = index ++ [h] := if_neg hnew

theorem pop_push {index : BlockIndex} {h : Hash} (hnew : h ∉ index) :
    (index.push h).pop = index := by
  rw [push_of_notMem hnew]
  exact List.dropLast_concat

end BlockIndex

structure DepositIndexEntry where
  height : Nat
  amount : Int
  interest : Nat
/-- Cumulative deposit amounts and interests, with an entry for every block that changed them. -/
structure DepositIndex where
  index : List DepositIndexEntry
  blockCount : Nat
namespace DepositIndex

def empty : DepositIndex := ⟨[], 0⟩

def fullDepositAmount (d : DepositIndex) : Int := (d.index.getLast?.map (·.amount)).getD 0

def fullInterestAmount (d : DepositIndex) : Nat := (d.index.getLast?.map (·.interest)).getD 0

def pushBlock (d : DepositIndex) (amount : Int) (interest : Nat) : DepositIndex where
  index :=
    if amount ≠ 0 ∨ 0 < interest then
      d.index ++ [⟨d.blockCount, (amount + d.fullDepositAmount).bmod word64,
        add64 interest d.fullInterestAmount⟩]
    else d.index
  blockCount := d.blockCount + 1

def popBlock (d : DepositIndex) : DepositIndex where
  index :=
    match d.index.getLast? with
    | some entry => if entry.height = d.blockCount - 1 then d.index.dropLast else d.index
    | none => d.index
  blockCount := d.blockCount - 1

def size (d : DepositIndex) : Nat := d.blockCount

/-- `upperBound`: the position of the first entry above a height. -/
def upperBound (d : DepositIndex) (height : Nat) : Nat :=
  BinarySearch.partitionPoint (fun (entry : DepositIndexEntry) => decide (entry.height ≤ height))
    d.index

/-- Removes the blocks from a height on and returns their number. -/
def popBlocks (d : DepositIndex) (start : Nat) : Nat × DepositIndex :=
  if d.blockCount ≤ start then (0, d)
  else
    let it := d.upperBound start
    -- the entry before goes too when it is the one of the first block removed
    let it := if it ≠ 0 ∧ d.index[it - 1]?.map (·.height) = some start then it - 1 else it
    (d.blockCount - start, ⟨d.index.take it, d.blockCount - (d.blockCount - start)⟩)

/-- The entry that counts at a height: the last one that is not above it. -/
def entryAtHeight (d : DepositIndex) (height : Nat) : Option DepositIndexEntry :=
  if d.blockCount = 0 then none
  else if d.upperBound height = 0 then none
  else d.index[d.upperBound height - 1]?

def depositAmountAtHeight (d : DepositIndex) (height : Nat) : Int :=
  ((d.entryAtHeight height).map (·.amount)).getD 0

def depositInterestAtHeight (d : DepositIndex) (height : Nat) : Nat :=
  ((d.entryAtHeight height).map (·.interest)).getD 0

/-- Every entry belongs to a block that was counted. -/
def WellFormed (d : DepositIndex) : Prop := ∀ entry ∈ d.index, entry.height < d.blockCount

theorem empty_wellFormed : empty.WellFormed := by
  intro entry hentry
  cases hentry

theorem WellFormed.pushBlock {d : DepositIndex} (h : d.WellFormed) (amount : Int)
    (interest : Nat) : (d.pushBlock amount interest).WellFormed := by
  intro entry hentry
  unfold DepositIndex.pushBlock at hentry
  split at hentry
  · rcases List.mem_append.mp hentry with hold | hnew
    · exact Nat.lt_succ_of_lt (h entry hold)
    · rw [List.mem_singleton.mp hnew]
      exact Nat.lt_succ_self _
  · exact Nat.lt_succ_of_lt (h entry hentry)

theorem popBlock_pushBlock {d : DepositIndex} (h : d.WellFormed) (amount : Int)
    (interest : Nat) : (d.pushBlock amount interest).popBlock = d := by
  by_cases hchange : amount ≠ 0 ∨ 0 < interest
  · simp [pushBlock, popBlock, hchange]
  · have hpush : d.pushBlock amount interest = ⟨d.index, d.blockCount + 1⟩ := by
      simp only [pushBlock, if_neg hchange]
    rw [hpush]
    cases hlast : d.index.getLast? with
    | none => simp [popBlock, hlast]
    | some entry =>
      -- no entry stands for the block just popped, because it made none
      have hne : entry.height ≠ d.blockCount := (h entry (List.mem_of_getLast? hlast)).ne
      simp [popBlock, hlast, hne]

end DepositIndex

/-- Transaction hashes by payment identifier. -/
abbrev PaymentIdIndex := Multiset (Hash × Hash)

namespace PaymentIdIndex

variable (crypto : Crypto)

def add (index : PaymentIdIndex) (tx : Transaction) : PaymentIdIndex :=
  match getPaymentId tx with
  | some paymentId => (paymentId, crypto.getObjectHash tx) ::ₘ index
  | none => index

def remove (index : PaymentIdIndex) (tx : Transaction) : PaymentIdIndex :=
  match getPaymentId tx with
  | some paymentId => index.erase (paymentId, crypto.getObjectHash tx)
  | none => index

theorem remove_add (index : PaymentIdIndex) (tx : Transaction) :
    (index.add crypto tx).remove crypto tx = index := by
  unfold add remove
  cases getPaymentId tx with
  | none => rfl
  | some paymentId => exact Multiset.erase_cons_head _ _

end PaymentIdIndex

/-- Hashes by timestamp: of blocks in the storage, of transactions in the pool. -/
abbrev TimestampIndex := Multiset (Nat × Hash)

namespace TimestampIndex

def add (index : TimestampIndex) (timestamp : Nat) (hash : Hash) : TimestampIndex :=
  (timestamp, hash) ::ₘ index

def remove (index : TimestampIndex) (timestamp : Nat) (hash : Hash) : TimestampIndex :=
  index.erase (timestamp, hash)

theorem remove_add (index : TimestampIndex) (timestamp : Nat) (hash : Hash) :
    (index.add timestamp hash).remove timestamp hash = index :=
  Multiset.erase_cons_head _ _

end TimestampIndex

/-- For every height the number of transactions up to it. The code keys the entries by height
and adds height `n` only when it has `n` entries, so they are a list. -/
structure GeneratedTransactionsIndex where
  index : List Nat
  lastGeneratedTxNumber : Nat
  deriving DecidableEq, Repr

namespace GeneratedTransactionsIndex

def empty : GeneratedTransactionsIndex := ⟨[], 0⟩

def add (g : GeneratedTransactionsIndex) (block : Block) : GeneratedTransactionsIndex :=
  if g.index.length ≠ getBlockHeight block then g
  else
    let number := g.lastGeneratedTxNumber + block.transactionHashes.length + 1
    ⟨g.index ++ [number], number⟩

def remove (g : GeneratedTransactionsIndex) (block : Block) : GeneratedTransactionsIndex :=
  if getBlockHeight block + 1 ≠ g.index.length then g
  else ⟨g.index.dropLast, g.index.dropLast.getLast?.getD 0⟩

/-- `clear`, which leaves the running total. -/
def clear (g : GeneratedTransactionsIndex) : GeneratedTransactionsIndex := { g with index := [] }

/-- The running total is the last entry. -/
def WellFormed (g : GeneratedTransactionsIndex) : Prop :=
  g.lastGeneratedTxNumber = g.index.getLast?.getD 0

variable {g : GeneratedTransactionsIndex}

theorem WellFormed.add (h : g.WellFormed) (block : Block) : (g.add block).WellFormed := by
  unfold GeneratedTransactionsIndex.add
  split
  · exact h
  · simp [WellFormed]

theorem remove_add (h : g.WellFormed) {block : Block}
    (hheight : getBlockHeight block = g.index.length) : (g.add block).remove block = g := by
  have hadd : g.add block =
      ⟨g.index ++ [g.lastGeneratedTxNumber + block.transactionHashes.length + 1],
        g.lastGeneratedTxNumber + block.transactionHashes.length + 1⟩ := by
    simp [add, hheight]
  rw [hadd]
  cases g with
  | mk index last =>
    have hlast : last = index.getLast?.getD 0 := h
    simp [remove, hheight, hlast]

end GeneratedTransactionsIndex

/-- Heights whose block is fixed in advance; no height occurs twice. -/
abbrev Checkpoints := List (Nat × Hash)

namespace Checkpoints

/-- `is_in_checkpoint_zone`: not above the last checkpoint. -/
def isInCheckpointZone (points : Checkpoints) (height : Nat) : Bool :=
  points.any fun point => height ≤ point.1

/-- The block fixed at a height. -/
def point? (points : Checkpoints) (height : Nat) : Option Hash := points.lookup height

/-- `check_block`: the block is the one fixed at its height, if any is. -/
def checkBlock (points : Checkpoints) (height : Nat) (h : Hash) : Bool :=
  match points.point? height with
  | some expected => expected == h
  | none => true

/-- `is_alternative_block_allowed`: the block lies above the last checkpoint the chain has
reached. -/
def isAlternativeBlockAllowed (points : Checkpoints) (blockchainHeight blockHeight : Nat) : Bool :=
  blockHeight ≠ 0 && points.all fun point => !(point.1 ≤ blockchainHeight) || point.1 < blockHeight

end Checkpoints

end DarknetCoin
