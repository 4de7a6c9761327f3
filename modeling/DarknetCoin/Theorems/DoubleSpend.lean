import DarknetCoin.Theorems.Retention
import DarknetCoin.Theorems.SpentState

/-!
# Nothing is spent twice

Failed pushes and exceptions can leave marks behind that belong to no block, and a transaction whose
hash is taken is not entered at all. The invariant that survives this speaks about hashes: whatever
is entered under its hash has all its inputs marked, and two transactions that are entered share no
input.
-/

namespace DarknetCoin

open Semantics List Transaction

namespace MainChain

variable {crypto : Crypto} {U : Set Transaction} {txs more : List Transaction} {main : MainChain}
  {tx : Transaction} {index : TransactionIndex}

/-- A miner transaction: its only input is the height of its block. -/
def IsMiner (tx : Transaction) : Prop := ∃ height, tx.inputs = [.base ⟨height⟩]

theorem IsMiner.keyImages_eq (h : IsMiner tx) : tx.keyImages = [] := by
  obtain ⟨height, hinputs⟩ := h
  simp [keyImages, hinputs]

theorem IsMiner.references_eq (h : IsMiner tx) : tx.multisignatureReferences = [] := by
  obtain ⟨height, hinputs⟩ := h
  simp [multisignatureReferences, hinputs]

theorem IsMiner.not_semanticallyValid (h : IsMiner tx) : ¬SemanticallyValid tx := by
  obtain ⟨height, hinputs⟩ := h
  intro hsem
  have hnot : .base ⟨height⟩ ∉ tx.inputs := hsem.not_base
  exact hnot (by simp [hinputs])

/-- The transaction is entered under its hash. -/
def Entered (crypto : Crypto) (main : MainChain) (tx : Transaction) : Prop :=
  main.transactionMap (crypto.getObjectHash tx) ≠ none

/-- The transactions `txs` spend nothing twice, and the marks cover them and everything else that is
entered. The hash tells the transactions of `U` apart. -/
structure Consistent (crypto : Crypto) (U : Set Transaction) (txs : List Transaction)
    (main : MainChain) : Prop where
  nodup : txs.Nodup
  known : ∀ tx ∈ txs, tx ∈ U
  kinds : ∀ tx ∈ txs, SemanticallyValid tx ∨ IsMiner tx
  keyImages_nodup : (txs.flatMap Transaction.keyImages).Nodup
  references_nodup : (txs.flatMap Transaction.multisignatureReferences).Nodup
  entered : ∀ tx ∈ txs, main.Entered crypto tx
  /-- Whatever is entered has all its inputs marked. -/
  spent : ∀ tx ∈ U, SemanticallyValid tx → main.Entered crypto tx → main.Spent tx
  /-- Two transactions that are entered share no input. -/
  apart : ∀ a ∈ U, ∀ b ∈ U, SemanticallyValid a → SemanticallyValid b → main.Entered crypto a →
    main.Entered crypto b → a ≠ b → a.keyImages.Disjoint b.keyImages ∧
      a.multisignatureReferences.Disjoint b.multisignatureReferences

namespace Consistent

section

variable (h : Consistent crypto U txs main)

include h

theorem congr {main' : MainChain}
    (hmap : main'.transactionMap = main.transactionMap) (hkeys : main'.spentKeys = main.spentKeys)
    (hused : main'.multisignatureOutputs = main.multisignatureOutputs) :
    Consistent crypto U txs main' := by
  have hentered (tx : Transaction) : main'.Entered crypto tx ↔ main.Entered crypto tx := by
    simp [Entered, hmap]
  have hspent {tx : Transaction} (h : main.Spent tx) : main'.Spent tx := by
    refine ⟨fun image himage => ?_, fun reference href => ?_⟩
    · rw [hkeys]
      exact h.keyImages image himage
    · have hold := h.references reference href
      simpa [isOutputUsed, hused] using hold
  refine ⟨h.nodup, h.known, h.kinds, h.keyImages_nodup, h.references_nodup, ?_, ?_, ?_⟩
  · exact fun tx htx => (hentered tx).mpr (h.entered tx htx)
  · exact fun tx hU hsem hin => hspent (h.spent tx hU hsem ((hentered tx).mp hin))
  · exact fun a ha b hb hsa hsb hina hinb =>
      h.apart a ha b hb hsa hsb ((hentered a).mp hina) ((hentered b).mp hinb)

theorem not_entered (hU : tx ∈ U)
    (hsem : SemanticallyValid tx) (hunspent : main.Unspent tx) : ¬main.Entered crypto tx :=
  fun hin => (h.spent tx hU hsem hin).not_unspent hsem hunspent

theorem enterable (hU : tx ∈ U) (hsem : SemanticallyValid tx) (hunspent : main.Unspent tx) :
    main.Enterable (crypto.getObjectHash tx) tx where
  fresh := not_not.mp (h.not_entered hU hsem hunspent)
  keyImages_nodup := hsem.keyImages_nodup
  references_nodup := hsem.multisignatureReferences_nodup
  unspent := hunspent.keyImages
  unused := hunspent.references

/-- Nothing the listed transactions spend is spent by a transaction whose inputs are not marked. -/
theorem disjoint_unspent (hunspent : main.Unspent tx) :
    (txs.flatMap keyImages).Disjoint tx.keyImages ∧
      (txs.flatMap multisignatureReferences).Disjoint tx.multisignatureReferences := by
  have hspent : ∀ other ∈ txs, main.Spent other := by
    intro other hother
    rcases h.kinds other hother with hsem | hminer
    · exact h.spent other (h.known other hother) hsem (h.entered other hother)
    refine ⟨fun image himage => ?_, fun reference href => ?_⟩
    · rw [hminer.keyImages_eq] at himage
      cases himage
    · rw [hminer.references_eq] at href
      cases href
  refine ⟨fun image hmem => ?_, fun reference hmem => ?_⟩
  · obtain ⟨other, hother, hspends⟩ := mem_flatMap.mp hmem
    exact ((hspent other hother).disjoint hunspent).1 hspends
  · obtain ⟨other, hother, hspends⟩ := mem_flatMap.mp hmem
    exact ((hspent other hother).disjoint hunspent).2 hspends

theorem append (hU : tx ∈ U) (hkind : SemanticallyValid tx ∨ IsMiner tx) (hnew : tx ∉ txs)
    (hin : main.Entered crypto tx)
    (himages : tx.keyImages.Nodup ∧ (txs.flatMap keyImages).Disjoint tx.keyImages)
    (hrefs : tx.multisignatureReferences.Nodup ∧
      (txs.flatMap multisignatureReferences).Disjoint tx.multisignatureReferences) :
    Consistent crypto U (txs ++ [tx]) main where
  nodup := h.nodup.append (nodup_singleton tx) (disjoint_singleton.mpr hnew)
  known := forall_mem_append.mpr ⟨h.known, forall_mem_singleton.mpr hU⟩
  kinds := forall_mem_append.mpr ⟨h.kinds, forall_mem_singleton.mpr hkind⟩
  keyImages_nodup := by
    rw [flatMap_append, flatMap_singleton]
    exact h.keyImages_nodup.append himages.1 himages.2
  references_nodup := by
    rw [flatMap_append, flatMap_singleton]
    exact h.references_nodup.append hrefs.1 hrefs.2
  entered := forall_mem_append.mpr ⟨h.entered, forall_mem_singleton.mpr hin⟩
  spent := h.spent
  apart := h.apart

theorem append_miner (hU : tx ∈ U) (hminer : IsMiner tx) (hnew : tx ∉ txs)
    (hin : main.Entered crypto tx) : Consistent crypto U (txs ++ [tx]) main := by
  apply h.append hU (.inr hminer) hnew hin
  · simp [hminer.keyImages_eq]
  · simp [hminer.references_eq]

end

variable (hinj : Set.InjOn crypto.getObjectHash U)
include hinj

theorem entered_record {other : Transaction} (hother : other ∈ U) (htx : tx ∈ U)
    (hin : (record crypto (crypto.getObjectHash tx) index tx main).Entered crypto other) :
    other = tx ∨ main.Entered crypto other := by
  by_cases hhash : crypto.getObjectHash other = crypto.getObjectHash tx
  · exact .inl (hinj hother htx hhash)
  unfold Entered at hin
  rw [transactionMap_record, Function.update_of_ne hhash] at hin
  exact Or.inr hin

omit hinj in
theorem entered_record_self : (record crypto (crypto.getObjectHash tx) index tx main).Entered
    crypto tx := by
  unfold Entered
  rw [transactionMap_record, Function.update_self]
  exact Option.some_ne_none _

variable (h : Consistent crypto U txs main)
include h

theorem recorded (hU : tx ∈ U) (hspent : SemanticallyValid tx →
      (record crypto (crypto.getObjectHash tx) index tx main).Spent tx)
    (hapart : SemanticallyValid tx → ∀ other ∈ U, SemanticallyValid other →
      main.Entered crypto other → other.keyImages.Disjoint tx.keyImages ∧
      other.multisignatureReferences.Disjoint tx.multisignatureReferences) :
    Consistent crypto U txs (record crypto (crypto.getObjectHash tx) index tx main) := by
  refine ⟨h.nodup, h.known, h.kinds, h.keyImages_nodup, h.references_nodup, ?_, ?_, ?_⟩
  · intro other hother
    unfold Entered
    rw [transactionMap_record]
    by_cases hhash : crypto.getObjectHash other = crypto.getObjectHash tx
    · rw [hhash, Function.update_self]
      exact Option.some_ne_none _
    · rw [Function.update_of_ne hhash]
      exact h.entered other hother
  · intro other hother hvalid hin
    rcases entered_record hinj hother hU hin with rfl | hold
    · exact hspent hvalid
    · exact (h.spent other hother hvalid hold).record
  · intro a ha b hb hsa hsb hina hinb hne
    rcases entered_record hinj ha hU hina with rfl | haold
    · rcases entered_record hinj hb hU hinb with rfl | hbold
      · exact (hne rfl).elim
      · obtain ⟨hi, hr⟩ := hapart hsa b hb hsb hbold
        exact ⟨hi.symm, hr.symm⟩
    · rcases entered_record hinj hb hU hinb with rfl | hbold
      · exact hapart hsb a ha hsa haold
      · exact h.apart a ha b hb hsa hsb haold hbold hne

theorem record (hU : tx ∈ U) (hsem : SemanticallyValid tx) (hunspent : main.Unspent tx)
    (hexists : ∀ reference ∈ tx.multisignatureReferences, main.HasOutput reference) :
    Consistent crypto U (txs ++ [tx]) (record crypto (crypto.getObjectHash tx) index tx main) := by
  have hnew := h.not_entered hU hsem hunspent
  obtain ⟨himages, hrefs⟩ := h.disjoint_unspent hunspent
  refine (h.recorded hinj hU (fun _ => spent_record hexists)
    fun _ other hother hvalid hin => ?_).append hU
    (.inl hsem) (fun hmem => hnew (h.entered tx hmem)) entered_record_self
    ⟨hsem.keyImages_nodup, himages⟩ ⟨hsem.multisignatureReferences_nodup, hrefs⟩
  -- what was entered before has its inputs marked, so it shares none with the new one
  exact (h.spent other hother hvalid hin).disjoint hunspent

theorem record_miner (hU : tx ∈ U) (hminer : IsMiner tx) :
    Consistent crypto U txs (.record crypto (crypto.getObjectHash tx) index tx main) :=
  h.recorded hinj hU (fun hvalid => (hminer.not_semanticallyValid hvalid).elim)
    fun hvalid => (hminer.not_semanticallyValid hvalid).elim

end Consistent

/-- The transactions of the chain in their order. -/
def chainTransactions (main : MainChain) : List Transaction :=
  main.blocks.flatMap fun block => block.transactions.map TransactionEntry.tx

/-- How a block with the transactions `txs` besides the miner transaction is kept at a height. -/
structure StoredBlock (crypto : Crypto) (height : Nat) (txs : List Transaction)
    (block : BlockEntry) : Prop where
  transactions : block.transactions.map TransactionEntry.tx = block.bl.baseTransaction :: txs
  hashes : block.bl.transactionHashes = txs.map crypto.getObjectHash
  miner : block.bl.baseTransaction.inputs = [.base ⟨height⟩]
  semantic : ∀ tx ∈ txs, SemanticallyValid tx

/-- Every block of the chain is kept as its height says. -/
def StoredBlocks (crypto : Crypto) (main : MainChain) : Prop :=
  ∀ height block, main.blocks[height]? = some block → ∃ txs, StoredBlock crypto height txs block

/-- The marks cover the transactions of the chain, and these spend nothing twice. -/
structure NoDoubleSpend (crypto : Crypto) (U : Set Transaction) (main : MainChain) : Prop where
  consistent : Consistent crypto U main.chainTransactions main
  stored : main.StoredBlocks crypto

variable {main' : MainChain} {block : BlockEntry}

theorem chainTransactions_append (hblocks : main'.blocks = main.blocks ++ [block]) :
    main'.chainTransactions = main.chainTransactions ++ block.transactions.map
    TransactionEntry.tx := by
  unfold chainTransactions
  rw [hblocks, flatMap_append, flatMap_singleton]

/-- The height in a miner transaction tells it from every transaction of the chain. -/
theorem StoredBlocks.notMem_chainTransactions (h : main.StoredBlocks crypto)
    (hinputs : tx.inputs = [.base ⟨main.blocks.length⟩]) : tx ∉ main.chainTransactions := by
  intro hmem
  obtain ⟨block, hblock, htx⟩ := mem_flatMap.mp hmem
  obtain ⟨height, hheight, hget⟩ := mem_iff_getElem.mp hblock
  obtain ⟨txs, hstored⟩ := h height block (List.getElem?_eq_some_iff.mpr ⟨hheight, hget⟩)
  rw [hstored.transactions, mem_cons] at htx
  rcases htx with rfl | htx
  · rw [hstored.miner] at hinputs
    simp only [cons.injEq, TransactionInput.base.injEq, BaseInput.mk.injEq] at hinputs
    omega
  · exact IsMiner.not_semanticallyValid ⟨_, hinputs⟩ (hstored.semantic tx htx)

theorem StoredBlocks.append (h : main.StoredBlocks crypto)
    (hblocks : main'.blocks = main.blocks ++ [block])
    (hblock : StoredBlock crypto main.blocks.length txs block) : main'.StoredBlocks crypto := by
  intro height other hget
  rw [hblocks, getElem?_append] at hget
  split at hget
  · exact h height other hget
  rename_i hge
  obtain ⟨hlt, hget⟩ := List.getElem?_eq_some_iff.mp hget
  rw [length_singleton] at hlt
  obtain rfl : height = main.blocks.length := by omega
  obtain rfl : block = other := by simpa using hget
  exact ⟨txs, hblock⟩

namespace NoDoubleSpend

theorem linkBlock {cur : Currency} {block : BlockEntry} {main' : MainChain}
    {interest : Nat} (h : NoDoubleSpend crypto U main)
    (hcons : Consistent crypto U (main.chainTransactions ++ block.bl.baseTransaction :: more) main')
    (hsame : SameStorage main main') (hblock : StoredBlock crypto main.blocks.length more block) :
    NoDoubleSpend crypto U (linkBlock cur crypto block interest main') := by
  have hblocks : (MainChain.linkBlock cur crypto block interest main').blocks =
      main.blocks ++ [block] := by
    rw [← hsame.blocks]
    rfl
  refine ⟨?_, h.stored.append hblocks hblock⟩
  rw [chainTransactions_append hblocks, hblock.transactions]
  exact hcons.congr rfl rfl rfl

theorem empty : NoDoubleSpend crypto U .empty where
  consistent := by
    constructor <;> simp [chainTransactions, MainChain.empty, Entered]
  stored := by
    intro height block hget
    simp [MainChain.empty] at hget

end NoDoubleSpend

theorem inputs_of_prevalidateMinerTransaction {cur : Currency} {b : Block} {height : Nat}
    (h : prevalidateMinerTransaction cur crypto b height = .ok true) : b.baseTransaction.inputs =
    [.base ⟨height⟩] :=
  (prevalidateMinerTransaction_inv h).1

end MainChain

/-- A network on which the outputs of miner transactions can be spent at once. -/
def openNetwork : Network :=
  ⟨{ Currency.mainnet with lockedTxAllowedDeltaBlocks := 100 }, Crypto.numbered, []⟩

/-- A block on the genesis block with a multisignature output that needs no signature. -/
def sharedOutputBlock : Block := numberedBlock 1 420 1 [⟨5, .multisignature ⟨[], 0, 0⟩⟩] []

/-- A transaction that spends the output. -/
def spendingTransaction : Transaction where
  version := 2
  unlockTime := 0
  inputs := [.multisignature ⟨5, 0, 0, 0⟩]
  outputs := [⟨3, .key 1⟩]
  extra := [200]
  signatures := [[]]

/-- A block with the transaction. -/
def spendingBlock : Block := numberedBlock 2 1 2 [⟨200 * Currency.coin + 2, .key 1⟩] [201]

def spendingCalls : List (Nat × Call) :=
  [(0, .addNewBlock sharedOutputBlock), (2000, .handleIncomingTransaction spendingTransaction true),
    (3000, .addNewBlock spendingBlock)]

end DarknetCoin
