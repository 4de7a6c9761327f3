import Mathlib.Algebra.Order.BigOperators.Group.List
import Mathlib.Data.List.TakeWhile
import DarknetCoin.Theorems.ThreadedChain

/-!
# The transactions a block template selects

`fill_block_template` passes over the pool twice and appends a transaction when nothing in it is
spent by those selected before. What is known of the selection is stated once, and each pass is an
induction.
-/

namespace DarknetCoin

open Semantics Program

/-! ### Invariants of the pool along runs of a node

The block storage reaches the pool through four operations only. A property of the pool that these
keep holds in every state of every run, whatever happens to the main chain. -/

variable {net : Network} {P : TxMemoryPool → Prop}

/-- A property of the pool that its operations keep. -/
structure PoolInvariant (net : Network) (P : TxMemoryPool → Prop) : Prop where
  empty : P TxMemoryPool.empty
  add : ∀ validator now tx kept,
    Keeps P (TxMemoryPool.addTxHashed net.cur net.crypto validator now tx kept)
  take : ∀ id pool, P pool → P (TxMemoryPool.takeTx net.crypto id pool).2
  expire : ∀ now pool, P pool →
    P (TxMemoryPool.removeExpiredTransactions net.cur net.crypto now pool)
  fill : ∀ validator medianSize maxCumulativeSize,
    Keeps P (TxMemoryPool.fillBlockTemplate net.cur validator medianSize maxCumulativeSize)

namespace PoolInvariant

variable (h : PoolInvariant net P) (now : Nat)
include h

omit h in
theorem onPool {α : Type} {p : TransactionValidator → Program TxMemoryPool α}
    (hp : ∀ validator, Keeps P (p validator)) :
    Keeps (fun core => P core.mempool) (Core.onPool net now p) := by
  refine Keeps.get.bind fun core => .zoom fun core' hpool => ?_
  exact hp _ core'.mempool hpool

omit h in
theorem onMain {α : Type} (p : Program MainChain α) :
    Keeps (fun core => P core.mempool) (Core.onMain p) := by
  refine .zoom fun core hpool => ?_
  cases p core.main with
  | done a main => exact hpool
  | thrown main => exact hpool
  | stuck => trivial

theorem callFrame : Core.CallFrame net now 0 fun core => P core.mempool where
  add tx kept := onPool now fun validator => h.add validator now tx kept
  take id := onPool now fun _ => .modifyGet fun pool hpool => h.take id pool hpool
  push _ _ := onMain _
  limit _ hpool := hpool
  length_le _ _ := Nat.zero_le _
  pop core _ hpool _ := onMain _ core hpool
  erase _ _ hpool := hpool
  idle := onPool now fun _ => .modify (h.expire now)
  fill _ _ := onPool now fun validator => h.fill validator _ _

omit now in
theorem of_run {Ok : Nat → Nat → Core → Call → Prop} {clock : Nat} {core : Core}
    (hrun : Core.Run net Ok clock core) : P core.mempool := by
  induction hrun with
  | @start now core hinitial =>
    have hstart : P Core.empty.mempool := h.empty
    exact ((h.callFrame now).pushBlock net.cur.genesisBlock Core.empty hstart).of_done hinitial
  | @step clock now core core' call hrun _ hstep ih =>
    obtain ⟨fuel, hleaves⟩ := hstep
    exact ((Core.call_keeps (threaded_invariant net anySupply) (h.callFrame now)
      (fun _ hpool _ _ => ⟨hpool, fun _ _ => Nat.zero_le _⟩) fuel ⟨supplied_of_run hrun, ih⟩
      (anySupply_admits call)).leaves hleaves).2

end PoolInvariant

/-- An entry of the pool has the size and the fee of its transaction, and the transaction spends
what it creates. -/
structure TransactionDetails.Measured (cur : Currency) (txd : TransactionDetails) : Prop where
  blobSize : txd.blobSize = getObjectBinarySize txd.tx
  covered : getOutsMoneyAmount txd.tx ≤ cur.getTransactionAllInputsAmount txd.tx
  fee : txd.fee = cur.getTransactionAllInputsAmount txd.tx - getOutsMoneyAmount txd.tx

theorem getTransactionAllInputsAmount_lt (cur : Currency) (tx : Transaction) :
    cur.getTransactionAllInputsAmount tx < word64 := by
  unfold Currency.getTransactionAllInputsAmount
  generalize tx.inputs = inputs
  induction inputs using List.reverseRecOn with
  | nil => exact add64_lt 0 0
  | append_singleton inputs input _ =>
    rw [List.foldl_append]
    exact add64_lt _ _

theorem TransactionDetails.Measured.fee_eq_sub64 {cur : Currency} {txd : TransactionDetails}
    (h : txd.Measured cur) :
    sub64 (cur.getTransactionAllInputsAmount txd.tx) (getOutsMoneyAmount txd.tx) = txd.fee := by
  rw [h.fee, sub64_of_le h.covered (getTransactionAllInputsAmount_lt cur txd.tx)]

namespace TxMemoryPool

/-- A transaction that creates more than it spends never gets into the pool. -/
theorem addTx_of_overspent {cur : Currency} {crypto : Crypto} {validator : TransactionValidator}
    {now systemTime : Nat} {tx : Transaction} {id : Hash} {blobSize : Nat} {kept : Bool}
    (pool : TxMemoryPool)
    (h : cur.getTransactionAllInputsAmount tx < getOutsMoneyAmount tx) :
    addTx cur crypto validator now systemTime tx id blobSize kept pool = .done rejected pool := by
  unfold addTx
  simp [h]

/-- Every entry is measured. -/
def Measured (cur : Currency) (pool : TxMemoryPool) : Prop :=
  ∀ txd ∈ pool.transactions, txd.Measured cur

theorem Measured.updateCheckInfo {cur : Currency} {pool : TxMemoryPool} (h : Measured cur pool)
    (id : Hash) (info : TransactionCheckInfo) : Measured cur (updateCheckInfo id info pool) := by
  intro txd hmem
  obtain ⟨old, hold, rfl⟩ := List.mem_map.mp hmem
  have hmeasured := h old hold
  split
  · exact ⟨hmeasured.blobSize, hmeasured.covered, hmeasured.fee⟩
  · exact hmeasured

/-- The details of a transaction are taken from the transaction, and no operation changes them. -/
theorem measured_invariant (net : Network) : PoolInvariant net (Measured net.cur) where
  empty := fun _ h => absurd h List.not_mem_nil
  add validator now tx kept pool h := by
    unfold addTxHashed
    by_cases hspent : net.cur.getTransactionAllInputsAmount tx < getOutsMoneyAmount tx
    · rw [addTx_of_overspent pool hspent]
      exact h
    refine addTx_holds h fun valid maxUsedBlock _ other hother => ?_
    rcases mem_insertDetails.mp hother with rfl | hold
    · exact ⟨rfl, not_lt.mp hspent, rfl⟩
    · exact h other hold
  take id pool h := by
    unfold takeTx
    split
    · exact h
    intro txd hmem
    rw [removeTransaction_transactions] at hmem
    exact h txd (List.mem_filter.mp hmem).1
  expire now pool h txd hmem :=
    h txd (Supplied.removeExpiredTransactions_subset net.crypto hmem)
  fill _ := fillBlockTemplate_keeps fun id info _ h => h.updateCheckInfo id info

end TxMemoryPool

open List

namespace Transaction

/-- The transactions have no key image and no multisignature output in common. -/
def Independent (a b : Transaction) : Prop :=
  a.keyImages.Disjoint b.keyImages ∧ a.multisignatureReferences.Disjoint b.multisignatureReferences

theorem not_independent_self {tx : Transaction} (h : SemanticallyValid tx) :
    ¬tx.Independent tx := by
  rintro ⟨himages, hrefs⟩
  obtain ⟨input, hinput⟩ := exists_mem_of_ne_nil _ h.inputs_ne_nil
  have hsupported := all_eq_true.mp h.inputsTypesSupported input hinput
  cases input with
  | base input => cases hsupported
  | key input =>
    have hmem : input.keyImage ∈ tx.keyImages := mem_filterMap.mpr ⟨_, hinput, rfl⟩
    exact himages hmem hmem
  | multisignature input =>
    have hmem : (input.amount, input.outputIndex) ∈ tx.multisignatureReferences :=
      mem_filterMap.mpr ⟨_, hinput, rfl⟩
    exact hrefs hmem hmem

end Transaction

/-- No selection is larger than the largest of the limits that `fill_block_template` compares with:
one for the first pass, two for the second. -/
def Currency.selectionLimit (cur : Currency) (medianSize maxCumulativeSize : Nat) : Nat :=
  max cur.fusionTxMaxSize (max medianSize
    (min (sub64 (mul64 125 medianSize / 100) cur.minerTxBlobReservedSize) maxCumulativeSize))

namespace TxMemoryPool

variable {source : List TransactionDetails} {limit : Nat} {template : BlockTemplate}
  {selected : List TransactionDetails}

/-- The template stands for the entries `selected` of `source`, which fit into `limit`. -/
structure BlockTemplate.Selects (source : List TransactionDetails) (limit : Nat)
    (template : BlockTemplate) (selected : List TransactionDetails) : Prop where
  subset : selected ⊆ source
  txHashes : template.txHashes = selected.map TransactionDetails.id
  keyImages : template.keyImages = selected.flatMap fun txd => txd.tx.keyImages
  usedOutputs : template.usedOutputs = selected.flatMap fun txd => txd.tx.multisignatureReferences
  totalSize : template.totalSize = (selected.map TransactionDetails.blobSize).sum
  fee : template.fee = selected.foldl (fun fee txd => add64 fee txd.fee) 0
  independent : selected.Pairwise fun a b => a.tx.Independent b.tx
  totalSize_le : template.totalSize ≤ limit

namespace BlockTemplate.Selects

theorem nil : ({} : BlockTemplate).Selects source limit [] where
  subset := nil_subset _
  txHashes := rfl
  keyImages := rfl
  usedOutputs := rfl
  totalSize := rfl
  fee := rfl
  independent := .nil
  totalSize_le := Nat.zero_le _

section

variable (h : template.Selects source limit selected)

include h

/-- `canAdd` compares with everything selected before. -/
theorem independent_of_canAdd {tx : Transaction}
    (hadd : template.canAdd tx = true) : ∀ old ∈ selected, old.tx.Independent tx := by
  intro old hold
  obtain ⟨himages, hrefs⟩ := Bool.and_eq_true_iff.mp hadd
  constructor
  · intro image hspent hnew
    refine of_decide_eq_true (all_eq_true.mp himages image hnew) ?_
    rw [h.keyImages]
    exact mem_flatMap.mpr ⟨old, hold, hspent⟩
  · intro reference hspent hnew
    refine of_decide_eq_true (all_eq_true.mp hrefs reference hnew) ?_
    rw [h.usedOutputs]
    exact mem_flatMap.mpr ⟨old, hold, hspent⟩

theorem addTransaction {txd : TransactionDetails}
    (hmem : txd ∈ source) (hsize : template.totalSize + txd.blobSize ≤ limit) :
    ∃ selected', (template.addTransaction txd txd.fee).Selects source limit selected' := by
  unfold BlockTemplate.addTransaction
  split
  · rename_i hadd
    refine ⟨selected ++ [txd], ?_, ?_, ?_, ?_, ?_, ?_, ?_, hsize⟩
    · exact append_subset.mpr ⟨h.subset, by simpa using hmem⟩
    · simp [h.txHashes]
    · simp [h.keyImages]
    · simp [h.usedOutputs]
    · simp [h.totalSize]
    · simp [h.fee]
    · refine pairwise_append.mpr ⟨h.independent, pairwise_singleton _ _, ?_⟩
      intro old hold new hnew
      rw [mem_singleton.mp hnew]
      exact h.independent_of_canAdd hadd old hold
  · exact ⟨selected, h⟩

variable (hsem : ∀ txd ∈ source, SemanticallyValid txd.tx)
include hsem

/-- No entry is selected twice: it would have to spend nothing. -/
theorem nodup : selected.Nodup := by
  refine h.independent.imp_of_mem fun {a b} ha _ hindependent => ?_
  rintro rfl
  exact Transaction.not_independent_self (hsem a (h.subset ha)) hindependent

theorem txHashes_nodup (hids : (source.map TransactionDetails.id).Nodup) :
    template.txHashes.Nodup := by
  rw [h.txHashes]
  refine (h.nodup hsem).map_on fun a ha b hb heq => ?_
  exact inj_on_of_nodup_map hids (h.subset ha) (h.subset hb) heq

/-- A selection is at most as large as everything there is to select from. -/
theorem sum_le : template.totalSize ≤ (source.map TransactionDetails.blobSize).sum := by
  rw [h.totalSize]
  obtain ⟨part, hperm, hsublist⟩ := (h.nodup hsem).subperm h.subset
  calc (selected.map TransactionDetails.blobSize).sum
      = (part.map TransactionDetails.blobSize).sum := ((hperm.map _).sum_eq).symm
    _ ≤ (source.map TransactionDetails.blobSize).sum :=
        (hsublist.map _).sum_le_sum fun _ _ => Nat.zero_le _

end

end BlockTemplate.Selects

variable {cur : Currency} {validator : TransactionValidator} {txds : List TransactionDetails}

/-- The first pass visits transactions without a fee, and adds none. -/
theorem fillFusionTransactions_selects {pool : TxMemoryPool} (hlimit : cur.fusionTxMaxSize ≤ limit)
    (hsubset : txds ⊆ source) (hfee : ∀ txd ∈ txds, txd.fee = 0)
    (h : template.Selects source limit selected) {result : BlockTemplate}
    (hfill : fillFusionTransactions cur validator pool template txds = .ok result) :
    ∃ selected', result.Selects source limit selected' := by
  induction txds generalizing template selected with
  | nil =>
    cases hfill
    exact ⟨selected, h⟩
  | cons txd rest ih =>
    have ih : ∀ {template selected}, template.Selects source limit selected →
        fillFusionTransactions cur validator pool template rest = .ok result →
          ∃ selected', result.Selects source limit selected' :=
      ih (subset_of_cons_subset hsubset) fun other hother =>
        hfee other (mem_cons_of_mem _ hother)
    unfold fillFusionTransactions at hfill
    split at hfill
    · exact ih h hfill
    rename_i hskip
    split at hfill
    · cases hfill
    rename_i ready info hready
    split at hfill
    · have hsize : template.totalSize + txd.blobSize ≤ limit := by
        simp only [Bool.or_eq_true, decide_eq_true_eq, not_or, not_lt] at hskip
        exact hskip.2.trans hlimit
      obtain ⟨selected', h'⟩ := h.addTransaction (hsubset mem_cons_self) hsize
      rw [hfee txd mem_cons_self] at h'
      exact ih h' hfill
    · exact ih h hfill

/-- The second pass visits the transactions in the order of the fee index. -/
theorem fillTransactions_selects {medianSize maxTotalSize : Nat} (hmedian : medianSize ≤ limit)
    (hmax : maxTotalSize ≤ limit) (hsubset : txds ⊆ source)
    (h : template.Selects source limit selected) :
    (fillTransactions validator medianSize maxTotalSize template txds).Returns fun result =>
      ∃ selected', result.Selects source limit selected' := by
  induction txds generalizing template selected with
  | nil => exact .pure ⟨selected, h⟩
  | cons txd rest ih =>
    have ih : ∀ {template selected}, template.Selects source limit selected →
        (fillTransactions validator medianSize maxTotalSize template rest).Returns fun result =>
          ∃ selected', result.Selects source limit selected' :=
      ih (subset_of_cons_subset hsubset)
    refine Returns.trivial.bind fun pool _ => .ite (fun _ => ih h) fun hskip => ?_
    refine Returns.trivial.bind fun answer _ => Returns.trivial.bind
      fun _ _ => ?_
    cases answer.1 with
    | false => exact ih h
    | true =>
      have hsize : template.totalSize + txd.blobSize ≤ limit := by
        simp only [Bool.or_eq_true, decide_eq_true_eq, not_or, not_lt] at hskip
        refine hskip.2.trans ?_
        split
        · exact hmedian
        · exact hmax
      obtain ⟨selected', h'⟩ := h.addTransaction (hsubset mem_cons_self) hsize
      exact ih h'

theorem fillBlockTemplate_selects {medianSize maxCumulativeSize : Nat} {pool pool' : TxMemoryPool}
    (hfill : fillBlockTemplate cur validator medianSize maxCumulativeSize pool =
      .done template pool') :
    ∃ selected, template.Selects pool.transactions (cur.selectionLimit medianSize maxCumulativeSize)
    selected := by
  unfold fillBlockTemplate at hfill
  rw [get_bind_run] at hfill
  obtain ⟨fusion, between, hfusion, hrest⟩ := bind_eq_done.mp hfill
  obtain ⟨selected, hsel⟩ := fillFusionTransactions_selects (le_max_left _ _)
    (fun txd htxd => mem_reverse.mp (takeWhile_subset _ htxd))
    (fun txd htxd => by simpa using mem_takeWhile_imp htxd) .nil
    (read_eq_done.mp hfusion).1
  exact fillTransactions_selects ((le_max_left _ _).trans (le_max_right _ _))
    ((le_max_right _ _).trans (le_max_right _ _)) (.refl _) hsel _ _ _ hrest

end TxMemoryPool

end DarknetCoin
