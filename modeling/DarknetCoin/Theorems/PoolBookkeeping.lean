import DarknetCoin.Model.TransactionPool
import DarknetCoin.Theorems.WordArithmetic
import Mathlib.Algebra.Order.Field.Rat
import Mathlib.Data.Prod.Lex

/-!
# The derived containers of the pool

The pool keeps five containers beside its transactions, and `add_tx` inserts into the main one
before the last of its steps can fail. Each container is a function of the transactions in the pool.
-/

namespace DarknetCoin

open Semantics Program List

namespace TxMemoryPool

variable {id : Hash} {pool : TxMemoryPool}

/-- The key images of a pool after `id`, spending `images`, was recorded. -/
def recordImages (id : Hash) (images : List KeyImage) (m : KeyImage → Option (Finset Hash)) :
    KeyImage → Option (Finset Hash) := fun k =>
  if k ∈ images then some (insert id ((m k).getD ∅)) else m k

/-- The key images of a pool after `id`, spending `images`, was erased. -/
def eraseImages (id : Hash) (images : List KeyImage) (m : KeyImage → Option (Finset Hash)) :
    KeyImage → Option (Finset Hash) := fun k =>
  if k ∈ images then
    let rest := ((m k).getD ∅).erase id
    if rest = ∅ then none else some rest
  else m k

variable {image : KeyImage} {images : List KeyImage} {m : KeyImage → Option (Finset Hash)}
  {inputs : List TransactionInput}

theorem recordImages_cons (hnew : image ∉ images) :
    recordImages id images (Function.update m image (some (insert id ((m image).getD ∅)))) =
      recordImages id (image :: images) m := by
  funext k
  by_cases hk : k = image
  · subst hk
    simp [recordImages]
  · simp [recordImages, hk]

theorem eraseImages_cons {set : Finset Hash} (hnew : image ∉ images)
    (hset : m image = some set) : eraseImages id images
        (Function.update m image (if set.erase id = ∅ then none else some (set.erase id))) =
      eraseImages id (image :: images) m := by
  funext k
  by_cases hk : k = image
  · subst hk
    simp [eraseImages, hnew, hset]
  · simp [eraseImages, hk]

/-- Recording the inputs of a transaction succeeds when its key images are distinct and, for a
transaction no block keeps, not yet recorded. -/
theorem addTransactionInputs_eq {kept : Bool} (hnodup : (keyImagesOf inputs).Nodup)
    (hfresh : ∀ k ∈ keyImagesOf inputs, id ∉ pool.keyImageIds k)
    (hunspent : kept = false → ∀ k ∈ keyImagesOf inputs, pool.keyImageIds k = ∅) :
    addTransactionInputs id kept inputs pool = (true, { pool with
      spentKeyImages := recordImages id (keyImagesOf inputs) pool.spentKeyImages
      spentOutputs := if kept then pool.spentOutputs
        else pool.spentOutputs ∪ (multisignatureReferencesOf inputs).toFinset }) := by
  induction inputs generalizing pool with
  | nil =>
    have himages : recordImages id [] pool.spentKeyImages = pool.spentKeyImages := by
      funext k
      simp [recordImages]
    simp [addTransactionInputs, himages]
  | cons input inputs ih =>
    cases input with
    | base input => exact ih hnodup hfresh hunspent
    | multisignature input =>
      cases kept with
      | true => exact ih hnodup hfresh hunspent
      | false =>
        rw [addTransactionInputs, ih hnodup]
        · simp [Finset.union_insert]
        · exact hfresh
        · exact hunspent
    | key input =>
      rw [keyImagesOf_key] at hnodup hfresh hunspent
      obtain ⟨hnew, hnodup⟩ := nodup_cons.mp hnodup
      have hid : id ∉ pool.keyImageIds input.keyImage := hfresh _ mem_cons_self
      have hguard : ((!kept && (pool.keyImageIds input.keyImage).card ≠ 0) ||
          id ∈ pool.keyImageIds input.keyImage) = false := by
        cases kept with
        | true => simpa using hid
        | false => simp [hunspent rfl _ mem_cons_self]
      -- entries of the later key images are not touched by the update
      have hids : ∀ k ∈ keyImagesOf inputs, keyImageIds { pool with
          spentKeyImages := Function.update pool.spentKeyImages input.keyImage
            (some (insert id (pool.keyImageIds input.keyImage))) } k = pool.keyImageIds k := by
        intro k hk
        have hne : k ≠ input.keyImage := fun heq => hnew (heq ▸ hk)
        simp [keyImageIds, hne]
      rw [addTransactionInputs, hguard, ih hnodup]
      · simp [keyImageIds, recordImages_cons hnew]
      · intro k hk
        rw [hids k hk]
        exact hfresh k (mem_cons_of_mem _ hk)
      · intro hkept k hk
        rw [hids k hk]
        exact hunspent hkept k (mem_cons_of_mem _ hk)

/-- Erasing the inputs of a transaction that is recorded under all its key images succeeds. -/
theorem removeTransactionInputs_eq {kept : Bool} (hnodup : (keyImagesOf inputs).Nodup)
    (hrecorded : ∀ k ∈ keyImagesOf inputs, id ∈ pool.keyImageIds k) :
    removeTransactionInputs id kept inputs pool = (true, { pool with
      spentKeyImages := eraseImages id (keyImagesOf inputs) pool.spentKeyImages
      spentOutputs := if kept then pool.spentOutputs
        else pool.spentOutputs \ (multisignatureReferencesOf inputs).toFinset }) := by
  induction inputs generalizing pool with
  | nil =>
    have himages : eraseImages id [] pool.spentKeyImages = pool.spentKeyImages := by
      funext k
      simp [eraseImages]
    simp [removeTransactionInputs, himages]
  | cons input inputs ih =>
    cases input with
    | base input => exact ih hnodup hrecorded
    | multisignature input =>
      cases kept with
      | true => exact ih hnodup hrecorded
      | false =>
        rw [removeTransactionInputs, ih hnodup]
        · simp [Finset.sdiff_insert, Finset.erase_sdiff_comm]
        · exact hrecorded
    | key input =>
      rw [keyImagesOf_key] at hnodup hrecorded
      obtain ⟨hnew, hnodup⟩ := nodup_cons.mp hnodup
      have hid : id ∈ pool.keyImageIds input.keyImage := hrecorded _ mem_cons_self
      cases hset : pool.spentKeyImages input.keyImage with
      | none =>
        simp [keyImageIds, hset] at hid
      | some set =>
        have hmem : id ∈ set := by simpa [keyImageIds, hset] using hid
        rw [removeTransactionInputs]
        simp only [hset, if_neg (not_not.mpr hmem)]
        rw [ih hnodup]
        · simp [eraseImages_cons hnew hset]
        · intro k hk
          have hne : k ≠ input.keyImage := fun heq => hnew (heq ▸ hk)
          have hold := hrecorded k (mem_cons_of_mem _ hk)
          simpa [keyImageIds, hne] using hold

variable (inputs : List TransactionInput)

theorem addTransactionInputs_transactions (kept : Bool) :
    (addTransactionInputs id kept inputs pool).2.transactions = pool.transactions := by
  induction inputs generalizing pool with
  | nil => rfl
  | cons input inputs ih =>
    cases input with
    | base input => exact ih
    | multisignature input =>
      rw [addTransactionInputs, ih]
      cases kept <;> rfl
    | key input =>
      rw [addTransactionInputs]
      split
      · rfl
      · rw [ih]

theorem removeTransactionInputs_transactions (kept : Bool) :
    (removeTransactionInputs id kept inputs pool).2.transactions = pool.transactions := by
  induction inputs generalizing pool with
  | nil => rfl
  | cons input inputs ih =>
    cases input with
    | base input => exact ih
    | multisignature input =>
      rw [removeTransactionInputs, ih]
      cases kept <;> rfl
    | key input =>
      rw [removeTransactionInputs]
      split
      · rfl
      · split
        · rfl
        · rw [ih]

theorem removeTransaction_transactions (crypto : Crypto) (txd : TransactionDetails) :
    (removeTransaction crypto txd pool).transactions = pool.transactions.filter fun other =>
    other.id != txd.id := by
  unfold removeTransaction
  simp only [removeTransactionInputs_transactions]

section Calls

variable {cur : Currency} {crypto : Crypto} {validator : TransactionValidator} {now : Nat}
  {systemTime : Nat} {tx : Transaction} {id : Hash} {blobSize : Nat} {kept : Bool}
    {pool : TxMemoryPool}

/-- The details `add_tx` stores. -/
def newDetails (cur : Currency) (now : Nat) (tx : Transaction) (id : Hash) (blobSize : Nat)
    (kept : Bool) (maxUsedBlock : BlockInfo) : TransactionDetails where
  maxUsedBlock := maxUsedBlock
  lastFailedBlock := BlockInfo.clear
  id := id
  tx := tx
  blobSize := blobSize
  fee := cur.getTransactionAllInputsAmount tx - getOutsMoneyAmount tx
  keptByBlock := kept
  receiveTime := now

/-- The last steps of `add_tx`: store the details, then record the inputs. -/
def insertDetails (crypto : Crypto) (txd : TransactionDetails) (pool : TxMemoryPool) :
    Bool × TxMemoryPool :=
  addTransactionInputs txd.id txd.keptByBlock txd.tx.inputs
    (insertTransaction crypto (getTransactionTtl txd.tx.extra) txd pool)

theorem mem_insertDetails {txd a : TransactionDetails} :
    a ∈ (insertDetails crypto txd pool).2.transactions ↔ a = txd ∨ a ∈ pool.transactions := by
  unfold insertDetails
  rw [addTransactionInputs_transactions]
  exact mem_orderedInsert _

/-- An `add_tx` that gets as far as the insertion: the answer of the validator, and why nothing
stopped it before. -/
structure Inserts (validator : TransactionValidator) (tx : Transaction) (id : Hash) (kept : Bool)
    (pool : TxMemoryPool) (valid : Bool) (maxUsedBlock : BlockInfo) : Prop where
  checked : validator.checkTransactionInputs tx = .ok (valid, maxUsedBlock)
  fresh : pool.haveTx id = false
  valid_of_not_kept : kept = false → valid = true
  unspent_of_not_kept : kept = false → pool.haveSpentInputs tx = false
  forgotten_of_not_kept : kept = false → pool.recentlyDeletedTransactions id = none

variable {P : TxMemoryPool → Prop}

/-- Everything an `add_tx` can do: leave the pool as it is, or insert the transaction. -/
theorem addTx_holds (h : P pool)
    (hinserts : ∀ valid maxUsedBlock, Inserts validator tx id kept pool valid maxUsedBlock →
      P (insertDetails crypto (newDetails cur now tx id blobSize kept
        (if valid then maxUsedBlock else .clear)) pool).2) :
    (addTx cur crypto validator now systemTime tx id blobSize kept pool).Holds (fun _ => P) P := by
  unfold addTx
  extract_lets
  split
  · exact h
  split
  · exact h
  split
  · exact h
  split
  · exact h
  split
  · exact h
  rename_i hspent
  split
  · exact h
  · trivial
  rename_i valid maxUsedBlock hchecked
  extract_lets
  split
  · exact h
  rename_i hvalid
  split
  · exact h
  split
  · exact h
  rename_i hforgotten
  split
  · exact h
  rename_i hfresh
  refine hinserts valid maxUsedBlock ⟨hchecked, ?_, ?_, ?_, ?_⟩
  · simpa using hfresh
  · rintro rfl
    simpa using hvalid
  · rintro rfl
    simpa using hspent
  · rintro rfl
    simpa using hforgotten

theorem fillBlockTemplate_keeps (h : ∀ id info pool, P pool → P (updateCheckInfo id info pool))
    (medianSize maxCumulativeSize : Nat) :
    Keeps P (fillBlockTemplate cur validator medianSize maxCumulativeSize) := by
  have hfill (maxTotalSize : Nat) (txds : List TransactionDetails) (template : BlockTemplate) :
      Keeps P (fillTransactions validator medianSize maxTotalSize template txds) := by
    induction txds generalizing template with
    | nil => exact .pure template
    | cons txd txds ih =>
      refine Keeps.get.bind fun pool => .ite (fun _ => ih template) fun _ => ?_
      refine (Keeps.read _).bind fun answer => ?_
      exact .bind (.modify (h _ _)) fun _ => ih _
  exact Keeps.get.bind fun pool => (Keeps.read _).bind fun template => hfill _ _ _

end Calls

/-- Every container of the pool is determined by its transactions. -/
structure Bookkeeping (pool : TxMemoryPool) : Prop where
  ids_nodup : (pool.transactions.map TransactionDetails.id).Nodup
  semantic : ∀ txd ∈ pool.transactions, SemanticallyValid txd.tx
  /-- A key image is mapped to the transactions that spend it. -/
  mem_keyImageIds : ∀ image id, id ∈ pool.keyImageIds image ↔
    ∃ txd ∈ pool.transactions, txd.id = id ∧ image ∈ txd.tx.keyImages
  /-- No key image is mapped to an empty set. -/
  spentKeyImages_ne_empty : ∀ image, pool.spentKeyImages image ≠ some ∅
  /-- The spent outputs are those of the transactions no block keeps. -/
  mem_spentOutputs : ∀ reference, reference ∈ pool.spentOutputs ↔
    ∃ txd ∈ pool.transactions, txd.keptByBlock = false ∧ reference ∈ txd.tx.multisignatureReferences
  /-- The timestamp index has one entry for each transaction and no other. -/
  timestampIndex_eq : pool.timestampIndex =
    ↑(pool.transactions.map fun txd => (txd.receiveTime, txd.id))
  /-- The time-to-live index has the transactions with a non-zero one. -/
  ttlIndex_eq_some : ∀ id ttl, pool.ttlIndex id = some ttl ↔
    ∃ txd ∈ pool.transactions, txd.id = id ∧ getTransactionTtl txd.tx.extra = ttl ∧ ttl ≠ 0
  keyImages_unshared : ∀ a ∈ pool.transactions, ∀ b ∈ pool.transactions,
    a.keptByBlock = false → b.keptByBlock = false → ∀ image ∈ a.tx.keyImages, image ∈
      b.tx.keyImages → a = b
  references_unshared : ∀ a ∈ pool.transactions, ∀ b ∈ pool.transactions,
    a.keptByBlock = false → b.keptByBlock = false →
      ∀ reference ∈ a.tx.multisignatureReferences, reference ∈ b.tx.multisignatureReferences → a = b

theorem bookkeeping_empty : Bookkeeping empty where
  ids_nodup := nodup_nil
  semantic := by simp [empty]
  mem_keyImageIds := by simp [empty, keyImageIds]
  spentKeyImages_ne_empty := by simp [empty]
  mem_spentOutputs := by simp [empty]
  timestampIndex_eq := rfl
  ttlIndex_eq_some := by simp [empty]
  keyImages_unshared := by simp [empty]
  references_unshared := by simp [empty]

theorem haveTx_eq_false : pool.haveTx id = false ↔ ∀ txd ∈ pool.transactions, txd.id ≠ id := by
  simp [haveTx, find?]

theorem haveSpentInputs_eq_false {tx : Transaction} (h : pool.haveSpentInputs tx = false) :
    (∀ image ∈ tx.keyImages, pool.spentKeyImages image = none) ∧
      ∀ reference ∈ tx.multisignatureReferences, reference ∉ pool.spentOutputs := by
  have hall := any_eq_false.mp h
  constructor
  · intro image himage
    obtain ⟨input, hinput, hkey⟩ := mem_filterMap.mp himage
    cases input with
    | key input =>
      cases hkey
      simpa using hall _ hinput
    | multisignature input => cases hkey
    | base input => cases hkey
  · intro reference href
    obtain ⟨input, hinput, rfl⟩ := exists_of_mem_multisignatureReferencesOf href
    simpa using hall _ hinput

/-- A transaction of the given age is too old, or its time-to-live is over. -/
def Expired (cur : Currency) (now age : Nat) (txd : TransactionDetails) : Prop :=
  (if txd.keptByBlock then cur.mempoolTxFromAltBlockLiveTime else cur.mempoolTxLiveTime) < age ∨
    getTransactionTtl txd.tx.extra ≠ 0 ∧ getTransactionTtl txd.tx.extra ≤ now

/-- What the expiry loop does when it visits transactions: those that are too old go and are
remembered. -/
structure Expires (cur : Currency) (now : Nat) (txds : List TransactionDetails)
    (pool result : TxMemoryPool) : Prop where
  bookkeeping : Bookkeeping result
  mem : ∀ a, a ∈ result.transactions ↔ a ∈ pool.transactions ∧
    (a ∈ txds → ¬Expired cur now (sub64 now a.receiveTime) a)
  remembered : ∀ id deletedAt, pool.recentlyDeletedTransactions id = some deletedAt →
    result.recentlyDeletedTransactions id = some deletedAt
  deleted : ∀ a ∈ txds, Expired cur now (sub64 now a.receiveTime) a →
    result.recentlyDeletedTransactions a.id ≠ none
  noted : ∀ id deletedAt, result.recentlyDeletedTransactions id = some deletedAt →
    pool.recentlyDeletedTransactions id = some deletedAt ∨ deletedAt = now

namespace Bookkeeping

variable {pool : TxMemoryPool} {crypto : Crypto} {a txd : TransactionDetails}

section

variable (h : Bookkeeping pool)

include h

theorem eq_of_id {b : TransactionDetails} (ha : a ∈ pool.transactions)
    (hb : b ∈ pool.transactions) (hid : a.id = b.id) : a = b :=
  inj_on_of_nodup_map h.ids_nodup ha hb hid

theorem notMem_keyImageIds (hfresh : ∀ txd ∈ pool.transactions, txd.id ≠ id) (image : KeyImage) :
    id ∉ pool.keyImageIds image := by
  intro hmem
  obtain ⟨txd, htxd, hid, -⟩ := (h.mem_keyImageIds image id).mp hmem
  exact hfresh txd htxd hid

variable {old : TransactionDetails}

theorem keyImages_new (hunspent : pool.haveSpentInputs txd.tx = false)
    (hold : old ∈ pool.transactions)
    {image : KeyImage} (himage : image ∈ txd.tx.keyImages) : image ∉ old.tx.keyImages := by
  intro hshared
  have hnone := (haveSpentInputs_eq_false hunspent).1 image himage
  have hid := (h.mem_keyImageIds image old.id).mpr ⟨old, hold, rfl, hshared⟩
  simp [keyImageIds, hnone] at hid

theorem references_new (hunspent : pool.haveSpentInputs txd.tx = false)
    (hold : old ∈ pool.transactions) (holdKept : old.keptByBlock = false) {reference : Nat × Nat}
    (href : reference ∈ txd.tx.multisignatureReferences) :
    reference ∉ old.tx.multisignatureReferences := by
  intro hshared
  exact (haveSpentInputs_eq_false hunspent).2 reference href
    ((h.mem_spentOutputs reference).mpr ⟨old, hold, holdKept, hshared⟩)

theorem mem_recordImages (txd : TransactionDetails) (image : KeyImage) (id : Hash) :
    id ∈ (recordImages txd.id txd.tx.keyImages pool.spentKeyImages image).getD ∅ ↔
      ∃ a, (a = txd ∨ a ∈ pool.transactions) ∧ a.id = id ∧ image ∈ a.tx.keyImages := by
  rw [exists_eq_or_imp, ← h.mem_keyImageIds image id, keyImageIds]
  by_cases himage : image ∈ txd.tx.keyImages
  · simp [recordImages, himage, eq_comm]
  · simp [recordImages, himage]

theorem mem_spentOutputs_insert (txd : TransactionDetails) (reference : Nat × Nat) :
    reference ∈ (if txd.keptByBlock then pool.spentOutputs
        else pool.spentOutputs ∪ txd.tx.multisignatureReferences.toFinset) ↔
        ∃ a, (a = txd ∨ a ∈ pool.transactions) ∧
        a.keptByBlock = false ∧ reference ∈ a.tx.multisignatureReferences := by
  rw [exists_eq_or_imp, ← h.mem_spentOutputs reference]
  cases txd.keptByBlock with
  | true => simp
  | false => simp [or_comm]

variable (hfresh : ∀ old ∈ pool.transactions, old.id ≠ txd.id)
include hfresh

theorem ttlIndex_insert (id : Hash) (ttl : Nat) : (if getTransactionTtl txd.tx.extra ≠ 0
      then Function.update pool.ttlIndex txd.id (some (getTransactionTtl txd.tx.extra))
      else pool.ttlIndex) id = some ttl ↔ ∃ a, (a = txd ∨ a ∈ pool.transactions) ∧
        a.id = id ∧ getTransactionTtl a.tx.extra = ttl ∧ ttl ≠ 0 := by
  have hnone : pool.ttlIndex txd.id ≠ some ttl := by
    intro hsome
    obtain ⟨old, hmem, hid, -⟩ := (h.ttlIndex_eq_some txd.id ttl).mp hsome
    exact hfresh old hmem hid
  rw [exists_eq_or_imp, ← h.ttlIndex_eq_some id ttl]
  by_cases hid : id = txd.id
  · subst hid
    by_cases hne : getTransactionTtl txd.tx.extra = 0
    · simp +contextual [hne, hnone, eq_comm]
    · simp +contextual [hne, hnone, iff_def, eq_comm]
  · split
    · simp [hid, Ne.symm hid]
    · simp [Ne.symm hid]

variable (hsem : SemanticallyValid txd.tx)
  (hunspent : txd.keptByBlock = false → pool.haveSpentInputs txd.tx = false)
include hsem hunspent

theorem insertDetails_eq : insertDetails crypto txd pool =
      (true, { insertTransaction crypto (getTransactionTtl txd.tx.extra) txd pool with
        spentKeyImages := recordImages txd.id txd.tx.keyImages pool.spentKeyImages
        spentOutputs := if txd.keptByBlock then pool.spentOutputs
          else pool.spentOutputs ∪ txd.tx.multisignatureReferences.toFinset }) := by
  refine addTransactionInputs_eq hsem.keyImages_nodup ?_ ?_
  · intro image _
    exact h.notMem_keyImageIds hfresh image
  · intro hkept image himage
    have hnone := (haveSpentInputs_eq_false (hunspent hkept)).1 image himage
    simp [keyImageIds, insertTransaction, hnone]

theorem insertDetails : Bookkeeping (insertDetails crypto txd pool).2 := by
  rw [insertDetails_eq h hfresh hsem hunspent]
  have hperm : (pool.transactions.orderedInsert
      (fun lhs rhs => lhs.hasPriorityOver rhs = true) txd).Perm (txd :: pool.transactions) :=
    perm_orderedInsert _ _ _
  have hmem : ∀ {a}, a ∈ pool.transactions.orderedInsert
      (fun lhs rhs => lhs.hasPriorityOver rhs = true) txd ↔ a = txd ∨ a ∈ pool.transactions := by
    intro a
    rw [hperm.mem_iff, mem_cons]
  constructor
  case ids_nodup =>
    refine (hperm.map TransactionDetails.id).nodup_iff.mpr (nodup_cons.mpr ⟨?_, h.ids_nodup⟩)
    intro hid
    obtain ⟨old, hold, heq⟩ := mem_map.mp hid
    exact hfresh old hold heq
  case semantic =>
    intro a ha
    rcases hmem.mp ha with rfl | hold
    · exact hsem
    · exact h.semantic a hold
  case mem_keyImageIds =>
    intro image id
    exact (h.mem_recordImages txd image id).trans (exists_congr fun a => and_congr_left' hmem.symm)
  case spentKeyImages_ne_empty =>
    intro image
    by_cases himage : image ∈ txd.tx.keyImages
    · simp [recordImages, himage]
    · simpa [recordImages, himage] using h.spentKeyImages_ne_empty image
  case mem_spentOutputs =>
    intro reference
    exact (h.mem_spentOutputs_insert txd reference).trans
      (exists_congr fun a => and_congr_left' hmem.symm)
  case timestampIndex_eq =>
    have hmap := hperm.map fun a : TransactionDetails => (a.receiveTime, a.id)
    refine .trans ?_ (Multiset.coe_eq_coe.mpr hmap).symm
    change (txd.receiveTime, txd.id) ::ₘ pool.timestampIndex = _
    rw [h.timestampIndex_eq]
    rfl
  case ttlIndex_eq_some =>
    intro id ttl
    exact (h.ttlIndex_insert hfresh id ttl).trans (exists_congr fun a => and_congr_left' hmem.symm)
  case keyImages_unshared =>
    intro a ha b hb haKept hbKept image haSpends hbSpends
    rcases hmem.mp ha with rfl | haOld <;> rcases hmem.mp hb with rfl | hbOld
    · rfl
    · exact absurd hbSpends (h.keyImages_new (hunspent haKept) hbOld haSpends)
    · exact absurd haSpends (h.keyImages_new (hunspent hbKept) haOld hbSpends)
    · exact h.keyImages_unshared a haOld b hbOld haKept hbKept image haSpends hbSpends
  case references_unshared =>
    intro a ha b hb haKept hbKept reference haSpends hbSpends
    rcases hmem.mp ha with rfl | haOld <;> rcases hmem.mp hb with rfl | hbOld
    · rfl
    · exact absurd hbSpends (h.references_new (hunspent haKept) hbOld hbKept haSpends)
    · exact absurd haSpends (h.references_new (hunspent hbKept) haOld haKept hbSpends)
    · exact h.references_unshared a haOld b hbOld haKept hbKept reference haSpends hbSpends

omit hfresh hsem hunspent

variable (htxd : txd ∈ pool.transactions)
include htxd

theorem removeTransaction_eq : removeTransaction crypto txd pool = { pool with
        transactions := pool.transactions.filter fun other => other.id != txd.id
        spentKeyImages := eraseImages txd.id txd.tx.keyImages pool.spentKeyImages
        spentOutputs := if txd.keptByBlock then pool.spentOutputs
          else pool.spentOutputs \ txd.tx.multisignatureReferences.toFinset
        paymentIdIndex := pool.paymentIdIndex.remove crypto txd.tx
        timestampIndex := pool.timestampIndex.remove txd.receiveTime txd.id
        ttlIndex := Function.update pool.ttlIndex txd.id none } := by
  unfold removeTransaction
  rw [removeTransactionInputs_eq (h.semantic txd htxd).keyImages_nodup]
  · rfl
  · intro image himage
    exact (h.mem_keyImageIds image txd.id).mpr ⟨txd, htxd, rfl, himage⟩

theorem mem_filter_id :
    a ∈ pool.transactions.filter (fun other => other.id != txd.id) ↔ a ∈ pool.transactions ∧
    a ≠ txd := by
  rw [mem_filter, bne_iff_ne]
  refine and_congr_right fun ha => not_congr ⟨h.eq_of_id ha htxd, ?_⟩
  rintro rfl
  rfl

theorem perm_cons_filter :
    pool.transactions.Perm (txd :: pool.transactions.filter fun other => other.id != txd.id) := by
  have hnodup : pool.transactions.Nodup := h.ids_nodup.of_map
  refine (perm_ext_iff_of_nodup hnodup ?_).mpr fun a => ?_
  · refine nodup_cons.mpr ⟨?_, hnodup.filter _⟩
    intro hmem
    exact ((h.mem_filter_id htxd).mp hmem).2 rfl
  · rw [mem_cons, h.mem_filter_id htxd]
    by_cases ha : a = txd
    · simp [ha, htxd]
    · simp [ha]

theorem mem_eraseImages (image : KeyImage) (id : Hash) :
    id ∈ (eraseImages txd.id txd.tx.keyImages pool.spentKeyImages image).getD ∅ ↔
      ∃ a, (a ∈ pool.transactions ∧ a ≠ txd) ∧ a.id = id ∧ image ∈ a.tx.keyImages := by
  have hold := h.mem_keyImageIds image id
  unfold keyImageIds at hold
  by_cases himage : image ∈ txd.tx.keyImages
  · have herase : (eraseImages txd.id txd.tx.keyImages pool.spentKeyImages image).getD ∅ =
        ((pool.spentKeyImages image).getD ∅).erase txd.id := by
      simp only [eraseImages, if_pos himage]
      split
      · rename_i hempty
        rw [hempty]
        rfl
      · rfl
    rw [herase, Finset.mem_erase, hold]
    constructor
    · rintro ⟨hne, a, ha, rfl, hspends⟩
      exact ⟨a, ⟨ha, fun heq => hne (heq ▸ rfl)⟩, rfl, hspends⟩
    · rintro ⟨a, ⟨ha, hne⟩, rfl, hspends⟩
      exact ⟨fun hid => hne (h.eq_of_id ha htxd hid), a, ha, rfl, hspends⟩
  · simp only [eraseImages, if_neg himage]
    rw [hold]
    constructor
    · rintro ⟨a, ha, rfl, hspends⟩
      exact ⟨a, ⟨ha, fun heq => himage (heq ▸ hspends)⟩, rfl, hspends⟩
    · rintro ⟨a, ⟨ha, -⟩, rfl, hspends⟩
      exact ⟨a, ha, rfl, hspends⟩

theorem mem_spentOutputs_remove (reference : Nat × Nat) :
    reference ∈ (if txd.keptByBlock then pool.spentOutputs
        else pool.spentOutputs \ txd.tx.multisignatureReferences.toFinset) ↔
        ∃ a, (a ∈ pool.transactions ∧ a ≠ txd) ∧
        a.keptByBlock = false ∧ reference ∈ a.tx.multisignatureReferences := by
  have hold := h.mem_spentOutputs reference
  cases hkept : txd.keptByBlock with
  | true =>
    rw [if_pos rfl, hold]
    constructor
    · rintro ⟨a, ha, hnotKept, hspends⟩
      refine ⟨a, ⟨ha, ?_⟩, hnotKept, hspends⟩
      rintro rfl
      simp [hkept] at hnotKept
    · rintro ⟨a, ⟨ha, -⟩, hspends⟩
      exact ⟨a, ha, hspends⟩
  | false =>
    rw [if_neg (by decide), Finset.mem_sdiff, mem_toFinset, hold]
    constructor
    · rintro ⟨⟨a, ha, hnotKept, hspends⟩, hnot⟩
      refine ⟨a, ⟨ha, ?_⟩, hnotKept, hspends⟩
      rintro rfl
      exact hnot hspends
    · rintro ⟨a, ⟨ha, hne⟩, hnotKept, hspends⟩
      refine ⟨⟨a, ha, hnotKept, hspends⟩, fun hshared => hne ?_⟩
      exact h.references_unshared a ha txd htxd hnotKept hkept reference hspends hshared

theorem removeTransaction : Bookkeeping (removeTransaction crypto txd pool) := by
  rw [h.removeTransaction_eq htxd]
  have hmem : ∀ {a}, a ∈ pool.transactions.filter (fun other => other.id != txd.id) ↔
      a ∈ pool.transactions ∧ a ≠ txd := h.mem_filter_id htxd
  constructor
  case ids_nodup =>
    exact h.ids_nodup.sublist (filter_sublist.map _)
  case semantic =>
    intro a ha
    exact h.semantic a (hmem.mp ha).1
  case mem_keyImageIds =>
    intro image id
    exact (h.mem_eraseImages htxd image id).trans (exists_congr fun a => and_congr_left' hmem.symm)
  case spentKeyImages_ne_empty =>
    intro image hempty
    by_cases himage : image ∈ txd.tx.keyImages
    · simp only [eraseImages, if_pos himage] at hempty
      split at hempty
      · cases hempty
      · rename_i hne
        exact hne (Option.some.inj hempty)
    · simp only [eraseImages, if_neg himage] at hempty
      exact h.spentKeyImages_ne_empty image hempty
  case mem_spentOutputs =>
    intro reference
    exact (h.mem_spentOutputs_remove htxd reference).trans
      (exists_congr fun a => and_congr_left' hmem.symm)
  case timestampIndex_eq =>
    have hmap := (h.perm_cons_filter htxd).map fun a : TransactionDetails => (a.receiveTime, a.id)
    change pool.timestampIndex.erase (txd.receiveTime, txd.id) = _
    rw [h.timestampIndex_eq, Multiset.coe_eq_coe.mpr hmap]
    rw [map_cons, ← Multiset.cons_coe]
    exact Multiset.erase_cons_head _ _
  case ttlIndex_eq_some =>
    intro id ttl
    change Function.update pool.ttlIndex txd.id none id = some ttl ↔ _
    by_cases hid : id = txd.id
    · subst hid
      rw [Function.update_self]
      constructor
      · intro hnone
        cases hnone
      · rintro ⟨a, ha, heq, -⟩
        exact absurd (h.eq_of_id (hmem.mp ha).1 htxd heq) (hmem.mp ha).2
    · rw [Function.update_of_ne hid, h.ttlIndex_eq_some id ttl]
      refine exists_congr fun a => ?_
      constructor
      · rintro ⟨ha, rfl, hspends⟩
        exact ⟨hmem.mpr ⟨ha, fun heq => hid (heq ▸ rfl)⟩, rfl, hspends⟩
      · rintro ⟨ha, hspends⟩
        exact ⟨(hmem.mp ha).1, hspends⟩
  case keyImages_unshared =>
    intro a ha b hb
    exact h.keyImages_unshared a (hmem.mp ha).1 b (hmem.mp hb).1
  case references_unshared =>
    intro a ha b hb
    exact h.references_unshared a (hmem.mp ha).1 b (hmem.mp hb).1

omit htxd in
theorem takeTx (id : Hash) : Bookkeeping (takeTx crypto id pool).2 := by
  unfold TxMemoryPool.takeTx
  split
  · exact h
  · rename_i txd hfind
    exact h.removeTransaction (mem_of_find?_eq_some hfind)

omit htxd in
theorem forget (deleted : Hash → Option Nat) :
    Bookkeeping { pool with recentlyDeletedTransactions := deleted } :=
  ⟨h.ids_nodup, h.semantic, h.mem_keyImageIds, h.spentKeyImages_ne_empty, h.mem_spentOutputs,
    h.timestampIndex_eq, h.ttlIndex_eq_some, h.keyImages_unshared, h.references_unshared⟩

variable {cur : Currency} {now : Nat}

/-- The time-to-live is found by the identifier of the transaction. -/
theorem isExpired_iff : isExpired cur now pool txd ↔
    Expired cur now (sub64 now txd.receiveTime) txd := by
  unfold isExpired Expired
  cases hfind : pool.ttlIndex txd.id with
  | none =>
    have hzero : getTransactionTtl txd.tx.extra = 0 := by
      by_contra hne
      rw [(h.ttlIndex_eq_some _ _).mpr ⟨txd, htxd, rfl, rfl, hne⟩] at hfind
      cases hfind
    simp [hzero]
  | some ttl =>
    obtain ⟨other, hother, hid, rfl, hne⟩ := (h.ttlIndex_eq_some _ _).mp hfind
    obtain rfl := h.eq_of_id hother htxd hid
    simp [hne]

/-- A round of the expiry loop leaves every other transaction where it is. -/
theorem removeIfExpired : Expires cur now [txd] pool (removeIfExpired cur crypto now pool txd) := by
  unfold TxMemoryPool.removeIfExpired
  split
  · rename_i hexpired
    have hforget := h.forget (Function.update pool.recentlyDeletedTransactions txd.id
      ((pool.recentlyDeletedTransactions txd.id).orElse fun _ => some now))
    have hkeeps := @removeTransaction _ crypto _ hforget htxd
    rw [hforget.removeTransaction_eq htxd] at hkeeps ⊢
    refine ⟨hkeeps, fun a => ?_, fun id deletedAt hdel => ?_, fun a ha _ => ?_,
      fun id deletedAt hdel => ?_⟩
    · rw [mem_singleton]
      refine (h.mem_filter_id htxd).trans
        (and_congr_right fun _ => ⟨fun hne heq => absurd heq hne, ?_⟩)
      rintro hlive rfl
      exact hlive rfl ((h.isExpired_iff htxd).mp hexpired)
    · by_cases hid : id = txd.id
      · subst hid
        simp [hdel]
      · simpa [hid] using hdel
    · rw [mem_singleton.mp ha]
      cases hdel : pool.recentlyDeletedTransactions txd.id <;> simp
    · by_cases hid : id = txd.id
      · subst hid
        cases hold : pool.recentlyDeletedTransactions txd.id with
        | none => simpa [hold, eq_comm] using hdel
        | some _ => simpa [hold] using Or.inl hdel
      · exact .inl (by simpa [hid] using hdel)
  · rename_i hlive
    have hlive' := (h.isExpired_iff htxd).not.mp hlive
    refine ⟨h, fun a => ?_, fun _ _ hdel => hdel, fun a ha hexpired => ?_, fun _ _ => .inl⟩
    · exact ⟨fun ha => ⟨ha, fun heq => mem_singleton.mp heq ▸ hlive'⟩, And.left⟩
    · exact absurd (mem_singleton.mp ha ▸ hexpired) hlive'

end

variable {cur : Currency} {now : Nat}

theorem foldl_removeIfExpired (txds : List TransactionDetails) (h : Bookkeeping pool)
    (hnodup : txds.Nodup) (hmem : ∀ txd ∈ txds, txd ∈ pool.transactions) :
    Expires cur now txds pool (txds.foldl (TxMemoryPool.removeIfExpired cur crypto now) pool) := by
  induction txds generalizing pool with
  | nil => exact ⟨h, fun a => by simp, fun _ _ hdel => hdel, nofun, fun _ _ => .inl⟩
  | cons txd txds ih =>
    obtain ⟨hnew, hnodup⟩ := nodup_cons.mp hnodup
    have hfirst : Expires cur now [txd] pool
        (TxMemoryPool.removeIfExpired cur crypto now pool txd) :=
      h.removeIfExpired (hmem txd mem_cons_self)
    have hrest := ih hfirst.bookkeeping hnodup fun a ha => (hfirst.mem a).mpr
      ⟨hmem a (mem_cons_of_mem _ ha), fun heq => absurd (mem_singleton.mp heq ▸ ha) hnew⟩
    refine ⟨hrest.bookkeeping, fun a => ?_, fun id deletedAt hdel =>
      hrest.remembered id deletedAt (hfirst.remembered id deletedAt hdel), fun a ha hexpired => ?_,
      fun id deletedAt hdel =>
        (hrest.noted id deletedAt hdel).elim (hfirst.noted id deletedAt) .inr⟩
    · rw [foldl_cons, hrest.mem, hfirst.mem, and_assoc, ← or_imp, mem_singleton, mem_cons]
    · rcases mem_cons.mp ha with rfl | ha
      · obtain ⟨deletedAt, hdel⟩ := Option.ne_none_iff_exists'.mp
          (hfirst.deleted a (mem_singleton_self a) hexpired)
        rw [foldl_cons, hrest.remembered _ _ hdel]
        exact Option.some_ne_none _
      · exact hrest.deleted a ha hexpired

theorem removeExpiredTransactions (h : Bookkeeping pool) :
    Expires cur now pool.transactions (forgetDeletedTransactions cur now pool)
      (removeExpiredTransactions cur crypto now pool) :=
  foldl_removeIfExpired _ (h.forget _) h.ids_nodup.of_map fun _ ha => ha

/-- Two records of one transaction that differ in the remembered blocks only. -/
def SameTransaction (a b : TransactionDetails) : Prop :=
  a.id = b.id ∧ a.tx = b.tx ∧ a.keptByBlock = b.keptByBlock ∧ a.receiveTime = b.receiveTime

theorem map (h : Bookkeeping pool) {f : TransactionDetails → TransactionDetails}
    (hf : ∀ a, SameTransaction (f a) a) :
    Bookkeeping { pool with transactions := pool.transactions.map f } := by
  have hid : ∀ a, (f a).id = a.id := fun a => (hf a).1
  have htx : ∀ a, (f a).tx = a.tx := fun a => (hf a).2.1
  have hkept : ∀ a, (f a).keptByBlock = a.keptByBlock := fun a => (hf a).2.2.1
  have htime : ∀ a, (f a).receiveTime = a.receiveTime := fun a => (hf a).2.2.2
  constructor
  case ids_nodup => simpa [Function.comp_def, hid] using h.ids_nodup
  case semantic => simpa [htx] using h.semantic
  case mem_keyImageIds =>
    intro image id
    refine (h.mem_keyImageIds image id).trans ?_
    simp [hid, htx]
  case spentKeyImages_ne_empty => exact h.spentKeyImages_ne_empty
  case mem_spentOutputs =>
    intro reference
    refine (h.mem_spentOutputs reference).trans ?_
    simp [hkept, htx]
  case timestampIndex_eq => simpa [Function.comp_def, hid, htime] using h.timestampIndex_eq
  case ttlIndex_eq_some =>
    intro id ttl
    refine (h.ttlIndex_eq_some id ttl).trans ?_
    simp [hid, htx]
  case keyImages_unshared =>
    simp only [forall_mem_map, hkept, htx]
    intro a ha b hb haKept hbKept image haSpends hbSpends
    rw [h.keyImages_unshared a ha b hb haKept hbKept image haSpends hbSpends]
  case references_unshared =>
    simp only [forall_mem_map, hkept, htx]
    intro a ha b hb haKept hbKept reference haSpends hbSpends
    rw [h.references_unshared a ha b hb haKept hbKept reference haSpends hbSpends]

theorem updateCheckInfo (h : Bookkeeping pool) (id : Hash) (info : TransactionCheckInfo) :
    Bookkeeping (updateCheckInfo id info pool) := by
  refine h.map fun a => ?_
  split
  · exact ⟨rfl, rfl, rfl, rfl⟩
  · exact ⟨rfl, rfl, rfl, rfl⟩

variable {validator : TransactionValidator}

theorem addTx (h : Bookkeeping pool) {tx : Transaction} (hsem : SemanticallyValid tx)
    (systemTime : Nat) (id : Hash) (blobSize : Nat) (kept : Bool) :
    (addTx cur crypto validator now systemTime tx id blobSize kept pool).Holds
      (fun _ => Bookkeeping) Bookkeeping :=
  addTx_holds h fun _ _ hinserts => h.insertDetails (haveTx_eq_false.mp hinserts.fresh) hsem
    hinserts.unspent_of_not_kept

theorem fillBlockTemplate (medianSize maxCumulativeSize : Nat) :
    Keeps Bookkeeping (fillBlockTemplate cur validator medianSize maxCumulativeSize) :=
  fillBlockTemplate_keeps (fun id info _ h => h.updateCheckInfo id info) medianSize
    maxCumulativeSize

end Bookkeeping

/-- A call of the pool by its owner: any validator, any times, any transaction that passed
`check_tx_semantic`. A call that throws is a step too. -/
inductive PoolStep (cur : Currency) (crypto : Crypto) : TxMemoryPool → TxMemoryPool → Prop
  | addTx {pool pool' : TxMemoryPool} (validator : TransactionValidator) (now systemTime : Nat)
      (tx : Transaction) (id : Hash) (blobSize : Nat) (keptByBlock : Bool)
      (hsemantic : checkTxSemantic cur crypto tx = .ok true)
      (hcall :
        (addTx cur crypto validator now systemTime tx id blobSize keptByBlock pool).Leaves pool') :
      PoolStep cur crypto pool pool'
  | takeTx {pool : TxMemoryPool} (id : Hash) :
      PoolStep cur crypto pool (takeTx crypto id pool).2
  | removeExpiredTransactions {pool : TxMemoryPool} (now : Nat) :
      PoolStep cur crypto pool (removeExpiredTransactions cur crypto now pool)
  | fillBlockTemplate {pool pool' : TxMemoryPool} (validator : TransactionValidator)
      (medianSize maxCumulativeSize : Nat)
      (hcall : (fillBlockTemplate cur validator medianSize maxCumulativeSize pool).Leaves pool') :
      PoolStep cur crypto pool pool'

theorem Bookkeeping.step {cur : Currency} {crypto : Crypto} {pool' : TxMemoryPool}
    (h : Bookkeeping pool) (hstep : PoolStep cur crypto pool pool') : Bookkeeping pool' := by
  cases hstep with
  | addTx validator now systemTime tx id blobSize kept hsem hcall =>
    exact (h.addTx (semanticallyValid_of_checkTxSemantic hsem) systemTime id blobSize
      kept).leaves hcall
  | takeTx id => exact h.takeTx id
  | removeExpiredTransactions now => exact h.removeExpiredTransactions.bookkeeping
  | fillBlockTemplate validator medianSize maxCumulativeSize hcall =>
    exact (fillBlockTemplate medianSize maxCumulativeSize).leaves h hcall

theorem Bookkeeping.run {cur : Currency} {crypto : Crypto}
    (hrun : Relation.ReflTransGen (PoolStep cur crypto) empty pool) : Bookkeeping pool := by
  induction hrun with
  | refl => exact bookkeeping_empty
  | tail _ hstep ih => exact ih.step hstep

/-- In every state of every run of the pool its containers agree with its transactions. -/
theorem bookkeeping_of_run {cur : Currency} {crypto : Crypto} {pool : TxMemoryPool}
    (hrun : Relation.ReflTransGen (PoolStep cur crypto) empty pool) : Bookkeeping pool :=
  .run hrun

/-- A transaction with a key image, a multisignature output and a time-to-live. -/
def sampleTransaction : Transaction where
  version := 2
  unlockTime := 0
  inputs := [.key ⟨5, [0], 7⟩, .multisignature ⟨3, 0, 0, 0⟩]
  outputs := [⟨8, .key 1⟩]
  extra := [0x05, 0x01, 0x64]
  signatures := [[0], []]

/-- A validator that accepts everything. -/
def acceptingValidator : TransactionValidator where
  checkTransactionInputs _ := .ok (true, ⟨1, 2⟩)
  recheckTransactionInputs _ maxUsedBlock lastFailed := .ok (true, maxUsedBlock, lastFailed)
  haveSpentKeyImages _ := false
  checkTransactionSize _ := true

theorem bookkeeping_of_run_addTx :
    ∃ pool, pool.transactions.map TransactionDetails.id = [9] ∧ pool.ttlIndex 9 = some 100 ∧
      Bookkeeping pool := by
  refine ⟨_, ?_, ?_, bookkeeping_of_run (.single
    (@PoolStep.addTx .mainnet .numbered _ _ acceptingValidator 50 50 sampleTransaction
      9 200 false (by decide) (.done _ _)))⟩
  · decide
  · decide

section

variable {cur : Currency} {crypto : Crypto} {pool pool' : TxMemoryPool} {id : Hash}
  {now deletedAt : Nat}

/-- Only the expiry loop forgets a deleted transaction. -/
theorem remembers_step (h : Bookkeeping pool) (hstep : PoolStep cur crypto pool pool')
    (hdel : pool.recentlyDeletedTransactions id = some deletedAt) :
    pool'.recentlyDeletedTransactions id = some deletedAt ∨
      ∃ later, pool' = removeExpiredTransactions cur crypto later pool := by
  cases hstep with
  | addTx validator later systemTime tx _ blobSize kept hsem hcall =>
    refine .inl ((addTx_holds (P := (·.recentlyDeletedTransactions id = some deletedAt)) hdel
      fun valid maxUsedBlock hinserts => ?_).leaves hcall)
    rw [h.insertDetails_eq (haveTx_eq_false.mp hinserts.fresh)
      (semanticallyValid_of_checkTxSemantic hsem) hinserts.unspent_of_not_kept]
    exact hdel
  | takeTx _ =>
    unfold takeTx
    split
    · exact .inl hdel
    · rename_i txd hfind
      rw [h.removeTransaction_eq (mem_of_find?_eq_some hfind)]
      exact .inl hdel
  | removeExpiredTransactions later => exact .inr ⟨later, rfl⟩
  | fillBlockTemplate validator medianSize maxCumulativeSize hcall =>
    exact .inl ((fillBlockTemplate_keeps (P := (·.recentlyDeletedTransactions id = some deletedAt))
      (fun _ _ _ h => h) medianSize maxCumulativeSize pool hdel).leaves hcall)

/-- A transaction is older than it may be, by the difference of the clocks as integers, or its
time-to-live is over. -/
def ExpiredAt (cur : Currency) (now : Nat) (txd : TransactionDetails) : Prop :=
  ((if txd.keptByBlock then cur.mempoolTxFromAltBlockLiveTime
    else cur.mempoolTxLiveTime : Nat) : Int) < (now : Int) - txd.receiveTime ∨
    getTransactionTtl txd.tx.extra ≠ 0 ∧ getTransactionTtl txd.tx.extra ≤ now

/-- What `removeExpiredTransactions` is for: exactly the expired transactions go, they are
remembered, and what was remembered is not forgotten before it times out. -/
structure RemovesExpired (cur : Currency) (now : Nat) (pool result : TxMemoryPool) : Prop where
  removed : ∀ txd ∈ pool.transactions, txd ∈ result.transactions ↔ ¬ExpiredAt cur now txd
  deleted : ∀ txd ∈ pool.transactions, ExpiredAt cur now txd →
    result.recentlyDeletedTransactions txd.id ≠ none
  remembered : ∀ id deletedAt, pool.recentlyDeletedTransactions id = some deletedAt →
    ¬((cur.numberOfPeriodsToForgetTxDeletedFromPool * cur.mempoolTxLiveTime : Nat) : Int) <
      (now : Int) - deletedAt →
    result.recentlyDeletedTransactions id = some deletedAt

/-- A clock that is behind a time wraps the difference; it does no harm if even the wrapped
difference is within the limit. -/
def ClockServes (now limit time : Nat) : Prop := time ≤ now ∨ now + word64 - time ≤ limit

theorem clockServes_iff {limit time : Nat} (hnow : now < word64) (htime : time < word64) :
    ClockServes now limit time ↔ (limit < sub64 now time ↔ (limit : Int) < (now : Int) - time) := by
  rw [ClockServes]
  by_cases hle : time ≤ now
  · rw [sub64_of_le hle hnow]
    omega
  · rw [sub64, Nat.mod_eq_of_lt (by omega)]
    omega

theorem expired_iff {txd : TransactionDetails} (hnow : now < word64)
    (htime : txd.receiveTime < word64) :
    (Expired cur now (sub64 now txd.receiveTime) txd ↔ ExpiredAt cur now txd) ↔
      ClockServes now
        (if txd.keptByBlock then cur.mempoolTxFromAltBlockLiveTime else cur.mempoolTxLiveTime)
        txd.receiveTime ∨ getTransactionTtl txd.tx.extra ≠ 0 ∧
        getTransactionTtl txd.tx.extra ≤ now := by
  rw [clockServes_iff hnow htime, Expired, ExpiredAt]
  tauto

/-- A transaction with nothing in it. -/
def bareTransaction : Transaction := ⟨⟨1, 0, [], [], []⟩, []⟩

theorem not_refused_of_kept (hfresh : pool.haveTx id = false) (now systemTime : Nat) :
    ¬(addTx cur crypto acceptingValidator now systemTime bareTransaction id 0 true pool).Holds
      (fun _ => (· = pool)) (· = pool) := by
  have hadded : ∃ verdict, addTx cur crypto acceptingValidator now systemTime bareTransaction id
      0 true pool = .done verdict
          (insertDetails crypto (newDetails cur now bareTransaction id 0 true ⟨1, 2⟩) pool).2 := by
    unfold addTx
    simp [hfresh, bareTransaction, checkInputsTypesSupported, acceptingValidator,
      Currency.getTransactionAllInputsAmount, getOutsMoneyAmount, insertDetails, newDetails]
  obtain ⟨verdict, hadded⟩ := hadded
  rw [hadded]
  intro heq
  have hmem := (@mem_insertDetails crypto pool _ _).mpr
    (.inl (rfl : newDetails cur now bareTransaction id 0 true ⟨1, 2⟩ = _))
  rw [heq] at hmem
  exact haveTx_eq_false.mp hfresh _ hmem rfl

/-- `removeExpiredTransactions` does what it is for exactly if its clock is not behind a transaction
of the pool whose time-to-live is not over, nor behind the time of a deletion that is remembered.
What is remembered is refused, unless a block keeps it, and only `removeExpiredTransactions` forgets
it. -/
theorem only_expired_removed (hrun : Relation.ReflTransGen (PoolStep cur crypto) empty pool)
    (hnow : now < word64) (hreceived : ∀ txd ∈ pool.transactions, txd.receiveTime < word64)
    (hdeleted : ∀ id deletedAt, pool.recentlyDeletedTransactions id = some deletedAt →
      deletedAt < word64) :
    (RemovesExpired cur now pool (removeExpiredTransactions cur crypto now pool) ↔
      (∀ txd ∈ pool.transactions, ClockServes now
        (if txd.keptByBlock then cur.mempoolTxFromAltBlockLiveTime else cur.mempoolTxLiveTime)
        txd.receiveTime ∨ getTransactionTtl txd.tx.extra ≠ 0 ∧
        getTransactionTtl txd.tx.extra ≤ now) ∧
      ∀ id deletedAt, pool.recentlyDeletedTransactions id = some deletedAt →
        ClockServes now (cur.numberOfPeriodsToForgetTxDeletedFromPool * cur.mempoolTxLiveTime)
        deletedAt) ∧ ∀ id deletedAt, pool.recentlyDeletedTransactions id = some deletedAt →
      (∀ kept, (∀ validator later systemTime tx blobSize,
        (addTx cur crypto validator later systemTime tx id blobSize kept pool).Holds
          (fun _ => (· = pool)) (· = pool)) ↔ (kept = true → pool.haveTx id = true)) ∧
      ∀ pool', PoolStep cur crypto pool pool' → pool'.recentlyDeletedTransactions id =
      some deletedAt ∨ ∃ later, pool' = removeExpiredTransactions cur crypto later pool := by
  have hbook := Bookkeeping.run hrun
  have hexpires : Expires cur now _ _ (removeExpiredTransactions cur crypto now pool) :=
    hbook.removeExpiredTransactions
  have hmem : ∀ txd ∈ pool.transactions,
      txd ∈ (removeExpiredTransactions cur crypto now pool).transactions ↔
        ¬Expired cur now (sub64 now txd.receiveTime) txd := by
    intro txd htxd
    rw [hexpires.mem]
    exact ⟨fun h => h.2 htxd, fun h => ⟨htxd, fun _ => h⟩⟩
  refine ⟨⟨fun h => ⟨fun txd htxd => ?_, fun id deletedAt hdel => ?_⟩, fun ⟨hclock, hforget⟩ => ?_⟩,
    fun id deletedAt hdel =>
      ⟨fun kept => ⟨?_, ?_⟩, fun pool' hstep => remembers_step hbook hstep hdel⟩⟩
  · rw [← expired_iff hnow (hreceived txd htxd)]
    exact not_iff_not.mp ((hmem txd htxd).symm.trans (h.removed txd htxd))
  · by_contra hbehind
    obtain ⟨hlt, hwraps⟩ := not_or.mp hbehind
    have hwrapped : sub64 now deletedAt = now + word64 - deletedAt := by
      have hword := hdeleted id deletedAt hdel
      exact Nat.mod_eq_of_lt (by omega)
    -- the entry is forgotten at once, and a new one would have the time of this call
    rcases hexpires.noted id deletedAt (h.remembered id deletedAt hdel (by omega)) with hkept | rfl
    · simp [forgetDeletedTransactions, hdel, hwrapped] at hkept
      omega
    · omega
  · refine ⟨fun txd htxd => ?_, fun txd htxd hexpired => ?_, fun id deletedAt hdel htime => ?_⟩
    · rw [hmem txd htxd, (expired_iff hnow (hreceived txd htxd)).mpr (hclock txd htxd)]
    · exact hexpires.deleted txd htxd
        (((expired_iff hnow (hreceived txd htxd)).mpr (hclock txd htxd)).mpr hexpired)
    · have hlimit := (clockServes_iff hnow (hdeleted id deletedAt hdel)).mp
        (hforget id deletedAt hdel)
      refine hexpires.remembered id deletedAt ?_
      simp [forgetDeletedTransactions, hdel, hlimit.not.mpr htime]
  · rintro hall rfl
    by_contra hfresh
    exact not_refused_of_kept (by simpa using hfresh) 0 0 (hall ..)
  · intro hkept validator later systemTime tx blobSize
    refine addTx_holds rfl fun valid maxUsedBlock hinserts => ?_
    cases kept with
    | false => cases (hinserts.forgotten_of_not_kept rfl).symm.trans hdel
    | true => cases (hkept rfl).symm.trans hinserts.fresh

end

/-- The pool after a transaction is added. -/
def samplePool : TxMemoryPool :=
  (addTx .mainnet .numbered acceptingValidator 50 50 sampleTransaction 9 200 false
    empty).stateD empty

theorem samplePool_run : Relation.ReflTransGen (PoolStep .mainnet .numbered) empty samplePool :=
  .single (.addTx acceptingValidator 50 50 sampleTransaction 9 200 false (by decide) (.done _ _))

/-- The pool after its time-to-live is over. -/
def expiredPool : TxMemoryPool := removeExpiredTransactions .mainnet .numbered 100 samplePool

/-- The transaction is removed, and remembered at the next call. -/
theorem only_expired_removed_sample :
    expiredPool.transactions = [] ∧ RemovesExpired .mainnet 100 samplePool expiredPool ∧
      expiredPool.recentlyDeletedTransactions 9 = some 100 ∧ RemovesExpired .mainnet 200 expiredPool
        (removeExpiredTransactions .mainnet .numbered 200 expiredPool) := by
  have hdeleted (id : Hash) (deletedAt : Nat)
      (h : expiredPool.recentlyDeletedTransactions id = some deletedAt) : deletedAt = 100 :=
    ((Bookkeeping.run samplePool_run).removeExpiredTransactions.noted id deletedAt
      h).resolve_left nofun
  refine ⟨by decide, ?_, by decide, ?_⟩
  · exact ((only_expired_removed samplePool_run (by decide) (by decide) nofun).1).mpr
      ⟨by unfold ClockServes; decide, nofun⟩
  · refine ((only_expired_removed (samplePool_run.tail (.removeExpiredTransactions 100)) (by decide)
      (by decide) fun id deletedAt h => ?_).1).mpr
        ⟨by unfold ClockServes; decide, fun id deletedAt h => ?_⟩
    · rw [hdeleted id deletedAt h]
      decide
    · exact .inl ((hdeleted id deletedAt h).trans_le (by decide))

/-- When the clock has moved back by a second, a transaction that was just received is removed. -/
theorem fresh_transaction_removed :
    Relation.ReflTransGen (PoolStep .mainnet .numbered) empty samplePool ∧
      (∃ txd ∈ samplePool.transactions, txd.receiveTime = 50 ∧ ¬ExpiredAt .mainnet 49 txd) ∧
      (removeExpiredTransactions .mainnet .numbered 49 samplePool).transactions = [] := by
  refine ⟨samplePool_run, ⟨_, mem_singleton_self _, rfl, ?_⟩, by decide⟩
  unfold ExpiredAt
  decide

end TxMemoryPool

/-- A transaction of some size, with words for its fee and its size. -/
def PricedTransaction :=
  { txd : TransactionDetails // 0 < txd.blobSize ∧ txd.blobSize < word64 ∧ txd.fee < word64 }

/-- The fee for the size, the greatest first, then the size, then the time. -/
def PricedTransaction.rank (txd : PricedTransaction) : ℚᵒᵈ ×ₗ ℕ ×ₗ ℕ :=
  toLex (.toDual (txd.1.fee / txd.1.blobSize), toLex (txd.1.blobSize, txd.1.receiveTime))

theorem hasPriorityOver_iff_rank_lt (lhs rhs : PricedTransaction) :
    lhs.1.hasPriorityOver rhs.1 = true ↔ lhs.rank < rhs.rank := by
  obtain ⟨lhs, hlhs, hlsize, hlfee⟩ := lhs
  obtain ⟨rhs, hrhs, hrsize, hrfee⟩ := rhs
  -- the products are compared word by word
  have hwords : lhs.hasPriorityOver rhs = true ↔ rhs.fee * lhs.blobSize < lhs.fee * rhs.blobSize ∨
      lhs.fee * rhs.blobSize = rhs.fee * lhs.blobSize ∧ (lhs.blobSize < rhs.blobSize ∨
        lhs.blobSize = rhs.blobSize ∧ lhs.receiveTime < rhs.receiveTime) := by
    simp only [TransactionDetails.hasPriorityOver, mul128_eq hlfee hrsize, mul128_eq hrfee hlsize,
      Bool.or_eq_true, Bool.and_eq_true, decide_eq_true_eq, beq_iff_eq, word64]
    omega
  have hl : (0 : ℚ) < lhs.blobSize := Nat.cast_pos.mpr hlhs
  have hr : (0 : ℚ) < rhs.blobSize := Nat.cast_pos.mpr hrhs
  unfold PricedTransaction.rank
  rw [hwords, Prod.Lex.toLex_lt_toLex, Prod.Lex.toLex_lt_toLex,
    OrderDual.toDual_lt_toDual, OrderDual.toDual_inj, div_lt_div_iff₀ hr hl,
      div_eq_div_iff hl.ne' hr.ne']
  norm_cast

/-- The order in which a template takes transactions is a strict weak order: the higher fee for the
size, then the smaller size, then the earlier receipt. -/
theorem priority_strict_weak :
    IsStrictWeakOrder PricedTransaction (fun lhs rhs => lhs.1.hasPriorityOver rhs.1 = true) ∧
      ∀ lhs rhs : PricedTransaction, lhs.1.hasPriorityOver rhs.1 = true ↔ lhs.rank < rhs.rank := by
  refine ⟨?_, hasPriorityOver_iff_rank_lt⟩
  simp only [hasPriorityOver_iff_rank_lt]
  have : IsStrictWeakOrder (ℚᵒᵈ ×ₗ ℕ ×ₗ ℕ) (· < ·) := isStrictWeakOrder_of_isOrderConnected
  exact inferInstanceAs (IsStrictWeakOrder _ (Function.onFun (· < ·) PricedTransaction.rank))

end DarknetCoin
