import DarknetCoin.Theorems.AlternativeCheck
import DarknetCoin.Theorems.PoolBookkeeping
import DarknetCoin.Theorems.StorageFrame

/-!
# Invariants of the main chain over runs of a node

A node pushes submitted blocks, alternative ones, and blocks it popped before; their transactions
come from the pool. So an invariant of the main chain under pushing and popping blocks with the
properties of submitted ones is an invariant of the node, also after calls that throw half-way.
-/

namespace DarknetCoin

open Semantics TxMemoryPool DarknetCoin.Core Program MainChain List

/-- Properties of the blocks and of the transactions that come in. -/
structure Supply where
  Good : Block → Prop
  Tx : Transaction → Prop
  semantic : ∀ tx, Tx tx → SemanticallyValid tx

/-- What a call has to satisfy: a block that gets written is a good one, and a transaction that
passes the checks of the core is a supplied one. -/
def Supply.Admits (supply : Supply) (net : Network) (now : Nat) (core : Core) : Call → Prop
  | .addNewBlock bl => core.Stores net now bl → supply.Good bl
  | .handleIncomingTransaction tx _ =>
    checkTxSemantic net.cur net.crypto tx = .ok true → supply.Tx tx
  | .onIdle => True
  | .getBlockTemplate => True

variable {net : Network} {supply : Supply} {M : MainChain → Prop} {now : Nat} {core : Core}

/-- The pool holds supplied transactions under their own hashes, with its books in order. -/
structure TxMemoryPool.Supplied (net : Network) (supply : Supply) (pool : TxMemoryPool) : Prop where
  bookkeeping : Bookkeeping pool
  details : ∀ txd ∈ pool.transactions, supply.Tx txd.tx ∧ txd.id = net.crypto.getObjectHash txd.tx

/-- Every block and transaction in the node is a supplied one, and the main chain satisfies `M`. -/
structure Core.Supplied (net : Network) (supply : Supply) (M : MainChain → Prop) (core : Core) :
    Prop where
  main : M core.main
  good : ∀ block ∈ core.main.blocks, supply.Good block.bl
  tx : ∀ block ∈ core.main.blocks, ∀ entry ∈ block.transactions.drop 1, supply.Tx entry.tx
  pool : core.mempool.Supplied net supply
  alternatives : ∀ entry ∈ core.alternativeChains, supply.Good entry.2.bl

/-- `M` is kept by pushing a supplied block with its transactions and by popping. -/
structure MainInvariant (net : Network) (supply : Supply) (M : MainChain → Prop) : Prop where
  push : ∀ (now : Nat) (blockData : Block) (transactions : List Transaction),
    supply.Good blockData → (∀ tx ∈ transactions, supply.Tx tx) →
    transactions.map net.crypto.getObjectHash = blockData.transactionHashes →
    (pushBlock net.cur net.crypto now net.checkpoints blockData transactions).Keeps M
  pop : ∀ (main : MainChain) (block : BlockEntry), M main → main.blocks.getLast? = some block →
    (unlinkBlock net.crypto (net.crypto.getBlockHash block.bl) main).Holds (fun _ => M) M

theorem MainInvariant.and {M' : MainChain → Prop} (h : MainInvariant net supply M)
    (h' : MainInvariant net supply M') : MainInvariant net supply fun main => M main ∧ M' main where
  push now blockData transactions hgood htx hhashes main hmain :=
    (h.push now blockData transactions hgood htx hhashes main hmain.1).and
      (h'.push now blockData transactions hgood htx hhashes main hmain.2)
  pop main block hmain hlast :=
    (h.pop main block hmain.1 hlast).and (h'.pop main block hmain.2 hlast)

namespace TxMemoryPool.Supplied

variable {pool : TxMemoryPool} {cur : Currency} {validator : TransactionValidator}

theorem addTxHashed {tx : Transaction} (htx : supply.Tx tx) (kept : Bool) :
    (addTxHashed cur net.crypto validator now tx kept).Keeps (Supplied net supply) := by
  intro pool h
  refine addTx_holds h fun valid maxUsedBlock hinserts => ⟨?_, fun a ha => ?_⟩
  · exact h.bookkeeping.insertDetails (haveTx_eq_false.mp hinserts.fresh) (supply.semantic tx htx)
      hinserts.unspent_of_not_kept
  · rcases mem_insertDetails.mp ha with rfl | hold
    · exact ⟨htx, rfl⟩
    · exact h.details a hold

variable (h : pool.Supplied net supply)
include h

theorem of_subset {pool' : TxMemoryPool}
    (hbooks : Bookkeeping pool') (hsubset : pool'.transactions ⊆ pool.transactions) :
    pool'.Supplied net supply :=
  ⟨hbooks, fun txd htxd => h.details txd (hsubset htxd)⟩

theorem takeTx (id : Hash) : (takeTx net.crypto id pool).2.Supplied net supply ∧
      ∀ tx, (takeTx net.crypto id pool).1 = some tx → supply.Tx tx ∧
      net.crypto.getObjectHash tx = id := by
  have hbooks : Bookkeeping (TxMemoryPool.takeTx net.crypto id pool).2 := h.bookkeeping.takeTx id
  unfold TxMemoryPool.takeTx at hbooks ⊢
  cases hfind : pool.find? id with
  | none => exact ⟨h, fun tx htx => by cases htx⟩
  | some txd =>
    have hmem : txd ∈ pool.transactions := mem_of_find?_eq_some hfind
    have hid : txd.id = id := by simpa using find?_some hfind
    rw [hfind] at hbooks
    refine ⟨h.of_subset hbooks ?_, ?_⟩
    · rw [removeTransaction_transactions]
      exact filter_sublist.subset
    · intro tx htx
      cases htx
      obtain ⟨htx, hhash⟩ := h.details txd hmem
      exact ⟨htx, hhash.symm.trans hid⟩

omit h in
theorem removeIfExpired_subset (crypto : Crypto) (txd : TransactionDetails) :
    (removeIfExpired cur crypto now pool txd).transactions ⊆ pool.transactions := by
  unfold removeIfExpired
  split
  · rw [removeTransaction_transactions]
    exact filter_sublist.subset
  · exact .refl _

omit h in
theorem removeExpiredTransactions_subset (crypto : Crypto) :
    (removeExpiredTransactions cur crypto now pool).transactions ⊆ pool.transactions := by
  -- every round of the loop keeps a part of the pool
  refine foldlRecOn _ _ (motive := fun result => transactions result ⊆ pool.transactions)
    (.refl _) fun start hstart txd _ => ?_
  exact List.Subset.trans (removeIfExpired_subset crypto txd) hstart

theorem removeExpiredTransactions :
    (removeExpiredTransactions cur net.crypto now pool).Supplied net supply :=
  h.of_subset h.bookkeeping.removeExpiredTransactions.bookkeeping
    (removeExpiredTransactions_subset _)

theorem updateCheckInfo (id : Hash) (info : TransactionCheckInfo) :
    (updateCheckInfo id info pool).Supplied net supply := by
  refine ⟨h.bookkeeping.updateCheckInfo id info, fun txd htxd => ?_⟩
  obtain ⟨old, hold, rfl⟩ := mem_map.mp htxd
  split
  · exact h.details old hold
  · exact h.details old hold

omit h

theorem fillBlockTemplate (medianSize maxCumulativeSize : Nat) :
    (fillBlockTemplate cur validator medianSize maxCumulativeSize).Keeps (Supplied net supply) :=
  fillBlockTemplate_keeps (fun id info _ h => h.updateCheckInfo id info) medianSize
    maxCumulativeSize

end TxMemoryPool.Supplied

theorem Core.takeTransactions_cons {taken : List Transaction} {id : Hash} {hashes : List Hash} :
    takeTransactions net now taken (id :: hashes) core =
    (match (takeTx net.crypto id core.mempool).1 with
      | some tx => takeTransactions net now (tx :: taken) hashes
      | none => do
        saveInOrder net now taken
        pure none) { core with mempool := (takeTx net.crypto id core.mempool).2 } := rfl

namespace Core.Supplied

variable {altChain : List AlternativeBlock} {transactions : List Transaction}

theorem setPool (h : core.Supplied net supply M) {pool : TxMemoryPool}
    (hpool : pool.Supplied net supply) : Supplied net supply M { core with mempool := pool } :=
  ⟨h.main, h.good, h.tx, hpool, h.alternatives⟩

theorem onPool {α : Type} {p : TransactionValidator → Program TxMemoryPool α}
    (hp : ∀ validator, (p validator).Keeps (TxMemoryPool.Supplied net supply)) :
    (onPool net now p).Keeps (Supplied net supply M) := by
  refine Keeps.get.bind fun core => .zoom fun core' h => ?_
  exact (hp _ core'.mempool h.pool).mono (fun _ _ hpool => h.setPool hpool)
    fun _ hpool => h.setPool hpool

theorem saveInOrder (htx : ∀ tx ∈ transactions, supply.Tx tx) :
    (saveInOrder net now transactions).Keeps (Supplied net supply M) := by
  induction transactions with
  | nil => exact .pure ()
  | cons tx rest ih =>
    refine (onPool fun validator => TxMemoryPool.Supplied.addTxHashed
      (htx tx mem_cons_self) true).bind fun result => .ite (fun _ => ?_) fun _ => ?_
    · exact ih fun tx' htx' => htx tx' (mem_cons_of_mem _ htx')
    · exact .throw

theorem saveTransactions (htx : ∀ tx ∈ transactions, supply.Tx tx) :
    (saveTransactions net now transactions).Keeps (Supplied net supply M) :=
  saveInOrder fun tx hmem => htx tx (mem_reverse.mp hmem)

section

variable (h : core.Supplied net supply M)

include h

/-- The transactions taken from the pool are supplied ones, and they have the hashes asked for. -/
theorem takeTransactions (ids : List Hash) {taken : List Transaction}
    (htaken : ∀ tx ∈ taken, supply.Tx tx) : (takeTransactions net now taken ids core).Holds
    (fun result core' => core'.Supplied net supply M ∧
        ∀ transactions, result = some transactions → (∀ tx ∈ transactions, supply.Tx tx) ∧
          transactions.map net.crypto.getObjectHash =
          taken.reverse.map net.crypto.getObjectHash ++ ids) (Supplied net supply M) := by
  induction ids generalizing core taken with
  | nil =>
    refine ⟨h, fun transactions heq => ?_⟩
    cases heq
    exact ⟨fun tx hmem => htaken tx (mem_reverse.mp hmem), by simp⟩
  | cons id ids ih =>
    obtain ⟨hpool, hfound⟩ := h.pool.takeTx id
    rw [takeTransactions_cons]
    cases htake : (takeTx net.crypto id core.mempool).1 with
    | some tx =>
      obtain ⟨htx, hhash⟩ := hfound tx htake
      have htaken' : ∀ tx' ∈ tx :: taken, supply.Tx tx' := forall_mem_cons.mpr ⟨htx, htaken⟩
      refine (ih (h.setPool hpool) htaken').mono (fun result core' hres => ?_) fun _ h => h
      refine ⟨hres.1, fun transactions heq => ?_⟩
      obtain ⟨hall, hmap⟩ := hres.2 transactions heq
      exact ⟨hall, by simpa [hhash] using hmap⟩
    | none =>
      refine (saveInOrder htaken _ (h.setPool hpool)).andThen fun _ core' h' => ?_
      exact ⟨h', fun transactions heq => by cases heq⟩

/-- The main chain may be named in the invariant of a program that does not touch it. -/
theorem named : core.Supplied net supply fun main => M main ∧ main = core.main :=
  ⟨⟨h.main, rfl⟩, h.good, h.tx, h.pool, h.alternatives⟩

theorem weaken {M' : MainChain → Prop} (hM : ∀ main, M main → M' main) :
    core.Supplied net supply M' :=
  ⟨hM _ h.main, h.good, h.tx, h.pool, h.alternatives⟩

theorem loadTransactions (blockData : Block) : (loadTransactions net now blockData core).Holds
      (fun result core' => core'.Supplied net supply M ∧ core'.main = core.main ∧
        ∀ transactions, result = some transactions → (∀ tx ∈ transactions, supply.Tx tx) ∧
          transactions.map net.crypto.getObjectHash = blockData.transactionHashes)
          (Supplied net supply M) := by
  refine (h.named.takeTransactions blockData.transactionHashes (forall_mem_nil _)).mono
    (fun result core' hres => ?_) fun _ h' => h'.weaken fun _ hmain => hmain.1
  exact ⟨hres.1.weaken fun _ hmain => hmain.1, hres.1.main.2, by simpa using hres.2⟩

/-- A new main chain whose blocks are old ones or supplied ones. -/
theorem setMain {main : MainChain} (hM : M main)
    (hblocks : ∀ block ∈ main.blocks, block ∈ core.main.blocks ∨
      (supply.Good block.bl ∧ ∀ entry ∈ block.transactions.drop 1, supply.Tx entry.tx)) :
    Supplied net supply M { core with main } := by
  refine ⟨hM, fun block hblock => ?_, fun block hblock => ?_, h.pool, h.alternatives⟩
  · rcases hblocks block hblock with hold | ⟨hgood, -⟩
    · exact h.good block hold
    · exact hgood
  · rcases hblocks block hblock with hold | ⟨-, htx⟩
    · exact h.tx block hold
    · exact htx

end

/-- A block that `pushBlock` appended has supplied transactions when it was given such. -/
theorem tx_of_appended {blockData : Block} {main main' : MainChain} {block : BlockEntry}
    (h : Appended net.cur net.crypto blockData transactions main block main')
    (htx : ∀ tx ∈ transactions, supply.Tx tx) : ∀ entry ∈ block.transactions.drop 1,
    supply.Tx entry.tx := by
  intro entry hentry
  have hmap : entry.tx ∈ (block.transactions.map TransactionEntry.tx).drop 1 := by
    rw [← map_drop]
    exact mem_map_of_mem hentry
  rw [h.transactions, drop_one] at hmap
  obtain ⟨pair, hpair, heq⟩ := mem_map.mp hmap
  rw [← heq]
  exact htx _ (of_mem_zip hpair).1

section

variable (hM : MainInvariant net supply M)

include hM

theorem pushBlock (h : core.Supplied net supply M) {blockData : Block}
    (hgood : (∃ difficulty, checkHeader net.cur net.crypto now net.checkpoints core.main
      blockData = .ok (.accept difficulty)) → supply.Good blockData) :
    (pushBlock net now blockData core).Holds (fun _ => Supplied net supply M)
    (Supplied net supply M) := by
  refine (h.loadTransactions blockData).andThen fun result loaded hloaded => ?_
  obtain ⟨hloaded, hmain, hfound⟩ := hloaded
  cases result with
  | none => exact hloaded
  | some transactions =>
    obtain ⟨htx, hhashes⟩ := hfound transactions rfl
    have hpushed :
        (MainChain.pushBlock net.cur net.crypto now net.checkpoints blockData transactions
        loaded.main).Holds
        (fun _ main => Supplied net supply M { loaded with main })
        fun main => Supplied net supply M { loaded with main } := by
      by_cases haccept : ∃ difficulty, checkHeader net.cur net.crypto now net.checkpoints
          core.main blockData = .ok (.accept difficulty)
      · have hgood := hgood haccept
        have hkeeps := hM.push now blockData transactions hgood htx hhashes loaded.main hloaded.main
        refine (hkeeps.and pushBlock_mem_blocks).mono ?_ ?_
        · rintro _ main ⟨hmain', hblocks⟩
          refine hloaded.setMain hmain' fun block hblock => ?_
          rcases hblocks block hblock with hold | happended
          · exact .inl hold
          · refine .inr ⟨?_, tx_of_appended happended htx⟩
            rw [happended.bl]
            exact hgood
        · rintro main ⟨hmain', hblocks⟩
          refine hloaded.setMain hmain' fun block hblock => .inl ?_
          rwa [hblocks] at hblock
      · refine (pushBlock_of_not_accepted fun difficulty hcheck => ?_).mono ?_ ?_
        · rw [hmain] at hcheck
          exact haccept ⟨difficulty, hcheck⟩
        · rintro _ main ⟨-, rfl⟩
          exact hloaded
        · exact fun _ hfalse => hfalse.elim
    refine hpushed.mapState.andThen fun result pushed hpushed => ?_
    cases result with
    | added => exact ⟨hpushed.main, hpushed.good, hpushed.tx, hpushed.pool, hpushed.alternatives⟩
    | rejected failed =>
      exact (saveTransactions htx pushed hpushed).andThen fun _ _ hsaved => hsaved

theorem popBlock : (Core.popBlock net now).Keeps (Supplied net supply M) := by
  intro core h
  unfold Core.popBlock
  rw [get_bind_run]
  cases hlast : core.main.blocks.getLast? with
  | none => exact h
  | some block =>
    have htx : ∀ tx ∈ (block.transactions.drop 1).map TransactionEntry.tx, supply.Tx tx := by
      intro tx hmem
      obtain ⟨entry, hentry, rfl⟩ := mem_map.mp hmem
      exact h.tx block (mem_of_getLast? hlast) entry hentry
    refine ((saveTransactions htx core h.named).mono (fun _ _ h' => h')
      fun _ h' => h'.weaken fun _ hmain => hmain.1).andThen fun _ saved hnamed => ?_
    have hsaved : saved.Supplied net supply M := hnamed.weaken fun _ hmain => hmain.1
    rw [← hnamed.main.2] at hlast
    refine .mapState
      (((hM.pop saved.main block hsaved.main hlast).and (unlinkBlock_blocks _)).mono ?_ ?_)
    · rintro _ main ⟨hmain, hblocks⟩
      refine hsaved.setMain hmain fun block hblock => .inl ?_
      rw [hblocks] at hblock
      exact mem_of_mem_dropLast hblock
    · rintro main ⟨hmain, hblocks⟩
      refine hsaved.setMain hmain fun block hblock => .inl ?_
      rwa [hblocks] at hblock

theorem popBlocks (count : Nat) (h : core.Supplied net supply M)
    {disconnected : List Block} (hgood : ∀ b ∈ disconnected, supply.Good b) :
    (popBlocks net now count disconnected core).Holds
      (fun blocks core' => core'.Supplied net supply M ∧ ∀ b ∈ blocks, supply.Good b)
      (Supplied net supply M) := by
  induction count generalizing core disconnected with
  | zero => exact ⟨h, hgood⟩
  | succ count ih =>
    unfold popBlocks
    rw [get_bind_run]
    cases hlast : core.main.blocks.getLast? with
    | none => exact h
    | some block =>
      refine (popBlock hM core h).andThen fun _ popped hpopped => ih hpopped ?_
      exact forall_mem_cons.mpr ⟨h.good block (mem_of_getLast? hlast), hgood⟩

theorem tryPushBlock {blockData : Block} (hgood : supply.Good blockData) :
    (tryPushBlock net now blockData).Keeps (Supplied net supply M) := by
  refine .bind (fun core h => h.pushBlock hM fun _ => hgood) fun result => ?_
  cases result with
  | added => exact .pure true
  | rejected failed => exact .pure false

theorem rollbackBlockchainSwitching {originalChain : List Block}
    (hgood : ∀ b ∈ originalChain, supply.Good b) (rollbackHeight : Nat) :
    (rollbackBlockchainSwitching net now originalChain rollbackHeight).Keeps
    (Supplied net supply M) := by
  intro core h
  refine (h.popBlocks hM (core.main.blocks.length - rollbackHeight)
    (forall_mem_nil _)).andThen fun _ popped hpopped => ?_
  exact Keeps.forAllM (fun b hb => tryPushBlock hM (hgood b hb)) popped hpopped.1

theorem connectAlternatives (hgood : ∀ entry ∈ altChain, supply.Good entry.2.bl) :
    (connectAlternatives net now altChain).Keeps (Supplied net supply M) := by
  induction altChain with
  | nil => exact .pure []
  | cons entry rest ih =>
    refine (tryPushBlock hM (hgood entry mem_cons_self)).bind fun added =>
      .ite (fun _ => ?_) fun _ => .pure _
    exact ih fun entry' hentry' => hgood entry' (mem_cons_of_mem _ hentry')

end

variable (h : core.Supplied net supply M)
include h

theorem eraseAlternatives (entries : List AlternativeBlock) :
    (entries.foldl (eraseAlternative net) core).Supplied net supply M := by
  refine foldlRecOn _ _ h fun core h entry _ => ?_
  refine ⟨h.main, h.good, h.tx, h.pool, fun other hother => ?_⟩
  exact h.alternatives other (mem_filter.mp hother).1

theorem insertAlternative (id : Hash) {bei : BlockEntry} (hgood : supply.Good bei.bl) :
    (insertAlternative net id bei core).Supplied net supply M := by
  refine ⟨h.main, h.good, h.tx, h.pool, fun entry hentry => ?_⟩
  rcases mem_append.mp hentry with hold | hnew
  · exact h.alternatives entry hold
  · rw [mem_singleton.mp hnew]
    exact hgood

/-- Storing an accepted block leaves a supplied node, and the chain that ends in it is supplied. -/
theorem accepted {b : Block} {id : Hash} {bei : BlockEntry} {isACheckpoint : Bool}
    (hgood : supply.Good b)
    (hcheck : core.checkAlternativeBlock net b id = .ok (.accept bei altChain isACheckpoint)) :
    (Core.insertAlternative net id bei core).Supplied net supply M ∧
      ∀ entry ∈ altChain ++ [(id, bei)], supply.Good entry.2.bl := by
  obtain ⟨parent, rfl, hacc⟩ := checkAlternativeBlock_eq_accept hcheck
  have hbl : bei.bl = b := by
    rw [hacc.entry]
    rfl
  refine ⟨h.insertAlternative id (hbl.symm ▸ hgood), fun entry hentry => ?_⟩
  rcases mem_append.mp hentry with hold | hnew
  · rcases mem_alternativeChainTo hacc.chain entry hold with hnil | hmem
    · cases hnil
    · exact h.alternatives entry hmem
  · rw [mem_singleton.mp hnew]
    exact hbl.symm ▸ hgood

theorem handleIncomingTransaction {tx : Transaction} (kept : Bool)
    (hadmits : checkTxSemantic net.cur net.crypto tx = .ok true → supply.Tx tx) :
    (handleIncomingTransaction net now tx kept core).Holds
      (fun _ => Core.Supplied net supply M) (Core.Supplied net supply M) := by
  unfold Core.handleIncomingTransaction
  rw [get_bind_run, bind_run]
  cases hcheck : checkTxSemantic net.cur net.crypto tx with
  | error fault => cases fault <;> simp [Program.read, h]
  | ok valid =>
    cases valid with
    | false => exact h
    | true =>
      have hpool : (Core.onPool net now fun validator =>
          addTxHashed net.cur net.crypto validator now tx kept).Keeps (Supplied net supply M) :=
        onPool fun validator => TxMemoryPool.Supplied.addTxHashed (hadmits hcheck) kept
      have hread : Program.read (fun _ : Core => (.ok true : Except Fault Bool)) core =
          .done true core := rfl
      rw [hread, Outcome.andThen_done]
      split
      · exact h
      split
      · exact h
      split
      · exact h
      · exact hpool core h

theorem callOther (fuel : Nat) {call : Call} (hadmits : supply.Admits net now core call)
    (hother : ∀ {bl}, call ≠ .addNewBlock bl) :
    (call.run net now fuel core).Holds (fun _ => Supplied net supply M)
    (Supplied net supply M) := by
  cases call with
  | addNewBlock bl => exact (hother rfl).elim
  | handleIncomingTransaction tx kept =>
    exact (h.handleIncomingTransaction kept hadmits).andThen fun _ _ h' => h'
  | onIdle =>
    have hidle : (onIdle net now).Keeps (Supplied net supply M) :=
      onPool fun _ => .modify fun _ hpool => hpool.removeExpiredTransactions
    exact hidle core h
  | getBlockTemplate =>
    have htemplate : (getBlockTemplate net now).Keeps (Supplied net supply M) :=
      Keeps.get.bind fun _ => onPool fun _ => TxMemoryPool.Supplied.fillBlockTemplate _ _
    exact (htemplate core h).andThen fun _ _ h' => h'

omit h

theorem empty (hempty : M MainChain.empty) : Core.empty.Supplied net supply M where
  main := hempty
  good := by simp [Core.empty, MainChain.empty]
  tx := by simp [Core.empty, MainChain.empty]
  pool := ⟨bookkeeping_empty, by simp [Core.empty, TxMemoryPool.empty]⟩
  alternatives := by simp [Core.empty]

theorem of_initial (hM : MainInvariant net supply M) (hempty : M .empty)
    (hgen : supply.Good net.cur.genesisBlock) (hinitial : Initial net now core) :
    core.Supplied net supply M :=
  ((empty hempty).pushBlock hM fun _ => hgen).of_done hinitial

end Core.Supplied

end DarknetCoin
