import DarknetCoin.Theorems.BuiltChain

/-!
# A push that fails leaves no trace

Each exit of `pushBlock` has to undo what was entered before it. The exit after the check of the
cumulative size does not, nor does a check that throws, as for a transaction that names an output of
its own block. Apart from these a push that fails leaves the main chain exactly as it was.
-/

namespace DarknetCoin

open Semantics MainChain DarknetCoin.Core List Outcome

variable {net : Network} {u : Universe net} {now clock : Nat} {core : Core} {main main' : MainChain}
  {b : Block} {txs : List Transaction}

/-- A block of the universe whose transactions have 16-bit positions, fit into a block of its
height, and name no output that the block itself creates. -/
structure SoundBlock (u : Universe net) (b : Block) : Prop where
  mem : b ∈ u.blocks
  count : b.transactionHashes.length < word16
  size : ∀ txs, TransactionsOf u b txs → checkCumulativeBlockSize net.cur
    (blockTotals net.cur b txs).cumulativeBlockSize (getBlockHeight b) = true
  below : ∀ clock main txs, Built u clock main → b.previousBlockHash = main.getTailId →
    TransactionsOf u b txs → ∀ before tx after, txs = before ++ tx :: after →
      main.RefersBelow (b.baseTransaction :: before) tx

theorem Built.pushBlock_sound (h : Built u clock main) (hb : SoundBlock u b)
    (htxs : TransactionsOf u b txs) :
    (MainChain.pushBlock net.cur net.crypto now net.checkpoints b txs main).Holds
    (fun result main' =>
        (result ≠ .added → main' = main) ∧ (result = .added → Built u (max clock now) main' ∧
          main' = MainChain.extend net.cur net.crypto b txs main)) fun _ => False := by
  have hpush : (MainChain.pushBlock net.cur net.crypto now net.checkpoints b txs main).Holds _ _ :=
    h.pushBlock hb.mem hb.count htxs
  cases hres : MainChain.pushBlock net.cur net.crypto now net.checkpoints b txs main
    with rw [hres] at hpush
  | stuck => trivial
  | thrown state =>
    obtain ⟨hprev, before, tx, after, hsplit, hnot⟩ := hpush
    exact hnot (hb.below clock main txs h hprev htxs before tx after hsplit)
  | done result main' =>
    obtain ⟨hrejected, hadded⟩ := hpush
    refine ⟨fun hne => hrejected hne (hb.size txs htxs), ?_⟩
    rintro rfl
    exact ⟨.push (h.mono (Nat.le_max_left _ _)) (Nat.le_max_right _ _) hb.mem hb.count htxs hres,
      (hadded rfl).2⟩

/-- Sound blocks, and the transactions of the universe that the core lets through. -/
def soundSupply (u : Universe net) : Supply where
  Good b := SoundBlock u b
  Tx tx := tx ∈ u.transactions ∧ checkTxSemantic net.cur net.crypto tx = .ok true
  semantic _ h := semanticallyValid_of_checkTxSemantic h.2

theorem built_invariant (u : Universe net) :
    MainInvariant net (soundSupply u) fun main => ∃ clock, Built u clock main where
  push now b txs hb htx hhashes main hmain := by
    obtain ⟨clock, hbuilt⟩ := hmain
    have htxs : TransactionsOf u b txs :=
      ⟨fun tx hmem => (htx tx hmem).1, fun tx hmem => (htx tx hmem).2, hhashes.symm⟩
    refine (hbuilt.pushBlock_sound hb htxs).mono ?_
      fun _ hfalse => hfalse.elim
    intro result main' ⟨hrejected, hadded⟩
    by_cases hres : result = .added
    · exact ⟨_, (hadded hres).1⟩
    · rw [hrejected hres]
      exact ⟨clock, hbuilt⟩
  pop main block hmain hlast := by
    obtain ⟨clock, hbuilt⟩ := hmain
    obtain ⟨below, txs, hpush⟩ := hbuilt.exists_lastPush hlast
    rw [hpush.pop]
    exact ⟨clock, hpush.built⟩

theorem Core.Initial.exists_main (h : Initial net now core) :
    ∃ main, MainChain.pushBlock net.cur net.crypto now net.checkpoints net.cur.genesisBlock []
        MainChain.empty = .done .added main ∧ core = updateNextComulativeSizeLimit net
        { empty with main } := by
  unfold Initial pushBlock at h
  have hload : loadTransactions net now net.cur.genesisBlock empty = .done (some []) empty := rfl
  rw [Program.bind_run, hload, andThen_done, Program.bind_eq_done] at h
  obtain ⟨result, pushed, hpush, h⟩ := h
  change mapState _ (MainChain.pushBlock net.cur net.crypto now net.checkpoints
    net.cur.genesisBlock [] MainChain.empty) = _ at hpush
  cases hmain : MainChain.pushBlock net.cur net.crypto now net.checkpoints net.cur.genesisBlock
    [] .empty with rw [hmain] at hpush
  | stuck =>
    cases hpush
  | thrown main =>
    cases hpush
  | done result' main =>
    cases hpush
    cases result with
    | added =>
      cases h
      exact ⟨main, rfl, rfl⟩
    | rejected failed =>
      cases h

/-- A block without transactions is sound when its miner transaction is not too large. -/
theorem soundBlock_of_no_transactions (hmem : b ∈ u.blocks) (hhashes : b.transactionHashes = [])
    (hsize : checkCumulativeBlockSize net.cur (getObjectBinarySize b.baseTransaction)
      (getBlockHeight b) = true) : SoundBlock u b := by
  have hnone {txs : List Transaction} (htxs : TransactionsOf u b txs) : txs = [] := by
    have hlen := htxs.length_eq
    rw [hhashes] at hlen
    exact length_eq_zero_iff.mp hlen
  refine ⟨hmem, ?_, ?_, ?_⟩
  · rw [hhashes]
    exact Nat.two_pow_pos 16
  · intro txs htxs
    rw [hnone htxs]
    exact hsize
  · intro clock main txs _ _ htxs before tx after hsplit
    rw [hnone htxs] at hsplit
    simp at hsplit

theorem Core.Initial.soundBlock (u : Universe net) (h : Initial net now core) :
    SoundBlock u net.cur.genesisBlock := by
  obtain ⟨main, hpush, -⟩ := h.exists_main
  obtain ⟨hlinked, -⟩ := Built.push_inv u.genesisBlock_mem (Nat.two_pow_pos 16)
    ⟨forall_mem_nil _, forall_mem_nil _, rfl⟩ Orderly.empty hpush
  refine soundBlock_of_no_transactions u.genesisBlock_mem rfl ?_
  exact hlinked.size

/-- What the calls of a run have to meet: a block that gets written is sound, and the transactions
that come in are those of the universe. A run stops at a block that enters a key the hash tables
reserve; what a build without assertions does then is not modelled. -/
def SoundCalls (u : Universe net) (_ now : Nat) (core : Core) : Call → Prop
  | .addNewBlock bl => core.Stores net now bl → SoundBlock u bl
  | .handleIncomingTransaction tx _ =>
    checkTxSemantic net.cur net.crypto tx = .ok true → tx ∈ u.transactions
  | _ => True

/-- The main chain of a node that was given sound blocks is one that pushes have built. -/
theorem Core.Run.built (h : Run net (SoundCalls u) clock core) :
    ∃ clock', Built u clock' core.main :=
  (Supplied.of_run (built_invariant u) ⟨0, .empty⟩ (fun hinitial => hinitial.soundBlock u) h
    id fun hok hsem => ⟨hok hsem, hsem⟩).main

/-- In every state of a run over sound blocks a rejected push leaves the main chain exactly as it
was, whichever check fails, if the block is not too large and has positions of 16 bits. No
transaction has a reserved key. -/
theorem rejected_push_of_run {u : SparingUniverse net}
    (hrun : Core.Run net (SoundCalls u.toUniverse) clock core) (hb : b ∈ u.blocks)
    (hcount : b.transactionHashes.length < word16) (htxs : TransactionsOf u.toUniverse b txs)
    (hsize : checkCumulativeBlockSize net.cur
      (blockTotals net.cur b txs).cumulativeBlockSize (getBlockHeight b) = true)
    {failed : Bool}
    (hpush : pushBlock net.cur net.crypto now net.checkpoints b txs core.main =
      .done (.rejected failed) main') : main' = core.main := by
  obtain ⟨clock', hbuilt⟩ := hrun.built
  have houtcome := (hbuilt.pushBlock hb hcount htxs).of_done hpush
  exact houtcome.1 (by simp) hsize

/-- A network whose blocks have at most a hundred bytes at first. -/
def smallBlockNetwork : Network :=
  ⟨{ Currency.mainnet with maxBlockSizeInitial := 100 }, Crypto.numbered, []⟩

/-- A block on the genesis block whose miner transaction alone is larger. -/
def largeBlock : Block :=
  { numberedBlock 1 420 1 [⟨5, .key 1⟩] [] with
    baseTransaction :=
      { minerTransaction 1 1 [⟨5, .key 1⟩] with extra := List.replicate 100 1 } }

/-- The push of the large block on the genesis block. -/
def largeBlockPush : Outcome MainChain PushResult :=
  pushBlock smallBlockNetwork.cur smallBlockNetwork.crypto 0
    smallBlockNetwork.checkpoints largeBlock [] (Core.onGenesis smallBlockNetwork).main

/-- The rejected block has left its miner transaction in the indices. -/
theorem rejected_push_leaves_traces :
    ∃ clock core, Core.Run smallBlockNetwork (fun _ _ _ _ => True) clock core ∧
      ∃ now b main', b.transactionHashes = [] ∧
      pushBlock smallBlockNetwork.cur smallBlockNetwork.crypto now
          smallBlockNetwork.checkpoints b [] core.main = .done (.rejected true) main' ∧
        main'.transactionMap ≠ core.main.transactionMap ∧ main'.outputs ≠ core.main.outputs := by
  have hpush : largeBlockPush.value? = some (.rejected true) := by decide +kernel
  have hdone : largeBlockPush = .done (.rejected true) (largeBlockPush.stateD empty) :=
    eq_done_of_value? hpush
  refine ⟨0, onGenesis smallBlockNetwork, .start (onGenesis_initial_of ?_), 0, largeBlock,
    _, rfl, hdone, fun hsame => ?_, fun hsame => ?_⟩
  · decide +kernel
  · -- the hash of the miner transaction of the rejected block
    have hhash := congrFun hsame 2
    revert hhash
    decide +kernel
  · have hrow := congrFun hsame 5
    revert hrow
    decide +kernel

/-- A block on the genesis block. -/
def modestBlock : Block := numberedBlock 1 420 1 [⟨5, .key 1⟩] []

/-- A block on top of it that claims a coin too much. -/
def greedyBlock : Block := numberedBlock 2 1 2 [⟨201 * Currency.coin, .key 1⟩] []

/-- The universe of the two blocks. -/
def greedyUniverse : SparingUniverse numberedNetwork :=
  .ofBlocks numberedNetwork [modestBlock, greedyBlock] [] (by decide +kernel) (by decide +kernel)
    (by decide +kernel)

/-- The state of a node with the first of the two blocks. -/
def onModestBlock : Core :=
  Core.perform numberedNetwork 0 (.addNewBlock modestBlock) (Core.onGenesis numberedNetwork)

/-- The second block is rejected for its reward, after its miner transaction was entered. -/
theorem rejected_push_of_run_greedy :
    ∃ main', pushBlock numberedNetwork.cur numberedNetwork.crypto 2000
      numberedNetwork.checkpoints greedyBlock [] onModestBlock.main = .done (.rejected true) main' ∧
        main' = onModestBlock.main := by
  have hmodest : modestBlock ∈ greedyUniverse.blocks :=
    mem_cons_of_mem (Currency.genesisBlock _) mem_cons_self
  have hgreedy : greedyBlock ∈ greedyUniverse.blocks :=
    mem_cons_of_mem (Currency.genesisBlock _) (mem_cons_of_mem _ mem_cons_self)
  have hsound : SoundBlock greedyUniverse.toUniverse modestBlock :=
    soundBlock_of_no_transactions hmodest rfl (by decide +kernel)
  have hcall : SoundCalls greedyUniverse.toUniverse 0 0 (onGenesis numberedNetwork)
      (.addNewBlock modestBlock) := fun _ => hsound
  have hrun : Run numberedNetwork (SoundCalls greedyUniverse.toUniverse) 0 onModestBlock :=
    .step (.start onGenesis_initial) hcall (step_perform (by decide +kernel))
  have hpush : (pushBlock numberedNetwork.cur numberedNetwork.crypto 2000
      numberedNetwork.checkpoints greedyBlock [] onModestBlock.main).value? =
        some (.rejected true) := by decide +kernel
  have hdone := eq_done_of_value? hpush (s := .empty)
  refine ⟨_, hdone, rejected_push_of_run hrun hgreedy (by decide) ?_ (by decide +kernel) hdone⟩
  exact ⟨forall_mem_nil _, forall_mem_nil _, rfl⟩

end DarknetCoin
