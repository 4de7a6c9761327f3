import DarknetCoin.Model.BlockQueries
import DarknetCoin.Theorems.ThreadedChain
import DarknetCoin.Theorems.Verdicts

/-!
# What wallets are told

The answers are a run of blocks, the first part of it identifiers alone. Where that part ends is
decided by a binary search over timestamps, which nothing sorts: all that is certain is that the
entry in front of the result is early.
-/

namespace DarknetCoin

open Semantics Data MainChain List BinarySearch

namespace MainChain

variable {cur : Currency} {crypto : Crypto} {main : MainChain} {timestamp start : Nat}

/-- The time the search looks for. -/
def searchedTime (cur : Currency) (timestamp : Nat) : Nat :=
  sub64 timestamp cur.blockFutureTimeLimit

/-- None of the blocks from a height on reaches the searched time, or none that does not comes at or
after a block that was asked for. -/
def Searchable (cur : Currency) (main : MainChain) (timestamp start : Nat) : Prop :=
  (∀ block ∈ main.blocks.drop start, block.bl.timestamp < searchedTime cur timestamp) ∨
  ∀ (i j : Nat) (block later : BlockEntry), i ≤ j → (main.blocks.drop start)[i]? = some block →
    (main.blocks.drop start)[j]? = some later → timestamp ≤ block.bl.timestamp →
      searchedTime cur timestamp ≤ later.bl.timestamp

theorem getLowerBound_eq_some {bound : Nat}
    (h : main.getLowerBound cur timestamp start = some bound)
    (hstart : start ≤ main.blocks.length) : start ≤ bound ∧ bound < main.blocks.length ∧
      (start < bound → ∃ block, (main.blocks.drop start)[bound - start - 1]? = some block ∧
        block.bl.timestamp < searchedTime cur timestamp) := by
  unfold getLowerBound at h
  dsimp only at h
  split at h
  · cases h
  have hle := partitionPoint_le
    (fun entry : BlockEntry =>
      decide (entry.bl.timestamp < sub64 timestamp cur.blockFutureTimeLimit))
    (main.blocks.drop start)
  rw [length_drop] at hle
  cases h
  refine ⟨Nat.le_add_right _ _, by omega, fun hpos => ?_⟩
  rw [Nat.add_sub_cancel_left]
  have hany := any_of_partitionPoint_pos
    (p := fun entry : BlockEntry =>
      decide (entry.bl.timestamp < sub64 timestamp cur.blockFutureTimeLimit))
    (l := main.blocks.drop start) (by omega)
  obtain ⟨block, hblock, hearlier⟩ := (Option.any_eq_true _ _).mp hany
  exact ⟨block, hblock, of_decide_eq_true hearlier⟩

/-- In front of the height the search finds, no block was asked for. -/
theorem Searchable.lt_of_lt_bound (h : main.Searchable cur timestamp start) {bound : Nat}
    (hbound : main.getLowerBound cur timestamp start = some bound)
    (hstart : start ≤ main.blocks.length) {i : Nat} {block : BlockEntry}
    (hi : start + i < bound) (hblock : main.blocks[start + i]? = some block) :
    block.bl.timestamp < timestamp := by
  obtain ⟨hle, hlt, hlast⟩ := getLowerBound_eq_some hbound hstart
  rcases h with hnone | hordered
  · -- then the search ends behind the last block
    have hpoint : partitionPoint (fun entry : BlockEntry =>
        decide (entry.bl.timestamp < sub64 timestamp cur.blockFutureTimeLimit))
        (main.blocks.drop start ++ []) = (main.blocks.drop start).length :=
      partitionPoint_eq (fun block hblock => decide_eq_true (hnone block hblock)) (forall_mem_nil _)
    rw [append_nil, length_drop] at hpoint
    unfold getLowerBound at hbound
    rw [if_pos (by omega)] at hbound
    cases hbound
  · by_contra hasked
    obtain ⟨last, hlast, hearlier⟩ := hlast (by omega)
    rw [← getElem?_drop] at hblock
    have hreached := hordered i (bound - start - 1) block last (by omega) hblock hlast
      (not_lt.mp hasked)
    omega

theorem searchable_of_split {old late : List BlockEntry} (h : main.blocks.drop start = old ++ late)
    (hold : ∀ block ∈ old, block.bl.timestamp < timestamp)
    (hlate : ∀ block ∈ late, searchedTime cur timestamp ≤ block.bl.timestamp) :
    main.Searchable cur timestamp start := by
  right
  intro i j block later hle hblock hlater hasked
  rw [h] at hblock hlater
  by_cases hi : i < old.length
  · rw [getElem?_append_left hi] at hblock
    have hlt := hold block (mem_of_getElem? hblock)
    omega
  · rw [getElem?_append_right (by omega)] at hlater
    exact hlate later (mem_of_getElem? hlater)

/-- Every entry of the hash map leads to the transaction with its hash. -/
def Mapped (crypto : Crypto) (blocks : List BlockEntry) (main : MainChain) : Prop :=
  ∀ hash index, main.transactionMap hash = some index →
    ∃ tx, lookupTransaction blocks index = some tx ∧ crypto.getObjectHash tx = hash

theorem Mapped.extend {b : Block} {txs : List Transaction} (h : Mapped crypto main.blocks main) :
    Mapped crypto (extend cur crypto b txs main).blocks (extend cur crypto b txs main) := by
  intro hash index hidx
  rw [extend_blocks]
  have hrecorded :
      (recordAll crypto main.blocks.length 0 (b.baseTransaction :: txs) main).transactionMap
      hash = some index := hidx
  rcases transactionMap_recordAll_eq_some hrecorded with hold | ⟨i, tx, htx, hplace, hhash⟩
  · obtain ⟨tx, htx, hhash⟩ := h hash index hold
    exact ⟨tx, lookupTransaction_append htx, hhash⟩
  · refine ⟨tx, ?_, hhash⟩
    unfold lookupTransaction
    rw [hplace, getElem?_concat_length, Option.bind_some, tx_extendedEntry, zero_add]
    exact htx

theorem mem_chainTransactions_of_lookup {index : TransactionIndex} {tx : Transaction}
    (h : lookupTransaction main.blocks index = some tx) : tx ∈ main.chainTransactions := by
  obtain ⟨block, hblock, htx⟩ := Option.bind_eq_some_iff.mp h
  exact mem_flatMap.mpr ⟨block, mem_of_getElem? hblock, mem_of_getElem? htx⟩

end MainChain

variable {net : Network} {u : Universe net} {clock : Nat} {main : MainChain}
  (h : Built u clock main)
include h

theorem Built.mapped : Mapped net.crypto main.blocks main := by
  induction h with
  | empty => exact fun hash index hidx => by cases hidx
  | push hmain hnow hb hcount htxs hpush ih =>
    obtain ⟨-, rfl⟩ := push_inv hb hcount htxs hmain.orderly hpush
    exact ih.extend

/-- The hash of a transaction of the chain leads back to it. -/
theorem Built.transactionByIndex {tx : Transaction} (htx : tx ∈ main.chainTransactions) :
    ∃ index entry, main.transactionMap (net.crypto.getObjectHash tx) = some index ∧
      main.transactionByIndex index = .ok entry ∧ entry.tx = tx := by
  have hcons := h.orderly.consistent
  obtain ⟨index, hidx⟩ := Option.ne_none_iff_exists'.mp (hcons.entered tx htx)
  obtain ⟨other, hother, hhash⟩ := h.mapped _ _ hidx
  obtain ⟨entry, hentry, rfl⟩ := exists_entry_of_lookupTransaction hother
  have hsame : entry.tx = tx :=
    u.transactions_injOn (hcons.known _ (mem_chainTransactions_of_lookup hother))
    (hcons.known tx htx) hhash
  exact ⟨index, entry, hidx, hentry, hsame⟩

theorem Built.getTransactions {txs : List Transaction}
    (htxs : ∀ tx ∈ txs, tx ∈ main.chainTransactions) :
    main.getTransactions (txs.map net.crypto.getObjectHash) = .ok (txs, []) := by
  induction txs with
  | nil => rfl
  | cons tx txs ih =>
    obtain ⟨htx, hrest⟩ := forall_mem_cons.mp htxs
    obtain ⟨index, entry, hidx, hentry, rfl⟩ := h.transactionByIndex htx
    rw [map_cons, MainChain.getTransactions]
    simp only [hidx, hentry, ih hrest]

theorem Built.getTransactions_block {height : Nat} {block : BlockEntry}
    (hblock : main.blocks[height]? = some block) : main.getTransactions block.bl.transactionHashes =
      .ok ((block.transactions.map TransactionEntry.tx).tail, []) := by
  obtain ⟨txs, hstored⟩ := h.orderly.stored height block hblock
  rw [hstored.transactions, hstored.hashes]
  apply h.getTransactions
  intro tx htx
  refine mem_flatMap.mpr ⟨block, mem_of_getElem? hblock, ?_⟩
  rw [hstored.transactions]
  exact mem_cons_of_mem _ htx

omit h

section Answers

variable {ε : Type} {idOnly : Hash → ε} {complete : Block → List Transaction → ε}
  {timestamp start : Nat} {knownBlockIds : List Hash}

/-- The complete entry of a stored block. -/
def completeEntry (complete : Block → List Transaction → ε) (block : BlockEntry) : ε :=
  complete block.bl (block.transactions.map TransactionEntry.tx).tail

/-- The entries stand for a run of blocks from `start` on, not longer than the limit: each is the
complete entry of its block, or for a block that is too old its identifier alone. -/
structure Answers (crypto : Crypto) (idOnly : Hash → ε) (complete : Block → List Transaction → ε)
    (main : MainChain) (timestamp start : Nat) (entries : List ε) : Prop where
  length_le : entries.length ≤ blocksIdsSynchronizingDefaultCount
  entry : ∀ i entry, entries[i]? = some entry → ∃ block, main.blocks[start + i]? = some block ∧
    (entry = completeEntry complete block ∨
      entry = idOnly (crypto.getBlockHash block.bl) ∧ block.bl.timestamp < timestamp)

/-- The entry of a block in the second part of an answer. -/
def fullEntry (crypto : Crypto) (idOnly : Hash → ε) (complete : Block → List Transaction → ε)
    (timestamp : Nat) (block : BlockEntry) : ε :=
  if timestamp ≤ block.bl.timestamp then completeEntry complete block
  else idOnly (crypto.getBlockHash block.bl)

theorem Built.queryEntries (h : Built u clock main) {blocks : List BlockEntry}
    (hblocks : ∀ block ∈ blocks, ∃ height : Nat, main.blocks[height]? = some block) :
    main.queryEntries net.crypto idOnly complete timestamp (blocks.map BlockEntry.bl) =
      .ok (blocks.map (fullEntry net.crypto idOnly complete timestamp)) := by
  induction blocks with
  | nil => rfl
  | cons block blocks ih =>
    obtain ⟨⟨height, hheight⟩, hrest⟩ := forall_mem_cons.mp hblocks
    have hentry : main.queryEntry net.crypto idOnly complete timestamp block.bl =
        .ok (fullEntry net.crypto idOnly complete timestamp block) := by
      unfold queryEntry fullEntry
      split
      · rw [h.getTransactions_block hheight]
        rfl
      · rfl
    rw [map_cons, MainChain.queryEntries, hentry]
    simp [ih hrest]

/-- The first identifier that is known stands at a height of the chain. -/
theorem Built.findSupplement (h : Built u clock main) {genesis : Hash}
    (hgen : main.blockIndex[0]? = some genesis) (hknown : knownBlockIds.getLast? = some genesis) :
    ∃ start, main.blockIndex.findSupplement knownBlockIds = some start ∧
    start < main.blocks.length := by
  cases hfound : main.blockIndex.findSupplement knownBlockIds with
  | none =>
    -- the last identifier, at least, is known
    have hnone := findSome?_eq_none_iff.mp hfound genesis (mem_of_getLast? hknown)
    have hmissing := findIdx?_eq_none_iff.mp hnone genesis (mem_of_getElem? hgen)
    simp at hmissing
  | some start =>
    obtain ⟨id, -, hid⟩ := exists_of_findSome?_eq_some hfound
    obtain ⟨hlt, -⟩ := findIdx?_eq_some_iff_getElem.mp hid
    rw [h.indexed.blockIndex, length_map] at hlt
    exact ⟨start, rfl, hlt⟩

/-- Identifiers up to a height, then blocks: the two parts of an answer fit together. -/
theorem answers_append {full : Nat} (hle : start ≤ full) (hlt : full ≤ main.blocks.length)
    (hold : ∀ i block, start + i < full → main.blocks[start + i]? = some block →
      block.bl.timestamp < timestamp) : Answers net.crypto idOnly complete main timestamp start
      (((main.blocks.drop start).take (min blocksIdsSynchronizingDefaultCount (full - start))).map
          (fun block => idOnly (net.crypto.getBlockHash block.bl)) ++
        ((main.blocks.drop full).take (min (blocksIdsSynchronizingDefaultCount -
          min blocksIdsSynchronizingDefaultCount (full - start))
          blocksSynchronizingDefaultCount)).map
          (fullEntry net.crypto idOnly complete timestamp)) := by
  have hshort :
    ((main.blocks.drop start).take (min blocksIdsSynchronizingDefaultCount (full - start))).length =
        min blocksIdsSynchronizingDefaultCount (full - start) := by
    rw [length_take, length_drop]
    omega
  constructor
  · rw [length_append, length_map, length_map, hshort, length_take]
    omega
  · intro i entry hentry
    by_cases hi : i < min blocksIdsSynchronizingDefaultCount (full - start)
    · rw [getElem?_append_left (by rwa [length_map, hshort]), getElem?_map,
        getElem?_take_of_lt hi, getElem?_drop] at hentry
      obtain ⟨block, hblock, rfl⟩ := Option.map_eq_some_iff.mp hentry
      exact ⟨block, hblock, .inr ⟨rfl, hold i block (by omega) hblock⟩⟩
    · rw [getElem?_append_right (by rw [length_map]; omega), length_map, hshort, getElem?_map]
        at hentry
      obtain ⟨block, hblock, rfl⟩ := Option.map_eq_some_iff.mp hentry
      rw [getElem?_take] at hblock
      split at hblock
      · -- there is a second part only if the first one reaches up to it
        have hplace : full + (i - min blocksIdsSynchronizingDefaultCount (full - start)) =
            start + i := by omega
        rw [getElem?_drop, hplace] at hblock
        refine ⟨block, hblock, ?_⟩
        unfold fullEntry
        split
        · exact .inl rfl
        · exact .inr ⟨rfl, by omega⟩
      · cases hblock

/-- A run of blocks from the first known one on, in which nothing that was asked for is missing, if
the search can live with the timestamps. -/
theorem Built.query (h : Built u clock main) {genesis : Hash}
    (hgen : main.blockIndex[0]? = some genesis) (hknown : knownBlockIds.getLast? = some genesis)
    (hsearch : ∀ start, main.blockIndex.findSupplement knownBlockIds = some start →
      main.Searchable net.cur timestamp start) :
    ∃ result, main.query net.cur net.crypto idOnly complete knownBlockIds timestamp =
    .ok (some result) ∧ main.blockIndex.findSupplement knownBlockIds = some result.startHeight ∧
      Answers net.crypto idOnly complete main timestamp result.startHeight result.entries := by
  obtain ⟨start, hstart, hlt⟩ := h.findSupplement hgen hknown
  -- what is known of the height the search finds, or of the start when it finds none
  obtain ⟨full, hfull, hle, hlen, hold⟩ : ∃ full,
      (main.getLowerBound net.cur timestamp start).getD start = full ∧ start ≤ full ∧
      full ≤ main.blocks.length ∧ ∀ i block, start + i < full →
        main.blocks[start + i]? = some block → block.bl.timestamp < timestamp := by
    cases hbound : main.getLowerBound net.cur timestamp start with
    | none => exact ⟨start, rfl, le_rfl, hlt.le, fun i block hi => by omega⟩
    | some bound =>
      obtain ⟨hle, hbelow, -⟩ := getLowerBound_eq_some hbound hlt.le
      exact ⟨bound, rfl, hle, hbelow.le, fun i block hi hblock =>
        (hsearch start hstart).lt_of_lt_bound hbound hlt.le hi hblock⟩
  have hoffsets : main.findStartAndFullOffsets net.cur knownBlockIds timestamp =
      .ok (some (start, full)) := by
    have hid : main.blockIndex.getBlockId 0 = .ok genesis := by
      simp only [BlockIndex.getBlockId, hgen]
    have hsupplement : main.findBlockchainSupplement knownBlockIds = .ok start := by
      simp only [findBlockchainSupplement, hstart]
    simp [findStartAndFullOffsets, hknown, hid, hsupplement, hfull]
  have hids : main.findIdsForShortBlocks start full =
      ((main.blocks.drop start).take (min blocksIdsSynchronizingDefaultCount (full - start))).map
        fun block => net.crypto.getBlockHash block.bl := by
    unfold findIdsForShortBlocks BlockIndex.getBlockIds
    rw [h.indexed.blockIndex, ← map_drop, ← map_take]
    split
    · rfl
    · have hzero : full - start = 0 := by omega
      rw [hzero]
      rfl
  have hshort : (main.findIdsForShortBlocks start full).length =
      min blocksIdsSynchronizingDefaultCount (full - start) := by
    rw [hids, length_map, length_take, length_drop]
    omega
  have hentries (count : Nat) : main.queryEntries net.crypto idOnly complete timestamp
      (main.getBlocks full count) = .ok (((main.blocks.drop full).take count).map
          (fullEntry net.crypto idOnly complete timestamp)) := by
    apply h.queryEntries
    intro block hblock
    exact mem_iff_getElem?.mp (mem_of_mem_drop (mem_of_mem_take hblock))
  have hquery : main.query net.cur net.crypto idOnly complete knownBlockIds timestamp =
      .ok (some ⟨start, main.blocks.length, full,
        (main.findIdsForShortBlocks start full).map idOnly ++
          ((main.blocks.drop full).take (min (blocksIdsSynchronizingDefaultCount -
            min blocksIdsSynchronizingDefaultCount (full - start))
            blocksSynchronizingDefaultCount)).map
                (fullEntry net.crypto idOnly complete timestamp)⟩) := by
    simp [MainChain.query, hoffsets, hshort, hentries]
  refine ⟨_, hquery, hstart, ?_⟩
  rw [hids, map_map]
  exact answers_append hle hlen hold

end Answers

/-- What wallets are told by `queryBlocks` and by `queryBlocksLite`. -/
theorem queries_lose_nothing (h : Built u clock main) {knownBlockIds : List Hash} {genesis : Hash}
    {timestamp : Nat} (hgenesis : main.blockIndex[0]? = some genesis)
    (hknown : knownBlockIds.getLast? = some genesis)
    (hsearch : ∀ start, main.blockIndex.findSupplement knownBlockIds = some start →
      main.Searchable net.cur timestamp start) :
    (∃ result, main.queryBlocks net.cur net.crypto knownBlockIds timestamp = .ok (some result) ∧
      Answers net.crypto (fun id => ⟨id, none, []⟩)
        (fun b txs => ⟨net.crypto.getBlockHash b, some b, txs⟩) main timestamp result.startHeight
        result.entries) ∧
    ∃ result, main.queryBlocksLite net.cur net.crypto knownBlockIds timestamp = .ok (some result) ∧
      Answers net.crypto (fun id => ⟨id, none, []⟩)
      (fun b txs => ⟨net.crypto.getBlockHash b, some b,
          txs.map fun tx => ⟨net.crypto.getObjectHash tx, tx.toTransactionPrefix⟩⟩) main timestamp
        result.startHeight result.entries := by
  constructor
  all_goals
    obtain ⟨result, hquery, -, hanswers⟩ := h.query hgenesis hknown hsearch
    exact ⟨result, hquery, hanswers⟩

/-- A block with a transaction, later than the limit on block times. -/
def lateSpendingBlock : Block := { genesisSpendingBlock with timestamp := 9000 }

/-- The universe of the block. -/
def lateUniverse : Universe openNetwork :=
  Universe.ofBlocks openNetwork [lateSpendingBlock] [genesisSpender] (by decide +kernel)
    (by decide +kernel)

/-- The push of the block on the genesis block. -/
def lateSpendingPush : Outcome MainChain PushResult :=
  pushBlock openNetwork.cur openNetwork.crypto 9000 openNetwork.checkpoints
    lateSpendingBlock [genesisSpender] (Core.onGenesis openNetwork).main

theorem queries_lose_nothing_lateSpending :
    ∃ clock main, Built lateUniverse clock main ∧ main.blocks.length = 2 ∧
      ∃ result, main.queryBlocks openNetwork.cur openNetwork.crypto [421] 9000 = .ok (some result) ∧
        Answers openNetwork.crypto (fun id => ⟨id, none, []⟩)
          (fun b txs => ⟨openNetwork.crypto.getBlockHash b, some b, txs⟩) main 9000
          result.startHeight result.entries := by
  obtain ⟨clock, hbuilt⟩ := exists_built_openNetwork lateUniverse
  have hblock : lateSpendingBlock ∈ lateUniverse.blocks :=
    mem_cons_of_mem (Currency.genesisBlock _) mem_cons_self
  have hknown : genesisSpender ∈ lateUniverse.transactions :=
    mem_append_right _ mem_cons_self
  have htxs : TransactionsOf lateUniverse lateSpendingBlock [genesisSpender] :=
    ⟨by simpa using hknown, by decide +kernel, by decide +kernel⟩
  have hadded : lateSpendingPush.value? = some .added := by decide +kernel
  have hdone := Outcome.eq_done_of_value? hadded (s := empty)
  have hlate : Built lateUniverse (max clock 9000) (lateSpendingPush.stateD empty) :=
    .push (hbuilt.mono (le_max_left _ _)) (le_max_right _ _) hblock (by decide) htxs hdone
  have hstart : (lateSpendingPush.stateD empty).blockIndex.findSupplement [421] = some 0 := by
    decide +kernel
  have hsearch : ∀ start, (lateSpendingPush.stateD empty).blockIndex.findSupplement [421] =
      some start → (lateSpendingPush.stateD empty).Searchable openNetwork.cur 9000 start := by
    intro start hfound
    rw [hstart] at hfound
    cases hfound
    -- the genesis block alone is early
    exact searchable_of_split (take_append_drop 1 _).symm (by decide +kernel) (by decide +kernel)
  have hgen : (lateSpendingPush.stateD empty).blockIndex[0]? = some 421 := by
    decide +kernel
  obtain ⟨⟨result, hquery, hanswers⟩, -⟩ := queries_lose_nothing hlate hgen rfl hsearch
  exact ⟨_, _, hlate, by decide +kernel, result, hquery, hanswers⟩

/-- A block with a miner transaction only and a given timestamp. -/
def datedBlock (nonce previous height timestamp reward : Nat) : Block :=
  { numberedBlock nonce previous height [⟨reward, .key 1⟩] [] with timestamp := timestamp }

/-- Three blocks, the second of them much earlier than the others. -/
def unsortedBlocks : List Block :=
  [datedBlock 1 420 1 10000 5, datedBlock 2 1 2 1000 (200 * Currency.coin),
    datedBlock 3 2 3 10000 (200 * Currency.coin)]

/-- The answers the node gives after the three blocks: the first of them, which is not too old,
without its body. -/
def OmitsBlock (core : Core) : Prop :=
  core.main.blocks.map (fun block => block.bl) =
    numberedNetwork.cur.genesisBlock :: unsortedBlocks ∧
    (core.main.queryBlocks numberedNetwork.cur numberedNetwork.crypto [421] 10000).toOption =
      some (some ⟨0, 4, 3, [⟨421, none, []⟩, ⟨2, none, []⟩, ⟨3, none, []⟩,
        ⟨4, some (datedBlock 3 2 3 10000 (200 * Currency.coin)), []⟩]⟩) ∧
    (core.main.queryBlocksLite numberedNetwork.cur numberedNetwork.crypto [421] 10000).toOption =
      some (some ⟨0, 4, 3, [⟨421, none, []⟩, ⟨2, none, []⟩, ⟨3, none, []⟩,
        ⟨4, some (datedBlock 3 2 3 10000 (200 * Currency.coin)), []⟩]⟩)

instance : DecidablePred OmitsBlock := fun _ => inferInstanceAs (Decidable (_ ∧ _))

/-- The search ends behind the early block, and the block in front of it is returned as an
identifier although it is not older than the wallet asked for. -/
theorem query_omits_block :
    ∃ clock core, Core.Run numberedNetwork (fun _ _ _ _ => True) clock core ∧
      (∃ block, core.main.blocks[1]? = some block ∧ block.bl.timestamp = 10000) ∧
      (∃ result, core.main.queryBlocks numberedNetwork.cur numberedNetwork.crypto [421] 10000 =
          .ok (some result) ∧ result.startHeight = 0 ∧ result.entries[1]? = some ⟨2, none, []⟩) ∧
      ∃ result, core.main.queryBlocksLite numberedNetwork.cur numberedNetwork.crypto [421] 10000 =
          .ok (some result) ∧ result.startHeight = 0 ∧ result.entries[1]? = some ⟨2, none, []⟩ := by
  obtain ⟨clock, core, hrun, hblocks, hfull, hlite⟩ :=
    Core.exists_run_of_genesis _
      (unsortedBlocks.map fun b => (10000, Call.addNewBlock b)) OmitsBlock
      onGenesis_initial (by decide +kernel)
  have hok {α : Type} {x : Except Fault α} {a : α} (h : x.toOption = some a) : x = .ok a := by
    cases x with
    | error fault => cases h
    | ok b =>
      cases h
      rfl
  have hblock : (core.main.blocks.map fun block => block.bl)[1]? =
      some (datedBlock 1 420 1 10000 5) := by
    rw [hblocks]
    rfl
  rw [getElem?_map] at hblock
  obtain ⟨block, hentry, hbl⟩ := Option.map_eq_some_iff.mp hblock
  refine ⟨clock, core, hrun, ⟨block, hentry, by rw [hbl]; rfl⟩, ?_, ?_⟩
  · exact ⟨_, hok hfull, rfl, rfl⟩
  · exact ⟨_, hok hlite, rfl, rfl⟩

/-- The block at a height is found with its identifier, under which the index has the height, and
above the chain there is no block, for every height but the number of blocks: there the index is
read past its end. -/
theorem block_lookups_of_run {net : Network} {Ok : Nat → Nat → Core → Call → Prop}
    {clock height : Nat} {core : Core} (hrun : Core.Run net Ok clock core) :
    ((height < core.main.blocks.length →
        ∃ bc entry, core.main.getBlockByHeight height = .ok (some bc) ∧
          core.main.blockIndex.getBlockId height = .ok bc.hash ∧
          core.main.blockIndex.blockHeight? bc.hash = some height ∧
          core.main.blocks[height]? = some entry ∧ bc.hash = net.crypto.getBlockHash entry.bl ∧
          bc.block = entry.bl ∧ bc.height = height ∧
          bc.blockCumulativeSize = entry.blockCumulativeSize ∧
          bc.alreadyGeneratedCoins = entry.alreadyGeneratedCoins) ∧
      (¬height < core.main.blocks.length → core.main.getBlockByHeight height = .ok none)) ↔
      height ≠ core.main.blocks.length := by
  have hthreaded := threaded_of_run hrun
  refine ⟨?_, fun hheight => ⟨fun hlt => ?_, fun hnot => if_pos (by omega)⟩⟩
  · rintro ⟨-, hnone⟩ rfl
    have hpast : core.main.blockIndex[core.main.blocks.length]? = none :=
      getElem?_eq_none (by rw [hthreaded.blockIndex, idsOfBlocks, length_map])
    have hget := hnone (lt_irrefl _)
    rw [getBlockByHeight, if_neg (lt_irrefl _), BlockIndex.getBlockId, hpast] at hget
    cases hget
  · have hentry := getElem?_eq_getElem hlt
    have hid := hthreaded.getElem?_blockIndex hentry
    have hget : core.main.blockIndex.getBlockId height =
        .ok (net.crypto.getBlockHash core.main.blocks[height].bl) := by
      rw [BlockIndex.getBlockId, hid]
    unfold getBlockByHeight
    rw [if_neg (by omega), hget]
    simp only [hentry]
    exact ⟨_, _, rfl, rfl, hthreaded.blockHeight?_eq_some_iff.mpr hid, rfl, rfl, rfl, rfl, rfl, rfl⟩

/-- Two blocks on the genesis block, and two on the first of them, for which the second is left. -/
def switchingCalls : List (Nat × Call) :=
  [numberedBlock 1 420 1 [⟨5, .key 1⟩] [], numberedBlock 2 1 2 [⟨200 * Currency.coin, .key 1⟩] [],
    numberedBlock 3 1 2 [⟨200 * Currency.coin, .key 1⟩] [],
    numberedBlock 4 3 3 [⟨200 * Currency.coin, .key 1⟩] []].map fun b => (0, .addNewBlock b)

theorem block_lookups_of_run_switched : ∃ clock core,
    Core.Run numberedNetwork (fun _ _ _ _ => True) clock core ∧
      (core.main.blocks.map fun block => block.bl.nonce) = [420, 1, 3, 4] ∧
      (∃ bc, core.main.getBlockByHeight 2 = .ok (some bc) ∧ bc.block.nonce = 3 ∧
        core.main.blockIndex.blockHeight? bc.hash = some 2) ∧
      core.main.getBlockByHeight 7 = .ok none := by
  obtain ⟨clock, core, hrun, hblocks⟩ :=
    Core.exists_run_of_genesis numberedNetwork switchingCalls
      (fun core => (core.main.blocks.map fun block => block.bl.nonce) = [420, 1, 3, 4])
      onGenesis_initial (by decide +kernel)
  have hlen : core.main.blocks.length = 4 := by simpa using congrArg length hblocks
  obtain ⟨bc, entry, hfound, -, hheight, hentry, -, hbl, -⟩ :=
    ((block_lookups_of_run hrun).mpr (by omega : 2 ≠ core.main.blocks.length)).1 (by omega)
  have hnonce := congrArg (·[2]?) hblocks
  rw [getElem?_map, hentry] at hnonce
  refine ⟨clock, core, hrun, hblocks, ⟨bc, hfound, ?_, hheight⟩, ?_⟩
  · rw [hbl]
    exact Option.some.inj hnonce
  · exact ((block_lookups_of_run hrun).mpr (by omega : 7 ≠ core.main.blocks.length)).2 (by omega)

/-- A node on its genesis block is asked for the block at height one. -/
theorem block_above_chain_undefined : ∃ clock core,
    Core.Run numberedNetwork (fun _ _ _ _ => True) clock core ∧ ¬1 < core.main.blocks.length ∧
      core.main.getBlockByHeight 1 = .error .undefined :=
  ⟨0, _, .start onGenesis_initial, by decide, rfl⟩

end DarknetCoin
