import DarknetCoin.Theorems.OutputRows

/-!
# Main chains that pushes have built

The main chains reached by pushing blocks over a universe on which the hashes are free of
collisions. Their indices agree with their blocks, a push extends them or leaves them alone, and
`popBlock` undoes it.
-/

namespace DarknetCoin

open Semantics Data MainChain List

/-- The transactions and blocks that occur, over which the hashes are taken to be free of
collisions. -/
structure Universe (net : Network) where
  transactions : Set Transaction
  blocks : Set Block
  transactions_injOn : Set.InjOn net.crypto.getObjectHash transactions
  blocks_injOn : Set.InjOn net.crypto.getBlockHash blocks
  baseTransaction_mem : ∀ b ∈ blocks, b.baseTransaction ∈ transactions
  genesisBlock_mem : net.cur.genesisBlock ∈ blocks

/-- The universe of the genesis block, some blocks and some transactions. -/
def Universe.ofBlocks (net : Network) (blocks : List Block) (txs : List Transaction)
    (hblocks : ((net.cur.genesisBlock :: blocks).map net.crypto.getBlockHash).Nodup)
    (htxs : (((net.cur.genesisBlock :: blocks).map Block.baseTransaction ++ txs).map
      net.crypto.getObjectHash).Nodup) : Universe net where
  transactions := {tx | tx ∈ (net.cur.genesisBlock :: blocks).map Block.baseTransaction ++ txs}
  blocks := {b | b ∈ net.cur.genesisBlock :: blocks}
  transactions_injOn _ h _ h' := inj_on_of_nodup_map htxs h h'
  blocks_injOn _ h _ h' := inj_on_of_nodup_map hblocks h h'
  baseTransaction_mem _ h := mem_append_left _ (mem_map_of_mem h)
  genesisBlock_mem := mem_cons_self

/-- An output the tables cannot hold and `check_outs_valid` does not reject. -/
def TransactionOutput.isZeroMultisignature (out : TransactionOutput) : Bool :=
  match out.target with
  | .key _ => false
  | .multisignature _ => out.amount == 0

/-- No multisignature output of the transaction has the amount zero. -/
def NoZeroMultisignature (tx : Transaction) : Prop :=
  ∀ out ∈ tx.outputs, out.isZeroMultisignature = false

instance : DecidablePred NoZeroMultisignature := fun _ => inferInstanceAs (Decidable (∀ _ ∈ _, _))

/-- A universe whose transactions have none of the keys the hash tables reserve. With one of them a
push is stuck here, while a build without assertions goes on with tables that no longer find all
their rows. -/
structure SparingUniverse (net : Network) extends Universe net where
  spares : ∀ tx ∈ transactions, NoZeroMultisignature tx ∧ 0 ∉ tx.keyImages

/-- The sparing universe of the genesis block, some blocks and some transactions. -/
def SparingUniverse.ofBlocks (net : Network) (blocks : List Block) (txs : List Transaction)
    (hblocks : ((net.cur.genesisBlock :: blocks).map net.crypto.getBlockHash).Nodup)
    (htxs : (((net.cur.genesisBlock :: blocks).map Block.baseTransaction ++ txs).map
      net.crypto.getObjectHash).Nodup)
    (hspares : ∀ tx ∈ (net.cur.genesisBlock :: blocks).map Block.baseTransaction ++ txs,
      NoZeroMultisignature tx ∧ 0 ∉ tx.keyImages) : SparingUniverse net where
  toUniverse := .ofBlocks net blocks txs hblocks htxs
  spares := hspares

variable {net : Network} {u : Universe net} {clock now later : Nat} {main main' : MainChain}
  {b : Block} {txs : List Transaction}

/-- The transactions of a block as the pool hands them out: each was let through by the core and
has the hash the block names. -/
structure TransactionsOf (u : Universe net) (b : Block) (txs : List Transaction) : Prop where
  known : ∀ tx ∈ txs, tx ∈ u.transactions
  semantic : ∀ tx ∈ txs, checkTxSemantic net.cur net.crypto tx = .ok true
  hashes : b.transactionHashes = txs.map net.crypto.getObjectHash

namespace TransactionsOf

theorem valid (h : TransactionsOf u b txs) : ∀ tx ∈ txs, tx ∈ u.transactions ∧
    SemanticallyValid tx :=
  fun tx htx => ⟨h.known tx htx, semanticallyValid_of_checkTxSemantic (h.semantic tx htx)⟩

theorem length_eq (h : TransactionsOf u b txs) : txs.length = b.transactionHashes.length := by
  rw [h.hashes, length_map]

end TransactionsOf

/-- The main chains that pushes made not later than `clock` have built on the empty one. -/
inductive Built (u : Universe net) (clock : Nat) : MainChain → Prop
  | empty : Built u clock empty
  | push {main main' : MainChain} {now : Nat} {b : Block} {txs : List Transaction}
      (hmain : Built u clock main) (hnow : now ≤ clock) (hb : b ∈ u.blocks)
      (hcount : b.transactionHashes.length < word16) (htxs : TransactionsOf u b txs)
      (hpush : pushBlock net.cur net.crypto now net.checkpoints b txs main =
        .done .added main') : Built u clock main'

namespace Built

theorem mono (h : Built u clock main) (hlater : clock ≤ later) : Built u later main := by
  induction h with
  | empty => exact .empty
  | push hmain hnow hb hcount htxs hpush ih =>
    exact .push ih (hnow.trans hlater) hb hcount htxs hpush

end Built

namespace MainChain

variable {crypto : Crypto}

theorem transactionMap_recordAll_eq_some {height position : Nat} {hash : Hash}
    {index : TransactionIndex}
    (h : (recordAll crypto height position txs main).transactionMap hash = some index) :
    main.transactionMap hash = some index ∨ ∃ i tx, txs[i]? = some tx ∧
      index = ⟨height, position + i⟩ ∧ crypto.getObjectHash tx = hash := by
  induction txs generalizing position main with
  | nil => exact .inl h
  | cons tx txs ih =>
    rcases ih h with hold | ⟨i, other, hother, hidx, hhash⟩
    · rw [transactionMap_record] at hold
      by_cases hsame : hash = crypto.getObjectHash tx
      · rw [hsame, Function.update_self, Option.some.injEq] at hold
        exact .inr ⟨0, tx, rfl, hold.symm, hsame.symm⟩
      · rw [Function.update_of_ne hsame] at hold
        exact .inl hold
    · refine .inr ⟨i + 1, other, hother, ?_, hhash⟩
      rw [hidx, add_assoc, add_comm 1 i]

variable {U : Set Transaction} {cur : Currency} {checkpoints : Checkpoints}

theorem Orderly.empty : empty.Orderly crypto U where
  toNoDoubleSpend := NoDoubleSpend.empty
  rows := ⟨Table.noEmptyRow_empty, Table.noEmptyRow_empty⟩
  exact _ hne := (hne rfl).elim

theorem Orderly.extend (hinj : Set.InjOn crypto.getObjectHash U) (h : main.Orderly crypto U)
    (hbase : b.baseTransaction ∈ U) (htxs : ∀ tx ∈ txs, tx ∈ U ∧ SemanticallyValid tx)
    (hhashes : b.transactionHashes = txs.map crypto.getObjectHash) (hcount : txs.length < word16)
    (hpush : MainChain.pushBlock cur crypto now checkpoints b txs main = .done .added main') :
    main'.Orderly crypto U := by
  obtain ⟨-, hadded, -⟩ := (h.pushBlock hinj hbase htxs hhashes hcount).holds.of_done hpush
  obtain ⟨⟨-, rfl⟩, hspent⟩ := hadded rfl
  refine ⟨hspent, ?_, ?_⟩
  · have hrows :
        (recordAll crypto main.blocks.length 0 (b.baseTransaction :: txs) main).NoEmptyRows :=
      h.rows.recordAll
    exact hrows
  · intro hash hne
    rw [chainTransactions_append extend_blocks, tx_extendedEntry]
    obtain ⟨index, hidx⟩ := Option.ne_none_iff_exists'.mp hne
    rcases transactionMap_recordAll_eq_some hidx with hold | ⟨i, tx, htx, -, hhash⟩
    · obtain ⟨tx, htx, hhash⟩ := h.exact hash (hold ▸ Option.some_ne_none _)
      exact ⟨tx, mem_append_left _ htx, hhash⟩
    · exact ⟨tx, mem_append_right _ (mem_of_getElem? htx), hhash⟩

theorem Indexed.empty : empty.Indexed crypto where
  blockIndex := rfl
  nodup := nodup_nil
  deposits := DepositIndex.empty_wellFormed
  generated := rfl
  generated_length := rfl
  voting := Or.inl rfl

/-- A linked block is entered in all indexes. -/
theorem Indexed.extend (h : main.Indexed crypto)
    (hlinked : Linked cur crypto now checkpoints main b txs) :
    (extend cur crypto b txs main).Indexed crypto := by
  have hblockIndex : (MainChain.extend cur crypto b txs main).blockIndex =
      main.blockIndex ++ [crypto.getBlockHash b] := by
    rw [extend_sameStorage.blockIndex]
    exact BlockIndex.push_of_notMem hlinked.notMem_blockIndex
  constructor
  case blockIndex =>
    rw [hblockIndex, extend_blocks, map_append, h.blockIndex]
    rfl
  case nodup =>
    rw [hblockIndex]
    refine h.nodup.append (nodup_singleton _) ?_
    exact disjoint_singleton.mpr hlinked.notMem_blockIndex
  case deposits =>
    rw [extend_sameStorage.depositIndex]
    exact h.deposits.pushBlock _ _
  case generated =>
    rw [extend_sameStorage.generatedTransactionsIndex]
    exact h.generated.add _
  case generated_length =>
    have hheight : getBlockHeight b = main.generatedTransactionsIndex.index.length :=
      hlinked.getBlockHeight_eq.trans h.generated_length.symm
    rw [extend_sameStorage.generatedTransactionsIndex, extend_blocks]
    change (main.generatedTransactionsIndex.add b).index.length = _
    simp [GeneratedTransactionsIndex.add, hheight, h.generated_length]
  case voting =>
    have hlen : (MainChain.extend cur crypto b txs main).blocks.length =
        main.blocks.length + 1 := by
      rw [extend_blocks, length_append, length_singleton]
    have hvoting : (MainChain.extend cur crypto b txs main).votingCompleteHeight =
        main.votingCompleteHeight ∨
        (MainChain.extend cur crypto b txs main).votingCompleteHeight = main.blocks.length := by
      rw [extend_sameStorage.votingCompleteHeight]
      exact votingAfterPush_cases
    rw [hlen]
    rcases hvoting with heq | heq
    · rw [heq]
      exact h.voting.imp_right fun hlt => by omega
    · rw [heq]
      exact .inr (Nat.lt_succ_self _)

theorem Located.extend (h : Located main.blocks main) :
    Located (extend cur crypto b txs main).blocks (extend cur crypto b txs main) := by
  have hrecorded : Located (main.blocks ++ [extendedEntry cur crypto b txs main])
      (.recordAll crypto main.blocks.length 0 (b.baseTransaction :: txs) main) :=
    h.recordAll tx_extendedEntry
  rw [extend_blocks]
  exact hrecorded

end MainChain

namespace Built

variable (hb : b ∈ u.blocks) (hcount : b.transactionHashes.length < word16)
  (htxs : TransactionsOf u b txs)
include hb hcount htxs

theorem push_inv (horderly : main.Orderly net.crypto u.transactions)
    (hpush : pushBlock net.cur net.crypto now net.checkpoints b txs main = .done .added main') :
    Linked net.cur net.crypto now net.checkpoints main b txs ∧
    main' = extend net.cur net.crypto b txs main :=
  (((horderly.pushBlock u.transactions_injOn (u.baseTransaction_mem b hb) htxs.valid htxs.hashes
    (htxs.length_eq ▸ hcount)).holds.of_done hpush).2.1 rfl).1

omit hb hcount htxs
variable (h : Built u clock main)
include h

theorem orderly : main.Orderly net.crypto u.transactions := by
  induction h with
  | empty => exact .empty
  | push hmain hnow hb hcount htxs hpush ih =>
    exact ih.extend u.transactions_injOn (u.baseTransaction_mem _ hb) htxs.valid htxs.hashes
      (htxs.length_eq ▸ hcount) hpush

theorem indexed : main.Indexed net.crypto := by
  induction h with
  | empty => exact .empty
  | push hmain hnow hb hcount htxs hpush ih =>
    obtain ⟨hlinked, rfl⟩ := push_inv hb hcount htxs hmain.orderly hpush
    exact ih.extend hlinked

theorem located : Located main.blocks main := by
  induction h with
  | empty =>
    intro kind amount place hplace
    cases kind <;> cases hplace
  | push hmain hnow hb hcount htxs hpush ih =>
    obtain ⟨-, rfl⟩ := push_inv hb hcount htxs hmain.orderly hpush
    exact ih.extend

/-- The push of `block` with the transactions `txs` on top of `below` that gave `main`: it can be
made again at any time, and popping the block undoes it. -/
structure LastPush (u : Universe net) (clock : Nat) (below : MainChain) (block : BlockEntry)
    (txs : List Transaction) (main : MainChain) : Prop where
  built : Built u clock below
  mem : block.bl ∈ u.blocks
  count : block.bl.transactionHashes.length < word16
  transactionsOf : TransactionsOf u block.bl txs
  linked : Linked net.cur net.crypto clock net.checkpoints below block.bl txs
  entry_eq : block = extendedEntry net.cur net.crypto block.bl txs below
  main_eq : main = MainChain.extend net.cur net.crypto block.bl txs below
  push : ∀ now, clock ≤ now → MainChain.pushBlock net.cur net.crypto now net.checkpoints
    block.bl txs below = .done .added main
  pop : MainChain.unlinkBlock net.crypto (net.crypto.getBlockHash block.bl) main = .done () below

include hb hcount htxs

/-- A push on a built main chain leaves it as it was or extends it, unless the block is too large;
it throws only when a transaction names an output of its own block. -/
theorem pushBlock : (pushBlock net.cur net.crypto now net.checkpoints b txs main).Holds
    (fun result main' =>
        (result ≠ .added → checkCumulativeBlockSize net.cur
          (blockTotals net.cur b txs).cumulativeBlockSize (getBlockHeight b) = true →
          main' = main) ∧
        (result = .added → Linked net.cur net.crypto now net.checkpoints main b txs ∧
          main' = extend net.cur net.crypto b txs main))
      fun _ => b.previousBlockHash = main.getTailId ∧ ∃ before tx after,
        txs = before ++ tx :: after ∧ ¬main.RefersBelow (b.baseTransaction :: before) tx := by
  refine (h.orderly.pushBlock u.transactions_injOn (u.baseTransaction_mem b hb) htxs.valid
    htxs.hashes (htxs.length_eq ▸ hcount)).holds.mono
      (fun _ _ h' => ⟨h'.1, fun hadded => (h'.2.1 hadded).1⟩) ?_
  rintro _ (hheader | ⟨⟨_, haccept⟩, ⟨hne, -⟩ | ⟨before, tx, hcomes, hexc | ⟨hne, -⟩⟩⟩)
  · exact (checkHeader_ne_exception hheader).elim
  · cases hne
  rotate_left
  · cases hne
  obtain ⟨after, hsplit⟩ := hcomes.split
  refine ⟨(checkHeader_eq_accept.mp haccept).previous, before, tx, after, hsplit, fun hbelow => ?_⟩
  refine checkBlockTransaction_ne_error (checkInputs_ne_error (h.located.resolves hbelow) ?_) hexc
  exact fun hfault => by cases hfault

theorem LastPush.of_push (hnow : now ≤ clock)
    (hpush : MainChain.pushBlock net.cur net.crypto now net.checkpoints b txs main =
      .done .added main') :
    LastPush u clock main (MainChain.extendedEntry net.cur net.crypto b txs main) txs main' := by
  have hrepeat : ∀ later, clock ≤ later → MainChain.pushBlock net.cur net.crypto later
      net.checkpoints b txs main = .done .added main' :=
    fun later hlater => MainChain.pushBlock_mono (hnow.trans hlater) hpush
  obtain ⟨hlinked, rfl⟩ := push_inv hb hcount htxs h.orderly (hrepeat clock le_rfl)
  refine ⟨h, hb, hcount, htxs, hlinked, rfl, rfl, hrepeat, ?_⟩
  exact unlinkBlock_extend hlinked h.orderly.rows h.indexed htxs.hashes

omit h hb hcount htxs

theorem exists_lastPush (h : Built u clock main) {block : BlockEntry}
    (hlast : main.blocks.getLast? = some block) :
    ∃ below txs, LastPush u clock below block txs main := by
  cases h with
  | empty => cases hlast
  | @push below _ now b txs hmain hnow hb hcount htxs hpush =>
    have hlastPush := LastPush.of_push hb hcount htxs hmain hnow hpush
    rw [hlastPush.main_eq, MainChain.extend_blocks, getLast?_concat, Option.some.injEq] at hlast
    exact ⟨below, txs, hlast ▸ hlastPush⟩

end Built

namespace MainChain

/-- The interest of a block is that of its transactions: the miner transaction earns none. -/
theorem blockInterest_extendedEntry {cur : Currency} {crypto : Crypto}
    {main : MainChain} {b : Block} {txs : List Transaction} (hminer : IsMiner b.baseTransaction) :
    blockInterest cur (extendedEntry cur crypto b txs main) =
    (blockTotals cur b txs).interestSummary := by
  have hbase : cur.calculateTotalTransactionInterest b.baseTransaction = 0 := by
    obtain ⟨height, hinputs⟩ := hminer
    simp [Currency.calculateTotalTransactionInterest, hinputs]
  have hfold : blockInterest cur (extendedEntry cur crypto b txs main) =
      ((extendedEntry cur crypto b txs main).transactions.map TransactionEntry.tx).foldl
        (fun interest tx => add64 interest (cur.calculateTotalTransactionInterest tx)) 0 := by
    rw [foldl_map]
    rfl
  rw [hfold, tx_extendedEntry, foldl_cons, hbase]
  change foldl _ (minerTotals b).interestSummary _ = _
  exact foldl_hom _ fun _ _ => rfl

end MainChain

variable {net : Network} {u : Universe net} {main : MainChain}

namespace MainChain

variable {index : TransactionIndex} {position : Nat}

theorem globalOutputIndex_eq (out : TransactionOutput) :
    main.globalOutputIndex out = (main.places out.kind out.amount).length := by
  unfold globalOutputIndex TransactionOutput.kind
  cases out.target with
  | key key => rfl
  | multisignature target => exact (length_map _).symm

theorem length_outputPositions (outs : List TransactionOutput) :
    (outputPositions index position outs main).length = outs.length := by
  induction outs generalizing position main with
  | nil => rfl
  | cons out outs ih => rw [outputPositions, length_cons, length_cons, ih]

/-- Every output gets the position it is recorded at. -/
theorem places_outputPositions {outs : List TransactionOutput} {out : TransactionOutput} {i g : Nat}
    (hout : outs[i]? = some out) (hg : (outputPositions index position outs main)[i]? = some g) :
    ((recordOutputs index position outs main).places out.kind out.amount)[g]? =
    some (index, position + i) := by
  induction outs generalizing position main i with
  | nil => cases hout
  | cons first outs ih =>
    rw [outputPositions] at hg
    rw [recordOutputs]
    cases i with
    | zero =>
      obtain rfl : first = out := by simpa using hout
      obtain rfl : main.globalOutputIndex first = g := by simpa using hg
      rw [places_recordOutputs, places_pushOutput, if_pos ⟨rfl, rfl⟩, globalOutputIndex_eq,
        append_assoc, getElem?_append_right le_rfl, Nat.sub_self]
      rfl
    | succ i =>
      rw [ih hout hg, add_assoc, add_comm 1]

end MainChain

/-- The main chains that successful pushes, of blocks and transactions that meet `Ok`, and
successful pops reach from the genesis block. -/
inductive Operated (net : Network) (Ok : Block → List Transaction → Prop) : MainChain → Prop
  | genesis {now : Nat} {main : MainChain}
      (hpush : pushBlock net.cur net.crypto now net.checkpoints net.cur.genesisBlock []
        empty = .done .added main) : Operated net Ok main
  | push {now : Nat} {main main' : MainChain} {b : Block} {txs : List Transaction}
      (hmain : Operated net Ok main) (hok : Ok b txs)
      (hpush : pushBlock net.cur net.crypto now net.checkpoints b txs main =
        .done .added main') : Operated net Ok main'
  | pop {main main' : MainChain} {block : BlockEntry} (hmain : Operated net Ok main)
      (hlast : main.blocks.getLast? = some block)
      (hpop : unlinkBlock net.crypto (net.crypto.getBlockHash block.bl) main =
        .done () main') : Operated net Ok main'

/-- A block of at most 65535 transactions with its transactions. -/
def CountedBlock (u : Universe net) (b : Block) (txs : List Transaction) : Prop :=
  b ∈ u.blocks ∧ b.transactionHashes.length < word16 ∧ TransactionsOf u b txs

/-- Pushes and pops reach main chains that pushes alone build, of the genesis block and blocks that
were pushed. -/
theorem Operated.exists_built {Ok : Block → List Transaction → Prop}
    (hcounted : ∀ b txs, Ok b txs → CountedBlock u b txs) (h : Operated net Ok main) :
    (∃ clock, Built u clock main) ∧
      ∀ block ∈ main.blocks, block.bl = net.cur.genesisBlock ∨ ∃ txs, Ok block.bl txs := by
  induction h with
  | @genesis now main hpush =>
    have htxs : TransactionsOf u net.cur.genesisBlock [] :=
      ⟨forall_mem_nil _, forall_mem_nil _, rfl⟩
    have hcount : net.cur.genesisBlock.transactionHashes.length < word16 := Nat.two_pow_pos 16
    obtain ⟨-, rfl⟩ := Built.push_inv u.genesisBlock_mem hcount htxs Orderly.empty hpush
    refine ⟨⟨now, .push .empty le_rfl u.genesisBlock_mem hcount htxs hpush⟩, ?_⟩
    intro block hblock
    obtain rfl := mem_singleton.mp hblock
    exact Or.inl rfl
  | @push now main main' b txs hmain hok hpush ih =>
    obtain ⟨⟨clock, hbuilt⟩, hblocks⟩ := ih
    obtain ⟨hb, hcount, htxs⟩ := hcounted b txs hok
    obtain ⟨-, rfl⟩ := Built.push_inv hb hcount htxs hbuilt.orderly hpush
    refine ⟨⟨max clock now, .push (hbuilt.mono (Nat.le_max_left _ _)) (Nat.le_max_right _ _) hb
      hcount htxs hpush⟩, ?_⟩
    intro block hblock
    rw [extend_blocks, mem_append] at hblock
    rcases hblock with hold | hnew
    · exact hblocks block hold
    · rw [mem_singleton.mp hnew]
      exact .inr ⟨txs, hok⟩
  | @pop main main' block hmain hlast hpop ih =>
    obtain ⟨⟨clock, hbuilt⟩, hblocks⟩ := ih
    obtain ⟨below, txs, hpush⟩ := hbuilt.exists_lastPush hlast
    rw [hpush.pop] at hpop
    cases hpop
    refine ⟨⟨clock, hpush.built⟩, fun other hother => hblocks other ?_⟩
    rw [hpush.main_eq, extend_blocks]
    exact mem_append_left _ hother

/-- A push on the open network that is known to succeed. -/
def openPush (b : Block) (txs : List Transaction) (main : MainChain) : MainChain :=
  (pushBlock openNetwork.cur openNetwork.crypto 2000 openNetwork.checkpoints b txs main).stateD main

theorem openPush_eq {b : Block} {txs : List Transaction}
    (h : (pushBlock openNetwork.cur openNetwork.crypto 2000 openNetwork.checkpoints b txs
      main).value? = some .added) :
    pushBlock openNetwork.cur openNetwork.crypto 2000 openNetwork.checkpoints b txs main =
      .done .added (openPush b txs main) :=
  Outcome.eq_done_of_value? h

end DarknetCoin
