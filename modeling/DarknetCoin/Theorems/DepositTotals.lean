import Mathlib.Algebra.BigOperators.Ring.Finset
import DarknetCoin.Theorems.BuiltChain

/-!
# The deposit index as a function of the blocks

An entry stands for every block that changed a total, so the entry that counts at a height holds the
totals of the blocks up to that height. The amount is a signed word, the interest an unsigned one.
-/

namespace DarknetCoin

open Semantics Data MainChain DepositIndex List

/-- The amount of a deposit, 0 for every other output. -/
def TransactionOutput.deposit (out : TransactionOutput) : Nat :=
  match out.target with
  | .multisignature target => if 0 < target.term then out.amount else 0
  | .key _ => 0

/-- The amount of a deposit that is spent, 0 for every other input. -/
def TransactionInput.deposit : TransactionInput → Nat
  | .multisignature input => if 0 < input.term then input.amount else 0
  | _ => 0

/-- The interest paid for an input. -/
def TransactionInput.interestPaid (cur : Currency) : TransactionInput → Nat
  | .multisignature input =>
    if input.term ≠ 0 then cur.calculateInterest input.amount input.term else 0
  | _ => 0

/-- The transactions of blocks. -/
def transactionsOf (blocks : List BlockEntry) : List Transaction :=
  blocks.flatMap fun block => block.transactions.map TransactionEntry.tx

/-- The deposits that transactions create. -/
def depositsCreated (txs : List Transaction) : Nat :=
  (txs.map fun tx => (tx.outputs.map TransactionOutput.deposit).sum).sum

/-- The deposits that transactions spend. -/
def depositsSpent (txs : List Transaction) : Nat :=
  (txs.map fun tx => (tx.inputs.map TransactionInput.deposit).sum).sum

/-- The interest that is paid to transactions. -/
def interestPaid (cur : Currency) (txs : List Transaction) : Nat :=
  (txs.map fun tx => (tx.inputs.map (TransactionInput.interestPaid cur)).sum).sum

variable {cur : Currency} {txs more : List Transaction} {blocks : List BlockEntry} {height : Nat}

theorem transactionsOf_append (blocks above : List BlockEntry) :
    transactionsOf (blocks ++ above) = transactionsOf blocks ++ transactionsOf above :=
  flatMap_append

theorem depositsCreated_append : depositsCreated (txs ++ more) =
    depositsCreated txs + depositsCreated more := by
  simp [depositsCreated]

theorem depositsSpent_append : depositsSpent (txs ++ more) =
    depositsSpent txs + depositsSpent more := by
  simp [depositsSpent]

theorem interestPaid_append : interestPaid cur (txs ++ more) =
    interestPaid cur txs + interestPaid cur more := by
  simp [interestPaid]

theorem transactionDeposit_eq (tx : Transaction) :
    transactionDeposit tx = (depositsCreated [tx] : Int) - depositsSpent [tx] := by
  unfold transactionDeposit depositsCreated depositsSpent
  rw [map_singleton, sum_singleton, map_singleton, sum_singleton,
    Nat.cast_list_sum, Nat.cast_list_sum, map_map, map_map]
  congr 2
  · refine map_congr_left fun out _ => ?_
    unfold Function.comp TransactionOutput.deposit
    cases out.target with
    | key => rfl
    | multisignature target => dsimp only; split <;> rfl
  · refine map_congr_left fun input _ => ?_
    unfold Function.comp TransactionInput.deposit
    cases input with
    | base => rfl
    | key => rfl
    | multisignature input => dsimp only; split <;> rfl

variable (block : BlockEntry)

theorem depositChange_eq : depositChange block = ((depositsCreated (transactionsOf [block]) : Int) -
        depositsSpent (transactionsOf [block])).bmod word64 := by
  have hsum : ∀ entries : List TransactionEntry,
      (entries.map fun entry => transactionDeposit entry.tx).sum =
        (depositsCreated (entries.map TransactionEntry.tx) : Int) -
          depositsSpent (entries.map TransactionEntry.tx) := by
    intro entries
    induction entries with
    | nil => rfl
    | cons entry entries ih =>
      have hcreated := @depositsCreated_append [entry.tx] (entries.map TransactionEntry.tx)
      have hspent := @depositsSpent_append [entry.tx] (entries.map TransactionEntry.tx)
      rw [map_cons, sum_cons, transactionDeposit_eq, map_cons]
      rw [singleton_append] at hcreated hspent
      omega
  rw [depositChange, hsum, transactionsOf, flatMap_singleton]

theorem blockInterest_eq : blockInterest cur block =
    interestPaid cur (transactionsOf [block]) % word64 := by
  have htx (tx : Transaction) : cur.calculateTotalTransactionInterest tx =
      (tx.inputs.map (TransactionInput.interestPaid cur)).sum % word64 := by
    rw [Currency.calculateTotalTransactionInterest,
      foldl_words (TransactionInput.interestPaid cur) (by decide)
      fun input _ total htotal => ?_, zero_add]
    -- only a deposit input changes the sum
    cases input with
    | base => exact (Nat.mod_eq_of_lt htotal).symm
    | key => exact (Nat.mod_eq_of_lt htotal).symm
    | multisignature input =>
      dsimp only [TransactionInput.interestPaid]
      split
      · rfl
      · exact (Nat.mod_eq_of_lt htotal).symm
  rw [transactionsOf, flatMap_singleton, interestPaid, map_map, blockInterest,
    foldl_words _ (by decide) fun entry _ total _ => ?_, zero_add]
  rw [htx, add64, Nat.add_mod_mod]
  rfl

namespace DepositIndex

/-- The index of blocks that change the amount and the interest. -/
def ofChanges (changes : List (Int × Nat)) : DepositIndex :=
  changes.foldl (fun index change => index.pushBlock change.1 change.2) .empty

variable (changes above : List (Int × Nat))

theorem ofChanges_concat (change : Int × Nat) :
    ofChanges (changes ++ [change]) = (ofChanges changes).pushBlock change.1 change.2 :=
  foldl_concat ..

theorem size_ofChanges : (ofChanges changes).size = changes.length := by
  induction changes using reverseRecOn with
  | nil => rfl
  | append_singleton changes change ih =>
    rw [ofChanges_concat, length_append, ← ih]
    rfl

theorem ofChanges_wellFormed : (ofChanges changes).WellFormed := by
  induction changes using reverseRecOn with
  | nil => exact empty_wellFormed
  | append_singleton changes change ih =>
    rw [ofChanges_concat]
    exact ih.pushBlock _ _

theorem ofChanges_append : ∃ entries, (ofChanges (changes ++ above)).index =
    (ofChanges changes).index ++ entries ∧ ∀ entry ∈ entries, changes.length ≤ entry.height := by
  induction above using reverseRecOn with
  | nil => exact ⟨[], by rw [append_nil, append_nil], forall_mem_nil _⟩
  | append_singleton above change ih =>
    obtain ⟨entries, hidx, hheights⟩ := ih
    have hcount : (ofChanges (changes ++ above)).blockCount = changes.length + above.length :=
      (size_ofChanges _).trans length_append
    rw [← append_assoc, ofChanges_concat, pushBlock]
    split
    · refine ⟨entries ++ [_], by rw [hidx, append_assoc], ?_⟩
      intro entry hentry
      rcases mem_append.mp hentry with hold | hnew
      · exact hheights entry hold
      rw [mem_singleton.mp hnew]
      dsimp only
      omega
    · exact ⟨entries, hidx, hheights⟩

theorem upperBound_ofChanges :
    (ofChanges changes).upperBound height =
    (ofChanges (changes.take (height + 1))).index.length := by
  obtain ⟨entries, hidx, hheights⟩ :=
    ofChanges_append (changes.take (height + 1)) (changes.drop (height + 1))
  have hcount := size_ofChanges (changes.take (height + 1))
  rw [length_take] at hcount hheights
  rw [take_append_drop] at hidx
  rw [upperBound, hidx]
  refine BinarySearch.partitionPoint_eq (fun entry hentry => ?_) (fun entry hentry => ?_)
  · have hlt : entry.height < size _ := ofChanges_wellFormed _ entry hentry
    exact decide_eq_true (by omega)
  · have hlt : entry.height < size _ := ofChanges_wellFormed changes entry (by simp [hidx, hentry])
    have hle := hheights entry hentry
    rw [size_ofChanges] at hlt
    exact decide_eq_false (by omega)

theorem entryAtHeight_ofChanges : (ofChanges changes).entryAtHeight height =
    (ofChanges (changes.take (height + 1))).index.getLast? := by
  obtain ⟨entries, hidx, -⟩ :=
    ofChanges_append (changes.take (height + 1)) (changes.drop (height + 1))
  rw [take_append_drop] at hidx
  have hcount : (ofChanges changes).blockCount = changes.length := size_ofChanges _
  rw [entryAtHeight, upperBound_ofChanges, hcount]
  split
  · rename_i hempty
    rw [length_eq_zero_iff.mp hempty]
    rfl
  split
  · rename_i hzero
    rw [length_eq_zero_iff.mp hzero]
    rfl
  · rw [hidx, getElem?_append_left (by omega), getLast?_eq_getElem?]

theorem fullDepositAmount_ofChanges :
    (ofChanges changes).fullDepositAmount = ((changes.map Prod.fst).sum).bmod word64 := by
  induction changes using reverseRecOn with
  | nil => rfl
  | append_singleton changes change ih =>
    rw [ofChanges_concat, map_append, sum_append, Int.add_bmod, ← ih, map_singleton, sum_singleton]
    unfold pushBlock fullDepositAmount
    split
    · rw [getLast?_concat, Option.map_some, Option.getD_some, Int.add_comm, Int.add_bmod_bmod]
    -- a block that changes nothing leaves the total
    rename_i hchange
    have hzero : change.1 = 0 := by
      by_contra hne
      exact hchange (.inl hne)
    change (ofChanges changes).fullDepositAmount =
      ((ofChanges changes).fullDepositAmount + change.1.bmod word64).bmod word64
    rw [hzero, Int.zero_bmod, Int.add_zero, ih, Int.bmod_bmod]

theorem fullInterestAmount_ofChanges :
    (ofChanges changes).fullInterestAmount = (changes.map Prod.snd).sum % word64 := by
  induction changes using reverseRecOn with
  | nil => rfl
  | append_singleton changes change ih =>
    rw [ofChanges_concat, map_append, sum_append, ← Nat.mod_add_mod, ← ih, map_singleton,
      sum_singleton]
    unfold pushBlock fullInterestAmount
    split
    · rw [getLast?_concat, Option.map_some, Option.getD_some, add64, Nat.add_comm]
    rename_i hchange
    have hzero : change.2 = 0 := by
      by_contra hne
      exact hchange (.inr (Nat.pos_of_ne_zero hne))
    change (ofChanges changes).fullInterestAmount =
      ((ofChanges changes).fullInterestAmount + change.2) % word64
    rw [hzero, add_zero, ih, Nat.mod_mod]

theorem popBlock_ofChanges : (ofChanges changes).popBlock = ofChanges changes.dropLast := by
  induction changes using reverseRecOn with
  | nil => rfl
  | append_singleton changes change =>
    rw [ofChanges_concat, dropLast_concat]
    exact popBlock_pushBlock (ofChanges_wellFormed changes) _ _

theorem iterate_popBlock_ofChanges (count : Nat) :
    popBlock^[count] (ofChanges changes) = ofChanges (changes.take (changes.length - count)) := by
  induction count with
  | zero => rw [Nat.sub_zero, take_length, Function.iterate_zero_apply]
  | succ count ih =>
    rw [Function.iterate_succ_apply', ih, popBlock_ofChanges, dropLast_eq_take, take_take,
      length_take]
    congr 2
    omega

/-- What stays are the entries of the blocks below, whether or not the first block removed has
one. -/
theorem popBlocks_ofChanges (start : Nat) : (ofChanges changes).popBlocks start =
    (changes.length - start, ofChanges (changes.take start)) := by
  have hcount : (ofChanges changes).blockCount = changes.length := size_ofChanges _
  rw [popBlocks, hcount]
  split
  · rename_i hle
    rw [take_of_length_le hle, Nat.sub_eq_zero_of_le hle]
  rename_i hlt
  have hbelow : (ofChanges (changes.take start)).blockCount = start :=
    (size_ofChanges _).trans (length_take_of_le (by omega))
  obtain ⟨entries, hidx, -⟩ :=
    ofChanges_append (changes.take (start + 1)) (changes.drop (start + 1))
  rw [take_append_drop] at hidx
  rw [upperBound_ofChanges, hidx, Nat.sub_sub_self (by omega)]
  obtain ⟨change, hnext⟩ : ∃ change, changes.take (start + 1) = changes.take start ++ [change] :=
    ⟨_, (take_concat_get' _ _ (Nat.lt_of_not_le hlt)).symm⟩
  rw [hnext, ofChanges_concat]
  dsimp only
  have hwell := ofChanges_wellFormed (changes.take start)
  generalize ofChanges (changes.take start) = base at *
  subst hbelow
  by_cases hchange : change.1 ≠ 0 ∨ 0 < change.2
  · simp [pushBlock, hchange]
  -- the first block removed has no entry, so the last one that stays is of a block below
  have hbelow : ¬(base.index.length ≠ 0 ∧
      (base.index ++ entries)[base.index.length - 1]?.map (·.height) = some base.blockCount) := by
    rintro ⟨hne, hheight⟩
    rw [getElem?_append_left (by omega)] at hheight
    obtain ⟨entry, hentry, hheight⟩ := Option.map_eq_some_iff.mp hheight
    exact (hwell entry (mem_of_getElem? hentry)).ne hheight
  rw [pushBlock, if_neg hchange, if_neg hbelow, take_left]

/-- An index reached by pushing and popping blocks, with the changes of the blocks that remain. The
totals stay in range; fewer than `2 ^ 32` blocks are pushed, so that the heights do not wrap. -/
inductive Logged : List (Int × Nat) → DepositIndex → Prop
  | empty : Logged [] .empty
  | push {changes : List (Int × Nat)} {d : DepositIndex} (amount : Int) (interest : Nat)
      (h : Logged changes d) (hamount : 0 ≤ (changes.map Prod.fst).sum + amount ∧
        (changes.map Prod.fst).sum + amount < 2 ^ 63)
      (hinterest : (changes.map Prod.snd).sum + interest < word64) :
      Logged (changes ++ [(amount, interest)]) (d.pushBlock amount interest)
  | pop {changes : List (Int × Nat)} {d : DepositIndex} (h : Logged changes d)
      (hsize : 0 < d.size) : Logged changes.dropLast d.popBlock
  | popBlocks {changes : List (Int × Nat)} {d : DepositIndex} (start : Nat) (h : Logged changes d) :
      Logged (changes.take start) (d.popBlocks start).2

/-- The totals of all blocks up to any height are in range. -/
theorem Logged.inv {d : DepositIndex} {changes : List (Int × Nat)} (h : Logged changes d) :
    d = ofChanges changes ∧ ∀ count,
      (0 ≤ ((changes.take count).map Prod.fst).sum ∧
        ((changes.take count).map Prod.fst).sum < 2 ^ 63) ∧
        ((changes.take count).map Prod.snd).sum < word64 := by
  induction h with
  | empty => exact ⟨rfl, fun count => by simp [word64]⟩
  | @push changes _ amount interest _ hamt hinterest ih =>
    obtain ⟨rfl, hrange⟩ := ih
    refine ⟨(ofChanges_concat _ (amount, interest)).symm, fun count => ?_⟩
    by_cases hcount : count ≤ changes.length
    · rw [take_append_of_le_length hcount]
      exact hrange count
    · rw [take_of_length_le (by simp; omega)]
      simpa using ⟨hamt, hinterest⟩
  | pop _ _ ih =>
    obtain ⟨rfl, hrange⟩ := ih
    refine ⟨popBlock_ofChanges _, fun count => ?_⟩
    rw [dropLast_eq_take, take_take]
    exact hrange _
  | popBlocks start _ ih =>
    obtain ⟨rfl, hrange⟩ := ih
    refine ⟨congrArg Prod.snd (popBlocks_ofChanges _ start), fun count => ?_⟩
    rw [take_take]
    exact hrange _

/-- The index keeps the sums of the changes that remain, and popping blocks together is popping them
one after the other. -/
theorem index_sums {changes : List (Int × Nat)} {d : DepositIndex} (h : Logged changes d) :
    d.size = changes.length ∧
    (∀ height, d.depositAmountAtHeight height = ((changes.take (height + 1)).map Prod.fst).sum ∧
      d.depositInterestAtHeight height = ((changes.take (height + 1)).map Prod.snd).sum) ∧
    d.fullDepositAmount = (changes.map Prod.fst).sum ∧ d.fullInterestAmount =
    (changes.map Prod.snd).sum ∧ ∀ start, d.popBlocks start =
      (changes.length - start, popBlock^[changes.length - min start changes.length] d) := by
  obtain ⟨rfl, hrange⟩ := h.inv
  have hfull (count : Nat) : (ofChanges (changes.take count)).fullDepositAmount =
      ((changes.take count).map Prod.fst).sum ∧
      (ofChanges (changes.take count)).fullInterestAmount =
          ((changes.take count).map Prod.snd).sum := by
    obtain ⟨⟨hnonneg, hamt⟩, hinterest⟩ := hrange count
    rw [fullDepositAmount_ofChanges, fullInterestAmount_ofChanges, Nat.mod_eq_of_lt hinterest]
    refine ⟨Int.bmod_eq_of_le ?_ ?_, rfl⟩ <;> rw [word64] <;> omega
  refine ⟨size_ofChanges _, fun height => ?_, ?_, ?_, fun start => ?_⟩
  · rw [depositAmountAtHeight, depositInterestAtHeight, entryAtHeight_ofChanges]
    exact hfull (height + 1)
  · simpa using (hfull changes.length).1
  · simpa using (hfull changes.length).2
  · rw [popBlocks_ofChanges, iterate_popBlock_ofChanges, Nat.sub_sub_self (Nat.min_le_right _ _),
      ← take_eq_take_min]

/-- A block without a change, a deposit and its withdrawal, of which the last is popped. -/
theorem index_sums_popped :
    (((empty.pushBlock 0 0).pushBlock 5 0).pushBlock (-5) 2).popBlock.fullDepositAmount = 5 :=
  (index_sums (.pop (.push (-5) 2 (.push 5 0 (.push 0 0 .empty (by decide) (by decide)) (by decide)
      (by decide)) (by decide) (by decide)) (by decide))).2.2.1

end DepositIndex

/-- The deposit index of blocks, one block after the other. -/
def depositIndexOf (cur : Currency) (blocks : List BlockEntry) : DepositIndex :=
  blocks.foldl (fun index block => index.pushBlock (depositChange block) (blockInterest cur block))
    .empty

theorem depositIndexOf_concat : depositIndexOf cur (blocks ++ [block]) =
    (depositIndexOf cur blocks).pushBlock (depositChange block) (blockInterest cur block) :=
  foldl_concat ..

theorem depositIndexOf_eq : depositIndexOf cur blocks =
    ofChanges (blocks.map fun block => (depositChange block, blockInterest cur block)) := by
  rw [ofChanges, foldl_map]
  rfl

theorem size_depositIndexOf : (depositIndexOf cur blocks).size = blocks.length := by
  rw [depositIndexOf_eq, size_ofChanges, length_map]

theorem entryAtHeight_depositIndexOf : (depositIndexOf cur blocks).entryAtHeight height =
    (depositIndexOf cur (blocks.take (height + 1))).index.getLast? := by
  rw [depositIndexOf_eq, depositIndexOf_eq, entryAtHeight_ofChanges, map_take]

/-- The amount kept is that of the deposits that are not spent. -/
theorem fullDepositAmount_depositIndexOf (blocks : List BlockEntry) :
    (depositIndexOf cur blocks).fullDepositAmount =
    ((depositsCreated (transactionsOf blocks) : Int) -
        depositsSpent (transactionsOf blocks)).bmod word64 := by
  rw [depositIndexOf_eq, fullDepositAmount_ofChanges, map_map]
  induction blocks using reverseRecOn with
  | nil => rfl
  | append_singleton blocks block ih =>
    rw [map_append, sum_append, transactionsOf_append, depositsCreated_append, depositsSpent_append,
      Nat.cast_add, Nat.cast_add, add_sub_add_comm, Int.add_bmod, ih, map_singleton, sum_singleton,
      Function.comp_apply, depositChange_eq, Int.bmod_bmod, ← Int.add_bmod]

theorem fullInterestAmount_depositIndexOf :
    (depositIndexOf cur blocks).fullInterestAmount =
    interestPaid cur (transactionsOf blocks) % word64 := by
  rw [depositIndexOf_eq, fullInterestAmount_ofChanges, map_map]
  induction blocks using reverseRecOn with
  | nil => rfl
  | append_singleton blocks block ih =>
    rw [map_append, sum_append, transactionsOf_append, interestPaid_append, Nat.add_mod, ih,
      map_singleton, sum_singleton, Function.comp_apply, blockInterest_eq, Nat.mod_mod,
        ← Nat.add_mod]

theorem depositAmountAtHeight_depositIndexOf :
    (depositIndexOf cur blocks).depositAmountAtHeight height =
      ((depositsCreated (transactionsOf (blocks.take (height + 1))) : Int) -
        depositsSpent (transactionsOf (blocks.take (height + 1)))).bmod word64 := by
  rw [← @fullDepositAmount_depositIndexOf cur, depositAmountAtHeight, entryAtHeight_depositIndexOf]
  rfl

theorem depositInterestAtHeight_depositIndexOf :
    (depositIndexOf cur blocks).depositInterestAtHeight height =
      interestPaid cur (transactionsOf (blocks.take (height + 1))) % word64 := by
  rw [← fullInterestAmount_depositIndexOf, depositInterestAtHeight, entryAtHeight_depositIndexOf]
  rfl

theorem Built.depositIndex_eq {net : Network} {u : Universe net} {clock : Nat} {main : MainChain}
    (h : Built u clock main) : main.depositIndex = depositIndexOf net.cur main.blocks := by
  induction h with
  | empty => rfl
  | push hmain hnow hb hcount htxs hpush ih =>
    obtain ⟨hlinked, rfl⟩ := Built.push_inv hb hcount htxs hmain.orderly hpush
    have hminer : IsMiner _ := ⟨_, inputs_of_prevalidateMinerTransaction hlinked.header.miner⟩
    rw [extend_sameStorage.depositIndex, extend_blocks, depositIndexOf_concat,
      blockInterest_extendedEntry hminer, ← ih]
    rfl

end DarknetCoin
