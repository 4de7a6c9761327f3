import DarknetCoin.Theorems.DoubleSpend

/-!
# Entering and removing the transactions of a block

The transaction loop of `pushBlock` in closed form: it enters the transactions one after the other,
and when one of them is invalid it removes all again and leaves exactly the main chain it started
from.
-/

namespace DarknetCoin

open Semantics Data List

namespace MainChain

variable {crypto : Crypto} {main : MainChain} {hash : Hash} {index : TransactionIndex}
  {tx : Transaction} {txs more : List Transaction} {height position : Nat}

/-- Transactions entered under their hashes, from a position of the block at `height` on. -/
def recordAll (crypto : Crypto) (height : Nat) : Nat → List Transaction → MainChain → MainChain
  | _, [], main => main
  | position, tx :: txs, main =>
    recordAll crypto height (position + 1) txs
      (record crypto (crypto.getObjectHash tx) ⟨height, position⟩ tx main)

/-- The entry of a transaction in its block, with the positions its outputs get. -/
def recordEntry (crypto : Crypto) (index : TransactionIndex) (tx : Transaction) (main : MainChain) :
    TransactionEntry :=
  ⟨tx, outputPositions index 0 tx.outputs (withInputs (crypto.getObjectHash tx) index tx main)⟩

/-- The entries of transactions entered from a position on. -/
def recordEntries (crypto : Crypto) (height : Nat) : Nat → List Transaction → MainChain →
    List TransactionEntry
  | _, [], _ => []
  | position, tx :: txs, main =>
    recordEntry crypto ⟨height, position⟩ tx main ::
      recordEntries crypto height (position + 1) txs
        (record crypto (crypto.getObjectHash tx) ⟨height, position⟩ tx main)

/-- Each of the transactions can be entered when those before it are. -/
def EnterableAll (crypto : Crypto) (height : Nat) : Nat → List Transaction → MainChain → Prop
  | _, [], _ => True
  | position, tx :: txs, main =>
    (main.Enterable (crypto.getObjectHash tx) tx ∧ main.Recordable tx) ∧
      EnterableAll crypto height (position + 1) txs
        (record crypto (crypto.getObjectHash tx) ⟨height, position⟩ tx main)

theorem recordAll_append :
    recordAll crypto height position (txs ++ more) main =
    recordAll crypto height (position + txs.length) more
        (recordAll crypto height position txs main) := by
  induction txs generalizing position main with
  | nil => rfl
  | cons tx txs ih =>
    rw [cons_append, recordAll, ih, recordAll, length_cons, add_right_comm, add_assoc]

theorem recordEntries_append :
    recordEntries crypto height position (txs ++ more) main =
    recordEntries crypto height position txs main ++
        recordEntries crypto height (position + txs.length) more
        (recordAll crypto height position txs main) := by
  induction txs generalizing position main with
  | nil => rfl
  | cons tx txs ih =>
    rw [cons_append, recordEntries, ih, recordEntries, recordAll, length_cons,
      add_right_comm, add_assoc, cons_append]

theorem enterableAll_append :
    EnterableAll crypto height position (txs ++ more) main ↔
    EnterableAll crypto height position txs main ∧
        EnterableAll crypto height (position + txs.length) more
        (recordAll crypto height position txs main) := by
  induction txs generalizing position main with
  | nil => exact (and_iff_right trivial).symm
  | cons tx txs ih =>
    rw [cons_append, EnterableAll, ih, add_right_comm]
    exact and_assoc.symm

theorem recordEntries_tx : (recordEntries crypto height position txs main).map TransactionEntry.tx =
    txs := by
  induction txs generalizing position main with
  | nil => rfl
  | cons tx txs ih => rw [recordEntries, map_cons, ih, recordEntry]

theorem length_recordEntries : (recordEntries crypto height position txs main).length =
    txs.length := by
  rw [← length_map TransactionEntry.tx, recordEntries_tx]

theorem NoEmptyRows.recordOutputs (h : main.NoEmptyRows) (outs : List TransactionOutput) :
    (recordOutputs index position outs main).NoEmptyRows := by
  induction outs generalizing position main with
  | nil => exact h
  | cons out outs ih => exact ih (h.pushOutput index position out)

theorem NoEmptyRows.record (h : main.NoEmptyRows) :
    (record crypto hash index tx main).NoEmptyRows :=
  .recordOutputs h.withInputs tx.outputs

theorem NoEmptyRows.recordAll (h : main.NoEmptyRows) :
    (recordAll crypto height position txs main).NoEmptyRows := by
  induction txs generalizing position main with
  | nil => exact h
  | cons tx txs ih => exact ih h.record

theorem popTransaction_record (h : main.Enterable hash tx) (hrec : main.Recordable tx)
    (hrows : main.NoEmptyRows) :
    popTransaction crypto tx hash (record crypto hash index tx main) = .done () main := by
  have hmap : (record crypto hash index tx main).transactionMap hash = some index := by
    rw [transactionMap_record, Function.update_self]
  -- the outputs the inputs name are those the transaction was entered with
  have hexists : ∀ reference ∈ multisignatureReferencesOf tx.inputs,
      (popOutputs index 0 tx.outputs (record crypto hash index tx main)).HasOutput reference := by
    intro reference hmem
    rw [popOutputs_record hrows]
    exact hasOutput_markOutputs.mpr (hrec.references reference hmem)
  have hunrecord : unrecord crypto hash index tx (record crypto hash index tx main) = main :=
    unrecord_record h hrows
  unfold popTransaction
  rw [Program.get_bind_run]
  simp only [hmap, Program.bind_run, Program.modify_run, Outcome.andThen_done]
  rw [popInputs_eq, if_pos hexists]
  exact congrArg (Outcome.done ()) hunrecord

theorem popAll_recordAll (hrows : main.NoEmptyRows)
    (h : EnterableAll crypto height position txs main) :
    popAll crypto (txs.map fun tx => (tx, crypto.getObjectHash tx)).reverse
      (recordAll crypto height position txs main) = .done () main := by
  induction txs using reverseRecOn with
  | nil => rfl
  | append_singleton txs tx ih =>
    obtain ⟨hbefore, ⟨henter, hrec⟩, -⟩ := enterableAll_append.mp h
    rw [map_append, reverse_append, recordAll_append]
    change (popTransaction crypto tx (crypto.getObjectHash tx)
      (record crypto _ _ tx _)).andThen _ = _
    rw [popTransaction_record henter hrec hrows.recordAll]
    exact ih hbefore

theorem popTransactions_recordAll {block : BlockEntry} {rest : List Hash} (hrows : main.NoEmptyRows)
    (htxs : block.transactions.map TransactionEntry.tx = block.bl.baseTransaction :: txs)
    (hhashes : block.bl.transactionHashes = txs.map crypto.getObjectHash ++ rest)
    (h : EnterableAll crypto height 0 (block.bl.baseTransaction :: txs) main) :
    popTransactions crypto block (crypto.getObjectHash block.bl.baseTransaction)
      (recordAll crypto height 0 (block.bl.baseTransaction :: txs) main) = .done () main := by
  have hpairs : ((block.transactions.drop 1).map TransactionEntry.tx).zip
      block.bl.transactionHashes = txs.map fun tx => (tx, crypto.getObjectHash tx) := by
    rw [map_drop, htxs, drop_one, tail_cons, hhashes, zip_getObjectHash]
  obtain ⟨⟨henter, hrec⟩, hrest⟩ := h
  unfold popTransactions
  rw [Program.bind_run, hpairs, recordAll, popAll_recordAll hrows.record hrest]
  exact popTransaction_record henter hrec hrows

/-- A block under construction on top of `main`: the transactions `done`, the miner transaction
first, are entered in `state` and listed in `block`. -/
structure Filled (crypto : Crypto) (U : Set Transaction) (main : MainChain)
    (done : List Transaction) (block : BlockEntry) (state : MainChain) : Prop where
  consistent : Consistent crypto U (main.chainTransactions ++ done) state
  state_eq : state = recordAll crypto main.blocks.length 0 done main
  enterable : EnterableAll crypto main.blocks.length 0 done main
  transactions : block.transactions = recordEntries crypto main.blocks.length 0 done main

section Loop

variable {cur : Currency} {now majorVersion : Nat} {state : List Transaction → MainChain}
  {before : List Transaction} {other : Transaction}

/-- With `state` the main chain after some of the transactions `more`: the loop comes to `tx`, after
it has accepted the transactions `before` it. -/
structure ComesTo (cur : Currency) (crypto : Crypto) (now majorVersion : Nat)
    (state : List Transaction → MainChain) (more before : List Transaction) (tx : Transaction) :
    Prop where
  split : ∃ after, more = before ++ tx :: after
  accepted : ∀ earlier other later, before = earlier ++ other :: later →
    checkBlockTransaction cur crypto now (state earlier) majorVersion other = .ok true

theorem ComesTo.cons (hfirst :
      checkBlockTransaction cur crypto now (state []) majorVersion tx = .ok true)
    (h : ComesTo cur crypto now majorVersion (fun before => state (tx :: before)) more
      before other) :
    ComesTo cur crypto now majorVersion state (tx :: more) (tx :: before) other where
  split := h.split.imp fun _ hsplit => congrArg (tx :: ·) hsplit
  accepted
    | [], _, _, hsplit => (cons.inj hsplit).1 ▸ hfirst
    | _ :: _, _, _, hsplit => (cons.inj hsplit).1 ▸ h.accepted _ _ _ (cons.inj hsplit).2

/-- The first transaction, or one the loop comes to after it has accepted the first. -/
theorem ComesTo.cases (h : ComesTo cur crypto now majorVersion state (tx :: more) before other) :
    before = [] ∧ other = tx ∨
      checkBlockTransaction cur crypto now (state []) majorVersion tx = .ok true ∧
      ∃ rest, before = tx :: rest ∧
        ComesTo cur crypto now majorVersion (fun before => state (tx :: before)) more
        rest other := by
  obtain ⟨⟨after, hsplit⟩, haccepted⟩ := h
  cases before with
  | nil => exact .inl ⟨rfl, (cons.inj hsplit).1.symm⟩
  | cons first rest =>
    obtain ⟨rfl, hrest⟩ := cons.inj hsplit
    exact .inr ⟨haccepted [] _ rest rfl, rest, rfl, ⟨after, hrest⟩, fun earlier _ later heq =>
      haccepted (tx :: earlier) _ later (congrArg (tx :: ·) heq)⟩

/-- The loop comes to a transaction whose check fails, or which was checked and cannot be
recorded. -/
def FailsAt (cur : Currency) (crypto : Crypto) (now majorVersion : Nat)
    (state : List Transaction → MainChain) (more : List Transaction) (fault : Fault) : Prop :=
  ∃ before tx, ComesTo cur crypto now majorVersion state more before tx ∧
    (checkBlockTransaction cur crypto now (state before) majorVersion tx = .error fault ∨
      fault = .undefined ∧ checkBlockTransaction cur crypto now (state before) majorVersion tx =
        .ok true ∧ ¬(state before).Recordable tx)

end Loop

namespace Filled

variable {U : Set Transaction} {done : List Transaction} {block : BlockEntry} {state : MainChain}
  (h : Filled crypto U main done block state)
include h

theorem length_transactions : block.transactions.length = done.length := by
  rw [h.transactions, length_recordEntries]

theorem tx_transactions : block.transactions.map TransactionEntry.tx = done := by
  rw [h.transactions, recordEntries_tx]

omit h in
theorem modify_length_concat {α : Type} (l : List α) (a : α) (f : α → α) :
    (l ++ [a]).modify l.length f = l ++ [f a] := by
  induction l with
  | nil => rfl
  | cons b l ih => rw [cons_append, length_cons, modify_succ_cons, ih, cons_append]

theorem snoc (hcons : Consistent crypto U (main.chainTransactions ++ (done ++ [tx]))
      (record crypto (crypto.getObjectHash tx) ⟨main.blocks.length, done.length⟩ tx state))
    (henter : state.Enterable (crypto.getObjectHash tx) tx) (hrec : state.Recordable tx) :
    Filled crypto U main (done ++ [tx])
    (setGlobalOutputIndexes (appendTransaction block tx) done.length
        (recordEntry crypto ⟨main.blocks.length, done.length⟩ tx state).globalOutputIndexes)
      (record crypto (crypto.getObjectHash tx) ⟨main.blocks.length, done.length⟩ tx state) where
  consistent := hcons
  state_eq := by
    rw [recordAll_append, ← h.state_eq, zero_add]
    rfl
  enterable := by
    rw [enterableAll_append, ← h.state_eq]
    exact ⟨h.enterable, ⟨henter, hrec⟩, trivial⟩
  transactions := by
    have hlen := h.length_transactions
    rw [recordEntries_append, ← h.state_eq, ← h.transactions, zero_add]
    unfold setGlobalOutputIndexes appendTransaction
    rw [← hlen, modify_length_concat]
    rfl

omit h in
theorem popTransactions {rest : List Hash} (hrows : main.NoEmptyRows)
    (h : Filled crypto U main (block.bl.baseTransaction :: done) block state)
    (hhashes : block.bl.transactionHashes = done.map crypto.getObjectHash ++ rest) :
    popTransactions crypto block (crypto.getObjectHash block.bl.baseTransaction) state =
    .done () main := by
  rw [h.state_eq]
  exact popTransactions_recordAll hrows h.tx_transactions hhashes h.enterable

variable {cur : Currency} {now : Nat} {totals : BlockTotals}

theorem pushTransaction (hinj : Set.InjOn crypto.getObjectHash U) (hU : tx ∈ U)
    (hsem : SemanticallyValid tx) (hunspent : state.Unspent tx) :
    (pushTransaction crypto (appendTransaction block tx) (crypto.getObjectHash tx)
      ⟨main.blocks.length, done.length⟩ state).Ends
      (fun pushed state' => Filled crypto U main (done ++ [tx]) pushed.2 state' ∧
        ∃ indexes, pushed.2 = setGlobalOutputIndexes
        (appendTransaction block tx) done.length indexes)
      fun fault => fault = .undefined ∧ ¬state.Recordable tx := by
  have henter := h.consistent.enterable hU hsem hunspent
  let index : TransactionIndex := ⟨main.blocks.length, done.length⟩
  have hentry : (appendTransaction block tx).transactions[index.transaction]? = some ⟨tx, []⟩ := by
    change (block.transactions ++ [⟨tx, []⟩])[done.length]? = _
    rw [← h.length_transactions]
    simp
  rcases pushTransaction_of_enterable henter hentry with ⟨hnot, hstuck⟩ | ⟨hrec, hdone⟩
  · rw [hstuck]
    exact ⟨rfl, hnot⟩
  · rw [hdone]
    refine ⟨h.snoc ?_ henter hrec, _, rfl⟩
    rw [← append_assoc]
    exact h.consistent.record hinj hU hsem hunspent hrec.references

omit h

/-- The loop enters all transactions, or it leaves the main chain it started from; it fails only
where the check of a transaction does, or where one cannot be recorded. -/
theorem pushTransactions (hinj : Set.InjOn crypto.getObjectHash U) (hrows : main.NoEmptyRows)
    (h : Filled crypto U main (block.bl.baseTransaction :: done) block state)
    (hmore : ∀ tx ∈ more, tx ∈ U ∧ SemanticallyValid tx)
    (hhashes : block.bl.transactionHashes = (done ++ more).map crypto.getObjectHash)
    (hcount : (done ++ more).length < word16) :
    (pushTransactions cur crypto now (crypto.getObjectHash block.bl.baseTransaction) block
      ⟨main.blocks.length, done.length⟩ totals
      (more.map fun tx => (tx, crypto.getObjectHash tx)) state).Ends
      (fun result state' => (result = none → state' = main) ∧
        (∀ before tx, ComesTo cur crypto now block.bl.majorVersion (fun before => recordAll crypto
            main.blocks.length 0 (block.bl.baseTransaction :: (done ++ before)) main)
            more before tx →
          ∃ valid, checkBlockTransaction cur crypto now (recordAll crypto main.blocks.length 0
            (block.bl.baseTransaction :: (done ++ before)) main) block.bl.majorVersion tx =
            .ok valid) ∧ ∀ block' totals', result = some (block', totals') →
          Filled crypto U main (block.bl.baseTransaction :: (done ++ more)) block' state' ∧
          block'.bl = block.bl ∧ totals' = more.foldl (.add cur) totals ∧
          ∀ before tx after, more = before ++ tx :: after →
            checkBlockTransaction cur crypto now (recordAll crypto main.blocks.length 0
              (block.bl.baseTransaction :: (done ++ before)) main) block.bl.majorVersion tx =
              .ok true) (FailsAt cur crypto now block.bl.majorVersion
        (fun before => recordAll crypto main.blocks.length 0
        (block.bl.baseTransaction :: (done ++ before)) main) more) := by
  induction more generalizing state block done totals with
  | nil =>
    rw [append_nil]
    refine ⟨fun hnone => (Option.some_ne_none _ hnone).elim, fun before tx hcomes => ?_,
      fun block' totals' heq => ?_⟩
    · obtain ⟨after, hsplit⟩ := hcomes.split
      simp at hsplit
    obtain ⟨rfl, rfl⟩ := Prod.mk.inj (Option.some.inj heq)
    exact ⟨h, rfl, rfl, fun before tx after hsplit => by simp at hsplit⟩
  | cons tx more ih =>
    obtain ⟨⟨hU, hsem⟩, hmore'⟩ := forall_mem_cons.mp hmore
    -- where this transaction fails, the loop does
    have hfirst {fault : Fault}
        (hfails : checkBlockTransaction cur crypto now state block.bl.majorVersion tx =
        .error fault ∨ fault = .undefined ∧
          checkBlockTransaction cur crypto now state block.bl.majorVersion tx =
          .ok true ∧ ¬state.Recordable tx) :
              FailsAt cur crypto now block.bl.majorVersion (fun before =>
          recordAll crypto main.blocks.length 0 (block.bl.baseTransaction :: (done ++ before)) main)
          (tx :: more) fault := by
      refine ⟨[], tx, ⟨⟨more, rfl⟩, fun _ _ _ hsplit => by simp at hsplit⟩, ?_⟩
      dsimp only
      rwa [append_nil, ← h.state_eq]
    have hstate : recordAll crypto main.blocks.length 0
        (block.bl.baseTransaction :: (done ++ [])) main = state := by
      rw [append_nil, ← h.state_eq]
    rw [map_cons]
    cases hcheck : checkBlockTransaction cur crypto now state block.bl.majorVersion tx with
    | error fault =>
      have hfails := hfirst (.inl hcheck)
      rw [pushTransactions_cons, hcheck]
      cases fault with
      | undefined => exact hfails
      | exception => exact hfails
    | ok valid =>
      cases valid with
      | false =>
        have hsplit : block.bl.transactionHashes =
            done.map crypto.getObjectHash ++ (tx :: more).map crypto.getObjectHash := by
          rw [hhashes, map_append]
        rw [pushTransactions_cons, hcheck]
        rw [h.popTransactions hrows hsplit]
        refine ⟨fun _ => rfl, fun before other hcomes => ?_, fun block' totals' heq => by cases heq⟩
        -- the loop comes to no transaction behind the rejected one
        obtain ⟨rfl, rfl⟩ | ⟨haccepted, -⟩ := hcomes.cases
        · exact ⟨false, by rw [hstate, hcheck]⟩
        · rw [hstate, hcheck] at haccepted
          cases haccepted
      | true =>
        have hidx : (done.length + 1) % word16 = (block.bl.baseTransaction :: done).length := by
          refine Nat.mod_eq_of_lt ?_
          rw [length_append, length_cons] at hcount
          omega
        rw [pushTransactions_cons, hcheck, hidx]
        refine ((h.pushTransaction hinj hU hsem
          (unspent_of_checkBlockTransaction hcheck)).mono (fun _ _ h' => h') fun fault hnot =>
            hfirst (.inr ⟨hnot.1, hcheck, hnot.2⟩)).andThen ?_
        rintro ⟨entered, block'⟩ state' ⟨hfilled, indexes, hblock'⟩
        change block' = _ at hblock'
        have hbl : block'.bl = block.bl := by
          rw [hblock']
          rfl
        have hlen : (block'.bl.baseTransaction :: done).length = (done ++ [tx]).length := by
          simp
        rw [← hbl] at hfilled hhashes ⊢
        rw [append_cons] at hhashes hcount
        rw [hlen]
        refine (ih hfilled hmore' hhashes hcount).mono ?_ ?_
        · rintro result final ⟨hnone, hanswers, hsome⟩
          refine ⟨hnone, fun before other hcomes => ?_, fun block'' totals' heq => ?_⟩
          · obtain ⟨rfl, rfl⟩ | ⟨-, rest, rfl, hrest⟩ := hcomes.cases
            · exact ⟨true, by rw [hbl, hstate, hcheck]⟩
            · rw [append_cons]
              refine hanswers rest other ?_
              simpa using hrest
          obtain ⟨hfilled', hbl', htotals, hchecked⟩ := hsome block'' totals' heq
          rw [append_cons]
          refine ⟨hfilled', hbl', htotals, fun before other after hsplit => ?_⟩
          cases before with
          | nil =>
            obtain ⟨rfl, -⟩ := cons.inj hsplit
            rw [append_nil, hbl, ← h.state_eq]
            exact hcheck
          | cons first before =>
            obtain ⟨rfl, hrest⟩ := cons.inj hsplit
            rw [append_cons]
            exact hchecked before other after hrest
        · intro fault hfails
          obtain ⟨before, other, hcomes, hfails⟩ := hfails
          refine ⟨tx :: before, other, .cons (by rw [hbl, hstate, hcheck]) ?_, ?_⟩
          · simpa using hcomes
          · simpa using hfails

end Filled

end MainChain

end DarknetCoin
