import DarknetCoin.Theorems.Sentinels

/-!
# Loops with 16-bit counters

For lists a 16-bit counter can count there is one round for each element. With 65536 outputs the
counter is back at zero before the loop ends, and nothing bounds the outputs of a miner transaction
before that.
-/

namespace DarknetCoin

open Semantics Program MainChain List

namespace MainChain

variable {crypto : Crypto} {index : TransactionIndex} {outs : List TransactionOutput} {fuel : Nat}
  {main : MainChain} {entries : List TransactionEntry} {position : Nat}

/-- The rounds of the output loop of `pushTransaction`, from the middle of the outputs on. -/
theorem forEachIdx_outputRound {before : List Nat} (hamounts : ∀ out ∈ outs, out.amount ≠ 0) :
    forEachIdx (outputRound index) before.length outs (main, before ++ replicate outs.length 0) =
      .done () (recordOutputs index before.length outs main,
        before ++ outputPositions index before.length outs main) := by
  induction outs generalizing before main with
  | nil => rfl
  | cons out outs ih =>
    obtain ⟨hamt, hrest⟩ := forall_mem_cons.mp hamounts
    have hset : (before ++ replicate (out :: outs).length 0).set before.length
        (main.globalOutputIndex out) =
          (before ++ [main.globalOutputIndex out]) ++ replicate outs.length 0 := by
      rw [length_cons, replicate_succ, set_append_right _ _ (le_refl _), Nat.sub_self,
        set_cons_zero, append_cons]
    rw [forEachIdx, bind_run, outputRound, if_neg hamt, modify_run, Outcome.andThen_done]
    dsimp only
    rw [hset, recordOutputs, outputPositions]
    have hlen : (before ++ [main.globalOutputIndex out]).length = before.length + 1 := by simp
    rw [← hlen, ih hrest, append_assoc, singleton_append]

theorem outputLoop_of_amounts (hcount : outs.length < word16) (hfuel : outs.length ≤ fuel)
    (hamounts : ∀ out ∈ outs, out.amount ≠ 0) :
    outputLoop fuel index outs (main, resizedIndexes outs) =
      .done outs.length (recordOutputs index 0 outs main, outputPositions index 0 outs main) := by
  have hvisits : outputLoop fuel index outs (main, resizedIndexes outs) = _ :=
    visitsEach hcount hfuel (main, resizedIndexes outs)
  have hrounds : forEachIdx (outputRound index) 0 outs (main, resizedIndexes outs) = _ :=
    @forEachIdx_outputRound index outs main [] hamounts
  rw [hvisits, hrounds]
  rfl

/-- The output loop of `rebuildCache`, which records no global indexes. -/
theorem forEachIdx_rebuildOutputRound : forEachIdx (rebuildOutputRound index) position outs main =
      (pushOutputs index position outs main).andThen fun _ main' => .done () main' := by
  induction outs generalizing position main with
  | nil => rfl
  | cons out outs ih =>
    rw [forEachIdx, bind_run, rebuildOutputRound, pushOutputs, get_bind_run]
    split
    · rfl
    · rw [modify_run, Outcome.andThen_done, ih, modify_bind_run, bind_run]
      cases pushOutputs index (position + 1) outs (pushOutput index position out main) <;> rfl

theorem rebuildRound_eq {b t : Nat} {transaction : TransactionEntry}
    (hcount : transaction.tx.outputs.length < word16)
    (hfuel : transaction.tx.outputs.length ≤ fuel) :
    rebuildRound crypto fuel b t transaction = rebuildTransaction crypto ⟨b, t⟩ transaction.tx := by
  have hvisits : ∀ main, countedLoop word16 transaction.tx.outputs
      (rebuildOutputRound ⟨b, t⟩) fuel 0 main = _ := visitsEach hcount hfuel
  have houts : (do
      let _ ← countedLoop word16 transaction.tx.outputs (rebuildOutputRound ⟨b, t⟩) fuel 0
      pure () : Program MainChain Unit) = (do
      let _ ← pushOutputs ⟨b, t⟩ 0 transaction.tx.outputs
      pure ()) := by
    ext main
    rw [bind_run, bind_run, hvisits, forEachIdx_rebuildOutputRound]
    cases pushOutputs ⟨b, t⟩ 0 transaction.tx.outputs main <;> rfl
  unfold rebuildRound rebuildTransaction
  rw [houts, if_neg (not_le.mpr hcount)]

variable (hcount : ∀ entry ∈ entries, entry.tx.outputs.length < word16)
include hcount

theorem forEachIdx_rebuildRound {b : Nat}
    (hfuel : ∀ entry ∈ entries, entry.tx.outputs.length ≤ fuel) :
    forEachIdx (rebuildRound crypto fuel b) position entries =
    rebuildTransactions crypto b position entries := by
  induction entries generalizing position with
  | nil => rfl
  | cons entry entries ih =>
    obtain ⟨hcountHead, hcountTail⟩ := forall_mem_cons.mp hcount
    obtain ⟨hfuelHead, hfuelTail⟩ := forall_mem_cons.mp hfuel
    rw [forEachIdx, rebuildRound_eq hcountHead hfuelHead, ih hcountTail hfuelTail]
    rfl

theorem rebuildLoop_eq {b : Nat} (hentries : entries.length < word16) (hfuel : word16 ≤ fuel) :
    rebuildLoop crypto fuel b entries main = (rebuildTransactions crypto b 0 entries main).andThen
    fun _ main' =>
        .done entries.length main' := by
  have hvisits : rebuildLoop crypto fuel b entries main = _ := visitsEach hentries (by omega) main
  rw [hvisits, forEachIdx_rebuildRound hcount fun entry hentry => by
    have := hcount entry hentry
    omega]

omit hcount

section Positions

variable {kind : OutputKind} {amount height position : Nat} {tx : Transaction}

theorem places_setUsed {used : Bool} {a i : Nat} :
    (setUsed used a i main).places kind amount = main.places kind amount := by
  cases kind with
  | key => rfl
  | multisignature =>
    unfold places setUsed
    by_cases hamt : amount = a
    · rw [hamt, Data.Table.row_modifyAt_self]
      apply ext_getElem?
      intro g
      rw [getElem?_map, getElem?_map, getElem?_modify]
      cases (main.multisignatureOutputs.row a)[g]? with
      | none => rfl
      | some usage => by_cases hg : i = g <;> simp [hg]
    · rw [Data.Table.row_modifyAt_of_ne _ _ _ hamt]

theorem rebuildInputs_holds (inputs : List TransactionInput) : (rebuildInputs inputs main).Holds
      (fun _ main' => (∀ kind amount, main'.places kind amount = main.places kind amount) ∧
        main'.transactionMap = main.transactionMap) fun _ => False := by
  induction inputs generalizing main with
  | nil => exact ⟨fun _ _ => rfl, rfl⟩
  | cons input inputs ih =>
    cases input with unfold rebuildInputs
    | base input => exact ih
    | key input =>
      split
      · trivial
      · apply (@ih (setSpent true input.keyImage main)).mono _ fun _ h => h
        rintro _ main' ⟨hplaces, htxs⟩
        exact ⟨fun kind amount => (hplaces kind amount).trans (by cases kind <;> rfl), htxs⟩
    | multisignature input =>
      rw [get_bind_run]
      split
      · apply (@ih (setUsed true input.amount input.outputIndex main)).mono _ fun _ h => h
        rintro _ main' ⟨hplaces, htxs⟩
        exact ⟨fun kind amount => (hplaces kind amount).trans places_setUsed, htxs⟩
      · trivial

/-- The hash map after the scan has met a transaction. -/
def enterNew (hash : Hash) (index : TransactionIndex) (main : MainChain) : Hash →
    Option TransactionIndex :=
  if (main.transactionMap hash).isNone then Function.update main.transactionMap hash (some index)
  else main.transactionMap

theorem rebuildTransaction_holds :
    (rebuildTransaction crypto index tx main).Holds
    (fun _ main' => (∀ kind amount, main'.places kind amount =
          main.places kind amount ++ outputPlaces kind amount index 0 tx.outputs) ∧
        main'.transactionMap = enterNew (crypto.getObjectHash tx) index main) fun _ => False := by
  -- what follows the hash map is the same whether the transaction was new or not
  have hrest (entered : MainChain)
      (hplaces : ∀ kind amount, entered.places kind amount = main.places kind amount)
      (hentered : entered.transactionMap = enterNew (crypto.getObjectHash tx) index main) :
      ((do
        rebuildInputs tx.inputs
        if word16 ≤ tx.outputs.length then undefined
        else do
          let _ ← pushOutputs index 0 tx.outputs
          pure () : Program MainChain Unit) entered).Holds
        (fun _ main' => (∀ kind amount, main'.places kind amount =
            main.places kind amount ++ outputPlaces kind amount index 0 tx.outputs) ∧
          main'.transactionMap = enterNew (crypto.getObjectHash tx) index main) fun _ => False := by
    apply (rebuildInputs_holds tx.inputs).andThen
    rintro _ marked ⟨hmarked, htxs⟩
    split
    · trivial
    rw [bind_run, pushOutputs_eq]
    split
    · constructor
      · intro kind amount
        rw [places_recordOutputs, hmarked, hplaces]
      · rw [recordOutputs_transactionMap, htxs, hentered]
    · trivial
  unfold rebuildTransaction
  rw [get_bind_run]
  split
  · rename_i hnew
    apply hrest (setTransaction (crypto.getObjectHash tx) (some index) main)
    · exact fun kind amount => by cases kind <;> rfl
    · rw [enterNew, if_pos hnew]
      rfl
  · rename_i hold
    apply hrest main fun _ _ => rfl
    rw [enterNew, if_neg hold]

theorem places_rebuildTransactions : (rebuildTransactions crypto height position entries main).Holds
      (fun _ main' => ∀ kind amount, main'.places kind amount = main.places kind amount ++
        createdPlaces kind amount height position (entries.map TransactionEntry.tx))
        fun _ => False := by
  induction entries generalizing position main with
  | nil => exact fun _ _ => (append_nil _).symm
  | cons entry entries ih =>
    apply rebuildTransaction_holds.andThen
    rintro _ entered ⟨hentered, -⟩
    apply ih.mono _ fun _ h => h
    intro _ main' hplaces kind amount
    rw [hplaces, hentered, map_cons, createdPlaces, append_assoc]

theorem rebuildTransactions_transactionMap :
    (rebuildTransactions crypto height position entries main).Holds
      (fun _ main' => (∀ hash index, main.transactionMap hash = some index →
        main'.transactionMap hash = some index) ∧ ∀ t entry, entries[t]? = some entry →
        main.transactionMap (crypto.getObjectHash entry.tx) = none →
          (∀ earlier ∈ entries.take t, crypto.getObjectHash earlier.tx ≠
            crypto.getObjectHash entry.tx) →
          main'.transactionMap (crypto.getObjectHash entry.tx) = some ⟨height, position + t⟩)
          fun _ => False := by
  induction entries generalizing position main with
  | nil => exact ⟨fun _ _ h => h, fun _ _ h => by cases h⟩
  | cons first entries ih =>
    apply rebuildTransaction_holds.andThen
    rintro _ entered ⟨-, hentered⟩
    apply ih.mono _ fun _ h => h
    rintro _ main' ⟨hkept, hnew⟩
    constructor
    · intro hash index hhash
      apply hkept
      rw [hentered, enterNew]
      split
      · rename_i hnone
        have hne : hash ≠ crypto.getObjectHash first.tx := by
          rintro rfl
          rw [hhash] at hnone
          cases hnone
        rw [Function.update_of_ne hne, hhash]
      · exact hhash
    · intro t entry hentry hnone hearlier
      cases t with
      | zero =>
        obtain rfl : first = entry := by simpa using hentry
        apply hkept
        rw [hentered, enterNew, if_pos (by rw [hnone]; rfl), Function.update_self]
        rfl
      | succ t =>
        rw [take_succ_cons, forall_mem_cons] at hearlier
        rw [hnew t entry hentry _ hearlier.2, add_assoc, add_comm 1]
        rw [hentered, enterNew]
        split
        · rw [Function.update_of_ne hearlier.1.symm, hnone]
        · exact hnone

theorem mem_outputPlaces_of_getElem? {out : TransactionOutput} {i : Nat}
    (hout : outs[i]? = some out) :
    (index, position + i) ∈ outputPlaces out.kind out.amount index position outs := by
  induction outs generalizing position i with
  | nil => cases hout
  | cons first outs ih =>
    rw [outputPlaces]
    cases i with
    | zero =>
      obtain rfl : first = out := by simpa using hout
      rw [if_pos ⟨rfl, rfl⟩]
      exact mem_cons_self
    | succ i =>
      have hmem := @ih (position + 1) i hout
      rw [add_assoc, add_comm 1] at hmem
      split
      · exact mem_cons_of_mem _ hmem
      · exact hmem

theorem mem_createdPlaces_of_getElem? {txs : List Transaction} {out : TransactionOutput} {t i : Nat}
    (htx : txs[t]? = some tx) (hout : tx.outputs[i]? = some out) :
    (⟨height, position + t⟩, i) ∈ createdPlaces out.kind out.amount height position txs := by
  induction txs generalizing position t with
  | nil => cases htx
  | cons first txs ih =>
    cases t with
    | zero =>
      obtain rfl : first = tx := by simpa using htx
      have hmem := @mem_outputPlaces_of_getElem? ⟨height, position⟩ _ 0 _ _ hout
      rw [zero_add] at hmem
      exact mem_append_left _ hmem
    | succ t =>
      have hmem := @ih (position + 1) t htx
      rw [add_assoc, add_comm 1] at hmem
      exact mem_append_right _ hmem

end Positions

theorem forEachIdx_paymentIdRound : forEachIdx (paymentIdRound crypto) position entries main =
      .done () (entries.foldl (fun main entry => addPaymentId crypto entry.tx main) main) := by
  induction entries generalizing position main with
  | nil => rfl
  | cons entry entries ih => exact ih

theorem paymentIdLoop_eq (hentries : entries.length < word16) (hfuel : entries.length ≤ fuel) :
    paymentIdLoop crypto fuel entries main = .done entries.length
        (entries.foldl (fun main entry => addPaymentId crypto entry.tx main) main) := by
  have hvisits : paymentIdLoop crypto fuel entries main = _ := visitsEach hentries hfuel main
  rw [hvisits, forEachIdx_paymentIdRound]
  rfl

end MainChain

/-- The block has fewer transactions, and each of them fewer outputs, than a 16-bit counter has
values. -/
structure Narrow (block : BlockEntry) : Prop where
  transactions : block.transactions.length < word16
  outputs : ∀ entry ∈ block.transactions, entry.tx.outputs.length < word16

/-- The outputs of a transaction are recorded at their positions, and the global indexes say
where. -/
def RecordsOutputs (index : TransactionIndex) (outs : List TransactionOutput) (main : MainChain)
    (indexes : List Nat) : Prop :=
  ∀ (i : Nat) (out : TransactionOutput), outs[i]? = some out →
    ∃ g : Nat, indexes[i]? = some g ∧ (main.places out.kind out.amount)[g]? = some (index, i)

/-- A scan of the block at `height` recorded all transactions and outputs at their positions. A
transaction the hash map knows already is not entered again. -/
structure RecordsBlock (crypto : Crypto) (height : Nat) (entries : List TransactionEntry)
    (main main' : MainChain) : Prop where
  transactions : ∀ t entry, entries[t]? = some entry →
    main.transactionMap (crypto.getObjectHash entry.tx) = none →
    (∀ earlier ∈ entries.take t, crypto.getObjectHash earlier.tx ≠ crypto.getObjectHash entry.tx) →
    main'.transactionMap (crypto.getObjectHash entry.tx) = some ⟨height, t⟩
  outputs : ∀ t entry i out, entries[t]? = some entry → entry.tx.outputs[i]? = some out →
    (⟨height, t⟩, i) ∈ main'.places out.kind out.amount

/-- The loops over the block end after one round for each element, and record its position. What a
single round does, an undefined one included, is left as it is. -/
structure ExactLoops (crypto : Crypto) (fuel : Nat) (block : BlockEntry) : Prop where
  outputs : ∀ entry ∈ block.transactions, ∀ index, VisitsEach word16 entry.tx.outputs
    (outputRound index) fuel
  outputs_return : ∀ entry ∈ block.transactions, (∀ out ∈ entry.tx.outputs, out.amount ≠ 0) →
    ∀ index main, ∃ main' indexes, outputLoop fuel index entry.tx.outputs
        (main, resizedIndexes entry.tx.outputs) = .done entry.tx.outputs.length (main', indexes) ∧
      RecordsOutputs index entry.tx.outputs main' indexes
  rebuiltOutputs : ∀ entry ∈ block.transactions, ∀ index,
    VisitsEach word16 entry.tx.outputs (rebuildOutputRound index) fuel
  rebuilt : ∀ height, VisitsEach word16 block.transactions (rebuildRound crypto fuel height) fuel
  rebuilt_records : ∀ height main, (rebuildLoop crypto fuel height block.transactions
    main).Holds (fun rounds main' => rounds = block.transactions.length ∧
      RecordsBlock crypto height block.transactions main main') fun _ => False
  indexed : VisitsEach word16 block.transactions (paymentIdRound crypto) fuel
  indexed_return : ∀ main, ∃ main', paymentIdLoop crypto fuel block.transactions main =
    .done block.transactions.length main'

section Exact

variable {crypto : Crypto} {index : TransactionIndex} {outs : List TransactionOutput}
  {main : MainChain}

theorem recordsOutputs_recordOutputs :
    RecordsOutputs index outs (recordOutputs index 0 outs main)
    (outputPositions index 0 outs main) := by
  intro i out hout
  have hlt : i < (outputPositions index 0 outs main).length := by
    rw [length_outputPositions]
    exact (List.getElem?_eq_some_iff.mp hout).1
  have hg := getElem?_eq_getElem hlt
  have hplace := places_outputPositions hout hg
  rw [zero_add] at hplace
  exact ⟨_, hg, hplace⟩

theorem recordsBlock_of_rebuildTransactions {height : Nat} {entries : List TransactionEntry} :
    (rebuildTransactions crypto height 0 entries main).Holds
      (fun _ main' => RecordsBlock crypto height entries main main') fun _ => False := by
  apply (places_rebuildTransactions.and rebuildTransactions_transactionMap).mono _ fun _ h => h.1
  rintro _ main' ⟨hplaces, -, hentered⟩
  constructor
  · intro t entry hentry hnone hearlier
    rw [hentered t entry hentry hnone hearlier, zero_add]
  · intro t entry i out hentry hout
    have htx : (entries.map TransactionEntry.tx)[t]? = some entry.tx := by
      rw [getElem?_map, hentry]
      rfl
    have hmem := @MainChain.mem_createdPlaces_of_getElem? height 0 _ _ _ _ _ htx hout
    rw [zero_add] at hmem
    rw [hplaces]
    exact mem_append_right _ hmem

end Exact

theorem outputRound_of_amount {index : TransactionIndex} {output : Nat} {out : TransactionOutput}
    (hamount : out.amount ≠ 0) (state : MainChain × List Nat) :
    ∃ state', outputRound index output out state = .done () state' :=
  ⟨_, by rw [outputRound, if_neg hamount]; rfl⟩

/-- The loops over a narrow block end, with every position recorded; and where each round is
defined, they end on narrow blocks only. -/
theorem exactLoops_iff_narrow (block : BlockEntry) (crypto : Crypto) {fuel : Nat}
    (hfuel : word16 ≤ fuel) : (Narrow block → ExactLoops crypto fuel block) ∧
      ((∀ entry ∈ block.transactions, ∀ out ∈ entry.tx.outputs, out.amount ≠ 0) →
        (ExactLoops crypto fuel block ↔ Narrow block)) := by
  suffices hexact : Narrow block → ExactLoops crypto fuel block by
    refine ⟨hexact, fun hamounts => ⟨fun hloops => ⟨?_, fun entry hentry => ?_⟩, hexact⟩⟩
    · by_contra hwide
      obtain ⟨main, hends⟩ := hloops.indexed_return .empty
      have hnever := @countedLoop_stuck _ _ _ (paymentIdRound crypto) _ (Nat.le_of_not_lt hwide)
        (fun _ _ state _ => ⟨_, rfl⟩) 0 (by decide : 0 < word16) fuel MainChain.empty
      cases hnever.symm.trans hends
    · by_contra hwide
      obtain ⟨main, indexes, hends, -⟩ :=
        hloops.outputs_return entry hentry (hamounts entry hentry) ⟨0, 0⟩ .empty
      have hnever := @countedLoop_stuck _ _ _ (outputRound ⟨0, 0⟩) _ (Nat.le_of_not_lt hwide)
        (fun _ out state hout => outputRound_of_amount
          (hamounts entry hentry out (mem_of_getElem? hout)) state) 0 (by decide : 0 < word16) fuel
        (MainChain.empty, resizedIndexes entry.tx.outputs)
      cases hnever.symm.trans hends
  intro hnarrow
  have htxs : block.transactions.length ≤ fuel := by
    have := hnarrow.transactions
    omega
  have houts : ∀ entry ∈ block.transactions, entry.tx.outputs.length ≤ fuel := by
    intro entry hentry
    have := hnarrow.outputs entry hentry
    omega
  constructor
  · exact fun entry hentry _ =>
      visitsEach (hnarrow.outputs entry hentry) (houts entry hentry)
  · intro entry hentry hamounts index main
    exact ⟨_, _, outputLoop_of_amounts (hnarrow.outputs entry hentry)
      (houts entry hentry) hamounts, recordsOutputs_recordOutputs⟩
  · exact fun entry hentry _ =>
      visitsEach (hnarrow.outputs entry hentry) (houts entry hentry)
  · exact fun _ => visitsEach hnarrow.transactions htxs
  · intro height main
    rw [rebuildLoop_eq hnarrow.outputs hnarrow.transactions hfuel]
    exact recordsBlock_of_rebuildTransactions.andThen fun _ main' hrecords => ⟨rfl, hrecords⟩
  · exact visitsEach hnarrow.transactions htxs
  · exact fun main => ⟨_, paymentIdLoop_eq hnarrow.transactions htxs⟩

theorem exactLoops_iff_narrow_sharedOutputBlock :
    ExactLoops Crypto.numbered word16 (newBlockEntry sharedOutputBlock) :=
  (exactLoops_iff_narrow _ .numbered (le_refl _)).1 ⟨by decide, by decide⟩

/-- Key outputs of amount one. -/
def unitOutputs (count : Nat) : List TransactionOutput := List.replicate count ⟨1, .key 1⟩

theorem checkOutsValidFrom_unitOutputs (count : Nat) :
    checkOutsValidFrom .numbered false 2 (unitOutputs count) = .ok true := by
  induction count with
  | zero => rfl
  | succ count ih => exact ih

theorem checkOutsOverflowFrom_unitOutputs {money count : Nat} (h : money + count < word64) :
    checkOutsOverflowFrom money (unitOutputs count) = true := by
  induction count generalizing money with
  | zero => rfl
  | succ count ih =>
    have hadd : add64 money 1 = money + 1 := Nat.mod_eq_of_lt (by omega)
    have hadd' : add64 1 money = money + 1 := by rw [add64, add_comm]; exact hadd
    rw [unitOutputs, replicate_succ, checkOutsOverflowFrom]
    rw [hadd, hadd', if_neg (by omega)]
    exact ih (by omega)

theorem sum_outputBinarySize_unitOutputs (count : Nat) :
    ((unitOutputs count).map outputBinarySize).sum = count * 34 := by
  rw [unitOutputs, map_replicate, sum_replicate_nat]
  rfl

/-- A block on the genesis block whose miner transaction has one output more than the counter can
count. -/
def wideBlock : Block := numberedBlock 1 420 1 (unitOutputs word16) []

theorem blockBinarySize_wideBlock : blockBinarySize wideBlock ≤ maxBlockBlobSize := by
  have hserializable : isSerializable wideBlock.baseTransaction = true := by decide +kernel
  have houts : wideBlock.baseTransaction.outputs = unitOutputs word16 := rfl
  rw [blockBinarySize, getObjectBinarySize, if_pos hserializable, houts,
    sum_outputBinarySize_unitOutputs, unitOutputs, length_replicate]
  decide +kernel

theorem checkHeader_wideBlock : checkHeader numberedNetwork.cur numberedNetwork.crypto 1000
      numberedNetwork.checkpoints (Core.onGenesis numberedNetwork).main wideBlock =
      .ok (.accept 1) := by
  rw [checkHeader_eq_accept]
  constructor
  iterate 7 · decide +kernel
  · have hinputs : wideBlock.baseTransaction.inputs = [.base ⟨1⟩] := rfl
    have hvalid : checkOutsValid numberedNetwork.crypto false wideBlock.baseTransaction =
        .ok true :=
      checkOutsValidFrom_unitOutputs word16
    have hoverflow : checkOutsOverflow wideBlock.baseTransaction = true :=
      checkOutsOverflowFrom_unitOutputs (by decide)
    rw [prevalidateMinerTransaction, hinputs]
    dsimp only
    rw [if_neg (by decide +kernel), if_neg (by decide +kernel), hvalid]
    rw [hoverflow]

theorem amount_unitOutputs {count output : Nat} {out : TransactionOutput}
    (hout : (unitOutputs count)[output]? = some out) : out.amount ≠ 0 := by
  obtain rfl := eq_of_mem_replicate (mem_of_getElem? hout)
  exact Nat.one_ne_zero

/-- The miner transaction of the block reaches the loop that enters its outputs, and the loop does
not end. -/
theorem wide_block_never_ends :
    blockBinarySize wideBlock ≤ maxBlockBlobSize ∧
    ∃ clock core, Core.Run numberedNetwork (fun _ _ _ _ => True) clock core ∧
      ∃ call ∈ Core.addNewBlockCalls numberedNetwork 1000 0 wideBlock core,
      call.main.Enterable call.hash call.tx ∧
        (∀ index output out state, call.tx.outputs[output]? = some out →
          ∃ state', outputRound index output out state = .done () state') ∧
        ∀ fuel index state, outputLoop fuel index call.tx.outputs state = .stuck := by
  have hcall := Core.miner_mem_addNewBlockCalls (by decide +kernel) (by decide +kernel) rfl
    checkHeader_wideBlock 0
  refine ⟨blockBinarySize_wideBlock, 0, _, .start onGenesis_initial, _, hcall, ?_, ?_, ?_⟩
  · exact enterable_of_isMiner ⟨_, rfl⟩ (by decide +kernel)
  · exact fun index output out state hout => outputRound_of_amount (amount_unitOutputs hout) state
  · intro fuel index state
    have hlen : word16 ≤ (unitOutputs word16).length := le_of_eq length_replicate.symm
    exact countedLoop_stuck hlen (fun _ _ state hout =>
      outputRound_of_amount (amount_unitOutputs hout) state) (by decide) fuel state

end DarknetCoin
