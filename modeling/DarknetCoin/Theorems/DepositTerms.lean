import DarknetCoin.Theorems.Retention

/-!
# The terms of deposits

`check_tx_outputs` bounds the term and the amount of a deposit, and `calculateInterest` relies on
it. The outputs of a miner transaction pass `check_outs_valid` alone, which does not look at the
term.
-/

namespace DarknetCoin

open Semantics Currency MainChain List

/-- Every output of a transaction that is a deposit has a term and an amount within the bounds. -/
def DepositOutputsValid (cur : Currency) (tx : Transaction) : Prop :=
  ∀ out ∈ tx.outputs, ∀ target, out.target = .multisignature target → target.term ≠ 0 →
    cur.depositMinTerm ≤ target.term ∧ target.term ≤ cur.depositMaxTerm ∧
      cur.depositMinAmount ≤ out.amount

variable {net : Network} {cur : Currency} {tx : Transaction} {main : MainChain} {core : Core}

theorem depositOutputsValid_of_checkTxOutputs (h : checkTxOutputs cur tx = true) :
    DepositOutputsValid cur tx := by
  intro out hout target htarget hterm
  have hall := all_eq_true.mp h out hout
  simp only [htarget, Bool.and_eq_true, Bool.or_eq_true, beq_iff_eq, decide_eq_true_eq] at hall
  rcases hall.2 with hzero | ⟨⟨hmin, hmax⟩, hamt⟩
  · exact (hterm hzero).elim
  · exact ⟨hmin, hmax, hamt⟩

/-- All deposits created in the blocks of a chain are within the bounds. -/
def MainChain.DepositsValid (cur : Currency) (main : MainChain) : Prop :=
  ∀ block ∈ main.blocks, ∀ entry ∈ block.transactions, DepositOutputsValid cur entry.tx

/-- Blocks whose miner transaction creates no deposit out of the bounds. -/
def depositSupply (cur : Currency) : Supply where
  Good b := DepositOutputsValid cur b.baseTransaction
  Tx := SemanticallyValid
  semantic _ h := h

/-- A block that was appended has only deposits within the bounds if its miner transaction has. -/
theorem MainChain.Appended.depositOutputsValid {crypto : Crypto} {blockData : Block}
    {transactions : List Transaction} {block : BlockEntry} {main' : MainChain}
    (h : Appended cur crypto blockData transactions main block main')
    (hbase : DepositOutputsValid cur blockData.baseTransaction) :
    ∀ entry ∈ block.transactions, DepositOutputsValid cur entry.tx := by
  intro entry hentry
  have htx : entry.tx ∈ block.transactions.map TransactionEntry.tx := mem_map_of_mem hentry
  rw [h.transactions, mem_cons] at htx
  rcases htx with heq | hmem
  · rw [heq]
    exact hbase
  · obtain ⟨pair, hpair, heq⟩ := mem_map.mp hmem
    rw [← heq]
    exact depositOutputsValid_of_checkTxOutputs (h.outputs pair hpair)

theorem depositsValid_invariant (net : Network) :
    MainInvariant net (depositSupply net.cur) (DepositsValid net.cur) where
  push now blockData transactions hgood _ _ main hmain := by
    refine pushBlock_mem_blocks.mono ?_ ?_
    · intro _ main' hblocks block hblock
      rcases hblocks block hblock with hold | happended
      · exact hmain block hold
      · exact happended.depositOutputsValid hgood
    · intro main' hblocks block hblock
      rw [hblocks] at hblock
      exact hmain block hblock
  pop main _ hmain _ := by
    refine (unlinkBlock_blocks _).mono ?_ ?_
    · intro _ main' hblocks block hblock
      rw [hblocks] at hblock
      exact hmain block (mem_of_mem_dropLast hblock)
    · intro main' hblocks block hblock
      rw [hblocks] at hblock
      exact hmain block hblock

theorem depositOutputsValid_genesis : DepositOutputsValid cur genesisTransaction := by
  intro out hout target htarget
  have hkey : out = ⟨100000000, .key genesisOutputKey⟩ := by
    simpa [genesisTransaction] using hout
  rw [hkey] at htarget
  cases htarget

theorem MainChain.mem_of_transactionByIndex {index : TransactionIndex} {entry : TransactionEntry}
    (h : main.transactionByIndex index = .ok entry) :
    ∃ block ∈ main.blocks, entry ∈ block.transactions := by
  unfold transactionByIndex at h
  split at h
  · cases h
  rename_i block hblock
  split at h
  · cases h
  rename_i found hfound
  cases h
  exact ⟨block, mem_of_getElem? hblock, mem_of_getElem? hfound⟩

/-- An input that is valid has the term of a deposit in the chain. -/
theorem MainChain.term_of_validateInput {crypto : Crypto} {now : Nat} {input : MultisignatureInput}
    {prefixHash : Hash} {sigs : List Signature}
    (h : main.validateInput cur crypto now input prefixHash sigs = .ok true) :
    ∃ block ∈ main.blocks, ∃ entry ∈ block.transactions, ∃ out ∈ entry.tx.outputs,
      ∃ target, out.target = .multisignature target ∧ target.term = input.term := by
  unfold validateInput at h
  split at h
  · cases h
  split at h
  · cases h
  split at h
  · cases h
  rename_i entry hentry
  split at h
  · cases h
  split at h
  · cases h
  rename_i target htarget
  split at h
  · cases h
  split at h
  · cases h
  rename_i hterm
  obtain ⟨block, hblock, hmem⟩ := mem_of_transactionByIndex hentry
  refine ⟨block, hblock, entry, hmem, ?_⟩
  unfold multisignatureOutputOf at htarget
  split at htarget
  · cases htarget
  rename_i out hout
  split at htarget
  · cases htarget
  rename_i found hfound
  cases htarget
  exact ⟨out, mem_of_getElem? hout, target, hfound, (not_not.mp hterm).symm⟩

/-- A submitted block that gets written has no deposit out of the bounds in its miner
transaction. -/
def SoundMinerDeposits (net : Network) (_ now : Nat) (core : Core) : Call → Prop
  | .addNewBlock bl => core.Stores net now bl → DepositOutputsValid net.cur bl.baseTransaction
  | _ => True

/-- If the miner transactions of the written blocks create no deposit out of the bounds, no
transaction of the chain has created one, the recorded outputs resolve to outputs within the bounds,
and the assertions of `calculateInterest` hold for every deposit input that `validateInput`
accepts. -/
theorem deposits_valid_of_run {clock : Nat}
    (hrun : Core.Run net (SoundMinerDeposits net) clock core) : core.main.DepositsValid net.cur ∧
    (∀ amount, ∀ usage ∈ core.main.multisignatureOutputs.row amount, ∀ entry out target,
      core.main.transactionByIndex usage.transactionIndex = .ok entry →
      entry.tx.outputs[usage.outputIndex]? = some out → out.target = .multisignature target →
      target.term ≠ 0 → net.cur.depositMinTerm ≤ target.term ∧
        target.term ≤ net.cur.depositMaxTerm ∧ net.cur.depositMinAmount ≤ out.amount) ∧
    (∀ now input prefixHash sigs, core.main.validateInput net.cur net.crypto now input prefixHash
      sigs = .ok true → input.term ≠ 0 → net.cur.CalculateInterestPre input.term) := by
  have hvalid : core.main.DepositsValid net.cur :=
    (Core.Supplied.of_run (depositsValid_invariant net) (fun _ hblock => nomatch hblock)
      (fun _ => depositOutputsValid_genesis) hrun id
      fun _ => semanticallyValid_of_checkTxSemantic).main
  refine ⟨hvalid, ?_, ?_⟩
  · intro amount usage _ entry out target hentry hout htarget hterm
    obtain ⟨block, hblock, hmem⟩ := mem_of_transactionByIndex hentry
    exact hvalid block hblock entry hmem out (mem_of_getElem? hout) target htarget hterm
  · intro now input prefixHash sigs haccepts hterm
    obtain ⟨block, hblock, entry, hmem, out, hout, target, htarget, heq⟩ :=
      term_of_validateInput haccepts
    rw [← heq] at hterm ⊢
    obtain ⟨hmin, hmax, -⟩ := hvalid block hblock entry hmem out hout target htarget hterm
    exact net.cur.calculateInterestPre_of_bounds hmin hmax

/-- A block on the genesis block whose miner transaction makes a deposit of five units for one
block, and thirty blocks on top of it. -/
def shortDepositCalls : List (Nat × Call) :=
  (0, .addNewBlock (numberedBlock 1 420 1 [⟨5, .multisignature ⟨[], 0, 1⟩⟩] [])) ::
    (List.range 30).map fun i => (40000, .addNewBlock
      (numberedBlock (i + 2) (i + 1) (i + 2) [⟨200 * coin, .key 1⟩] []))

/-- What the node has after those calls. -/
def RecordsShortDeposit (core : Core) : Prop :=
  core.main.multisignatureOutputs.row 5 = [⟨⟨1, 0⟩, 0, false⟩] ∧
    (core.main.transactionByIndex ⟨1, 0⟩).map (fun entry => entry.tx.outputs) =
      .ok [⟨5, .multisignature ⟨[], 0, 1⟩⟩] ∧
    core.main.validateInput mainnet Crypto.numbered 40000 ⟨5, 0, 0, 1⟩ 0 [] = .ok true

instance : DecidablePred RecordsShortDeposit := fun core => by
  unfold RecordsShortDeposit
  infer_instance

/-- The node records the deposit, and accepts an input that spends it; the term is none that
`calculateInterest` can be called with. -/
theorem miner_deposit_out_of_bounds :
    ∃ clock core, Core.Run numberedNetwork (fun _ _ _ _ => True) clock core ∧
      (∃ usage ∈ core.main.multisignatureOutputs.row 5, ∃ entry out target,
        core.main.transactionByIndex usage.transactionIndex = .ok entry ∧
        entry.tx.outputs[usage.outputIndex]? = some out ∧ out.target = .multisignature target ∧
        target.term ≠ 0 ∧ ¬mainnet.depositMinTerm ≤ target.term ∧
        ¬mainnet.depositMinAmount ≤ out.amount) ∧
      ∃ input, core.main.validateInput mainnet Crypto.numbered 40000 input 0 [] = .ok true ∧
        input.term ≠ 0 ∧ ¬mainnet.CalculateInterestPre input.term := by
  obtain ⟨clock, core, hrun, hrow, hentry, hinput⟩ :=
    Core.exists_run_of_genesis _ shortDepositCalls RecordsShortDeposit onGenesis_initial
      (by decide +kernel)
  refine ⟨clock, core, hrun, ⟨⟨⟨1, 0⟩, 0, false⟩, by simp [hrow], ?_⟩, ⟨5, 0, 0, 1⟩, hinput,
    by decide, fun hpre => absurd hpre.1 (by decide)⟩
  cases hidx : core.main.transactionByIndex ⟨1, 0⟩ with
  | error fault => simp [hidx, Except.map] at hentry
  | ok entry =>
    have houts : entry.tx.outputs = [⟨5, .multisignature ⟨[], 0, 1⟩⟩] := by
      simpa [hidx, Except.map] using hentry
    exact ⟨entry, ⟨5, .multisignature ⟨[], 0, 1⟩⟩, ⟨[], 0, 1⟩, rfl, by simp [houts], rfl,
      by decide, by decide, by decide⟩

/-- A block whose miner transaction makes a deposit within the bounds. -/
def longDepositBlock : Block :=
  numberedBlock 1 420 1 [⟨150 * coin, .multisignature ⟨[], 0, 11000⟩⟩] []

theorem deposits_valid_of_run_longDeposit :
    ∃ core : Core, core.main.multisignatureOutputs.row (150 * coin) = [⟨⟨1, 0⟩, 0, false⟩] ∧
      core.main.DepositsValid mainnet := by
  refine ⟨Core.perform numberedNetwork 0 (.addNewBlock longDepositBlock)
    (Core.onGenesis numberedNetwork), by decide +kernel, ?_⟩
  refine (deposits_valid_of_run
    (.step (.start onGenesis_initial) ?_ (Core.step_perform (by decide +kernel)))).1
  intro _ out hout target htarget _
  obtain rfl : out = ⟨150 * coin, .multisignature ⟨[], 0, 11000⟩⟩ := by
    simpa [longDepositBlock, numberedBlock, minerTransaction] using hout
  cases htarget
  decide

end DarknetCoin
