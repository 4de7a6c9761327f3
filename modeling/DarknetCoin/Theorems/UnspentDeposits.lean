import DarknetCoin.Theorems.DepositTotals

/-!
# The deposits that are not spent

What the blocks created less what they spent is the total of the deposits whose flag is not set. An
input is counted with the amount and the term it names itself, so this rests on the checks of
`validateInput`.
-/

namespace DarknetCoin

open Semantics Data MainChain List Table

namespace MainChain

variable {cur : Currency} {crypto : Crypto} {now : Nat} {main state : MainChain}
  {blocks : List BlockEntry} {keys : Finset Nat} {index : TransactionIndex} {position : Nat}
  {hash : Hash} {tx : Transaction} {txs : List Transaction}

/-- The output an entry of the table stands for. -/
def outputAt (blocks : List BlockEntry) (usage : MultisignatureOutputUsage) :
    Option TransactionOutput :=
  (lookupTransaction blocks usage.transactionIndex).bind fun tx => tx.outputs[usage.outputIndex]?

/-- What an entry of the table holds in unspent deposits. -/
def usageDeposit (blocks : List BlockEntry) (usage : MultisignatureOutputUsage) : Nat :=
  if usage.isUsed then 0 else ((outputAt blocks usage).map TransactionOutput.deposit).getD 0

/-- The amounts of the outputs of the chain. -/
def outputAmounts (main : MainChain) : Finset Nat :=
  (main.chainTransactions.flatMap fun tx => tx.outputs.map TransactionOutput.amount).toFinset

/-- The total of the deposits whose `isUsed` flag is not set. -/
def unspentDeposits (main : MainChain) : Nat :=
  main.multisignatureOutputs.weight main.outputAmounts (usageDeposit main.blocks)

/-- The input spends an unspent output of the amount and the term it names. -/
def SpendsDeposit (blocks : List BlockEntry) (state : MainChain) (input : MultisignatureInput) :
    Prop :=
  ∃ usage out, (state.multisignatureOutputs.row input.amount)[input.outputIndex]? = some usage ∧
    usage.isUsed = false ∧ outputAt blocks usage = some out ∧
    out.deposit = (TransactionInput.multisignature input).deposit

variable {input : MultisignatureInput} {out : TransactionOutput} {b : Block}

theorem SpendsDeposit.setUsed {amount outputIndex : Nat} (h : SpendsDeposit blocks state input)
    (hne : (input.amount, input.outputIndex) ≠ (amount, outputIndex)) :
    SpendsDeposit blocks (setUsed true amount outputIndex state) input := by
  obtain ⟨usage, out, husage, hrest⟩ := h
  refine ⟨usage, out, ?_, hrest⟩
  unfold MainChain.setUsed
  by_cases hamt : input.amount = amount
  · subst hamt
    have hidx : outputIndex ≠ input.outputIndex := fun heq => hne (by rw [heq])
    rw [row_modifyAt_self, getElem?_modify_ne _ _ hidx]
    exact husage
  · rw [row_modifyAt_of_ne _ _ _ hamt]
    exact husage

/-- What is marked as used no longer counts. -/
theorem weight_markOutputs {inputs : List TransactionInput}
    (hnodup : (multisignatureReferencesOf inputs).Nodup)
    (hspends : ∀ input, .multisignature input ∈ inputs → input.amount ∈ keys ∧
      SpendsDeposit blocks state input) :
    (markOutputs true (multisignatureReferencesOf inputs) state).multisignatureOutputs.weight keys
        (usageDeposit blocks) + (inputs.map TransactionInput.deposit).sum =
      state.multisignatureOutputs.weight keys (usageDeposit blocks) := by
  induction inputs generalizing state with
  | nil =>
    rw [multisignatureReferencesOf_nil, markOutputs_nil]
    rfl
  | cons input inputs ih =>
    have hlater := fun other hother => hspends other (mem_cons_of_mem _ hother)
    rw [map_cons, sum_cons]
    cases input with
    | base input =>
      change _ + (0 + _) = _
      rw [zero_add]
      exact ih hnodup hlater
    | key input =>
      change _ + (0 + _) = _
      rw [zero_add]
      exact ih hnodup hlater
    | multisignature input =>
      rw [multisignatureReferencesOf_multisignature] at hnodup ⊢
      obtain ⟨hnew, hrest⟩ := nodup_cons.mp hnodup
      obtain ⟨hkey, usage, out, husage, hunused, hout, hdeposit⟩ := hspends input mem_cons_self
      have hone := @weight_modifyAt _ _ _ keys state.multisignatureOutputs _
        (usageDeposit blocks) _ _ (fun usage => { usage with isUsed := true }) hkey husage
      have hbefore : usageDeposit blocks usage =
          (TransactionInput.multisignature input).deposit := by
        rw [usageDeposit, hunused, hout, ← hdeposit]
        rfl
      have hafter : usageDeposit blocks { usage with isUsed := true } = 0 := rfl
      rw [← markOutputs_setUsed]
      have hmarked := @ih (setUsed true input.amount input.outputIndex state) hrest ?_
      · change _ = (state.multisignatureOutputs.modifyAt _ _ _).weight _ _ at hmarked
        omega
      · intro other hother
        obtain ⟨hkey', hother'⟩ := hlater other hother
        refine ⟨hkey', hother'.setUsed fun heq => hnew ?_⟩
        rw [← heq]
        exact mem_filterMap.mpr ⟨_, hother, rfl⟩

theorem weight_pushOutput (hkey : out.amount ∈ keys)
    (hplace : outputAt blocks ⟨index, position, false⟩ = some out) :
    (pushOutput index position out state).multisignatureOutputs.weight keys (usageDeposit blocks) =
      state.multisignatureOutputs.weight keys (usageDeposit blocks) + out.deposit := by
  have hdeposit : usageDeposit blocks ⟨index, position, false⟩ = out.deposit := by
    rw [usageDeposit, hplace]
    rfl
  unfold pushOutput
  cases htarget : out.target with
  | key => rw [TransactionOutput.deposit, htarget]; rfl
  | multisignature target =>
    rw [weight_push hkey, hdeposit]

theorem weight_recordOutputs {outs : List TransactionOutput}
    (hkeys : ∀ out ∈ outs, out.amount ∈ keys) (hplaces : ∀ i out, outs[i]? = some out →
      outputAt blocks ⟨index, position + i, false⟩ = some out) :
    (recordOutputs index position outs state).multisignatureOutputs.weight keys
    (usageDeposit blocks) = state.multisignatureOutputs.weight keys (usageDeposit blocks) +
      (outs.map TransactionOutput.deposit).sum := by
  induction outs generalizing position state with
  | nil => rfl
  | cons out outs ih =>
    obtain ⟨hkey, hkeys⟩ := forall_mem_cons.mp hkeys
    have hplace : outputAt blocks ⟨index, position, false⟩ = some out := hplaces 0 out rfl
    rw [recordOutputs, ih hkeys ?_, weight_pushOutput hkey hplace, map_cons, sum_cons, add_assoc]
    intro i out' hout'
    rw [add_assoc, add_comm 1 i]
    exact hplaces (i + 1) out' hout'

theorem weight_record (hnodup : tx.multisignatureReferences.Nodup)
    (hkeys : ∀ out ∈ tx.outputs, out.amount ∈ keys)
    (hspends : ∀ input, .multisignature input ∈ tx.inputs → input.amount ∈ keys ∧
      SpendsDeposit blocks state input) (hplace : lookupTransaction blocks index = some tx) :
    (record crypto hash index tx state).multisignatureOutputs.weight keys (usageDeposit blocks) +
    depositsSpent [tx] =
      state.multisignatureOutputs.weight keys (usageDeposit blocks) + depositsCreated [tx] := by
  have hinputs := @weight_markOutputs
    (setSpentAll true tx.keyImages (setTransaction hash (some index) state)) blocks keys tx.inputs
    hnodup hspends
  have houts := @weight_recordOutputs (markOutputs true tx.multisignatureReferences
    (setSpentAll true tx.keyImages (setTransaction hash (some index) state))) blocks keys index 0
    tx.outputs hkeys ?_
  · have hspent : depositsSpent [tx] = (tx.inputs.map TransactionInput.deposit).sum := by
      rw [depositsSpent, map_singleton, sum_singleton]
    have hcreated : depositsCreated [tx] = (tx.outputs.map TransactionOutput.deposit).sum := by
      rw [depositsCreated, map_singleton, sum_singleton]
    change (recordOutputs index 0 tx.outputs _).multisignatureOutputs.weight _ _ + _ = _
    change _ = state.multisignatureOutputs.weight _ _ at hinputs
    change _ = (markOutputs true (multisignatureReferencesOf tx.inputs)
      _).multisignatureOutputs.weight
      _ _ + _ at houts
    omega
  · intro i out hout
    rw [outputAt, hplace, zero_add]
    exact hout

theorem lookupTransaction_of_transactionByIndex {entry : TransactionEntry}
    (h : main.transactionByIndex index = .ok entry) : lookupTransaction main.blocks index =
    some entry.tx := by
  unfold transactionByIndex at h
  split at h
  · cases h
  rename_i block hblock
  split at h
  · cases h
  rename_i entry' hentry
  cases h
  rw [lookupTransaction, hblock, Option.bind_some, getElem?_map, hentry]
  rfl

theorem mem_outputAmounts {i : Nat}
    (htx : lookupTransaction main.blocks index = some tx) (hout : tx.outputs[i]? = some out) :
    out.amount ∈ main.outputAmounts := by
  obtain ⟨block, hblock, hentry⟩ := Option.bind_eq_some_iff.mp htx
  have hmem : tx ∈ main.chainTransactions :=
    mem_flatMap.mpr ⟨block, mem_of_getElem? hblock, mem_of_getElem? hentry⟩
  refine mem_toFinset.mpr (mem_flatMap.mpr ⟨tx, hmem, ?_⟩)
  exact mem_map_of_mem (mem_of_getElem? hout)

/-- An input that passes the checks inside a block spends an output of the chain below, of its own
amount and term. -/
theorem spendsDeposit_of_validateInput {created : List Transaction} {prefixHash : Hash}
    {sigs : List Signature} (above : List BlockEntry) (hlocated : Located main.blocks main)
    (h : (recordAll crypto main.blocks.length 0 created main).validateInput cur crypto now input
      prefixHash sigs = .ok true) : input.amount ∈ main.outputAmounts ∧
      SpendsDeposit (main.blocks ++ above)
      (recordAll crypto main.blocks.length 0 created main) input := by
  have hunused := isOutputUsed_of_validateInput h
  unfold validateInput at h
  split at h
  · cases h
  rename_i usage husage
  split at h
  · cases h
  split at h
  · cases h
  rename_i entry hentry
  split at h
  · cases h
  split at h
  · cases h
  rename_i output houtput
  split at h
  · cases h
  split at h
  · cases h
  rename_i hterm
  have hsame : usage.isUsed = false := by simpa [isOutputUsed, husage] using hunused
  have hblocks : SameStorage main (recordAll crypto main.blocks.length 0 created main) :=
    recordAll_sameStorage
  have hlookup := lookupTransaction_of_transactionByIndex hentry
  rw [hblocks.blocks] at hlookup
  have hplace : ((recordAll crypto main.blocks.length 0 created main).places .multisignature
      input.amount)[input.outputIndex]? = some (usage.transactionIndex, usage.outputIndex) := by
    unfold places
    rw [getElem?_map, husage]
    rfl
  -- the place is not one of the block under construction, whose transactions cannot be read yet
  have hold : (usage.transactionIndex, usage.outputIndex) ∈
      main.places .multisignature input.amount := by
    have hmem := mem_of_getElem? hplace
    rw [places_recordAll, mem_append] at hmem
    refine hmem.resolve_right fun hnew => ?_
    obtain ⟨i, tx', out, hidx, -⟩ := mem_createdPlaces hnew
    have hlt := lt_of_lookupTransaction hlookup
    have hblock := congrArg TransactionIndex.block hidx
    dsimp only at hblock
    omega
  obtain ⟨tx', out, htx', hout, -, hamt⟩ := hlocated _ _ _ hold
  rw [hlookup, Option.some.injEq] at htx'
  subst htx'
  refine ⟨hamt ▸ mem_outputAmounts hlookup hout, usage, out, husage, hsame, ?_, ?_⟩
  · rw [outputAt, lookupTransaction_append hlookup]
    exact hout
  · unfold multisignatureOutputOf at houtput
    rw [hout] at houtput
    dsimp only at houtput
    unfold TransactionOutput.deposit TransactionInput.deposit
    cases htarget : out.target with rw [htarget] at houtput
    | key =>
      cases houtput
    | multisignature target =>
      cases houtput
      dsimp only
      rw [hamt, not_not.mp hterm]

theorem outputAmounts_subset_extend :
    main.outputAmounts ⊆ (extend cur crypto b txs main).outputAmounts := by
  intro amount hamt
  unfold outputAmounts at hamt ⊢
  rw [chainTransactions_append extend_blocks, flatMap_append, mem_toFinset, mem_append]
  exact .inl (mem_toFinset.mp hamt)

/-- The transactions of a block change the total by what they create and spend, in the order in
which they are entered. -/
theorem weight_recordAll {checkpoints : Checkpoints}
    (hlinked : Linked cur crypto now checkpoints main b txs) (hlocated : Located main.blocks main)
    (before : List Transaction) : ∀ after, b.baseTransaction :: txs = before ++ after →
      (recordAll crypto main.blocks.length 0 before main).multisignatureOutputs.weight
          (extend cur crypto b txs main).outputAmounts
          (usageDeposit (extend cur crypto b txs main).blocks) + depositsSpent before =
        main.multisignatureOutputs.weight (extend cur crypto b txs main).outputAmounts
          (usageDeposit (extend cur crypto b txs main).blocks) + depositsCreated before := by
  induction before using reverseRecOn with
  | nil => exact fun _ _ => rfl
  | append_singleton before tx ih =>
    intro after hsplit
    rw [append_assoc] at hsplit
    have hbefore := ih (tx :: after) hsplit
    have henterable := hlinked.enterable
    rw [hsplit, enterableAll_append] at henterable
    obtain ⟨-, ⟨⟨henter, -⟩, -⟩⟩ := henterable
    have hplace : lookupTransaction (extend cur crypto b txs main).blocks
        ⟨main.blocks.length, before.length⟩ = some tx := by
      rw [lookupTransaction, extend_blocks, getElem?_concat_length, Option.bind_some,
        tx_extendedEntry, hsplit, getElem?_append_right (Nat.le_refl _), Nat.sub_self]
      rfl
    have hkeys : ∀ out ∈ tx.outputs, out.amount ∈ (extend cur crypto b txs main).outputAmounts := by
      intro out hout
      obtain ⟨i, hi⟩ := getElem?_of_mem hout
      exact mem_outputAmounts hplace hi
    have hold : main.outputAmounts ⊆ (extend cur crypto b txs main).outputAmounts :=
      outputAmounts_subset_extend
    have hspends : ∀ input, .multisignature input ∈ tx.inputs →
        input.amount ∈ (extend cur crypto b txs main).outputAmounts ∧
          SpendsDeposit (extend cur crypto b txs main).blocks
            (recordAll crypto main.blocks.length 0 before main) input := by
      intro input hinput
      cases before with
      | nil =>
        -- the miner transaction spends no output
        obtain ⟨rfl, -⟩ := cons.inj hsplit
        rw [inputs_of_prevalidateMinerTransaction hlinked.header.miner] at hinput
        cases mem_singleton.mp hinput
      | cons first before =>
        obtain ⟨rfl, hrest⟩ := cons.inj hsplit
        obtain ⟨⟨usedHeight, hinputs⟩, -⟩ :=
          checkBlockTransaction_eq_true.mp (hlinked.checked before tx after hrest)
        obtain ⟨sig, hvalid⟩ := (valid_of_checkInputs hinputs).2 input hinput
        have hspends := spendsDeposit_of_validateInput [extendedEntry cur crypto b txs main]
          hlocated hvalid
        rw [extend_blocks]
        exact ⟨hold hspends.1, hspends.2⟩
    have hstep := @weight_record crypto _ _ _ _ (crypto.getObjectHash tx) tx
      henter.references_nodup hkeys hspends hplace
    rw [recordAll_append, zero_add]
    change (record crypto _ _ tx _).multisignatureOutputs.weight _ _ + _ = _
    rw [depositsSpent_append, depositsCreated_append]
    omega

theorem unspentDeposits_eq_weight (hlocated : Located main.blocks main) :
    main.unspentDeposits = main.multisignatureOutputs.weight
    (extend cur crypto b txs main).outputAmounts
      (usageDeposit (extend cur crypto b txs main).blocks) := by
  -- every entry of the table stands for an output of the blocks below
  have hplace : ∀ amount, ∀ usage ∈ main.multisignatureOutputs.row amount,
      LeadsTo main.blocks (usage.transactionIndex, usage.outputIndex) .multisignature amount :=
    fun amount usage husage => hlocated .multisignature amount _ (mem_map_of_mem husage)
  have hempty : ∀ amount ∉ main.outputAmounts, main.multisignatureOutputs.row amount = [] := by
    intro amount hamt
    refine eq_nil_iff_forall_not_mem.mpr fun usage husage => hamt ?_
    obtain ⟨tx, out, htx, hout, -, rfl⟩ := hplace amount usage husage
    exact mem_outputAmounts htx hout
  rw [weight_subset outputAmounts_subset_extend hempty]
  refine weight_congr fun amount _ usage husage => ?_
  obtain ⟨tx, out, htx, -⟩ := hplace amount usage husage
  rw [usageDeposit, usageDeposit, outputAt, outputAt, extend_blocks,
    lookupTransaction_append htx, htx]

end MainChain

namespace Built

variable {net : Network} {u : Universe net} {clock : Nat} {main : MainChain}

/-- What the blocks created and did not spend is the total of the deposits whose flag is not
set. -/
theorem unspentDeposits_eq (h : Built u clock main) :
    main.unspentDeposits + depositsSpent (transactionsOf main.blocks) =
      depositsCreated (transactionsOf main.blocks) := by
  induction h with
  | empty => rfl
  | @push below _ now b txs hmain hnow hb hcount htxs hpush ih =>
    obtain ⟨hlinked, rfl⟩ := push_inv hb hcount htxs hmain.orderly hpush
    have hblock := weight_recordAll hlinked hmain.located (b.baseTransaction :: txs) []
      (append_nil _).symm
    rw [← unspentDeposits_eq_weight hmain.located] at hblock
    change (extend net.cur net.crypto b txs below).unspentDeposits + _ = _ at hblock
    have hnew : transactionsOf [extendedEntry net.cur net.crypto b txs below] =
        b.baseTransaction :: txs := by
      rw [transactionsOf, flatMap_singleton, tx_extendedEntry]
    rw [extend_blocks, transactionsOf_append, depositsSpent_append, depositsCreated_append, hnew]
    omega

theorem exists_take (h : Built u clock main) (count : Nat) :
    ∃ below, Built u clock below ∧ below.blocks = main.blocks.take count := by
  induction h with
  | empty => exact ⟨.empty, .empty, take_nil.symm⟩
  | @push below main now b txs hmain hnow hb hcount htxs hpush ih =>
    by_cases hle : count ≤ below.blocks.length
    · obtain ⟨-, rfl⟩ := push_inv hb hcount htxs hmain.orderly hpush
      obtain ⟨part, hpart, hblocks⟩ := ih
      exact ⟨part, hpart, by rw [hblocks, extend_blocks, take_append_of_le_length hle]⟩
    · refine ⟨main, .push hmain hnow hb hcount htxs hpush, ?_⟩
      obtain ⟨-, rfl⟩ := push_inv hb hcount htxs hmain.orderly hpush
      rw [extend_blocks, take_of_length_le]
      rw [length_append, length_singleton]
      omega

end Built

variable {net : Network} {main : MainChain}

/-- As long as the unspent deposits stay below `2 ^ 63` and the interest paid below `2 ^ 64`, the
deposit index keeps for every height what the blocks up to it created and did not spend and the
interest they paid, and its full amount is the total of the deposits whose flag is not set. -/
theorem deposits_of_operations (u : Universe net) (h : Operated net (CountedBlock u) main)
    (hamounts : ∀ height < main.blocks.length,
      depositsCreated (transactionsOf (main.blocks.take (height + 1))) <
        depositsSpent (transactionsOf (main.blocks.take (height + 1))) + 2 ^ 63)
    (hinterest : interestPaid net.cur (transactionsOf main.blocks) < 2 ^ 64) :
    main.depositIndex.size = main.blocks.length ∧
    (∀ height < main.blocks.length, main.depositIndex.depositAmountAtHeight height =
          (depositsCreated (transactionsOf (main.blocks.take (height + 1))) : Int) -
            depositsSpent (transactionsOf (main.blocks.take (height + 1))) ∧
        0 ≤ main.depositIndex.depositAmountAtHeight height ∧
        main.depositIndex.depositInterestAtHeight height =
          interestPaid net.cur (transactionsOf (main.blocks.take (height + 1)))) ∧
    main.depositIndex.fullDepositAmount = main.unspentDeposits := by
  obtain ⟨⟨clock, hbuilt⟩, -⟩ := h.exists_built fun _ _ hok => hok
  -- below every height nothing is spent that was not created
  have hspent (count : Nat) : depositsSpent (transactionsOf (main.blocks.take count)) ≤
      depositsCreated (transactionsOf (main.blocks.take count)) := by
    obtain ⟨below, hbelow, hblocks⟩ := hbuilt.exists_take count
    have htotal := hbelow.unspentDeposits_eq
    rw [hblocks] at htotal
    omega
  have hexact (count : Nat) (hfits : depositsCreated (transactionsOf (main.blocks.take count)) <
      depositsSpent (transactionsOf (main.blocks.take count)) + 2 ^ 63) :
      ((depositsCreated (transactionsOf (main.blocks.take count)) : Int) -
        depositsSpent (transactionsOf (main.blocks.take count))).bmod word64 =
        (depositsCreated (transactionsOf (main.blocks.take count)) : Int) -
          depositsSpent (transactionsOf (main.blocks.take count)) := by
    have hle := hspent count
    apply Int.bmod_eq_of_le
    · omega
    · rw [word64]
      omega
  rw [hbuilt.depositIndex_eq]
  refine ⟨size_depositIndexOf, fun height hheight => ?_, ?_⟩
  · have hle := hspent (height + 1)
    have hpart : interestPaid net.cur (transactionsOf (main.blocks.take (height + 1))) <
        word64 := by
      refine lt_of_le_of_lt ?_ hinterest
      conv => right; rw [← take_append_drop (height + 1) main.blocks, transactionsOf_append,
        interestPaid_append]
      exact Nat.le_add_right _ _
    rw [depositAmountAtHeight_depositIndexOf, hexact _ (hamounts height hheight),
      depositInterestAtHeight_depositIndexOf, Nat.mod_eq_of_lt hpart]
    exact ⟨rfl, by omega, rfl⟩
  · have htotal := hbuilt.unspentDeposits_eq
    rw [fullDepositAmount_depositIndexOf]
    by_cases hempty : main.blocks.length = 0
    · rw [length_eq_zero_iff] at hempty
      rw [hempty] at htotal ⊢
      have hzero : main.unspentDeposits = 0 := (Nat.add_eq_zero_iff.mp htotal).1
      rw [hzero]
      rfl
    · have hfits := hamounts (main.blocks.length - 1) (by omega)
      have hwhole := hexact main.blocks.length
      rw [Nat.sub_add_cancel (by omega), take_length] at hfits
      rw [take_length] at hwhole
      omega

/-- A block on the genesis block with two deposits that need no signature. -/
def depositBlock : Block :=
  numberedBlock 1 420 1 [⟨5, .multisignature ⟨[], 0, 1⟩⟩, ⟨7, .multisignature ⟨[], 0, 1⟩⟩] []

/-- A transaction that spends the first of them. -/
def withdrawal : Transaction where
  version := 2
  unlockTime := 0
  inputs := [.multisignature ⟨5, 0, 0, 1⟩]
  outputs := [⟨3, .key 1⟩]
  extra := [200]
  signatures := [[]]

/-- A block with the transaction. No check keeps the term of a deposit in the range of the currency,
and the interest for a single block is what the formula gives in words. -/
def withdrawalBlock : Block :=
  numberedBlock 2 1 2 [⟨200 * Currency.coin + 673809361, .key 1⟩] [201]

def depositUniverse : Universe openNetwork :=
  Universe.ofBlocks openNetwork [depositBlock, withdrawalBlock] [withdrawal]
    (by decide +kernel) (by decide +kernel)

def depositChain : MainChain :=
  openPush withdrawalBlock [withdrawal]
    (openPush depositBlock [] (openPush openNetwork.cur.genesisBlock [] empty))

theorem deposits_of_operations_withdrawal :
    depositChain.blocks.length = 3 ∧ depositChain.depositIndex.depositAmountAtHeight 1 = 12 ∧
      depositChain.depositIndex.depositInterestAtHeight 2 = 673809359 ∧
      depositChain.depositIndex.fullDepositAmount = 7 ∧
      depositChain.depositIndex.fullDepositAmount = depositChain.unspentDeposits := by
  have hdeposit : CountedBlock depositUniverse depositBlock [] := by
    refine ⟨mem_cons_of_mem (Currency.genesisBlock _) mem_cons_self, by decide, ?_⟩
    exact ⟨forall_mem_nil _, forall_mem_nil _, rfl⟩
  have hwithdrawal : CountedBlock depositUniverse withdrawalBlock [withdrawal] := by
    refine ⟨mem_cons_of_mem (Currency.genesisBlock _)
      (mem_cons_of_mem _ mem_cons_self), by decide, ?_, ?_, by decide +kernel⟩
    · refine forall_mem_singleton.mpr ?_
      exact mem_append_right _ mem_cons_self
    · exact forall_mem_singleton.mpr (by decide +kernel)
  have hoperated : Operated openNetwork (CountedBlock depositUniverse) depositChain := by
    refine .push (.push (.genesis (openPush_eq ?_)) hdeposit (openPush_eq ?_)) hwithdrawal
      (openPush_eq ?_)
    all_goals decide +kernel
  have htotals := deposits_of_operations depositUniverse hoperated (by decide +kernel)
    (by decide +kernel)
  exact ⟨by decide +kernel, by decide +kernel, by decide +kernel, by decide +kernel, htotals.2.2⟩

/-- A block on the genesis block with a deposit of `2 ^ 63`; the miner transaction of the first
block is not compared with the reward. -/
def hugeDepositBlock : Block := numberedBlock 1 420 1 [⟨2 ^ 63, .multisignature ⟨[], 0, 11000⟩⟩] []

def hugeDepositUniverse : Universe numberedNetwork :=
  Universe.ofBlocks numberedNetwork [hugeDepositBlock] [] (by decide +kernel) (by decide +kernel)

/-- A push on the main network that is known to succeed. -/
def numberedPush (b : Block) (txs : List Transaction) (main : MainChain) : MainChain :=
  (pushBlock numberedNetwork.cur numberedNetwork.crypto 10000 numberedNetwork.checkpoints b
    txs main).stateD main

theorem numberedPush_eq {b : Block} {txs : List Transaction}
    (h : (pushBlock numberedNetwork.cur numberedNetwork.crypto 10000
      numberedNetwork.checkpoints b txs main).value? = some .added) :
    pushBlock numberedNetwork.cur numberedNetwork.crypto 10000 numberedNetwork.checkpoints b
      txs main = .done .added (numberedPush b txs main) :=
  Outcome.eq_done_of_value? h

def hugeDepositChain : MainChain :=
  numberedPush hugeDepositBlock [] (numberedPush numberedNetwork.cur.genesisBlock [] empty)

/-- The deposits are summed up in a signed word, and a deposit of `2 ^ 63` on the main network makes
the total negative. -/
theorem deposit_total_negative :
    Operated numberedNetwork (CountedBlock hugeDepositUniverse) hugeDepositChain ∧
      depositsCreated (transactionsOf hugeDepositChain.blocks) = 2 ^ 63 ∧
      depositsSpent (transactionsOf hugeDepositChain.blocks) = 0 ∧
      hugeDepositChain.unspentDeposits = 2 ^ 63 ∧
      hugeDepositChain.depositIndex.depositAmountAtHeight 1 = -2 ^ 63 ∧
      hugeDepositChain.depositIndex.fullDepositAmount = -2 ^ 63 := by
  have hdeposit : CountedBlock hugeDepositUniverse hugeDepositBlock [] := by
    refine ⟨mem_cons_of_mem (Currency.genesisBlock _) mem_cons_self, by decide, ?_⟩
    exact ⟨forall_mem_nil _, forall_mem_nil _, rfl⟩
  refine ⟨.push (.genesis (numberedPush_eq ?_)) hdeposit (numberedPush_eq ?_), ?_⟩
  all_goals decide +kernel

end DarknetCoin
