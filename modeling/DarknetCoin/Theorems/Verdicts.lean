import DarknetCoin.Theorems.AtomicPush

/-!
# Pushes that end with a verdict

A transaction that names an output of its own block sends the check to a block that is not stored
yet, and reading the storage past its end throws. Every other fault of a push is excluded by facts
about the block.
-/

namespace DarknetCoin

open Semantics MainChain List

/-- Entering the transaction runs into nothing undefined: no sentinel key and no 16-bit counter that
never reaches its end. -/
structure PlainTransaction (tx : Transaction) : Prop where
  keyImages : 0 ∉ tx.keyImages
  count : tx.outputs.length < word16
  amounts : ∀ out ∈ tx.outputs, out.amount ≠ 0

/-- The transaction has the signatures its inputs need, as every transaction has that was read from
its binary form. -/
def Signed (tx : Transaction) : Prop :=
  tx.signatures.map List.length = tx.inputs.map getSignaturesCount

instance : DecidablePred Signed := fun _ => inferInstanceAs (Decidable (_ = _))

namespace MainChain

variable {cur : Currency} {crypto : Crypto} {now : Nat} {main : MainChain} {tx : Transaction}
  {prefixHash : Hash}

theorem hasOutput_of_validateInput {input : MultisignatureInput} {sigs : List Signature}
    (h : main.validateInput cur crypto now input prefixHash sigs = .ok true) :
    main.HasOutput (input.amount, input.outputIndex) := by
  unfold validateInput at h
  split at h
  · cases h
  · rename_i usage husage
    exact (List.getElem?_eq_some_iff.mp husage).1

theorem hasOutput_of_checkInputs {inputs : List TransactionInput} {sigs : List (List Signature)}
    {maxUsedHeight height : Nat}
    (h : main.checkInputs cur crypto now prefixHash inputs sigs maxUsedHeight =
      .ok (true, height)) :
    ∀ reference ∈ multisignatureReferencesOf inputs, main.HasOutput reference := by
  intro reference href
  obtain ⟨input, hinput, rfl⟩ := exists_of_mem_multisignatureReferencesOf href
  obtain ⟨sig, hvalid⟩ := (valid_of_checkInputs h).2 input hinput
  exact hasOutput_of_validateInput hvalid

theorem recordable_of_checkBlockTransaction {majorVersion : Nat} (hplain : PlainTransaction tx)
    (h : checkBlockTransaction cur crypto now main majorVersion tx = .ok true) :
    main.Recordable tx := by
  obtain ⟨height, hinputs⟩ := (checkBlockTransaction_eq_true.mp h).1
  exact ⟨hplain.keyImages, hasOutput_of_checkInputs hinputs, hplain.count, hplain.amounts⟩

/-- The scan of a ring fails where it comes to a member that cannot be read: those before it can be
used. -/
theorem scanOutputKeys_eq_error_iff {fault : Fault} {outs : List (TransactionIndex × Nat)}
    {offsets : List Nat} : main.scanOutputKeys cur now outs offsets = .error fault ↔
      ∃ ring offset rest, offsets = ring ++ offset :: rest ∧
        (∀ other ∈ ring, ∃ member, ringMember cur now main outs other = .ok (some member)) ∧
        ∃ place, outs[offset]? = some place ∧ main.transactionByIndex place.1 = .error fault := by
  induction offsets with
  | nil => simp [scanOutputKeys]
  | cons first offsets ih =>
    have hfault : ringMember cur now main outs first = .error fault ↔
        ∃ place, outs[first]? = some place ∧ main.transactionByIndex place.1 = .error fault := by
      rw [ringMember]
      split
      · simp_all
      split
      · simp_all
      split
      · simp_all
      split
      · simp_all
      split <;> simp_all
    have hsplit : (∃ ring offset rest, first :: offsets = ring ++ offset :: rest ∧
          (∀ other ∈ ring, ∃ member, ringMember cur now main outs other = .ok (some member)) ∧
          ∃ place, outs[offset]? = some place ∧ main.transactionByIndex place.1 = .error fault) ↔
        ringMember cur now main outs first = .error fault ∨
          (∃ member, ringMember cur now main outs first = .ok (some member)) ∧
            main.scanOutputKeys cur now outs offsets = .error fault := by
      rw [ih, hfault]
      constructor
      · rintro ⟨_ | ⟨_, ring⟩, offset, rest, heq, hring, hplace⟩
        · obtain ⟨rfl, -⟩ := cons.inj heq
          exact .inl hplace
        · obtain ⟨rfl, hrest⟩ := cons.inj heq
          obtain ⟨hmember, hring⟩ := forall_mem_cons.mp hring
          exact .inr ⟨hmember, ring, offset, rest, hrest, hring, hplace⟩
      · rintro (hplace | ⟨hmember, ring, offset, rest, rfl, hring, hplace⟩)
        · exact ⟨[], first, offsets, rfl, forall_mem_nil _, hplace⟩
        · exact ⟨first :: ring, offset, rest, rfl, forall_mem_cons.mpr ⟨hmember, hring⟩, hplace⟩
    rw [hsplit, scanOutputKeys_cons]
    split
    · simp_all
    · simp_all
    split <;> simp_all

theorem scanOutputKeysForIndexes_eq_error_iff {fault : Fault} {input : KeyInput} :
    main.scanOutputKeysForIndexes cur now input = .error fault ↔
      main.scanOutputKeys cur now (main.outputs.row input.amount)
        (relativeOutputOffsetsToAbsolute input.outputIndexes) = .error fault := by
  unfold scanOutputKeysForIndexes Data.Table.row
  cases main.outputs input.amount with
  | none =>
    cases hoffsets : relativeOutputOffsetsToAbsolute input.outputIndexes <;>
      simp [scanOutputKeys]
  | some outs =>
    by_cases hnil : input.outputIndexes = []
    · simp [hnil, relativeOutputOffsetsToAbsolute, scanOutputKeys]
    · simp [hnil]

/-- The inputs are checked one after the other, up to the first that is not valid. -/
theorem checkInputs_cons {input : TransactionInput} {inputs : List TransactionInput}
    {sig : List Signature} {sigs : List (List Signature)} {maxUsedHeight : Nat} :
    main.checkInputs cur crypto now prefixHash (input :: inputs) (sig :: sigs) maxUsedHeight =
      match main.checkInputs cur crypto now prefixHash [input] [sig] maxUsedHeight with
      | .error fault => .error fault
      | .ok (false, height) => .ok (false, height)
      | .ok (true, height) => main.checkInputs cur crypto now prefixHash inputs sigs height := by
  cases input with
  | base input => rfl
  | key input =>
    simp only [checkInputs]
    split
    · rfl
    split
    · rfl
    split <;> simp_all
  | multisignature input =>
    simp only [checkInputs]
    split <;> simp_all

/-- With `created` entered on top of the chain, the check of an input comes to an output of
`created`. -/
def ComesToCreated (cur : Currency) (crypto : Crypto) (now : Nat) (main : MainChain)
    (created : List Transaction) (input : TransactionInput) : Prop :=
  let state := recordAll crypto main.blocks.length 0 created main
  match input with
  | .base _ => False
  | .key input =>
    -- the key image is not spent, and the members of the ring before the output can be used
    state.spentKeys input.keyImage = false ∧ ∃ ring offset rest,
      relativeOutputOffsetsToAbsolute input.outputIndexes = ring ++ offset :: rest ∧
      (∀ other ∈ ring, ∃ member,
        ringMember cur now state (state.outputs.row input.amount) other = .ok (some member)) ∧
      main.NamesCreated created .key input.amount offset
  | .multisignature input =>
    main.NamesCreated created .multisignature input.amount input.outputIndex ∧
      ∃ usage, (state.multisignatureOutputs.row input.amount)[input.outputIndex]? = some usage ∧
        usage.isUsed = false

/-- The check of a transaction comes to an output of `created`: the inputs before are valid. -/
def ReadsCreated (cur : Currency) (crypto : Crypto) (now : Nat) (main : MainChain)
    (created : List Transaction) (tx : Transaction) : Prop :=
  ∃ before input after height, tx.inputs = before ++ input :: after ∧
    (recordAll crypto main.blocks.length 0 created main).checkInputs cur crypto now
      (crypto.getPrefixHash tx.toTransactionPrefix) before tx.signatures 0 = .ok (true, height) ∧
    ComesToCreated cur crypto now main created input

section Created

variable {created : List Transaction} {fault : Fault} {maxUsedHeight : Nat} {state : MainChain}
  (h : Located main.blocks main)
    (hstate : recordAll crypto main.blocks.length 0 created main = state)
include h hstate

theorem scanOutputKeysForIndexes_created {input : KeyInput} :
    state.scanOutputKeysForIndexes cur now input = .error fault ↔
      fault = .exception ∧ ∃ ring offset rest,
        relativeOutputOffsetsToAbsolute input.outputIndexes = ring ++ offset :: rest ∧
        (∀ other ∈ ring, ∃ member,
          ringMember cur now state (state.outputs.row input.amount) other = .ok (some member)) ∧
        main.NamesCreated created .key input.amount offset := by
  rw [scanOutputKeysForIndexes_eq_error_iff, scanOutputKeys_eq_error_iff]
  subst hstate
  constructor
  · rintro ⟨ring, offset, rest, hsplit, hring, place, hplace, hfault⟩
    rw [transactionByIndex_recordAll] at hfault
    obtain ⟨hexception, hnames⟩ :=
      (@Located.transactionByIndex_eq_error_iff _ _ _ _ .key h _ _ _ hplace).mp hfault
    exact ⟨hexception, ring, offset, rest, hsplit, hring, hnames⟩
  · rintro ⟨rfl, ring, offset, rest, hsplit, hring, hnames⟩
    obtain ⟨place, hplace⟩ := @exists_place_of_namesCreated crypto _ _ _ _ _ hnames
    refine ⟨ring, offset, rest, hsplit, hring, place, hplace, ?_⟩
    rw [transactionByIndex_recordAll]
    exact (h.transactionByIndex_eq_error_iff hplace).mpr ⟨rfl, hnames⟩

/-- The check throws exactly on an unused output that the block itself creates. -/
theorem validateInput_created {input : MultisignatureInput} {sigs : List Signature}
    (hsigs : sigs.length = input.signatureCount) :
    state.validateInput cur crypto now input prefixHash sigs = .error fault ↔
      fault = .exception ∧ main.NamesCreated created .multisignature input.amount
      input.outputIndex ∧
        ∃ usage, (state.multisignatureOutputs.row input.amount)[input.outputIndex]? = some usage ∧
          usage.isUsed = false := by
  subst hstate
  by_cases hnames : main.NamesCreated created .multisignature input.amount input.outputIndex
  · unfold validateInput
    split
    · simp_all
    rename_i usage husage
    split
    · simp_all
    have hplace : ((MainChain.recordAll crypto main.blocks.length 0 created main).places
        .multisignature input.amount)[input.outputIndex]? =
          some (usage.transactionIndex, usage.outputIndex) := by
      unfold places
      rw [getElem?_map, husage]
      rfl
    rename_i hunused
    have hthrows := (h.transactionByIndex_eq_error_iff hplace).mpr ⟨rfl, hnames⟩
    rw [transactionByIndex_recordAll, hthrows]
    simp only [husage, hnames, Except.error.injEq, true_and]
    exact ⟨fun hfault => ⟨hfault.symm, usage, rfl, by simpa using hunused⟩, fun hfault =>
      hfault.1.symm⟩
  · have hbelow : main.InputRefersBelow created (.multisignature input) := hnames
    simp [validateInput_ne_error (h.avoids fault hbelow) fun _ => hsigs.ge, hnames]

/-- The check of a single input with its signatures fails exactly if it comes to an output of the
block under construction. -/
theorem checkInput_eq_error_iff {input : TransactionInput} {sig : List Signature}
    (hsig : sig.length = getSignaturesCount input) :
    state.checkInputs cur crypto now prefixHash [input] [sig] maxUsedHeight = .error fault ↔
      fault = .exception ∧ ComesToCreated cur crypto now main created input := by
  unfold ComesToCreated
  rw [hstate]
  cases input with
  | base input => simp [checkInputs]
  | key input =>
    have hreads := @scanOutputKeysForIndexes_created cur crypto now main created fault state h
      hstate input
    simp only [checkInputs, checkTxInput]
    by_cases hnil : input.outputIndexes = []
    · simp [hnil, relativeOutputOffsetsToAbsolute]
    by_cases hspent : state.spentKeys input.keyImage = true
    · simp [hnil, hspent]
    rw [if_neg hnil, if_neg hspent, and_left_comm, ← hreads]
    rw [Bool.not_eq_true] at hspent
    cases hscan : state.scanOutputKeysForIndexes cur now input with
    | error other => simp [hspent]
    | ok found =>
      cases found with
      | none => simp [hspent]
      | some found => cases hvalid : (input.outputIndexes.length == found.1.length &&
          sig.length == found.1.length &&
            crypto.checkRingSignature prefixHash input.keyImage found.1 sig) <;>
              simp [hspent, hvalid]
  | multisignature input =>
    have hreads := @validateInput_created cur crypto now main prefixHash created fault state h
      hstate input sig hsig
    simp only [checkInputs]
    rw [← hreads]
    split <;> simp_all

/-- The check of signed inputs fails exactly if it comes to an output of the block under
construction. -/
theorem checkInputs_eq_error_iff {inputs : List TransactionInput} {sigs : List (List Signature)}
    (hsigs : sigs.map List.length = inputs.map getSignaturesCount) :
    state.checkInputs cur crypto now prefixHash inputs sigs maxUsedHeight = .error fault ↔
      fault = .exception ∧ ∃ before input after height, inputs = before ++ input :: after ∧
        state.checkInputs cur crypto now prefixHash before sigs maxUsedHeight = .ok (true, height) ∧
        ComesToCreated cur crypto now main created input := by
  induction inputs generalizing sigs maxUsedHeight with
  | nil => simp [checkInputs]
  | cons first inputs ih =>
    obtain ⟨sig, sigs, rfl, hsig, hsigs⟩ := map_eq_cons_iff.mp hsigs
    have hfirst := @checkInput_eq_error_iff cur crypto now main prefixHash created fault
      maxUsedHeight state h hstate first sig hsig
    -- the output is named by the first input, or by one behind it if the first is valid
    have hsplit : (∃ before input after height, first :: inputs = before ++ input :: after ∧
          state.checkInputs cur crypto now prefixHash before (sig :: sigs) maxUsedHeight =
            .ok (true, height) ∧ ComesToCreated cur crypto now main created input) ↔
        ComesToCreated cur crypto now main created first ∨
          ∃ height, state.checkInputs cur crypto now prefixHash [first] [sig] maxUsedHeight =
              .ok (true, height) ∧
            ∃ before input after height', inputs = before ++ input :: after ∧
              state.checkInputs cur crypto now prefixHash before sigs height = .ok (true, height') ∧
              ComesToCreated cur crypto now main created input := by
      constructor
      · rintro ⟨_ | ⟨_, before⟩, input, after, height, heq, hvalid, hcomes⟩
        · obtain ⟨rfl, -⟩ := cons.inj heq
          exact .inl hcomes
        · obtain ⟨rfl, hrest⟩ := cons.inj heq
          rw [checkInputs_cons] at hvalid
          split at hvalid
          · cases hvalid
          · cases hvalid
          rename_i middle hmiddle
          exact .inr ⟨middle, hmiddle, before, input, after, height, hrest, hvalid, hcomes⟩
      · rintro (hcomes | ⟨middle, hmiddle, before, input, after, height, rfl, hvalid, hcomes⟩)
        · exact ⟨[], first, inputs, maxUsedHeight, rfl, rfl, hcomes⟩
        · refine ⟨first :: before, input, after, height, rfl, ?_, hcomes⟩
          rw [checkInputs_cons, hmiddle]
          exact hvalid
    rw [hsplit, checkInputs_cons]
    cases hanswer : state.checkInputs cur crypto now prefixHash [first] [sig] maxUsedHeight with
    | error other => simpa [hanswer] using hfirst
    | ok answer =>
      have hnot : ¬(fault = .exception ∧ ComesToCreated cur crypto now main created first) := by
        rw [← hfirst, hanswer]
        simp
      obtain ⟨valid, middle⟩ := answer
      cases valid with
      | false => simpa using hnot
      | true =>
        rw [and_or_left, or_iff_right hnot]
        simpa using ih hsigs

end Created

end MainChain

variable {net : Network} {u : Universe net} {now clock : Nat} {main : MainChain} {b : Block}
  {txs : List Transaction}

/-- The push of a block comes to a transaction whose check reads an output that the miner
transaction or an earlier transaction of the block creates. -/
def ReadsOwn (net : Network) (now : Nat) (main : MainChain) (b : Block) (txs : List Transaction) :
    Prop :=
  ∃ difficulty before tx, checkHeader net.cur net.crypto now net.checkpoints main b =
    .ok (.accept difficulty) ∧ ComesTo net.cur net.crypto now b.majorVersion (fun before =>
      recordAll net.crypto main.blocks.length 0 (b.baseTransaction :: before) main) txs before tx ∧
    ReadsCreated net.cur net.crypto now main (b.baseTransaction :: before) tx

/-- Checking a signed transaction on a built chain fails exactly if it reads an output of the block
under construction. -/
theorem Built.checkBlockTransaction_eq_error_iff (h : Built u clock main)
    {before : List Transaction}
    {tx : Transaction} {majorVersion : Nat} (hsigned : Signed tx) {fault : Fault} :
    checkBlockTransaction net.cur net.crypto now
    (recordAll net.crypto main.blocks.length 0 before main) majorVersion tx = .error fault ↔
        fault = .exception ∧ ReadsCreated net.cur net.crypto now main before tx := by
  rw [ReadsCreated, ← checkInputs_eq_error_iff h.located rfl hsigned]
  unfold checkBlockTransaction checkTransactionInputs
  split
  · next hfault => simp [hfault]
  · next hanswer => simp [hanswer]

/-- A push on a built main chain returns a verdict, and a rejection leaves the chain as it was,
exactly if no check reads an output of the block itself. The miner transaction must not send
`check_outs_valid` through a null pointer, and the transactions must be plain and signed. -/
theorem verdict_of_push (h : Built u clock main) (hb : b ∈ u.blocks)
    (hcount : b.transactionHashes.length < word16) (htxs : TransactionsOf u b txs)
    (hminer : checkOutsValid net.crypto false b.baseTransaction ≠ .error .undefined)
    (hplain : ∀ tx ∈ b.baseTransaction :: txs, PlainTransaction tx)
    (hsigned : ∀ tx ∈ txs, Signed tx) :
    (∃ result main', pushBlock net.cur net.crypto now net.checkpoints b txs main =
      .done result main' ∧ (result ≠ .added → checkCumulativeBlockSize net.cur
        (blockTotals net.cur b txs).cumulativeBlockSize (getBlockHeight b) = true → main' = main)) ↔
      ¬ReadsOwn net now main b txs := by
  obtain ⟨hplainMiner, hplainTxs⟩ := forall_mem_cons.mp hplain
  have hends := @Orderly.pushBlock net.cur net.crypto now net.checkpoints u.transactions main b txs
    u.transactions_injOn h.orderly (u.baseTransaction_mem b hb) htxs.valid htxs.hashes
      (htxs.length_eq ▸ hcount)
  have hmem {before : List Transaction} {tx : Transaction} (hcomes : ComesTo net.cur net.crypto now
      b.majorVersion (fun before => recordAll net.crypto main.blocks.length 0
        (b.baseTransaction :: before) main) txs before tx) : tx ∈ txs := by
    obtain ⟨after, hsplit⟩ := hcomes.split
    exact hsplit ▸ mem_append_right before mem_cons_self
  constructor
  · rintro ⟨result, main', hdone, -⟩ ⟨difficulty, before, tx, haccept, hcomes, hreads⟩
    obtain ⟨-, -, hanswers⟩ := hends.holds.of_done hdone
    obtain ⟨valid, hvalid⟩ := hanswers difficulty haccept before tx hcomes
    exact nomatch hvalid.symm.trans
      ((h.checkBlockTransaction_eq_error_iff (hsigned tx (hmem hcomes))).mpr ⟨rfl, hreads⟩)
  intro hnot
  refine (hends.exists_done ?_).imp fun result hres => hres.imp fun main' hdone =>
    ⟨hdone.1, hdone.2.1⟩
  rintro fault
    (hheader | ⟨⟨difficulty, haccept⟩, ⟨-, hisMiner, hrecord⟩ | ⟨before, tx, hcomes, hfails⟩⟩)
  · cases fault with
    | exception => exact checkHeader_ne_exception hheader
    | undefined => exact checkHeader_ne_error hminer hheader
  · -- the miner transaction names no outputs
    refine hrecord ⟨hplainMiner.keyImages, ?_, hplainMiner.count, hplainMiner.amounts⟩
    rw [hisMiner.references_eq]
    exact forall_mem_nil _
  · have htx := hmem hcomes
    rcases hfails with hfault | ⟨-, hcheck, hrecord⟩
    · obtain ⟨-, hreads⟩ := (h.checkBlockTransaction_eq_error_iff (hsigned tx htx)).mp hfault
      exact hnot ⟨difficulty, before, tx, haccept, hcomes, hreads⟩
    · exact hrecord (recordable_of_checkBlockTransaction (hplainTxs tx htx) hcheck)

/-- A transaction that spends the output of the genesis block. -/
def genesisSpender : Transaction where
  version := 1
  unlockTime := 0
  inputs := [.key ⟨100000000, [0], 7⟩]
  outputs := [⟨3, .key 1⟩]
  extra := [200]
  signatures := [[0]]

/-- A block with the transaction. -/
def genesisSpendingBlock : Block := numberedBlock 1 420 1 [⟨5, .key 1⟩] [201]

/-- The universe of the block. -/
def genesisSpendingUniverse : Universe openNetwork :=
  Universe.ofBlocks openNetwork [genesisSpendingBlock] [genesisSpender] (by decide +kernel)
    (by decide +kernel)

theorem exists_built_openNetwork (u : Universe openNetwork) :
    ∃ clock, Built u clock (Core.onGenesis openNetwork).main :=
  Core.Run.built (.start (Core.onGenesis_initial_of (by decide +kernel)))

theorem verdict_of_push_genesisSpender :
    ∃ result main', pushBlock openNetwork.cur openNetwork.crypto 1000
      openNetwork.checkpoints genesisSpendingBlock [genesisSpender]
      (Core.onGenesis openNetwork).main = .done result main' := by
  obtain ⟨clock, hbuilt⟩ := exists_built_openNetwork genesisSpendingUniverse
  have hblock : genesisSpendingBlock ∈ genesisSpendingUniverse.blocks :=
    mem_cons_of_mem (Currency.genesisBlock _) mem_cons_self
  have hknown : genesisSpender ∈ genesisSpendingUniverse.transactions :=
    mem_append_right _ mem_cons_self
  have htxs : TransactionsOf genesisSpendingUniverse genesisSpendingBlock [genesisSpender] :=
    ⟨by simpa using hknown, by decide +kernel, by decide +kernel⟩
  have hplain : ∀ tx ∈ [genesisSpendingBlock.baseTransaction, genesisSpender],
      PlainTransaction tx := by
    intro tx htx
    constructor <;> revert tx <;> decide +kernel
  -- the only input names the output of the genesis block
  have hreads : ¬ReadsOwn openNetwork 1000 (Core.onGenesis openNetwork).main genesisSpendingBlock
      [genesisSpender] := by
    rintro ⟨difficulty, before, tx, -, ⟨⟨after, htx⟩, -⟩, earlier, input, later, height,
      hinput, -, hcomes⟩
    have hlen : ((Core.onGenesis openNetwork).main.places .key 100000000).length = 1 := by
      decide +kernel
    obtain rfl : tx = genesisSpender :=
      mem_singleton.mp (htx ▸ mem_append_right before mem_cons_self)
    obtain rfl : input = .key ⟨100000000, [0], 7⟩ := by
      have hmem : input ∈ genesisSpender.inputs := hinput ▸ mem_append_right earlier mem_cons_self
      exact mem_singleton.mp hmem
    obtain ⟨-, ring, offset, rest, hoffsets, -, hle, -⟩ := hcomes
    have hzero : offset ∈ [0] := by
      have hmem : offset ∈ ring ++ offset :: rest := mem_append_right ring mem_cons_self
      rwa [← hoffsets] at hmem
    rw [mem_singleton.mp hzero] at hle
    change ((Core.onGenesis openNetwork).main.places .key 100000000).length ≤ 0 at hle
    omega
  obtain ⟨result, main', hdone, -⟩ := (verdict_of_push hbuilt hblock (by decide) htxs
    (by decide +kernel) hplain (by decide +kernel)).mpr hreads
  exact ⟨result, main', hdone⟩

/-- A transaction that spends an output of amount 5, of which the chain has none so far. -/
def ownOutputSpender : Transaction := { genesisSpender with inputs := [.key ⟨5, [0], 7⟩] }

/-- The universe of the block and the transaction. -/
def ownOutputUniverse : Universe openNetwork :=
  Universe.ofBlocks openNetwork [genesisSpendingBlock] [ownOutputSpender] (by decide +kernel)
    (by decide +kernel)

/-- The push of the block with the transaction that names its own coinbase. -/
def ownOutputPush : Outcome MainChain PushResult :=
  pushBlock openNetwork.cur openNetwork.crypto 1000 openNetwork.checkpoints
    genesisSpendingBlock [ownOutputSpender] (Core.onGenesis openNetwork).main

/-- The push leaves by an exception, with the miner transaction in the indices. -/
theorem own_output_throws :
    ∃ clock main, Built ownOutputUniverse clock main ∧
      TransactionsOf ownOutputUniverse genesisSpendingBlock [ownOutputSpender] ∧
      PlainTransaction ownOutputSpender ∧ Signed ownOutputSpender ∧
      ∃ main', pushBlock openNetwork.cur openNetwork.crypto 1000 openNetwork.checkpoints
          genesisSpendingBlock [ownOutputSpender] main = .thrown main' ∧
        main'.transactionMap ≠ main.transactionMap ∧ main'.outputs ≠ main.outputs := by
  obtain ⟨clock, hbuilt⟩ := exists_built_openNetwork ownOutputUniverse
  have hknown : ownOutputSpender ∈ ownOutputUniverse.transactions :=
    mem_append_right _ mem_cons_self
  have hvalue : ownOutputPush.value? = none := by decide +kernel
  have hstuck : ownOutputPush.isStuck = false := by decide +kernel
  have hthrown := Outcome.eq_thrown_of_value? hvalue hstuck (s := empty)
  refine ⟨clock, _, hbuilt, ⟨by simpa using hknown, by decide +kernel, by decide +kernel⟩,
    ⟨by decide, by decide, by decide⟩, by decide, _, hthrown, ?_, ?_⟩
  · intro hsame
    -- the hash of the miner transaction
    have hhash := congrFun hsame 2
    revert hhash
    decide +kernel
  · intro hsame
    have hrow := congrFun hsame 5
    revert hrow
    decide +kernel

theorem checkOutsValidFrom_of_unversioned {crypto : Crypto} {version : Nat}
    {outs : List TransactionOutput} (h : Unversioned crypto version outs) :
    checkOutsValidFrom crypto false version outs = .error .undefined := by
  obtain ⟨hold, before, out, after, target, rfl, htarget, hbefore⟩ := h
  induction before with
  | nil => simp [checkOutsValidFrom, htarget, hold]
  | cons other before ih =>
    obtain ⟨⟨hamt, key, hkey, hvalid⟩, hbefore⟩ := forall_mem_cons.mp hbefore
    simp [checkOutsValidFrom, hkey, hamt, hvalid, ih hbefore]

/-- Without a place for the text of the error the check of outputs and its callers give the same
verdict exactly if no output is refused for the version of its transaction. -/
theorem outputs_checked_without_error (crypto : Crypto) (tx : Transaction) :
    (∃ valid, checkOutsValid crypto true tx = .ok valid ∧
      checkOutsValid crypto false tx = .ok valid ∧
      validateOutputs crypto tx = .ok (valid && checkOutsOverflow tx) ∧
      ∀ (cur : Currency) (b : Block) (height : Nat), b.baseTransaction = tx →
        ∃ verdict, prevalidateMinerTransaction cur crypto b height = .ok verdict) ↔
      ¬Unversioned crypto tx.version tx.outputs := by
  constructor
  · rintro ⟨valid, -, hfalse, -⟩ hold
    exact nomatch (checkOutsValidFrom_of_unversioned hold).symm.trans hfalse
  · intro h
    obtain ⟨valid, htrue, hsame⟩ := @checkOutsValidFrom_cases crypto tx.version tx.outputs
    have hfalse : checkOutsValid crypto false tx = .ok valid :=
      hsame.resolve_right fun hold => h hold.2
    refine ⟨valid, htrue, hfalse, by rw [validateOutputs, hfalse], fun cur b height hb => ?_⟩
    cases hcheck : prevalidateMinerTransaction cur crypto b height with
    | ok verdict => exact ⟨verdict, rfl⟩
    | error fault =>
      exact (prevalidateMinerTransaction_ne_error (by rw [hb, hfalse]; nofun) hcheck).elim

/-- A miner transaction of version one with a multisignature output. -/
def oldMinerTransaction : Transaction :=
  { minerTransaction 1 1 [⟨5, .multisignature ⟨[1], 1, 0⟩⟩] with version := 1 }

/-- The transaction is refused if there is a place for the text of the error. -/
theorem old_miner_transaction_undefined :
    checkOutsValid Crypto.numbered true oldMinerTransaction = .ok false ∧
    checkOutsValid Crypto.numbered false oldMinerTransaction = .error .undefined ∧
    prevalidateMinerTransaction Currency.mainnet Crypto.numbered
      { genesisSpendingBlock with baseTransaction := oldMinerTransaction } 1 = .error .undefined :=
  ⟨rfl, rfl, rfl⟩

end DarknetCoin
