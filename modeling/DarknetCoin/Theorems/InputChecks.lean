import DarknetCoin.Theorems.SpentState

/-!
# What the checks of inputs depend on

A check that succeeds on one main chain succeeds on another where what it read is the same and
unlocked; and a check does not throw where everything recorded can be found in the blocks.
-/

namespace DarknetCoin

open Semantics Data List

namespace MainChain

variable {cur : Currency} {crypto : Crypto} {now later : Nat} {main main' : MainChain}

/-- What `scanOutputKeysForIndexes` reads for one offset: the key of the output and its block. -/
def ringMember (cur : Currency) (now : Nat) (main : MainChain)
    (outs : List (TransactionIndex × Nat))
    (offset : Nat) : Except Fault (Option (PublicKey × Nat)) :=
  match outs[offset]? with
  | none => .ok none
  | some (index, position) =>
    match main.transactionByIndex index with
    | .error fault => .error fault
    | .ok entry =>
      match entry.tx.outputs[position]? with
      | none => .ok none
      | some out =>
        if !main.isTxSpendtimeUnlocked cur now entry.tx.unlockTime then .ok none
        else
          match out.target with
          | .multisignature _ => .ok none
          | .key key => .ok (some (key, index.block))

variable {outs outs' : List (TransactionIndex × Nat)} {offset : Nat} {offsets : List Nat}

theorem scanOutputKeys_cons :
    main.scanOutputKeys cur now outs (offset :: offsets) =
      match ringMember cur now main outs offset with
      | .error fault => .error fault
      | .ok none => .ok none
      | .ok (some (key, block)) =>
        match main.scanOutputKeys cur now outs offsets with
        | .error fault => .error fault
        | .ok none => .ok none
        | .ok (some (keys, lastBlock)) =>
          .ok (some (key :: keys, if offsets = [] then block else lastBlock)) := by
  rw [scanOutputKeys, ringMember]
  cases outs[offset]? with
  | none => rfl
  | some out =>
    obtain ⟨index, position⟩ := out
    dsimp only
    cases main.transactionByIndex index with
    | error fault => rfl
    | ok entry =>
      dsimp only
      cases entry.tx.outputs[position]? with
      | none => rfl
      | some out =>
        dsimp only
        split
        · rfl
        · cases out.target <;> rfl

variable {found : List PublicKey × Nat} {inputs : List TransactionInput}
  {allSigs : List (List Signature)} {keys : List PublicKey} {majorVersion : Nat}

/-- A ring that was found is found again where each of its members is. -/
theorem scanOutputKeys_of_members (h : main.scanOutputKeys cur now outs offsets = .ok (some found))
    (hmembers : ∀ offset ∈ offsets, ∀ member, ringMember cur now main outs offset =
      .ok (some member) → ringMember cur later main' outs' offset = .ok (some member)) :
    main'.scanOutputKeys cur later outs' offsets = .ok (some found) := by
  induction offsets generalizing found with
  | nil => exact h
  | cons offset offsets ih =>
    obtain ⟨hfirst, hrest⟩ := forall_mem_cons.mp hmembers
    rw [scanOutputKeys_cons] at h ⊢
    split at h
    · cases h
    · cases h
    rename_i key block hmember
    split at h
    · cases h
    · cases h
    rename_i keys lastBlock hscan
    cases h
    rw [hfirst _ hmember, ih hscan hrest]

theorem isTxSpendtimeUnlocked_mono {unlockTime : Nat} (hlater : now ≤ later)
    (h : main.isTxSpendtimeUnlocked cur now unlockTime = true) :
    main.isTxSpendtimeUnlocked cur later unlockTime = true := by
  unfold isTxSpendtimeUnlocked at h ⊢
  by_cases hheight : unlockTime < cur.maxBlockHeight
  · rw [if_pos hheight] at h ⊢
    exact h
  · rw [if_neg hheight, decide_eq_true_eq] at h ⊢
    omega

theorem ringMember_mono {member : PublicKey × Nat} (hlater : now ≤ later)
    (h : ringMember cur now main outs offset = .ok (some member)) :
    ringMember cur later main outs offset = .ok (some member) := by
  unfold ringMember at h ⊢
  split at h
  · cases h
  split at h
  · cases h
  rename_i entry hentry
  split at h
  · cases h
  split at h
  · cases h
  rename_i hlocked
  have hunlocked : main.isTxSpendtimeUnlocked cur later entry.tx.unlockTime = true :=
    isTxSpendtimeUnlocked_mono hlater (by simpa using hlocked)
  simp only [hunlocked]
  exact h

variable {prefixHash : Hash} {sigs : List Signature} {fault : Fault} {input : KeyInput}
  {maxUsedHeight height : Nat} {tx : Transaction}

theorem relativeOutputOffsetsToAbsolute_ne_nil {indexes : List Nat} (h : indexes ≠ []) :
    relativeOutputOffsetsToAbsolute indexes ≠ [] := by
  cases indexes with
  | nil => exact (h rfl).elim
  | cons first rest => simp [relativeOutputOffsetsToAbsolute]

theorem scanOutputKeysForIndexes_eq_some :
    main.scanOutputKeysForIndexes cur now input = .ok (some found) ↔ input.outputIndexes ≠ [] ∧
        main.scanOutputKeys cur now (main.outputs.row input.amount)
          (relativeOutputOffsetsToAbsolute input.outputIndexes) = .ok (some found) := by
  unfold scanOutputKeysForIndexes
  cases hrow : main.outputs input.amount with
  | some outs =>
    have hrow' : main.outputs.row input.amount = outs := by simp [Table.row, hrow]
    rw [hrow']
    by_cases hempty : input.outputIndexes = []
    · simp [hempty]
    · simp [hempty]
  | none =>
    have hrow' : main.outputs.row input.amount = [] := by simp [Table.row, hrow]
    rw [hrow']
    constructor
    · intro h
      cases h
    · rintro ⟨hne, hscan⟩
      obtain ⟨offset, offsets, hoffsets⟩ :=
        exists_cons_of_ne_nil (relativeOutputOffsetsToAbsolute_ne_nil hne)
      rw [hoffsets, scanOutputKeys_cons] at hscan
      simp [ringMember] at hscan

/-- What an input reads from `main` at `now`, it also reads from `main'` at `later`. -/
def Carries (cur : Currency) (crypto : Crypto) (now later : Nat) (main main' : MainChain) :
    TransactionInput → Prop
  | .base _ => True
  | .key input =>
    main'.spentKeys input.keyImage = false ∧
      ∀ offset ∈ relativeOutputOffsetsToAbsolute input.outputIndexes, ∀ member,
        ringMember cur now main (main.outputs.row input.amount) offset = .ok (some member) →
        ringMember cur later main' (main'.outputs.row input.amount) offset = .ok (some member)
  | .multisignature input =>
    ∀ prefixHash sigs, main.validateInput cur crypto now input prefixHash sigs = .ok true →
      main'.validateInput cur crypto later input prefixHash sigs = .ok true

theorem checkTxInput_of_carries
    (h : main.checkTxInput cur crypto now input prefixHash sigs maxUsedHeight = .ok (true, height))
    (hcarries : Carries cur crypto now later main main' (.key input)) :
    main'.checkTxInput cur crypto later input prefixHash sigs maxUsedHeight =
    .ok (true, height) := by
  unfold checkTxInput at h ⊢
  split at h
  · cases h
  · cases h
  rename_i keys lastBlock hscan
  obtain ⟨hne, hscan⟩ := scanOutputKeysForIndexes_eq_some.mp hscan
  have hscan' : main'.scanOutputKeysForIndexes cur later input = .ok (some (keys, lastBlock)) :=
    scanOutputKeysForIndexes_eq_some.mpr ⟨hne, scanOutputKeys_of_members hscan hcarries.2⟩
  rw [hscan']
  exact h

/-- Inputs that carry over pass the check again. -/
theorem checkInputs_of_carries
    (h : main.checkInputs cur crypto now prefixHash inputs allSigs maxUsedHeight =
      .ok (true, height))
    (hcarries : ∀ input ∈ inputs, Carries cur crypto now later main main' input) :
    main'.checkInputs cur crypto later prefixHash inputs allSigs maxUsedHeight =
    .ok (true, height) := by
  induction inputs generalizing allSigs maxUsedHeight with
  | nil => exact h
  | cons input inputs ih =>
    obtain ⟨hfirst, hrest⟩ := forall_mem_cons.mp hcarries
    unfold checkInputs at h ⊢
    cases input with dsimp only at h ⊢
    | base input => cases h
    | key input =>
      split at h
      · cases h
      rename_i hne
      split at h
      · cases h
      split at h
      · cases h
      split at h
      · cases h
      · cases h
      rename_i sig sigs' _ maxUsed hcheck
      rw [if_neg hne, if_neg (by simp [hfirst.1])]
      rw [checkTxInput_of_carries hcheck hfirst]
      exact ih h hrest
    | multisignature input =>
      split at h
      · cases h
      split at h
      · cases h
      · cases h
      rename_i sig sigs' _ hvalid
      rw [hfirst _ _ hvalid]
      exact ih h hrest

theorem validateInput_mono {input : MultisignatureInput} (hlater : now ≤ later)
    (h : main.validateInput cur crypto now input prefixHash sigs = .ok true) :
    main.validateInput cur crypto later input prefixHash sigs = .ok true := by
  unfold validateInput at h ⊢
  split at h
  · cases h
  split at h
  · cases h
  rename_i hused
  split at h
  · cases h
  rename_i entry hentry
  split at h
  · cases h
  rename_i hlocked
  have hunlocked : main.isTxSpendtimeUnlocked cur later entry.tx.unlockTime = true :=
    isTxSpendtimeUnlocked_mono hlater (by simpa using hlocked)
  rw [if_neg hused]
  simp only [hunlocked]
  exact h

theorem checkTransactionInputs_mono (hlater : now ≤ later)
    (h : main.checkTransactionInputs cur crypto now tx = .ok (true, height)) :
    main.checkTransactionInputs cur crypto later tx = .ok (true, height) := by
  have hunspent := (unspent_of_checkTransactionInputs h).keyImages
  refine checkInputs_of_carries h fun input hinput => ?_
  cases input with
  | base input => trivial
  | key input =>
    refine ⟨hunspent _ ?_, fun offset _ member hmember => ringMember_mono hlater hmember⟩
    exact mem_filterMap.mpr ⟨.key input, hinput, rfl⟩
  | multisignature input => exact fun _ _ hvalid => validateInput_mono hlater hvalid

/-- The output an input names can be found in the blocks, if it is recorded, without running into
a fault. -/
def Avoids (fault : Fault) (main : MainChain) : TransactionInput → Prop
  | .base _ => True
  | .key input =>
    ∀ offset ∈ relativeOutputOffsetsToAbsolute input.outputIndexes, ∀ index position,
      (main.outputs.row input.amount)[offset]? = some (index, position) →
      main.transactionByIndex index ≠ .error fault
  | .multisignature input =>
    ∀ usage, (main.multisignatureOutputs.row input.amount)[input.outputIndex]? = some usage →
      main.transactionByIndex usage.transactionIndex ≠ .error fault ∧
      ∀ entry, main.transactionByIndex usage.transactionIndex = .ok entry →
        multisignatureOutputOf usage entry.tx ≠ .error fault

/-- The output an input names can be found in the blocks, if it is recorded, without an
exception. -/
abbrev Resolves (main : MainChain) (input : TransactionInput) : Prop := Avoids .exception main input

theorem checkSignatures_ne_error {count : Nat} (h : fault = .undefined → count ≤ sigs.length) :
    checkSignatures crypto prefixHash keys count sigs ≠ .error fault := by
  fun_induction checkSignatures crypto prefixHash keys count sigs with
  | case1 => simp
  | case2 => simp
  | case3 key keys count =>
    rintro ⟨rfl⟩
    exact absurd (h rfl) (by simp)
  | case4 key keys count sig sigs hsig ih => exact ih fun hfault => by simpa using h hfault
  | case5 key keys count sig sigs hsig ih => exact ih h

theorem error_ne {α β : Type} {e : Except Fault α} {fault' : Fault} (h : e ≠ .error fault)
    (hfault : e = .error fault') : (.error fault' : Except Fault β) ≠ .error fault := by
  rintro ⟨rfl⟩
  exact h hfault

theorem scanOutputKeys_ne_error
    (h : ∀ offset ∈ offsets, ∀ index position, outs[offset]? = some (index, position) →
      main.transactionByIndex index ≠ .error fault) : main.scanOutputKeys cur now outs offsets ≠
      .error fault := by
  induction offsets with
  | nil => simp [scanOutputKeys]
  | cons offset offsets ih =>
    obtain ⟨hfirst, hrest⟩ := forall_mem_cons.mp h
    have hmember : ringMember cur now main outs offset ≠ .error fault := by
      unfold ringMember
      split
      · simp
      rename_i index position hout
      split
      · next hfault => exact error_ne (hfirst index position hout) hfault
      split
      · simp
      split
      · simp
      split <;> simp
    rw [scanOutputKeys_cons]
    split
    · next hfault => exact error_ne hmember hfault
    · simp
    split
    · next hfault => exact error_ne (ih hrest) hfault
    · simp
    · simp

theorem checkTxInput_ne_error {sig : List Signature} (h : Avoids fault main (.key input)) :
    main.checkTxInput cur crypto now input prefixHash sig maxUsedHeight ≠ .error fault := by
  unfold checkTxInput scanOutputKeysForIndexes
  split
  · rename_i fault' hfault
    rintro ⟨rfl⟩
    split at hfault
    · cases hfault
    rename_i outs houts
    split at hfault
    · cases hfault
    have hrow : main.outputs.row input.amount = outs := by simp [Table.row, houts]
    rw [← hrow] at hfault
    exact scanOutputKeys_ne_error h hfault
  · simp
  · simp

theorem validateInput_ne_error {input : MultisignatureInput}
    (h : Avoids fault main (.multisignature input))
    (hsigs : fault = .undefined → input.signatureCount ≤ sigs.length) :
    main.validateInput cur crypto now input prefixHash sigs ≠ .error fault := by
  unfold validateInput
  split
  · simp
  rename_i usage husage
  obtain ⟨hentry, houtput⟩ := h usage husage
  split
  · simp
  split
  · next hfault => exact error_ne hentry hfault
  rename_i entry hfound
  split
  · simp
  split
  · next hfault => exact error_ne (houtput entry hfound) hfault
  split
  · simp
  split
  · simp
  split
  · simp
  · exact checkSignatures_ne_error hsigs

/-- Checking inputs whose outputs can be found, with the signatures they need, runs into no
fault. -/
theorem checkInputs_ne_error (h : ∀ input ∈ inputs, Avoids fault main input)
    (hsigs : fault = .undefined → allSigs.map length = inputs.map getSignaturesCount) :
    main.checkInputs cur crypto now prefixHash inputs allSigs maxUsedHeight ≠ .error fault := by
  induction inputs generalizing allSigs maxUsedHeight with
  | nil => simp [checkInputs]
  | cons input inputs ih =>
    obtain ⟨hfirst, hrest⟩ := forall_mem_cons.mp h
    -- the signatures of the first input and of the others
    have hmissing : allSigs = [] → fault ≠ .undefined := by
      rintro rfl hfault
      cases hsigs hfault
    have hsplit : ∀ sig sigs, allSigs = sig :: sigs → fault = .undefined →
        sig.length = getSignaturesCount input ∧ sigs.map length =
            inputs.map getSignaturesCount := by
      rintro sig sigs rfl hfault
      exact cons.inj (hsigs hfault)
    unfold checkInputs
    cases input with dsimp only
    | base input => simp
    | key input =>
      split
      · simp
      split
      · simp
      split
      · rintro ⟨rfl⟩
        exact hmissing rfl rfl
      rename_i sig sigs
      split
      · next hfault => exact error_ne (checkTxInput_ne_error hfirst) hfault
      · simp
      · exact ih hrest fun hfault => (hsplit sig sigs rfl hfault).2
    | multisignature input =>
      split
      · rintro ⟨rfl⟩
        exact hmissing rfl rfl
      rename_i sig sigs
      split
      · next hfault =>
        exact error_ne (validateInput_ne_error hfirst fun hundef =>
          (hsplit sig sigs rfl hundef).1.ge) hfault
      · simp
      · exact ih hrest fun hfault => (hsplit sig sigs rfl hfault).2

theorem checkBlockTransaction_ne_error
    (h : main.checkTransactionInputs cur crypto now tx ≠ .error fault) :
    checkBlockTransaction cur crypto now main majorVersion tx ≠ .error fault := by
  unfold checkBlockTransaction
  split
  · next hfault => exact error_ne h hfault
  · simp

/-- What has a place for a list has one for its tail. -/
theorem sublistForall₂_of_cons {α β : Type} {R : α → β → Prop} {a : α} {l : List α} {l' : List β}
    (h : List.SublistForall₂ R (a :: l) l') : List.SublistForall₂ R l l' := by
  obtain ⟨_, hrelated, hsublist⟩ := sublistForall₂_iff.mp h
  cases hrelated with
  | cons _ hrest => exact sublistForall₂_iff.mpr ⟨_, hrest, (sublist_cons_self _ _).trans hsublist⟩

/-- The loop takes the first key that fits, which leaves as many keys for the other signatures as
any choice. -/
theorem checkSignatures_iff : checkSignatures crypto prefixHash keys sigs.length sigs = .ok true ↔
      List.SublistForall₂ (fun sig key => crypto.checkSignature prefixHash key sig = true)
      sigs keys := by
  induction keys generalizing sigs with
  | nil =>
    cases sigs with
    | nil => exact iff_of_true rfl .nil
    | cons sig sigs => exact iff_of_false (by simp [checkSignatures]) nofun
  | cons key keys ih =>
    cases sigs with
    | nil => exact iff_of_true rfl .nil
    | cons sig sigs =>
      rw [length_cons, checkSignatures]
      split
      · next hfits =>
        refine ih.trans ⟨.cons hfits, fun h => ?_⟩
        cases h with
        | cons _ hrest => exact hrest
        | cons_right hrest => exact sublistForall₂_of_cons hrest
      · next hfails =>
        refine (@ih (sig :: sigs)).trans ⟨.cons_right, fun h => ?_⟩
        cases h with
        | cons hfits _ => exact absurd hfits hfails
        | cons_right hrest => exact hrest

/-- The signature loop accepts exactly the signatures that fit keys at increasing positions. -/
theorem signatures_accepted_iff (crypto : Crypto) (prefixHash : Hash) (keys : List PublicKey)
    (sigs : List Signature) :
    ∃ accepted, checkSignatures crypto prefixHash keys sigs.length sigs = .ok accepted ∧
      (accepted = true ↔ ∃ positions : List (Fin keys.length), positions.Pairwise (· < ·) ∧
        List.Forall₂ (fun sig position =>
          crypto.checkSignature prefixHash keys[position] sig = true) sigs positions) := by
  cases hloop : checkSignatures crypto prefixHash keys sigs.length sigs with
  | error fault => exact (checkSignatures_ne_error (fun _ => le_rfl) hloop).elim
  | ok accepted =>
    refine ⟨accepted, rfl, ?_⟩
    rw [← Except.ok.injEq, ← hloop, checkSignatures_iff, sublistForall₂_iff]
    constructor
    · rintro ⟨chosen, hfits, hsublist⟩
      obtain ⟨positions, rfl, hincr⟩ := sublist_eq_map_getElem hsublist
      exact ⟨positions, hincr, forall₂_map_right_iff.mp hfits⟩
    · rintro ⟨positions, hincr, hfits⟩
      exact ⟨_, forall₂_map_right_iff.mpr hfits, map_getElem_sublist hincr⟩

end MainChain

end DarknetCoin
