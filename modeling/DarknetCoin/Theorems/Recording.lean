import DarknetCoin.Model.Storage

/-!
# Entering and removing one transaction

In closed form the key images and the multisignature outputs a transaction spends are changed all at
once, and the outputs are appended one by one. A push is `record`, a pop is `unrecord`, and popping
undoes pushing.
-/

namespace DarknetCoin

open Semantics Data Program List Table

namespace MainChain

variable {crypto : Crypto} {main : MainChain}

/-- Set the mark of all the given key images. -/
def setSpentAll (spent : Bool) (images : List KeyImage) (main : MainChain) : MainChain :=
  { main with spentKeys := fun image => if image ∈ images then spent else main.spentKeys image }

theorem setSpentAll_setSpent (spent : Bool) (image : KeyImage) (images : List KeyImage) :
    setSpentAll spent images (setSpent spent image main) =
    setSpentAll spent (image :: images) main := by
  unfold setSpentAll setSpent
  congr 1
  funext other
  by_cases hother : other = image
  · subst hother
    simp
  · simp [hother]

theorem setSpentAll_cancel {images : List KeyImage}
    (hunspent : ∀ image ∈ images, main.spentKeys image = false) :
    setSpentAll false images (setSpentAll true images main) = main := by
  have hkeys : (fun image => if image ∈ images then false
      else if image ∈ images then true else main.spentKeys image) = main.spentKeys := by
    funext image
    by_cases himage : image ∈ images
    · simp [hunspent image himage]
    · simp [himage]
  simp only [setSpentAll, hkeys]

/-- The key image loop gets through when no image is marked and none occurs twice; the null image
is undefined behaviour. -/
theorem insertKeyImages_of_unspent {inputs before : List TransactionInput}
    (hnodup : (keyImagesOf inputs).Nodup)
    (hunspent : ∀ image ∈ keyImagesOf inputs, main.spentKeys image = false) :
    insertKeyImages before inputs main = if 0 ∈ keyImagesOf inputs then .stuck
      else .done true (setSpentAll true (keyImagesOf inputs) main) := by
  induction inputs generalizing before main with
  | nil =>
    rfl
  | cons input inputs ih =>
    cases input with
    | base input => exact ih hnodup hunspent
    | multisignature input => exact ih hnodup hunspent
    | key input =>
      obtain ⟨hnew, hnodup⟩ := nodup_cons.mp hnodup
      have hfirst : main.spentKeys input.keyImage = false := hunspent _ mem_cons_self
      unfold insertKeyImages
      rw [get_bind_run, keyImagesOf_key]
      by_cases hnull : input.keyImage = 0
      · rw [hnull]
        rfl
      · simp only [if_neg hnull, hfirst, mem_cons, or_iff_right (Ne.symm hnull),
          ← setSpentAll_setSpent]
        refine ih hnodup fun image himage => ?_
        have hne : image ≠ input.keyImage := fun heq => hnew (heq ▸ himage)
        simp [setSpent, hne, hunspent image (mem_cons_of_mem _ himage)]

/-- Set the `isUsed` flags of all the given outputs. -/
def markOutputs (used : Bool) (references : List (Nat × Nat)) (main : MainChain) : MainChain :=
  { main with
    multisignatureOutputs := fun amount => (main.multisignatureOutputs amount).map fun usages =>
      usages.mapIdx fun i usage =>
        if (amount, i) ∈ references then { usage with isUsed := used } else usage }

theorem markOutputs_nil (used : Bool) : markOutputs used [] main = main := by
  have htable : (fun amount => (main.multisignatureOutputs amount).map fun usages =>
      usages.mapIdx fun _ usage => usage) = main.multisignatureOutputs := by
    funext amount
    cases main.multisignatureOutputs amount with
    | none => rfl
    | some usages =>
      refine congrArg some (ext_getElem? fun i => ?_)
      simp
  simp [markOutputs, htable]

variable (references : List (Nat × Nat))

theorem markOutputs_setUsed (used : Bool) (amount outputIndex : Nat) :
    markOutputs used references (setUsed used amount outputIndex main) =
      markOutputs used ((amount, outputIndex) :: references) main := by
  unfold markOutputs setUsed
  congr 1
  funext other
  by_cases hother : other = amount
  · subst hother
    cases hrow : main.multisignatureOutputs other with
    | none => simp [modifyAt, hrow]
    | some usages =>
      simp only [modifyAt, Function.update_self, hrow, Option.map_some, Option.some.injEq]
      refine ext_getElem? fun i => ?_
      simp only [getElem?_mapIdx, getElem?_modify]
      cases usages[i]? with
      | none => rfl
      | some usage =>
        by_cases hi : outputIndex = i
        · subst hi
          simp
        · have hne : (other, i) ≠ (other, outputIndex) := fun heq => hi (congrArg Prod.snd heq).symm
          simp [hi, hne]
  · simp [modifyAt, hother]

/-- The flag of an output; an output that does not exist is not used. -/
def isOutputUsed (main : MainChain) (reference : Nat × Nat) : Bool :=
  ((main.multisignatureOutputs.row reference.1)[reference.2]?.map
    MultisignatureOutputUsage.isUsed).getD false

/-- The output a reference names exists. -/
def HasOutput (main : MainChain) (reference : Nat × Nat) : Prop :=
  reference.2 < (main.multisignatureOutputs.row reference.1).length

instance (reference : Nat × Nat) : Decidable (main.HasOutput reference) := Nat.decLt _ _

theorem row_markOutputs (used : Bool) (amount : Nat) :
    (markOutputs used references main).multisignatureOutputs.row amount =
      (main.multisignatureOutputs.row amount).mapIdx fun i usage =>
        if (amount, i) ∈ references then { usage with isUsed := used } else usage := by
  simp only [markOutputs, row]
  cases main.multisignatureOutputs amount with
  | none => simp
  | some usages => simp

variable {used : Bool} {references : List (Nat × Nat)} {reference : Nat × Nat}

theorem hasOutput_markOutputs :
    (markOutputs used references main).HasOutput reference ↔ main.HasOutput reference := by
  unfold HasOutput
  rw [row_markOutputs, length_mapIdx]

theorem hasOutput_setUsed {amount outputIndex : Nat} :
    (setUsed used amount outputIndex main).HasOutput reference ↔ main.HasOutput reference := by
  unfold HasOutput setUsed
  by_cases hamt : reference.1 = amount
  · rw [hamt, row_modifyAt_self, length_modify]
  · rw [row_modifyAt_of_ne _ _ _ hamt]

theorem markOutputs_cancel (hunused :
      ∀ reference ∈ references, main.isOutputUsed reference = false) :
    markOutputs false references (markOutputs true references main) = main := by
  have htable :
      (markOutputs false references (markOutputs true references main)).multisignatureOutputs =
      main.multisignatureOutputs := by
    funext amount
    simp only [markOutputs]
    cases hrow : main.multisignatureOutputs amount with
    | none => rfl
    | some usages =>
      simp only [Option.map_some, Option.some.injEq]
      refine ext_getElem? fun i => ?_
      simp only [getElem?_mapIdx]
      cases husage : usages[i]? with
      | none => rfl
      | some usage =>
        by_cases hmem : (amount, i) ∈ references
        · have hclear := hunused _ hmem
          simp only [isOutputUsed, row, hrow, Option.getD_some, husage, Option.map_some] at hclear
          simp [hmem, ← hclear]
        · simp [hmem]
  calc markOutputs false references (markOutputs true references main) =
      { main with
        multisignatureOutputs := (markOutputs false references
          (markOutputs true references main)).multisignatureOutputs } := rfl
    _ = main := by rw [htable]

variable (inputs : List TransactionInput)

/-- The marking loop; an output that does not exist is undefined behaviour. -/
theorem markMultisignatureInputs_eq (used : Bool) (main : MainChain) :
    markMultisignatureInputs used inputs main =
      if ∀ reference ∈ multisignatureReferencesOf inputs, main.HasOutput reference then
        .done () (markOutputs used (multisignatureReferencesOf inputs) main) else .stuck := by
  induction inputs generalizing main with
  | nil =>
    rw [multisignatureReferencesOf_nil, markOutputs_nil]
    rfl
  | cons input inputs ih =>
    cases input with
    | base input => exact ih main
    | key input => exact ih main
    | multisignature input =>
      unfold markMultisignatureInputs
      rw [get_bind_run, multisignatureReferencesOf_multisignature]
      by_cases hrange : input.outputIndex < (main.multisignatureOutputs.row input.amount).length
      · have hfirst : main.HasOutput (input.amount, input.outputIndex) := hrange
        simp only [if_pos hrange, modify_bind_run, ih, ← markOutputs_setUsed, forall_mem_cons,
          hfirst, true_and, hasOutput_setUsed]
      · rw [if_neg hrange, if_neg fun hall => hrange (hall _ mem_cons_self)]
        rfl

theorem popInputs_run : popInputs inputs main =
      markMultisignatureInputs false inputs (setSpentAll false (keyImagesOf inputs) main) := by
  induction inputs generalizing main with
  | nil =>
    rfl
  | cons input inputs ih =>
    cases input with
    | base input => exact ih
    | key input =>
      rw [keyImagesOf_key, ← setSpentAll_setSpent]
      exact ih
    | multisignature input =>
      have hrows : (setSpentAll false
          (keyImagesOf (.multisignature input :: inputs)) main).multisignatureOutputs =
        main.multisignatureOutputs := rfl
      unfold popInputs markMultisignatureInputs
      rw [get_bind_run, get_bind_run, hrows]
      split
      · exact ih
      · rfl

theorem popInputs_eq : popInputs inputs main =
      if ∀ reference ∈ multisignatureReferencesOf inputs, main.HasOutput reference then
        .done () (markOutputs false (multisignatureReferencesOf inputs)
          (setSpentAll false (keyImagesOf inputs) main))
      else .stuck := by
  rw [popInputs_run]
  exact markMultisignatureInputs_eq inputs false (setSpentAll false (keyImagesOf inputs) main)

/-- Append outputs from a position on. -/
def recordOutputs (index : TransactionIndex) (position : Nat) : List TransactionOutput →
    MainChain → MainChain
  | [], main => main
  | out :: outs, main =>
    recordOutputs index (position + 1) outs (pushOutput index position out main)

/-- The positions outputs get in the rows of their amounts. -/
def outputPositions (index : TransactionIndex) (position : Nat) : List TransactionOutput →
    MainChain → List Nat
  | [], _ => []
  | out :: outs, main =>
    main.globalOutputIndex out ::
      outputPositions index (position + 1) outs (pushOutput index position out main)

variable (outs : List TransactionOutput)

theorem pushOutputs_eq (index : TransactionIndex) (position : Nat) :
    pushOutputs index position outs main = if ∀ out ∈ outs, out.amount ≠ 0 then
        .done (outputPositions index position outs main) (recordOutputs index position outs main)
        else .stuck := by
  induction outs generalizing position main with
  | nil => rfl
  | cons out outs ih =>
    unfold pushOutputs
    rw [get_bind_run]
    by_cases hzero : out.amount = 0
    · rw [if_pos hzero, if_neg fun hall => hall out mem_cons_self hzero]
      rfl
    · rw [if_neg hzero, modify_bind_run, bind_run, ih]
      simp only [forall_mem_cons, ne_eq, hzero, not_false_eq_true, true_and]
      split <;> rfl

/-- The tables of outputs have no empty rows. -/
def NoEmptyRows (main : MainChain) : Prop :=
  main.outputs.NoEmptyRow ∧ main.multisignatureOutputs.NoEmptyRow

section

variable (h : main.NoEmptyRows) (index : TransactionIndex) (position : Nat)

include h index position

theorem NoEmptyRows.pushOutput (out : TransactionOutput) :
    (pushOutput index position out main).NoEmptyRows := by
  unfold MainChain.pushOutput
  cases out.target with
  | key key => exact ⟨h.1.push _ _, h.2⟩
  | multisignature target => exact ⟨h.1, h.2.push _ _⟩

theorem popOutput_pushOutput (out : TransactionOutput) :
    popOutput index position out (pushOutput index position out main) = main := by
  unfold popOutput pushOutput
  cases out.target with
  | key key => simp [pop_push h.1]
  | multisignature target => simp [pop_push h.2]

theorem popOutputs_recordOutputs (outs : List TransactionOutput) :
    popOutputs index position outs (recordOutputs index position outs main) = main := by
  induction outs generalizing position main with
  | nil => rfl
  | cons out outs ih =>
    rw [recordOutputs, popOutputs, ih (h.pushOutput index position out)]
    exact popOutput_pushOutput h index position out

end

/-- A transaction entered under `hash` at `index`. -/
def record (crypto : Crypto) (hash : Hash) (index : TransactionIndex) (tx : Transaction)
    (main : MainChain) : MainChain :=
  addPaymentId crypto tx
    (recordOutputs index 0 tx.outputs (markOutputs true tx.multisignatureReferences
      (setSpentAll true tx.keyImages (setTransaction hash (some index) main))))

/-- A transaction removed that was entered under `hash` at `index`. -/
def unrecord (crypto : Crypto) (hash : Hash) (index : TransactionIndex) (tx : Transaction)
    (main : MainChain) : MainChain :=
  setTransaction hash none (removePaymentId crypto tx (markOutputs false tx.multisignatureReferences
      (setSpentAll false tx.keyImages (popOutputs index 0 tx.outputs main))))

/-- A transaction fit to be entered: its hash is free, and it spends nothing twice and nothing that
is spent. -/
structure Enterable (main : MainChain) (hash : Hash) (tx : Transaction) : Prop where
  fresh : main.transactionMap hash = none
  keyImages_nodup : tx.keyImages.Nodup
  references_nodup : tx.multisignatureReferences.Nodup
  unspent : ∀ image ∈ tx.keyImages, main.spentKeys image = false
  unused : ∀ reference ∈ tx.multisignatureReferences, main.isOutputUsed reference = false

variable {hash : Hash} {index : TransactionIndex} {tx : Transaction}

/-- The main chain `pushTransaction` appends the outputs to. -/
def withInputs (hash : Hash) (index : TransactionIndex) (tx : Transaction) (main : MainChain) :
    MainChain :=
  markOutputs true tx.multisignatureReferences
    (setSpentAll true tx.keyImages (setTransaction hash (some index) main))

/-- Entering the transaction runs into nothing that is undefined. -/
structure Recordable (main : MainChain) (tx : Transaction) : Prop where
  keyImages : 0 ∉ tx.keyImages
  references : ∀ reference ∈ tx.multisignatureReferences, main.HasOutput reference
  count : tx.outputs.length < word16
  amounts : ∀ out ∈ tx.outputs, out.amount ≠ 0

/-- A transaction fit to be entered is entered, or runs into undefined behaviour. -/
theorem pushTransaction_of_enterable {block : BlockEntry} {entry : TransactionEntry}
    (h : main.Enterable hash entry.tx)
    (hentry : block.transactions[index.transaction]? = some entry) :
    (¬main.Recordable entry.tx ∧ pushTransaction crypto block hash index main = .stuck) ∨
      (main.Recordable entry.tx ∧ pushTransaction crypto block hash index main =
        .done (true, setGlobalOutputIndexes block index.transaction
            (outputPositions index 0 entry.tx.outputs (withInputs hash index entry.tx main)))
          (record crypto hash index entry.tx main)) := by
  have hdiff : checkMultisignatureInputsDiff entry.tx = true := by
    simpa [checkMultisignatureInputsDiff] using h.references_nodup
  have hmap : (main.transactionMap hash).isSome = false := by simp [h.fresh]
  unfold pushTransaction
  simp only [bind_run, get_run, Outcome.andThen_done, hmap, Bool.false_eq_true,
    if_false, modify_run, hentry, hdiff, Bool.not_true]
  -- the key images
  have hunspent : ∀ image ∈ keyImagesOf entry.tx.inputs,
      (setTransaction hash (some index) main).spentKeys image = false := h.unspent
  rw [insertKeyImages_of_unspent h.keyImages_nodup hunspent]
  by_cases hzero : 0 ∈ keyImagesOf entry.tx.inputs
  · rw [if_pos hzero]
    exact .inl ⟨fun hrec => hrec.keyImages hzero, rfl⟩
  rw [if_neg hzero]
  simp only [Outcome.andThen_done, if_true, bind_run, markMultisignatureInputs_eq]
  -- the multisignature outputs
  by_cases hrange : ∀ reference ∈ multisignatureReferencesOf entry.tx.inputs,
    HasOutput (setSpentAll true
      (keyImagesOf entry.tx.inputs) (setTransaction hash (some index) main)) reference
  case neg =>
    rw [if_neg hrange]
    exact .inl ⟨fun hrec => hrange hrec.references, rfl⟩
  rw [if_pos hrange]
  simp only [Outcome.andThen_done]
  -- the outputs
  by_cases hcount : word16 ≤ entry.tx.outputs.length
  · rw [if_pos hcount]
    exact .inl ⟨fun hrec => not_lt.mpr hcount hrec.count, rfl⟩
  rw [if_neg hcount, bind_run, pushOutputs_eq]
  by_cases hamounts : ∀ out ∈ entry.tx.outputs, out.amount ≠ 0
  · rw [if_pos hamounts]
    exact .inr ⟨⟨hzero, hrange, not_le.mp hcount, hamounts⟩, rfl⟩
  · rw [if_neg hamounts]
    exact .inl ⟨fun hrec => hamounts hrec.amounts, rfl⟩

theorem popOutput_addPaymentId (position : Nat) (out : TransactionOutput) :
    popOutput index position out (addPaymentId crypto tx main) =
      addPaymentId crypto tx (popOutput index position out main) := by
  unfold popOutput addPaymentId
  cases out.target with dsimp only
  | key key => split <;> rfl
  | multisignature target => split <;> rfl

theorem popOutputs_addPaymentId (position : Nat) :
    popOutputs index position outs (addPaymentId crypto tx main) =
      addPaymentId crypto tx (popOutputs index position outs main) := by
  induction outs generalizing position with
  | nil => rfl
  | cons out outs ih => rw [popOutputs, popOutputs, ih, popOutput_addPaymentId]

theorem NoEmptyRows.withInputs (h : main.NoEmptyRows) :
    (withInputs hash index tx main).NoEmptyRows := by
  refine ⟨h.1, fun amount hrow => ?_⟩
  simp only [MainChain.withInputs, markOutputs, setSpentAll, setTransaction] at hrow
  cases hold : main.multisignatureOutputs amount with
  | none => simp [hold] at hrow
  | some usages =>
    have hempty : usages = [] := by simpa [hold] using hrow
    exact h.2 amount (hempty ▸ hold)

theorem removePaymentId_addPaymentId :
    removePaymentId crypto tx (addPaymentId crypto tx main) = main := by
  unfold removePaymentId addPaymentId
  simp only [PaymentIdIndex.remove_add]

theorem setTransaction_cancel (h : main.transactionMap hash = none) :
    setTransaction hash none (setTransaction hash (some index) main) = main := by
  unfold setTransaction
  simp only [Function.update_idem]
  rw [← h, Function.update_eq_self]

theorem popOutputs_record (hrows : main.NoEmptyRows) :
    popOutputs index 0 tx.outputs (record crypto hash index tx main) =
      addPaymentId crypto tx (withInputs hash index tx main) := by
  unfold record
  rw [popOutputs_addPaymentId]
  exact congrArg _ (popOutputs_recordOutputs hrows.withInputs index 0 tx.outputs)

theorem unrecord_record (h : main.Enterable hash tx) (hrows : main.NoEmptyRows) :
    unrecord crypto hash index tx (record crypto hash index tx main) = main := by
  have hunused : ∀ reference ∈ tx.multisignatureReferences,
      (setTransaction hash (some index) main).isOutputUsed reference = false := h.unused
  have hunspent : ∀ image ∈ tx.keyImages,
      (setTransaction hash (some index) main).spentKeys image = false := h.unspent
  -- the three kinds of marks lie in different fields, so they can be taken off one after the other
  calc unrecord crypto hash index tx (record crypto hash index tx main)
      = setTransaction hash none (removePaymentId crypto tx
          (markOutputs false tx.multisignatureReferences (setSpentAll false tx.keyImages
            (addPaymentId crypto tx (withInputs hash index tx main))))) := by
        rw [unrecord, popOutputs_record hrows]
    _ = setTransaction hash none (removePaymentId crypto tx (addPaymentId crypto tx
          (markOutputs false tx.multisignatureReferences
            (markOutputs true tx.multisignatureReferences
            (setSpentAll false tx.keyImages (setSpentAll true tx.keyImages
              (setTransaction hash (some index) main))))))) := rfl
    _ = main := by
        rw [removePaymentId_addPaymentId, setSpentAll_cancel hunspent, markOutputs_cancel hunused,
          setTransaction_cancel h.fresh]

end MainChain

end DarknetCoin
