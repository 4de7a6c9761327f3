import DarknetCoin.Theorems.Recording

/-!
# What is marked as spent

The spent key images and the flags of the multisignature outputs, as entering and removing a
transaction changes them, and as the checks of a transaction read them.
-/

namespace DarknetCoin

open Semantics Data List

namespace MainChain

variable {crypto : Crypto} {main : MainChain} {hash : Hash} {index : TransactionIndex}
  {tx : Transaction} {reference : Nat × Nat}

/-- Everything a transaction spends is marked. -/
structure Spent (main : MainChain) (tx : Transaction) : Prop where
  keyImages : ∀ image ∈ tx.keyImages, main.spentKeys image = true
  references : ∀ reference ∈ tx.multisignatureReferences, main.isOutputUsed reference = true

/-- Nothing a transaction spends is marked. -/
structure Unspent (main : MainChain) (tx : Transaction) : Prop where
  keyImages : ∀ image ∈ tx.keyImages, main.spentKeys image = false
  references : ∀ reference ∈ tx.multisignatureReferences, main.isOutputUsed reference = false

/-- A transaction with inputs of the supported kinds spends a key image or a multisignature
output. -/
theorem exists_spent_of_semanticallyValid (h : SemanticallyValid tx) :
    (∃ image, image ∈ tx.keyImages) ∨ ∃ reference, reference ∈ tx.multisignatureReferences := by
  obtain ⟨input, rest, hinputs⟩ := exists_cons_of_ne_nil h.inputs_ne_nil
  cases input with
  | base input => exact (h.not_base (hinputs ▸ mem_cons_self)).elim
  | key input => exact Or.inl ⟨input.keyImage, by simp [Transaction.keyImages, hinputs]⟩
  | multisignature input =>
    exact Or.inr
      ⟨(input.amount, input.outputIndex), by simp [Transaction.multisignatureReferences, hinputs]⟩

variable {other : Transaction} {used : Bool} {references : List (Nat × Nat)} {prefixHash : Hash}

theorem Spent.disjoint (h : main.Spent tx) (hunspent : main.Unspent other) :
    tx.keyImages.Disjoint other.keyImages ∧
      tx.multisignatureReferences.Disjoint other.multisignatureReferences := by
  refine ⟨fun image hmem hmem' => ?_, fun reference hmem hmem' => ?_⟩
  · exact Bool.false_ne_true ((hunspent.keyImages image hmem').symm.trans (h.keyImages image hmem))
  · exact Bool.false_ne_true
      ((hunspent.references reference hmem').symm.trans (h.references reference hmem))

theorem Spent.not_unspent (h : main.Spent tx) (hsem : SemanticallyValid tx) : ¬main.Unspent tx := by
  intro hunspent
  obtain ⟨himages, hrefs⟩ := h.disjoint hunspent
  rcases exists_spent_of_semanticallyValid hsem with ⟨image, hmem⟩ | ⟨reference, hmem⟩
  · exact himages hmem hmem
  · exact hrefs hmem hmem

theorem isOutputUsed_pushOutput (position : Nat) (out : TransactionOutput) :
    (pushOutput index position out main).isOutputUsed reference = main.isOutputUsed reference := by
  unfold pushOutput
  cases out.target with
  | key key => rfl
  | multisignature target =>
    unfold isOutputUsed
    by_cases hamt : reference.1 = out.amount
    · rw [hamt, Table.row_push_self, getElem?_append]
      split
      · rfl
      · rename_i hlen
        -- past the old end there was nothing, and now there is at most an unused output
        rw [getElem?_eq_none (not_lt.mp hlen)]
        cases reference.2 - (main.multisignatureOutputs.row out.amount).length with
        | zero => rfl
        | succ n => rfl
    · rw [Table.row_push_of_ne _ _ hamt]

theorem isOutputUsed_recordOutputs (position : Nat) (outs : List TransactionOutput) :
    (recordOutputs index position outs main).isOutputUsed reference =
    main.isOutputUsed reference := by
  induction outs generalizing position main with
  | nil => rfl
  | cons out outs ih => rw [recordOutputs, ih, isOutputUsed_pushOutput]

theorem isOutputUsed_markOutputs_of_mem (hmem : reference ∈ references)
    (hexists : used = true → main.HasOutput reference) :
    (markOutputs used references main).isOutputUsed reference = used := by
  unfold isOutputUsed
  rw [row_markOutputs, getElem?_mapIdx]
  cases husage : (main.multisignatureOutputs.row reference.1)[reference.2]? with
  | none =>
    cases used with
    | false => rfl
    | true =>
      have hrange : reference.2 < (main.multisignatureOutputs.row reference.1).length := hexists rfl
      rw [getElem?_eq_none_iff] at husage
      omega
  | some usage => simp [hmem]

theorem isOutputUsed_markOutputs_of_notMem (hmem : reference ∉ references) :
    (markOutputs used references main).isOutputUsed reference = main.isOutputUsed reference := by
  unfold isOutputUsed
  rw [row_markOutputs, getElem?_mapIdx]
  cases (main.multisignatureOutputs.row reference.1)[reference.2]? with
  | none => rfl
  | some usage => simp [hmem]

theorem recordOutputs_frame {α : Type} {f : MainChain → α}
    (hf : ∀ main outputs multisignatureOutputs,
    f { main with outputs, multisignatureOutputs } = f main) (position : Nat)
    (outs : List TransactionOutput) : f (recordOutputs index position outs main) = f main := by
  induction outs generalizing position main with
  | nil => rfl
  | cons out outs ih =>
    rw [recordOutputs, ih]
    unfold pushOutput
    cases out.target <;> exact hf ..

theorem recordOutputs_transactionMap (position : Nat) (outs : List TransactionOutput) :
    (recordOutputs index position outs main).transactionMap = main.transactionMap :=
  recordOutputs_frame (fun _ _ _ => rfl) position outs

theorem transactionMap_record :
    (record crypto hash index tx main).transactionMap = Function.update main.transactionMap hash
    (some index) := by
  change (recordOutputs index 0 tx.outputs (withInputs hash index tx main)).transactionMap = _
  rw [recordOutputs_transactionMap]
  rfl

theorem spentKeys_record (image : KeyImage) : (record crypto hash index tx main).spentKeys image =
      if image ∈ tx.keyImages then true else main.spentKeys image := by
  exact recordOutputs_frame (f := fun main => main.spentKeys image) (fun _ _ _ => rfl) 0 tx.outputs

theorem isOutputUsed_record : (record crypto hash index tx main).isOutputUsed reference =
      (markOutputs true tx.multisignatureReferences main).isOutputUsed reference := by
  change (recordOutputs index 0 tx.outputs
    (withInputs hash index tx main)).isOutputUsed reference = _
  rw [isOutputUsed_recordOutputs]
  rfl

theorem Spent.record (h : main.Spent other) : (record crypto hash index tx main).Spent other := by
  refine ⟨fun image himage => ?_, fun reference href => ?_⟩
  · rw [spentKeys_record, h.keyImages image himage, ite_self]
  · rw [isOutputUsed_record]
    have hused := h.references reference href
    by_cases hmem : reference ∈ tx.multisignatureReferences
    · refine isOutputUsed_markOutputs_of_mem hmem fun _ => ?_
      -- a used output exists
      by_contra hrange
      unfold isOutputUsed at hused
      rw [getElem?_eq_none (not_lt.mp hrange)] at hused
      cases hused
    · rw [isOutputUsed_markOutputs_of_notMem hmem, hused]

theorem spent_record (hexists : ∀ reference ∈ tx.multisignatureReferences,
      main.HasOutput reference) : (record crypto hash index tx main).Spent tx := by
  refine ⟨fun image himage => ?_, fun reference href => ?_⟩
  · rw [spentKeys_record, if_pos himage]
  · rw [isOutputUsed_record]
    exact isOutputUsed_markOutputs_of_mem href fun _ => hexists reference href

variable {cur : Currency} {now : Nat}

theorem isOutputUsed_of_validateInput {input : MultisignatureInput} {sigs : List Signature}
    (h : main.validateInput cur crypto now input prefixHash sigs = .ok true) :
    main.isOutputUsed (input.amount, input.outputIndex) = false := by
  unfold validateInput at h
  split at h
  · cases h
  rename_i usage husage
  split at h
  · cases h
  rename_i hused
  simpa [isOutputUsed, husage] using hused

/-- The loop over the inputs gets through only if no key image is spent and every multisignature
input is valid. -/
theorem valid_of_checkInputs {inputs : List TransactionInput}
    {sigs : List (List Signature)} {maxUsedHeight height : Nat}
    (h : main.checkInputs cur crypto now prefixHash inputs sigs maxUsedHeight =
      .ok (true, height)) : (∀ image ∈ keyImagesOf inputs, main.spentKeys image = false) ∧
    ∀ input, .multisignature input ∈ inputs →
        ∃ sig, main.validateInput cur crypto now input prefixHash sig = .ok true := by
  induction inputs generalizing sigs maxUsedHeight with
  | nil => simp
  | cons input inputs ih =>
    cases input with unfold checkInputs at h
    | base input =>
      cases h
    | key input =>
      split at h
      · cases h
      split at h
      · cases h
      rename_i hspent
      split at h
      · cases h
      split at h
      · cases h
      · cases h
      obtain ⟨himages, hvalid⟩ := ih h
      exact ⟨forall_mem_cons.mpr ⟨by simpa using hspent, himages⟩,
        fun other hother => hvalid other ((mem_cons.mp hother).resolve_left nofun)⟩
    | multisignature input =>
      split at h
      · cases h
      rename_i sig sigs
      split at h
      · cases h
      · cases h
      rename_i hfirst
      obtain ⟨himages, hvalid⟩ := ih h
      refine ⟨himages, fun other hother => ?_⟩
      rcases mem_cons.mp hother with heq | hother
      · cases heq
        exact ⟨sig, hfirst⟩
      · exact hvalid other hother

theorem unspent_of_checkTransactionInputs {height : Nat}
    (h : main.checkTransactionInputs cur crypto now tx = .ok (true, height)) : main.Unspent tx := by
  refine ⟨(valid_of_checkInputs h).1, fun reference href => ?_⟩
  obtain ⟨input, hinput, rfl⟩ := exists_of_mem_multisignatureReferencesOf href
  obtain ⟨sig, hvalid⟩ := (valid_of_checkInputs h).2 input hinput
  exact isOutputUsed_of_validateInput hvalid

theorem unspent_of_checkBlockTransaction {majorVersion : Nat}
    (h : checkBlockTransaction cur crypto now main majorVersion tx = .ok true) :
    main.Unspent tx := by
  obtain ⟨height, hinputs⟩ := (checkBlockTransaction_eq_true.mp h).1
  exact unspent_of_checkTransactionInputs hinputs

end MainChain

end DarknetCoin
