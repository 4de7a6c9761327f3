import DarknetCoin.Theorems.PushBlock

/-!
# The rows of recorded outputs

Every output of the chain is recorded in the row of its kind and amount. Entering transactions only
appends to the rows, and every recorded place can be looked up in the blocks.
-/

namespace DarknetCoin

open Semantics Data List Option

/-- The two kinds of outputs, each with a table of its own. -/
inductive OutputKind
  | key
  | multisignature
  deriving DecidableEq, Repr

def TransactionOutput.kind (out : TransactionOutput) : OutputKind :=
  match out.target with
  | .key _ => .key
  | .multisignature _ => .multisignature

namespace MainChain

variable {crypto : Crypto} {main : MainChain} {hash : Hash} {index : TransactionIndex}
  {tx : Transaction} {txs : List Transaction} {height position : Nat} {kind : OutputKind}
  {amount : Nat}

/-- The places recorded for a kind and an amount, in their order. -/
def places (main : MainChain) (kind : OutputKind) (amount : Nat) : List (TransactionIndex × Nat) :=
  match kind with
  | .key => main.outputs.row amount
  | .multisignature =>
    (main.multisignatureOutputs.row amount).map fun usage =>
      (usage.transactionIndex, usage.outputIndex)

/-- The places of the outputs of one transaction, from a position on. -/
def outputPlaces (kind : OutputKind) (amount : Nat) (index : TransactionIndex) :
    Nat → List TransactionOutput → List (TransactionIndex × Nat)
  | _, [] => []
  | position, out :: outs =>
    if out.kind = kind ∧ out.amount = amount then
      (index, position) :: outputPlaces kind amount index (position + 1) outs
    else outputPlaces kind amount index (position + 1) outs

/-- The places of the outputs of transactions, from a position of the block at `height` on. -/
def createdPlaces (kind : OutputKind) (amount height : Nat) : Nat → List Transaction →
    List (TransactionIndex × Nat)
  | _, [] => []
  | position, tx :: txs =>
    outputPlaces kind amount ⟨height, position⟩ 0 tx.outputs ++ createdPlaces kind amount height
      (position + 1) txs

theorem places_pushOutput (out : TransactionOutput) :
    (pushOutput index position out main).places kind amount = main.places kind amount ++
        if out.kind = kind ∧ out.amount = amount then [(index, position)] else [] := by
  unfold pushOutput TransactionOutput.kind places
  cases out.target with
  | key target =>
    cases kind with
    | multisignature => simp
    | key =>
      by_cases hamt : out.amount = amount
      · subst hamt
        simp
      · simp [hamt, Table.row_push_of_ne _ _ (Ne.symm hamt)]
  | multisignature target =>
    cases kind with
    | key => simp
    | multisignature =>
      by_cases hamt : out.amount = amount
      · subst hamt
        simp
      · simp [hamt, Table.row_push_of_ne _ _ (Ne.symm hamt)]

theorem places_recordOutputs (outs : List TransactionOutput) :
    (recordOutputs index position outs main).places kind amount =
      main.places kind amount ++ outputPlaces kind amount index position outs := by
  induction outs generalizing position main with
  | nil => exact (append_nil _).symm
  | cons out outs ih =>
    rw [recordOutputs, ih, places_pushOutput, outputPlaces, append_assoc]
    split
    · rfl
    · rfl

theorem places_withInputs : (withInputs hash index tx main).places kind amount =
    main.places kind amount := by
  cases kind with
  | key => rfl
  | multisignature =>
    unfold places withInputs
    rw [row_markOutputs]
    refine ext_getElem? fun i => ?_
    rw [getElem?_map, getElem?_map, getElem?_mapIdx, Option.map_map]
    -- setting a flag leaves the place
    refine congrArg (fun f => Option.map f _) (funext fun usage => ?_)
    split <;> rfl

theorem places_record : (record crypto hash index tx main).places kind amount =
      main.places kind amount ++ outputPlaces kind amount index 0 tx.outputs := by
  change (recordOutputs index 0 tx.outputs (withInputs hash index tx main)).places kind amount = _
  rw [places_recordOutputs, places_withInputs]

/-- Entering transactions appends the places of their outputs. -/
theorem places_recordAll : (recordAll crypto height position txs main).places kind amount =
      main.places kind amount ++ createdPlaces kind amount height position txs := by
  induction txs generalizing position main with
  | nil => exact (append_nil _).symm
  | cons tx txs ih => rw [recordAll, ih, places_record, createdPlaces, append_assoc]

variable {place : TransactionIndex × Nat}

theorem mem_outputPlaces {outs : List TransactionOutput}
    (h : place ∈ outputPlaces kind amount index position outs) :
    ∃ i out, place = (index, position + i) ∧ outs[i]? = some out ∧ out.kind = kind ∧ out.amount =
    amount := by
  induction outs generalizing position with
  | nil => cases h
  | cons out outs ih =>
    have hlater (h' : place ∈ outputPlaces kind amount index (position + 1) outs) :
        ∃ i out', place = (index, position + i) ∧ (out :: outs)[i]? = some out' ∧
          out'.kind = kind ∧ out'.amount = amount := by
      obtain ⟨i, out', hplace, hout, hkind⟩ := ih h'
      refine ⟨i + 1, out', ?_, by simpa using hout, hkind⟩
      rw [hplace, add_assoc, add_comm 1 i]
    rw [outputPlaces] at h
    split at h
    · rename_i hmatch
      rcases mem_cons.mp h with rfl | h'
      · exact ⟨0, out, rfl, rfl, hmatch⟩
      · exact hlater h'
    · exact hlater h

theorem mem_createdPlaces (h : place ∈ createdPlaces kind amount height position txs) :
    ∃ i tx out, place.1 = ⟨height, position + i⟩ ∧ txs[i]? = some tx ∧
      tx.outputs[place.2]? = some out ∧ out.kind = kind ∧ out.amount = amount := by
  induction txs generalizing position with
  | nil => cases h
  | cons tx txs ih =>
    rcases mem_append.mp h with hfirst | hrest
    · obtain ⟨i, out, rfl, hout, hkind⟩ := mem_outputPlaces hfirst
      rw [zero_add]
      exact ⟨0, tx, out, rfl, rfl, hout, hkind⟩
    · obtain ⟨i, tx', out, hplace, htx, hout⟩ := ih hrest
      refine ⟨i + 1, tx', out, ?_, by simpa using htx, hout⟩
      rw [hplace, add_assoc, add_comm 1 i]

end MainChain

/-- The transaction at a place of a list of blocks. -/
def lookupTransaction (blocks : List BlockEntry) (index : TransactionIndex) : Option Transaction :=
  (blocks[index.block]?).bind fun block =>
    (block.transactions.map TransactionEntry.tx)[index.transaction]?

section

variable {blocks more : List BlockEntry} {index : TransactionIndex} {tx : Transaction}
  (h : lookupTransaction blocks index = some tx)
include h

theorem lookupTransaction_append : lookupTransaction (blocks ++ more) index = some tx := by
  unfold lookupTransaction at h ⊢
  obtain ⟨block, hblock, htx⟩ := bind_eq_some_iff.mp h
  rw [getElem?_append_left (List.getElem?_eq_some_iff.mp hblock).1, hblock]
  exact htx

theorem lt_of_lookupTransaction : index.block < blocks.length := by
  obtain ⟨block, hblock, -⟩ := bind_eq_some_iff.mp h
  exact (List.getElem?_eq_some_iff.mp hblock).1

end

/-- A place leads to an output of a kind and an amount. -/
def LeadsTo (blocks : List BlockEntry) (place : TransactionIndex × Nat) (kind : OutputKind)
    (amount : Nat) : Prop :=
  ∃ tx out, lookupTransaction blocks place.1 = some tx ∧ tx.outputs[place.2]? = some out ∧
    out.kind = kind ∧ out.amount = amount

namespace MainChain

variable {crypto : Crypto} {main : MainChain} {blocks : List BlockEntry}
  {created : List Transaction} {amount : Nat} {kind : OutputKind} {tx : Transaction}

theorem exists_entry_of_lookupTransaction {index : TransactionIndex}
    (h : lookupTransaction main.blocks index = some tx) :
    ∃ entry, main.transactionByIndex index = .ok entry ∧ entry.tx = tx := by
  obtain ⟨block, hblock, htx⟩ := bind_eq_some_iff.mp h
  rw [getElem?_map] at htx
  obtain ⟨entry, hentry, rfl⟩ := map_eq_some_iff.mp htx
  refine ⟨entry, ?_, rfl⟩
  unfold transactionByIndex
  simp only [hblock, hentry]

/-- Every recorded place leads to an output in `blocks`. -/
def Located (blocks : List BlockEntry) (main : MainChain) : Prop :=
  ∀ kind amount, ∀ place ∈ main.places kind amount, LeadsTo blocks place kind amount

theorem Located.recordAll (h : Located blocks main) {entry : BlockEntry} {txs : List Transaction}
    (hentry : entry.transactions.map TransactionEntry.tx = txs) :
    Located (blocks ++ [entry]) (recordAll crypto blocks.length 0 txs main) := by
  intro kind amount place hplace
  rw [places_recordAll, mem_append] at hplace
  rcases hplace with hold | hnew
  · obtain ⟨tx, out, htx, hout⟩ := h kind amount place hold
    exact ⟨tx, out, lookupTransaction_append htx, hout⟩
  · obtain ⟨i, tx, out, hidx, htx, hout⟩ := mem_createdPlaces hnew
    refine ⟨tx, out, ?_, hout⟩
    unfold lookupTransaction
    rw [hidx, getElem?_concat_length, bind_some, hentry, zero_add]
    exact htx

/-- The outputs of a kind and an amount that transactions create. -/
def outputCount (kind : OutputKind) (amount : Nat) (txs : List Transaction) : Nat :=
  (txs.map fun tx => tx.outputs.countP fun out => out.kind = kind ∧ out.amount = amount).sum

theorem length_outputPlaces {position : Nat} {index : TransactionIndex}
    (outs : List TransactionOutput) : (outputPlaces kind amount index position outs).length =
      outs.countP fun out => out.kind = kind ∧ out.amount = amount := by
  induction outs generalizing position with
  | nil => rfl
  | cons out outs ih =>
    rw [outputPlaces, countP_cons]
    split
    · rename_i hmatch
      rw [length_cons, ih, if_pos (by simpa using hmatch)]
    · rename_i hmatch
      rw [ih, if_neg (by simpa using hmatch)]
      rfl

theorem length_createdPlaces {height position : Nat} (txs : List Transaction) :
    (createdPlaces kind amount height position txs).length = outputCount kind amount txs := by
  induction txs generalizing position with
  | nil => rfl
  | cons tx txs ih =>
    rw [createdPlaces, length_append, length_outputPlaces, ih]
    simp [outputCount]

/-- The number of an output that `created` would get on top of the chain. -/
def NamesCreated (main : MainChain) (created : List Transaction) (kind : OutputKind)
    (amount number : Nat) : Prop :=
  (main.places kind amount).length ≤ number ∧
    number < (main.places kind amount).length + outputCount kind amount created

theorem exists_place_of_namesCreated {number : Nat}
    (h : main.NamesCreated created kind amount number) :
    ∃ place, ((recordAll crypto main.blocks.length 0 created main).places kind amount)[number]? =
      some place := by
  refine ⟨_, getElem?_eq_getElem ?_⟩
  rw [places_recordAll, length_append, length_createdPlaces]
  exact h.2

/-- The input names no output of `created`, the transactions before its own in the block. -/
def InputRefersBelow (main : MainChain) (created : List Transaction) : TransactionInput → Prop
  | .base _ => True
  | .key input => ∀ offset ∈ relativeOutputOffsetsToAbsolute input.outputIndexes,
      ¬main.NamesCreated created .key input.amount offset
  | .multisignature input =>
      ¬main.NamesCreated created .multisignature input.amount input.outputIndex

/-- The transaction names no output of `created`, the transactions before it in its block. -/
def RefersBelow (main : MainChain) (created : List Transaction) (tx : Transaction) : Prop :=
  ∀ input ∈ tx.inputs, main.InputRefersBelow created input

variable (h : Located main.blocks main)
include h

theorem Located.leadsTo {number : Nat} {place : TransactionIndex × Nat}
    (hbelow : ¬main.NamesCreated created kind amount number)
    (hplace : ((MainChain.recordAll crypto main.blocks.length 0 created main).places kind
      amount)[number]? = some place) : LeadsTo main.blocks place kind amount := by
  rw [places_recordAll] at hplace
  have hlt := (List.getElem?_eq_some_iff.mp hplace).1
  rw [length_append, length_createdPlaces] at hlt
  have hold : number < (main.places kind amount).length := by
    by_contra hge
    exact hbelow ⟨not_lt.mp hge, hlt⟩
  rw [getElem?_append_left hold] at hplace
  exact h kind amount place (mem_of_getElem? hplace)

omit h in
/-- The transactions of a block under construction are not stored yet. -/
theorem transactionByIndex_recordAll (index : TransactionIndex) :
    (MainChain.recordAll crypto main.blocks.length 0 created main).transactionByIndex index =
      main.transactionByIndex index := by
  unfold transactionByIndex
  rw [recordAll_sameStorage.blocks]

/-- Reading the block of a recorded output throws exactly if the output is one of the block under
construction. -/
theorem Located.transactionByIndex_eq_error_iff {number : Nat} {place : TransactionIndex × Nat}
    {fault : Fault}
    (hplace : ((MainChain.recordAll crypto main.blocks.length 0 created main).places kind
      amount)[number]? = some place) :
    main.transactionByIndex place.1 = .error fault ↔
      fault = .exception ∧ main.NamesCreated created kind amount number := by
  by_cases hnames : main.NamesCreated created kind amount number
  · rw [places_recordAll, getElem?_append_right hnames.1] at hplace
    obtain ⟨i, -, -, hindex, -⟩ := mem_createdPlaces (mem_of_getElem? hplace)
    have hthrows : main.transactionByIndex place.1 = .error .exception := by
      simp [transactionByIndex, hindex]
    rw [hthrows]
    simp [hnames, eq_comm]
  · obtain ⟨tx', out, htx, -⟩ := h.leadsTo hnames hplace
    obtain ⟨entry, hentry, -⟩ := exists_entry_of_lookupTransaction htx
    simp [hentry, hnames]

/-- While a block is under construction, inputs that name nothing of it are looked up without a
fault. -/
theorem Located.avoids (fault : Fault) {input : TransactionInput}
    (hbelow : main.InputRefersBelow created input) :
    Avoids fault (.recordAll crypto main.blocks.length 0 created main) input := by
  cases input with
  | base input => trivial
  | key input =>
    intro offset hoffset index position hrow
    have hplace : ((MainChain.recordAll crypto main.blocks.length 0 created main).places .key
        input.amount)[offset]? = some (index, position) := hrow
    rw [transactionByIndex_recordAll]
    intro hfault
    exact hbelow offset hoffset ((h.transactionByIndex_eq_error_iff hplace).mp hfault).2
  | multisignature input =>
    intro usage husage
    have hplace : ((MainChain.recordAll crypto main.blocks.length 0 created main).places
        .multisignature input.amount)[input.outputIndex]? =
          some (usage.transactionIndex, usage.outputIndex) := by
      unfold places
      rw [getElem?_map, husage]
      rfl
    obtain ⟨tx', out, htx, hout, hkind, -⟩ := h.leadsTo hbelow hplace
    obtain ⟨entry, hentry, rfl⟩ := exists_entry_of_lookupTransaction htx
    rw [transactionByIndex_recordAll, hentry]
    refine ⟨fun heq => (by cases heq), fun entry' heq => ?_⟩
    cases heq
    unfold multisignatureOutputOf
    rw [hout]
    unfold TransactionOutput.kind at hkind
    cases htarget : out.target with
    | key key =>
      rw [htarget] at hkind
      cases hkind
    | multisignature target => simp [htarget]

theorem Located.resolves (hbelow : main.RefersBelow created tx) :
    ∀ input ∈ tx.inputs, Resolves (.recordAll crypto main.blocks.length 0 created main) input :=
  fun input hinput => h.avoids .exception (hbelow input hinput)

end MainChain

end DarknetCoin
