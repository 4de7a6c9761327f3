import DarknetCoin.Model.WalletGreen
import DarknetCoin.Theorems.DigitDecomposition

/-!
# Drawing outputs from many addresses

Every round of the selection takes one output out of the lists, and a list is removed with its last
output. The ring of an output hides it among as many others as were asked for.
-/

namespace DarknetCoin

open Semantics List

namespace WalletGreen

variable {neededMoney dustThreshold : Nat} {draws : Nat → Nat × Nat}

/-- The outputs of the lists. -/
def gathered (walletOuts : List WalletOuts) : List OutputToTransfer :=
  walletOuts.flatMap fun addressOuts => addressOuts.outs.map (⟨·, addressOuts.wallet⟩)

/-- What a round does: one output leaves the lists. -/
structure Draws (s s' : Selection) (output : OutputToTransfer) : Prop where
  gathered : gathered s.walletOuts ~ output :: gathered s'.walletOuts
  nonempty : (∀ addressOuts ∈ s.walletOuts, addressOuts.outs ≠ []) →
    ∀ addressOuts ∈ s'.walletOuts, addressOuts.outs ≠ []

variable {s s' : Selection} {wallets : List WalletOuts}

theorem gathered_take {walletOuts : List WalletOuts} {i j : Nat} {addressOuts : WalletOuts}
    {out : TransactionOutputInformation} (haddress : walletOuts[i]? = some addressOuts)
    (hout : addressOuts.outs[j]? = some out) :
    gathered walletOuts ~ ⟨out, addressOuts.wallet⟩ :: gathered
      (if (addressOuts.outs.eraseIdx j).isEmpty then walletOuts.eraseIdx i
        else walletOuts.set i { addressOuts with outs := addressOuts.outs.eraseIdx j }) := by
  obtain ⟨hi, rfl⟩ := List.getElem?_eq_some_iff.mp haddress
  obtain ⟨hj, rfl⟩ := List.getElem?_eq_some_iff.mp hout
  have houts := (getElem_cons_eraseIdx_perm hj).symm.map
    fun out => (⟨out, walletOuts[i].wallet⟩ : OutputToTransfer)
  have hwallets : gathered walletOuts ~ walletOuts[i].outs.map (⟨·, walletOuts[i].wallet⟩) ++
      gathered (walletOuts.eraseIdx i) :=
    (getElem_cons_eraseIdx_perm hi).symm.flatMap_right _
  refine hwallets.trans ((houts.append_right _).trans (.cons _ ?_))
  split
  · next hempty => simp [isEmpty_iff.mp hempty]
  have hset : gathered (_ :: walletOuts.eraseIdx i) ~ gathered (walletOuts.set i _) :=
    (set_perm_cons_eraseIdx hi
      { walletOuts[i] with outs := walletOuts[i].outs.eraseIdx j }).symm.flatMap_right _
  exact hset

theorem draws_of_drawOutput {draw : Nat × Nat}
    (h : drawOutput dustThreshold draw s = .ok s') : ∃ output, Draws s s' output := by
  unfold drawOutput at h
  dsimp only at h
  split at h
  · cases h
  rename_i addressOuts haddress
  split at h
  · cases h
  rename_i out hout
  have hkept := gathered_take haddress hout
  have hnonempty : (∀ addressOuts ∈ s.walletOuts, addressOuts.outs ≠ []) → ∀ addressOuts' ∈
      (if (addressOuts.outs.eraseIdx (draw.2 % addressOuts.outs.length)).isEmpty then
        s.walletOuts.eraseIdx (draw.1 % s.walletOuts.length)
      else s.walletOuts.set (draw.1 % s.walletOuts.length)
        { addressOuts with outs := addressOuts.outs.eraseIdx (draw.2 % addressOuts.outs.length) }),
      addressOuts'.outs ≠ [] := by
    intro hall addressOuts' hmem
    split at hmem
    · exact hall _ (mem_of_mem_eraseIdx hmem)
    rename_i hrest
    rcases mem_or_eq_of_mem_set hmem with hmem | rfl
    · exact hall _ hmem
    · exact fun hnil => hrest (isEmpty_iff.mpr hnil)
  split at h <;> cases h <;> exact ⟨_, hkept, hnonempty⟩

variable {output : OutputToTransfer} {rounds : Nat} {dust : Bool}

theorem exists_drawOutput (draw : Nat × Nat) (hsome : s.walletOuts ≠ [])
    (hall : ∀ addressOuts ∈ s.walletOuts, addressOuts.outs ≠ []) :
    ∃ s', drawOutput dustThreshold draw s = .ok s' := by
  have hwallet : draw.1 % s.walletOuts.length < s.walletOuts.length :=
    Nat.mod_lt _ (length_pos_iff.mpr hsome)
  have houts : s.walletOuts[draw.1 % s.walletOuts.length].outs ≠ [] := hall _ (getElem_mem _)
  unfold drawOutput
  dsimp only
  rw [getElem?_eq_getElem hwallet]
  dsimp only
  rw [getElem?_eq_getElem (Nat.mod_lt _ (length_pos_iff.mpr houts))]
  dsimp only
  split <;> exact ⟨_, rfl⟩

theorem exists_drawOutputs {s : Selection} (hrounds : (gathered s.walletOuts).length < rounds)
    (hall : ∀ addressOuts ∈ s.walletOuts, addressOuts.outs ≠ []) :
    ∃ s', drawOutputs neededMoney dustThreshold draws rounds s = .ok s' := by
  induction rounds generalizing s with
  | zero => omega
  | succ rounds ih =>
    rw [drawOutputs]
    split
    · next hgoes =>
      obtain ⟨between, hdraw⟩ :=
        @exists_drawOutput dustThreshold s (draws rounds) (by simp_all) hall
      obtain ⟨output, hstep⟩ := draws_of_drawOutput hdraw
      have hlen := hstep.gathered.length_eq
      rw [length_cons] at hlen
      obtain ⟨s', hrest⟩ := ih (by omega) (hstep.nonempty hall)
      refine ⟨s', ?_⟩
      rw [hdraw]
      exact hrest
    · exact ⟨s, rfl⟩

theorem exists_selectTransfers (hall : ∀ addressOuts ∈ wallets, addressOuts.outs ≠ []) :
    ∃ result, selectTransfers neededMoney dust dustThreshold draws wallets = .ok result := by
  have hlen : (gathered wallets).length =
      (wallets.map fun addressOuts => addressOuts.outs.length).sum := by
    simp [gathered]
  obtain ⟨s, hloop⟩ := @exists_drawOutputs neededMoney dustThreshold draws _ ⟨0, dust, wallets, []⟩
    (Nat.lt_succ_of_le hlen.le) hall
  unfold selectTransfers
  dsimp only
  rw [hloop]
  dsimp only [bind, Except.bind]
  split
  · exact ⟨_, rfl⟩
  · split <;> exact ⟨_, rfl⟩

section Holdings

variable (cur : Currency) (age now : Nat)

/-- The visible outputs of a container that are unlocked, of whatever type. -/
def unlockedOutputs (c : TransfersContainer) : List TransactionOutputInformationEx :=
  c.availableTransfers.toList.filter fun t => t.visible ∧
    TransfersContainer.transferState cur age now c.currentHeight t.toTransferInformation = .unlocked

theorem balance_unlocked (c : TransfersContainer) :
    c.balance cur age now 0xff01 =
      ((unlockedOutputs cur age now c).map (·.amount)).sum % word64 := by
  have houtputs : c.getOutputs cur age now 0xff01 = unlockedOutputs cur age now c := by
    simp [TransfersContainer.getOutputs, unlockedOutputs, TransfersContainer.isIncludedAs_eq,
      TransfersContainer.TransferState.flag]
  rw [TransfersContainer.balance, houtputs, ← sum64_eq_mod, sum64, foldl_map]

theorem keyUnlocked_ne_nil (wallet : WalletRecord) : keyUnlocked cur age now wallet ≠ [] ↔
    ∃ t ∈ unlockedOutputs cur age now wallet.container,
      ∃ keyImage key, t.target = .key keyImage key := by
  have hkey (t : TransactionOutputInformationEx) (state : TransfersContainer.TransferState) :
      TransfersContainer.isIncludedAs t.toTransferInformation state 0x101 = true ↔
        state = .unlocked ∧ ∃ keyImage key, t.target = .key keyImage key := by
    unfold TransfersContainer.isIncludedAs
    cases t.target with
    | key => cases state <;> simp [TransfersContainer.TransferState.flag]
    | multisignature _ term =>
      dsimp only
      split <;> simp
  simp only [keyUnlocked, TransfersContainer.getOutputs, unlockedOutputs, ne_eq, map_eq_nil_iff,
    TransfersContainer.TransferState.flag]
  simp [hkey, and_assoc]

/-- A cached balance is that of the container when `updateBalance` last ran, at the time `last`
keeps. No output is drawn from an empty list exactly if each address whose unlocked outputs were
then worth anything has an unlocked key output now: the balance counts outputs of every type, the
lists are of key outputs. -/
theorem drawing_defined (w : WalletGreen) (last : WalletRecord → TransfersContainer × Nat)
    (hcached : ∀ wallet ∈ w.wallets,
      wallet.actualBalance = (last wallet).1.balance cur age (last wallet).2 0xff01) :
    ((∀ addressOuts ∈ w.pickWalletsWithMoney cur age now, addressOuts.outs ≠ []) ∧
      ∀ (neededMoney : Nat) (dust : Bool) (dustThreshold : Nat) (draws : Nat → Nat × Nat),
        ∃ result, selectTransfers neededMoney dust dustThreshold draws
          (w.pickWalletsWithMoney cur age now) = .ok result) ↔
    ∀ wallet ∈ w.wallets,
      word64 ∣ ((unlockedOutputs cur age (last wallet).2 (last wallet).1).map (·.amount)).sum ∨
      ∃ t ∈ unlockedOutputs cur age now wallet.container,
        ∃ keyImage key, t.target = .key keyImage key := by
  have hlists : (∀ addressOuts ∈ w.pickWalletsWithMoney cur age now, addressOuts.outs ≠ []) ↔
      ∀ wallet ∈ w.wallets, wallet.actualBalance = 0 ∨ keyUnlocked cur age now wallet ≠ [] := by
    simp only [pickWalletsWithMoney, forall_mem_map, mem_filter, and_imp, decide_eq_true_eq,
      or_iff_not_imp_left, ne_eq]
  have hcondition : (∀ wallet ∈ w.wallets,
      wallet.actualBalance = 0 ∨ keyUnlocked cur age now wallet ≠ []) ↔ _ :=
    forall₂_congr fun wallet hwallet => or_congr
      (by rw [hcached wallet hwallet, balance_unlocked, ← Nat.dvd_iff_mod_eq_zero])
      (keyUnlocked_ne_nil cur age now wallet)
  rw [← hcondition, ← hlists]
  exact ⟨And.left, fun hall => ⟨hall, fun _ _ _ _ => exists_selectTransfers hall⟩⟩

/-- An output in a block that is old enough. -/
def oldOutput (target : TransferTarget) : TransactionOutputInformationEx :=
  ⟨⟨⟨300000, 0, 0, 1, 2, target⟩, 0, 10, 0⟩, true⟩

/-- A wallet with one address that has one output. -/
def till (target : TransferTarget) : WalletGreen where
  wallets := [⟨5, 300000, 0, { TransfersContainer.empty with
    availableTransfers := .ofList [oldOutput target], currentHeight := 100 }⟩]
  distinct := pairwise_singleton _ _

theorem drawing_defined_till :
    ∃ result, selectTransfers 400000 true 100000 (fun _ => (0, 0))
      ((till (.key 3 4)).pickWalletsWithMoney .mainnet 6 0) = .ok result := by
  refine ((drawing_defined .mainnet 6 0 (till (.key 3 4))
    (fun wallet => (wallet.container, 0)) ?_).mpr ?_).2 400000 true 100000 fun _ => (0, 0)
  · intro wallet hwallet
    obtain rfl := mem_singleton.mp hwallet
    rfl
  · intro wallet hwallet
    obtain rfl := mem_singleton.mp hwallet
    exact .inr ⟨oldOutput (.key 3 4), mem_singleton_self _, 3, 4, rfl⟩

/-- With a multisignature output alone the balance is right, and the list of the address is
empty. -/
theorem drawing_from_empty_list :
    (∀ wallet ∈ (till (.multisignature 1 0)).wallets,
      wallet.actualBalance = wallet.container.balance .mainnet 6 0 0xff01) ∧
    (till (.multisignature 1 0)).pickWalletsWithMoney .mainnet 6 0 = [⟨5, []⟩] ∧
    selectTransfers 400000 true 100000 (fun _ => (0, 0))
      ((till (.multisignature 1 0)).pickWalletsWithMoney .mainnet 6 0) = .error .undefined := by
  refine ⟨fun wallet hwallet => ?_, rfl, rfl⟩
  obtain rfl := mem_singleton.mp hwallet
  rfl

end Holdings

end WalletGreen

/-- Outputs of the node for an input: they are different, and those that are the real one or whose
index is cut are no more than those beyond `mixIn`. -/
structure Usable (mixIn : Nat) (td : TransactionOutputInformation) (outs : List OutEntry) :
    Prop where
  distinct : (outs.map (·.globalAmountIndex)).Nodup
  spare : outs.countP (fun out => td.globalOutputIndex = out.globalAmountIndex ∨
    word32 ≤ out.globalAmountIndex) ≤ outs.length - mixIn

/-- The real output is at its position among `mixIn` others, in the order of their indices. -/
structure Hidden (mixIn : Nat) (td : TransactionOutputInformation) (info : InputKeyInfo) :
    Prop where
  decoys : (info.outputs.eraseIdx info.transactionIndex).length = mixIn ∧
    ∀ output ∈ info.outputs.eraseIdx info.transactionIndex, output.outputIndex ≠
      td.globalOutputIndex
  real : info.outputs[info.transactionIndex]? = some ⟨td.target.outputKey, td.globalOutputIndex⟩
  increasing : info.outputs.Pairwise fun a b => a.outputIndex < b.outputIndex

section Rings

variable {mixIn real : Nat} {td : TransactionOutputInformation} {outs : List OutEntry}
  {outputs : List GlobalOutput}

/-- The loop takes the first `mixIn` outputs that are not the real one. -/
theorem mixOutputs_eq (h : outputs.length < mixIn) :
    mixOutputs mixIn real outputs outs = outputs ++ ((outs.filter (real ≠ ·.globalAmountIndex)).take
      (mixIn - outputs.length)).map fun out => ⟨out.outKey, out.globalAmountIndex % word32⟩ := by
  induction outs generalizing outputs with
  | nil => simp [mixOutputs]
  | cons out outs ih =>
    obtain ⟨left, hleft⟩ : ∃ left, mixIn - outputs.length = left + 1 :=
      ⟨_, (Nat.succ_pred (by omega)).symm⟩
    rw [mixOutputs]
    split
    · next hreal => rw [ih h, filter_cons_of_neg (by simpa using hreal)]
    rename_i hother
    rw [filter_cons_of_pos (by simpa using hother), hleft, take_succ_cons, map_cons]
    dsimp only
    split
    · next hfull =>
      obtain rfl : left = 0 := by
        rw [length_append, length_singleton] at hfull
        omega
      simp
    · next hmore =>
      rw [ih (not_le.mp hmore), length_append, length_singleton, append_assoc, singleton_append,
        show mixIn - (outputs.length + 1) = left by omega]

theorem lt_of_mem_take {n : Nat}
    (h : outs.Pairwise fun a b => a.globalAmountIndex < b.globalAmountIndex)
    (hn : n ≤ outs.countP (·.globalAmountIndex < word32)) :
    ∀ out ∈ outs.take n, out.globalAmountIndex < word32 := by
  induction outs generalizing n with
  | nil => simp
  | cons first outs ih =>
    obtain ⟨hfirst, hrest⟩ := pairwise_cons.mp h
    cases n with
    | zero => simp
    | succ n =>
      by_cases hlt : first.globalAmountIndex < word32
      · rw [countP_cons_of_pos (by simpa using hlt)] at hn
        rw [take_succ_cons, forall_mem_cons]
        exact ⟨hlt, ih hrest (Nat.le_of_succ_le_succ hn)⟩
      · -- then no later index is smaller either
        have hnone : outs.countP (·.globalAmountIndex < word32) = 0 := by
          rw [countP_eq_zero]
          intro out hout
          have := hfirst out hout
          simp only [decide_eq_true_eq]
          omega
        rw [countP_cons_of_neg (by simpa using hlt), hnone] at hn
        omega

/-- The real output goes before the first one with a larger index. -/
theorem pairwise_insertIdx {output : GlobalOutput}
    (hne : ∀ o ∈ outputs, o.outputIndex ≠ output.outputIndex)
    (h : outputs.Pairwise fun a b => a.outputIndex < b.outputIndex) :
    (outputs.insertIdx
      (outputs.findIdx fun o => output.outputIndex ≤ o.outputIndex) output).Pairwise
      fun a b => a.outputIndex < b.outputIndex := by
  induction outputs with
  | nil => simp
  | cons first outputs ih =>
    obtain ⟨hfirst, hrest⟩ := pairwise_cons.mp h
    rw [findIdx_cons]
    by_cases hle : output.outputIndex ≤ first.outputIndex
    · have hlt := hle.lt_of_ne (hne first mem_cons_self).symm
      simpa [hle, hlt, hrest] using ⟨fun o ho => hlt.trans (hfirst o ho), hfirst⟩
    simp only [hle, decide_false, cond_false, insertIdx_succ_cons, pairwise_cons]
    refine ⟨fun o ho => ?_, ih (fun o ho => hne o (mem_cons_of_mem _ ho)) hrest⟩
    rcases eq_or_mem_of_mem_insertIdx ho with rfl | ho
    · exact not_le.mp hle
    · exact hfirst o ho

/-- A list with enough usable outputs hides the real one. -/
theorem hidden_prepareInput (hmixIn : 0 < mixIn) (hcheck : mixIn ≤ outs.length)
    (h : Usable mixIn td outs) : Hidden mixIn td (prepareInput mixIn td outs) := by
  let le := fun a b : OutEntry => a.globalAmountIndex ≤ b.globalAmountIndex
  let sorted := outs.insertionSort le
  let others := sorted.filter (td.globalOutputIndex ≠ ·.globalAmountIndex)
  have hperm : sorted ~ outs := perm_insertionSort le outs
  have hsorted : others.Pairwise fun a b => a.globalAmountIndex < b.globalAmountIndex := by
    have : Std.Total le := ⟨fun a b => Nat.le_total ..⟩
    have : IsTrans OutEntry le := ⟨fun _ _ _ => Nat.le_trans⟩
    have hne := pairwise_map.mp ((hperm.map _).nodup_iff.mpr h.distinct)
    exact (((pairwise_insertionSort le outs).and hne).imp fun ⟨hle, hne⟩ =>
      hle.lt_of_ne hne).filter _
  have henough : mixIn ≤ others.countP (·.globalAmountIndex < word32) := by
    have hsplit := outs.length_eq_countP_add_countP fun out =>
      td.globalOutputIndex = out.globalAmountIndex ∨ word32 ≤ out.globalAmountIndex
    have hspare := h.spare
    rw [countP_filter, hperm.countP_eq, countP_congr (q := fun out =>
      ¬(decide (td.globalOutputIndex = out.globalAmountIndex ∨ word32 ≤ out.globalAmountIndex)) =
        true)
      (by simp [and_comm])]
    omega
  have hmixed := @mixOutputs_eq mixIn td.globalOutputIndex sorted [] hmixIn
  rw [nil_append, length_nil, Nat.sub_zero] at hmixed
  have hne : ∀ o ∈ mixOutputs mixIn td.globalOutputIndex [] sorted, o.outputIndex ≠
      td.globalOutputIndex := by
    rw [hmixed]
    intro o ho
    obtain ⟨out, hout, rfl⟩ := mem_map.mp ho
    rw [Nat.mod_eq_of_lt (lt_of_mem_take hsorted henough out hout)]
    exact Ne.symm (by simpa using (mem_filter.mp (mem_of_mem_take hout)).2)
  refine ⟨⟨?_, ?_⟩, ?_, pairwise_insertIdx hne ?_⟩
  · rw [prepareInput, eraseIdx_insertIdx_self, hmixed, length_map, length_take]
    exact min_eq_left (henough.trans countP_le_length)
  · rw [prepareInput, eraseIdx_insertIdx_self]
    exact hne
  · rw [prepareInput, getElem?_insertIdx_self, if_pos findIdx_le_length]
  · rw [hmixed, pairwise_map]
    refine (hsorted.sublist (take_sublist ..)).imp_of_mem fun ha hb hlt => ?_
    -- no index is cut
    rw [Nat.mod_eq_of_lt (lt_of_mem_take hsorted henough _ ha),
      Nat.mod_eq_of_lt (lt_of_mem_take hsorted henough _ hb)]
    exact hlt

variable {selected : List TransactionOutputInformation} {before lists more : List (List OutEntry)}

theorem prepareKeyInputs_eq (hlen : selected.length = lists.length) :
    prepareKeyInputs mixIn (before ++ (lists ++ more)) before.length selected =
      some (zipWith (prepareInput mixIn) selected lists) := by
  induction selected generalizing before lists with
  | nil => simp [prepareKeyInputs]
  | cons td selected ih =>
    obtain ⟨outs, lists, rfl⟩ := exists_cons_of_length_eq_add_one hlen.symm
    have hrest := @ih (before ++ [outs]) lists (Nat.succ.inj hlen)
    rw [append_assoc, singleton_append, length_append, length_singleton] at hrest
    rw [prepareKeyInputs, cons_append, hrest]
    simp

theorem exists_rings (hmixIn : 0 < mixIn) (hcheck : ∀ outs ∈ lists, mixIn ≤ outs.length)
    (h : Forall₂ (Usable mixIn) selected lists) : ∃ infos,
      prepareKeyInputs mixIn (lists ++ more) 0 selected = some infos ∧
      Forall₂ (Hidden mixIn) selected infos := by
  refine ⟨_, @prepareKeyInputs_eq mixIn selected [] lists more h.length_eq, ?_⟩
  induction h with
  | nil => exact .nil
  | cons hfirst _ ih =>
    obtain ⟨hone, hrest⟩ := forall_mem_cons.mp hcheck
    exact .cons (hidden_prepareInput hmixIn hone hfirst) (ih hrest)

end Rings

/-- A payment whose lists pass the check hides every output it spends; lists that are left over are
not read. -/
theorem payment_rings {mixIn : Nat} (hmixIn : 0 < mixIn)
    {selected : List TransactionOutputInformation} {outs more : List (List OutEntry)}
    (hcheck : Wallet.checkIfEnoughMixins ((outs ++ more).map length) mixIn = true)
    (h : Forall₂ (Usable mixIn) selected outs) : ∃ infos,
      prepareKeyInputs mixIn (outs ++ more) 0 selected = some infos ∧
      Forall₂ (Hidden mixIn) selected infos := by
  refine exists_rings hmixIn (fun list hlist => ?_) h
  simp only [Wallet.checkIfEnoughMixins, all_eq_true] at hcheck
  simpa using hcheck _ (mem_map_of_mem (mem_append_left _ hlist))

/-- An output with index 5. -/
def hiddenOutput : TransactionOutputInformation := ⟨100, 5, 0, 1, 2, .key 3 4⟩

theorem payment_rings_two : ∃ infos, prepareKeyInputs 1 [[⟨5, 4⟩, ⟨7, 6⟩]] 0 [hiddenOutput] =
    some infos ∧ Forall₂ (Hidden 1) [hiddenOutput] infos :=
  @payment_rings 1 (by decide) _ [[⟨5, 4⟩, ⟨7, 6⟩]] [] (by decide)
    (.cons ⟨by decide, by decide⟩ .nil)

/-- The node sends the real output alone, and the ring has no other. -/
theorem payment_not_hidden : Wallet.checkIfEnoughMixins [1] 1 = true ∧
    (prepareKeyInputs 1 [[⟨5, 4⟩]] 0 [hiddenOutput]).map (·.map (·.outputs)) = some [[⟨4, 5⟩]] := by
  decide

/-- The same for a wallet of many addresses. -/
theorem transfer_rings {mixIn : Nat} (hmixIn : 0 < mixIn) {selected : List OutputToTransfer}
    {mixinResult : List (List OutEntry)} {error : Bool}
    (hrequest : WalletGreen.requestMixinOuts mixIn ⟨error, mixinResult.map length⟩ = .ok ())
    (h : Forall₂ (Usable mixIn) (selected.map (·.out)) mixinResult) :
    ∃ infos, WalletGreen.prepareInputs selected mixinResult mixIn = some infos ∧
      Forall₂ (Hidden mixIn) (selected.map (·.out)) (infos.map (·.1)) := by
  have hcheck : ∀ outs ∈ mixinResult, mixIn ≤ outs.length := by
    unfold WalletGreen.requestMixinOuts at hrequest
    rw [if_neg hmixIn.ne'] at hrequest
    split at hrequest
    · cases hrequest
    · next hsizes => simpa using hsizes
  obtain ⟨infos, hprepared, hhidden⟩ := @exists_rings mixIn _ _ [] hmixIn hcheck h
  rw [append_nil] at hprepared
  refine ⟨infos.zip (selected.map (·.wallet)), by
    rw [WalletGreen.prepareInputs, hprepared]; rfl, ?_⟩
  rwa [map_fst_zip (by simpa using hhidden.length_eq.ge)]

theorem transfer_rings_two : ∃ infos,
    WalletGreen.prepareInputs [⟨hiddenOutput, 8⟩] [[⟨5, 4⟩, ⟨7, 6⟩]] 1 = some infos ∧
      Forall₂ (Hidden 1) [hiddenOutput] (infos.map (·.1)) :=
  @transfer_rings 1 (by decide) _ _ false rfl (.cons ⟨by decide, by decide⟩ .nil)

theorem transfer_not_hidden : WalletGreen.requestMixinOuts 1 ⟨false, [1]⟩ = .ok () ∧
    (WalletGreen.prepareInputs [⟨hiddenOutput, 8⟩] [[⟨5, 4⟩]] 1).map (·.map (·.1.outputs)) =
    some [[⟨4, 5⟩]] :=
  ⟨rfl, rfl⟩

end DarknetCoin
