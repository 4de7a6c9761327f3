import Mathlib.Algebra.Order.BigOperators.Group.List
import DarknetCoin.Model.BlockTemplate
import DarknetCoin.Theorems.DigitDecomposition

/-!
# Miner transactions of block templates

Reward and size of a miner transaction depend on each other. `get_block_template` looks for a size
at which both agree, and never leaves a window of bounded size above the transactions.
-/

namespace DarknetCoin

open Semantics Data List Currency Option

theorem varintSize_mono {m n : Nat} (h : m ≤ n) : varintSize m ≤ varintSize n := by
  refine Nat.add_le_add_left (countP_mono_left fun i _ hi => ?_) 1
  exact decide_eq_true ((of_decide_eq_true hi).trans h)

theorem varintSize_le_ten (n : Nat) : varintSize n ≤ 10 := by
  have hcount : ∀ p : Nat → Bool, (range 9).countP p ≤ 9 := fun p => countP_le_length
  exact Nat.add_le_add_left (hcount _) 1

theorem varintSize_le_two {n : Nat} (h : n < 16384) : varintSize n ≤ 2 :=
  (varintSize_mono (Nat.le_of_lt_succ h)).trans (by decide)

/-- Zeros in the extra field count as they are, and the length of the field may take more bytes. -/
theorem getObjectBinarySize_pad {tx : Transaction} (h : isSerializable tx = true) (count : Nat) :
    getObjectBinarySize (tx.pad count) + varintSize tx.extra.length =
      getObjectBinarySize tx + count + varintSize (tx.extra.length + count) := by
  have hpad : isSerializable (tx.pad count) = true := h
  unfold getObjectBinarySize
  rw [if_pos h, if_pos hpad]
  simp only [Transaction.pad, length_append, length_replicate]
  omega

theorem length_mergeLast_le (amounts : List Nat) : (mergeLast amounts).length ≤
    max 1 (amounts.length - 1) := by
  unfold mergeLast
  have hlen := @length_reverse _ amounts
  cases hreverse : amounts.reverse with rw [hreverse] at hlen
  | nil =>
    simp [← hlen]
  | cons last rest =>
    cases rest with
    | nil => simp [← hlen]
    | cons previous rest => simp [← hlen]

theorem length_mergeAmounts_le {maxOuts : Nat} (hpos : 1 ≤ maxOuts) (fuel : Nat)
    (amounts : List Nat)
    (hfuel : amounts.length ≤ maxOuts + fuel) : (mergeAmounts maxOuts fuel amounts).length ≤
    maxOuts := by
  induction fuel generalizing amounts with
  | zero => exact hfuel
  | succ fuel ih =>
    unfold mergeAmounts
    split
    · refine ih _ ((length_mergeLast_le amounts).trans ?_)
      omega
    · omega

/-- Merging keeps the sum, as long as it fits, and leaves no amount zero. -/
theorem mergeAmounts_kept (maxOuts fuel : Nat) {amounts : List Nat} (hfits : amounts.sum < word64)
    (hpos : 0 ∉ amounts) : (mergeAmounts maxOuts fuel amounts).sum = amounts.sum ∧
      0 ∉ mergeAmounts maxOuts fuel amounts := by
  induction fuel generalizing amounts with
  | zero => exact ⟨rfl, hpos⟩
  | succ fuel ih =>
    unfold mergeAmounts
    split
    · have hlast : (mergeLast amounts).sum = amounts.sum ∧ 0 ∉ mergeLast amounts := by
        unfold mergeLast
        split
        · next last previous rest hreverse =>
          obtain rfl := reverse_eq_iff.mp hreverse
          simp only [sum_reverse, sum_cons, mem_reverse, mem_cons] at hfits hpos ⊢
          rw [add64_of_lt (by omega)]
          grind
        · exact ⟨rfl, hpos⟩
      rw [← hlast.1] at hfits ⊢
      exact ih hfits hlast.2
    · exact ⟨rfl, hpos⟩

theorem length_minerExtra {key : PublicKey} {extraNonce extra : List UInt8}
    (h : minerExtra key extraNonce = some extra) :
    33 ≤ extra.length ∧ extra.length ≤ 35 + extraNonce.length ∧ extraNonce.length ≤ 255 := by
  unfold minerExtra at h
  split at h
  · rename_i hnil
    cases h
    simp [hnil]
  · split at h
    · cases h
    cases h
    simp
    omega

theorem minerOutputs_eq_some {keys : MinerKeys} {attempt : Nat} {amounts : List Nat}
    {outputs : List TransactionOutput} (h : minerOutputs keys attempt amounts = some outputs) :
    outputs.map TransactionOutput.amount = amounts ∧ ∀ out ∈ outputs, ∃ key, out.target =
    .key key := by
  unfold minerOutputs at h
  generalize 0 = start at h
  induction amounts generalizing outputs start with
  | nil =>
    cases h
    simp
  | cons amount amounts ih =>
    simp only [zipIdx_cons, mapM_cons, Option.bind_eq_bind, Option.bind_eq_some_iff,
      Option.map_eq_some_iff, Option.pure_def, Option.some.injEq] at h
    obtain ⟨out, ⟨key, _, rfl⟩, rest, hrest, rfl⟩ := h
    obtain ⟨hamounts, htargets⟩ := ih _ hrest
    refine ⟨by rw [map_cons, hamounts], fun other hother => ?_⟩
    rcases mem_cons.mp hother with rfl | hother
    · exact ⟨key, rfl⟩
    · exact htargets other hother

/-- The form of a transaction that `constructMinerTx` makes. -/
structure Transaction.Mined (extraNonce : List UInt8) (height maxOuts : Nat) (tx : Transaction) :
    Prop where
  version : tx.version = 1
  inputs : tx.inputs = [.base ⟨height⟩]
  signatures : tx.signatures = []
  outputs_length : tx.outputs.length ≤ maxOuts
  outputs_target : ∀ out ∈ tx.outputs, ∃ key, out.target = .key key
  extra_length : 33 ≤ tx.extra.length ∧ tx.extra.length ≤ 35 + extraNonce.length
  nonce_length : extraNonce.length ≤ 255

section

variable {cur : Currency} {height medianSize coins currentBlockSize fee attempt maxOuts : Nat}
  {keys : MinerKeys} {extraNonce : List UInt8} {tx : Transaction}
  (h : cur.constructMinerTx height medianSize coins currentBlockSize fee keys attempt extraNonce
    maxOuts = some tx)
include h

/-- A constructed transaction has the form of one, and its outputs have the reward. -/
theorem Currency.constructMinerTx_eq_some : tx.Mined extraNonce height maxOuts ∧ (∃ emission,
      cur.getBlockReward medianSize currentBlockSize coins fee height =
      some (getOutsMoneyAmount tx, emission)) ∧ ∃ rounds, tx.outputs.map TransactionOutput.amount =
        mergeAmounts maxOuts rounds
        (decomposeAmount (getOutsMoneyAmount tx) cur.defaultDustThreshold) := by
  obtain ⟨extra, hextra, h⟩ := bind_eq_some_iff.mp h
  obtain ⟨⟨reward, emission⟩, hreward, h⟩ := bind_eq_some_iff.mp h
  dsimp only at h
  split at h
  · cases h
  obtain ⟨outputs, houts, h⟩ := bind_eq_some_iff.mp h
  split at h
  · cases h
  rename_i hsum
  cases h
  obtain ⟨hamounts, htargets⟩ := minerOutputs_eq_some houts
  have hlen := length_minerExtra hextra
  have hpaid : outputs.foldl (fun amount out => add64 amount out.amount) 0 = reward := by
    rw [← not_not.mp hsum, ← hamounts, foldl_map]
  refine ⟨⟨rfl, rfl, rfl, ?_, htargets, ⟨hlen.1, hlen.2.1⟩, hlen.2.2⟩, ⟨emission, ?_⟩, ?_⟩
  · rw [← length_map TransactionOutput.amount, hamounts]
    exact length_mergeAmounts_le (by omega) _ _ (Nat.le_add_left _ _)
  · rw [hreward, getOutsMoneyAmount, hpaid]
  · rw [hamounts, getOutsMoneyAmount, hpaid]
    exact ⟨_, rfl⟩

end

/-- The digits of an amount, and the outputs of a miner transaction. -/
theorem amounts_decomposed {amount : Nat} (hamt : amount < word64) (threshold : Nat) :
    (∃ dust chunks, decomposeAmountIntoDigits amount threshold = handedOut false dust chunks ∧
      Split threshold amount 0 dust chunks) ∧
    ∀ (cur : Currency) (height medianSize coins currentBlockSize fee : Nat) (keys : MinerKeys)
    (attempt : Nat) (extraNonce : List UInt8) (maxOuts : Nat) (tx : Transaction),
      cur.constructMinerTx height medianSize coins currentBlockSize fee keys attempt extraNonce
      maxOuts = some tx →
      0 ∉ tx.outputs.map TransactionOutput.amount ∧ tx.outputs.length ≤ maxOuts ∧
      ∃ emission, cur.getBlockReward medianSize currentBlockSize coins fee height =
        some ((tx.outputs.map TransactionOutput.amount).sum, emission) := by
  refine ⟨split_decomposeAmountIntoDigits hamt threshold, ?_⟩
  intro cur height medianSize coins currentBlockSize fee keys attempt extraNonce maxOuts tx h
  obtain ⟨hmined, ⟨emission, hreward⟩, rounds, hamounts⟩ := constructMinerTx_eq_some h
  have hword : getOutsMoneyAmount tx < word64 := by
    have hwords := foldl_words TransactionOutput.amount (by decide : 0 < word64)
      fun (out : TransactionOutput) (_ : out ∈ tx.outputs) total _ =>
        (rfl : add64 total out.amount = _)
    rw [getOutsMoneyAmount, hwords]
    exact Nat.mod_lt _ (by decide)
  have hsum := sum_decomposeAmount hword cur.defaultDustThreshold
  obtain ⟨hkept, hne⟩ := mergeAmounts_kept maxOuts rounds (hsum.trans_lt hword)
    (decomposeAmount_ne_zero hword cur.defaultDustThreshold)
  rw [hamounts, hkept, hsum]
  exact ⟨hne, hmined.outputs_length, emission, hreward⟩

theorem amounts_decomposed_mainnet : ∃ tx, Currency.mainnet.constructMinerTx 5 0 0 0 7
      ⟨fun _ => 0, fun _ _ => some 0⟩ 0 [] 1 = some tx ∧ tx.outputs.length ≤ 1 := by
  obtain ⟨tx, htx⟩ := isSome_iff_exists.mp
    (by decide +kernel : (Currency.mainnet.constructMinerTx 5 0 0 0 7
    ⟨fun _ => 0, fun _ _ => some 0⟩ 0 [] 1).isSome)
  have hamounts := amounts_decomposed (by decide : 62387455827 < word64) 1000000
  exact ⟨tx, htx, (hamounts.2 _ _ _ _ _ _ _ _ _ _ _ htx).2.1⟩

namespace Transaction.Mined

variable {extraNonce : List UInt8} {height maxOuts : Nat} {tx : Transaction}

theorem isSerializable (h : tx.Mined extraNonce height maxOuts) : isSerializable tx = true := by
  simp [DarknetCoin.isSerializable, h.version, h.inputs, h.signatures, getSignaturesCount]

theorem sum_outputBinarySize_le (h : tx.Mined extraNonce height maxOuts) :
    (tx.outputs.map outputBinarySize).sum ≤ 43 * maxOuts := by
  have hsize : ∀ size ∈ tx.outputs.map outputBinarySize, size ≤ 43 := by
    intro size hsize
    obtain ⟨out, hout, rfl⟩ := mem_map.mp hsize
    obtain ⟨key, hkey⟩ := h.outputs_target out hout
    have hvarint := varintSize_le_ten out.amount
    simp only [outputBinarySize, hkey]
    omega
  calc (tx.outputs.map outputBinarySize).sum ≤ (tx.outputs.map outputBinarySize).length * 43 := by
        simpa using sum_le_card_nsmul _ 43 hsize
    _ ≤ 43 * maxOuts := by
        rw [length_map, mul_comm]
        exact Nat.mul_le_mul_left _ h.outputs_length

/-- Ten bytes at most for a varint, eleven outputs. -/
theorem getObjectBinarySize_le (h : tx.Mined extraNonce height 11) :
    getObjectBinarySize tx ≤ 534 + extraNonce.length := by
  unfold getObjectBinarySize
  rw [if_pos h.isSerializable, h.version, h.inputs, h.signatures]
  have hunlock := varintSize_le_ten tx.unlockTime
  have hheight := varintSize_le_ten height
  have houts := h.sum_outputBinarySize_le
  have hcount : varintSize tx.outputs.length ≤ 1 :=
    (varintSize_mono h.outputs_length).trans (by decide)
  have hextra := h.extra_length
  have hnonce := h.nonce_length
  have hlen := @varintSize_le_two tx.extra.length (by omega)
  have hone : varintSize 1 = 1 := rfl
  simp only [map_cons, map_nil, sum_cons, sum_nil, length_cons, length_nil, inputBinarySize, hone]
  omega

end Transaction.Mined

/-- The largest miner transaction of a template: the search can stop 189 bytes above the largest
transaction that is constructed, where the length of a padded extra field needs two bytes. -/
def minerTxMaxSize (extraNonce : List UInt8) : Nat := 723 + extraNonce.length

section Search

variable {construct : Nat → Nat → Option Transaction} {extraNonce : List UInt8}
  {height txsSize : Nat}

/-- The field is padded to exactly 128 bytes, so the size grows by less than the 95 bytes it was
padded with. -/
theorem delta_le_of_jump {built : Transaction} (hbuilt : built.Mined extraNonce height 11)
    {delta : Nat} (hwindow : getObjectBinarySize built + delta ≤ minerTxMaxSize extraNonce)
    (hjump : getObjectBinarySize (built.pad delta) = getObjectBinarySize built + delta + 1)
    (hshort : getObjectBinarySize (built.pad (delta - 1)) ≠ getObjectBinarySize built + delta) :
    delta ≤ 95 := by
  have hpad := getObjectBinarySize_pad hbuilt.isSerializable delta
  have hpad' := getObjectBinarySize_pad hbuilt.isSerializable (delta - 1)
  have hextra := hbuilt.extra_length
  have hnonce := hbuilt.nonce_length
  unfold minerTxMaxSize at hwindow
  by_contra hlarge
  have htwo := @varintSize_mono 128 (built.extra.length + (delta - 1)) (by omega)
  have htwo : 2 ≤ _ := le_trans (by decide) htwo
  have htwo' := @varintSize_le_two (built.extra.length + delta) (by omega)
  have hmono := @varintSize_mono (built.extra.length + (delta - 1)) (built.extra.length + delta)
    (by omega)
  omega

/-- A transaction that was constructed for its own size, with some padding. -/
def Fitted (construct : Nat → Nat → Option Transaction) (extraNonce : List UInt8) (txsSize : Nat)
    (tx : Transaction) : Prop :=
  ∃ attempt built count, construct attempt (txsSize + getObjectBinarySize tx) = some built ∧
    tx = built.pad count ∧ getObjectBinarySize tx ≤ minerTxMaxSize extraNonce

section

variable
  (hconstruct : ∀ attempt size tx, construct attempt size = some tx → tx.Mined extraNonce height 11)

include hconstruct

/-- The search keeps to its window, and stops where the size of the block is the one the transaction
was constructed for. -/
theorem fitMinerTx_eq_some {tries attempt cumulativeSize : Nat} {tx : Transaction}
    (hlower : txsSize ≤ cumulativeSize)
    (hupper : cumulativeSize ≤ txsSize + minerTxMaxSize extraNonce)
    (hfit : fitMinerTx construct txsSize tries attempt cumulativeSize = some tx) :
    Fitted construct extraNonce txsSize tx := by
  induction tries generalizing attempt cumulativeSize with
  | zero => cases hfit
  | succ tries ih =>
    unfold fitMinerTx at hfit
    split at hfit
    · cases hfit
    rename_i built hbuilt
    have hmined := hconstruct _ _ _ hbuilt
    have hsize := hmined.getObjectBinarySize_le
    -- the size at which the search stops
    have hstop : ∀ count, cumulativeSize = txsSize + getObjectBinarySize (built.pad count) →
        built.pad count = tx → Fitted construct extraNonce txsSize tx := by
      rintro count hcount rfl
      exact ⟨attempt, built, count, hcount ▸ hbuilt, rfl, by omega⟩
    dsimp only at hfit
    split at hfit
    · exact ih (Nat.le_add_right _ _) (by unfold minerTxMaxSize; omega) hfit
    split at hfit
    · rename_i hlarger
      split at hfit
      · rename_i hexact
        exact hstop _ hexact (some.inj hfit)
      split at hfit
      · cases hfit
      split at hfit
      · rename_i hexact
        exact hstop _ hexact (Option.some.inj hfit)
      rename_i hshort
      have hdelta := @delta_le_of_jump _ _ _ hmined
        (cumulativeSize - txsSize - getObjectBinarySize built) (by omega) (by omega) (by omega)
      exact ih (by omega) (by unfold minerTxMaxSize; omega) hfit
    · have hpad : built.pad 0 = built := by simp [Transaction.pad]
      exact hstop 0 (by rw [hpad]; omega) (hpad.trans (some.inj hfit))

theorem minerTransactionFor_eq_some {tx : Transaction}
    (hfit : minerTransactionFor construct txsSize = some tx) :
    Fitted construct extraNonce txsSize tx := by
  unfold minerTransactionFor at hfit
  split at hfit
  · cases hfit
  rename_i first hfirst
  have hsize := (hconstruct _ _ _ hfirst).getObjectBinarySize_le
  refine fitMinerTx_eq_some hconstruct (Nat.le_add_right _ _) ?_ hfit
  unfold minerTxMaxSize
  omega

end

end Search

end DarknetCoin
