import DarknetCoin.Model.WalletOutputs
import DarknetCoin.Theorems.WordArithmetic
import Mathlib.Algebra.BigOperators.Group.List.Basic

/-!
# Splitting an amount into digits

The parts of an amount sum to it, and the dust among them is one part at most and does not exceed
the threshold. Once a digit did not fit into the dust, no later digit does: it stands for more.
-/

namespace DarknetCoin

open List Currency

theorem sum64_eq_mod (values : List Nat) : sum64 values = values.sum % word64 := by
  have hsum := foldl_words id (by decide : 0 < word64) fun value (_ : value ∈ values) total _ => rfl
  rwa [zero_add, map_id] at hsum

theorem sum64_of_lt {values : List Nat} (h : values.sum < word64) : sum64 values = values.sum :=
  (sum64_eq_mod values).trans (Nat.mod_eq_of_lt h)

theorem split_digit (amount k : Nat) :
    amount * 10 ^ k = amount / 10 * 10 ^ (k + 1) + amount % 10 * 10 ^ k := by
  rw [pow_succ, mul_comm (10 ^ k), ← mul_assoc, ← Nat.add_mul]
  congr 1
  omega

/-- An amount is split into dust and into digits from the place `k` on, none of which fits into the
dust. -/
structure Split (threshold amount k dust : Nat) (chunks : List Nat) : Prop where
  sum : dust + chunks.sum = amount
  dust_le : dust ≤ threshold
  above : ∀ chunk ∈ chunks, threshold < dust + chunk
  digits : ∃ digits : List (Nat × Nat), chunks = digits.map (fun d => d.1 * 10 ^ d.2) ∧
    (∀ d ∈ digits, k ≤ d.2 ∧ 1 ≤ d.1 ∧ d.1 ≤ 9) ∧ digits.Pairwise (·.2 < ·.2)

/-- What is handed to the two handlers. -/
def handedOut (handled : Bool) (dust : Nat) (chunks : List Nat) : List AmountPart :=
  (if !handled && dust ≠ 0 then [.dust dust] else []) ++ chunks.map .chunk

theorem map_handedOut (dust : Nat) (chunks : List Nat) :
    (handedOut false dust chunks).map AmountPart.amount =
    (if dust ≠ 0 then [dust] else []) ++ chunks := by
  have hchunks : (AmountPart.amount ∘ AmountPart.chunk) = id := rfl
  by_cases hdust : dust = 0 <;> simp [handedOut, hdust, hchunks, AmountPart.amount]

section Loop

variable {threshold : Nat}

theorem order_succ {amount k order dust : Nat} (hfits : amount * 10 ^ k + dust < word64)
    (horder : amount ≠ 0 → order = 10 ^ k) (hnext : amount / 10 ≠ 0) :
    mul64 order 10 = 10 ^ (k + 1) := by
  have hamt : 10 ≤ amount := by omega
  have hle : 10 * 10 ^ k ≤ amount * 10 ^ k := Nat.mul_le_mul_right _ hamt
  rw [horder (by omega), mul64_of_lt (by omega), pow_succ]

/-- The loop from the digit `k` on. Once a digit did not fit into the dust, no later digit does. -/
theorem split_decomposeParts (fuel : Nat) {amount k order dust : Nat} {handled : Bool}
    (hfuel : amount < 10 ^ fuel) (hfits : amount * 10 ^ k + dust < word64)
    (horder : amount ≠ 0 → order = 10 ^ k)
    (hdust : dust ≤ threshold) (hhandled : handled → threshold < dust + 10 ^ k) :
    ∃ dust' chunks, decomposeParts threshold (fuel + 1) amount order dust handled =
    handedOut handled dust' chunks ∧ (threshold < dust + 10 ^ k → dust' = dust) ∧
      Split threshold (amount * 10 ^ k + dust) k dust' chunks := by
  induction fuel generalizing amount k order dust handled with
  | zero =>
    obtain rfl : amount = 0 := by omega
    exact ⟨dust, [], by simp [decomposeParts, handedOut],
                          fun _ => rfl, by simp, hdust, by simp, [], by simp⟩
  | succ fuel ih =>
    rw [decomposeParts]
    by_cases hzero : amount = 0
    · subst hzero
      exact ⟨dust, [], by simp [handedOut], fun _ => rfl, by simp, hdust, by simp, [], by simp⟩
    have hsplit := split_digit amount k
    have hdigit : amount % 10 * 10 ^ k ≤ 9 * 10 ^ k := Nat.mul_le_mul_right _ (by omega)
    have hchunk : mul64 (amount % 10) order = amount % 10 * 10 ^ k := by
      rw [horder hzero, mul64_of_lt (by omega)]
    have hleft : amount / 10 < 10 ^ fuel := by omega
    dsimp only
    rw [if_neg hzero, hchunk, add64_of_lt (by omega)]
    split
    · -- a digit that fits where none should is the digit 0
      rename_i hfit
      have hnone : threshold < dust + 10 ^ k → amount % 10 * 10 ^ k = 0 := fun hclosed => by
        by_contra hne
        have hle := Nat.le_mul_of_pos_left (10 ^ k) (Nat.pos_of_ne_zero (left_ne_zero_of_mul hne))
        omega
      obtain ⟨dust', chunks, hparts, hsame, hsum, hle, habove, digits, hdigits, hplaces, hsorted⟩ :=
        @ih (amount / 10) (k + 1) (mul64 order 10) _ handled hleft (by omega)
          (order_succ hfits horder) hfit fun h => by have := hhandled h; omega
      refine ⟨dust', chunks, hparts, fun hclosed =>
        ?_, by omega, hle, habove, digits, hdigits, ?_, hsorted⟩
      · have hzero := hnone hclosed
        omega
      · exact fun d hd => (hplaces d hd).imp_left Nat.le_of_succ_le
    · next hover =>
      have hne : amount % 10 * 10 ^ k ≠ 0 := by omega
      obtain ⟨_, chunks, hparts, hsame, hsum, hle, habove, digits, rfl, hplaces, hsorted⟩ :=
        @ih (amount / 10) (k + 1) (mul64 order 10) dust (handled || dust ≠ 0) hleft (by omega)
          (order_succ hfits horder) hdust fun _ => by omega
      obtain rfl := hsame (by omega)
      refine ⟨_, amount % 10 * 10 ^ k :: _, ?_, fun _ => rfl, ?_, hle, ?_,
        (amount % 10, k) :: digits, rfl, ?_, ?_⟩
      · rw [hparts, if_pos hne]
        cases handled <;> simp [handedOut]
      · rw [sum_cons]
        omega
      · exact forall_mem_cons.mpr ⟨not_le.mp hover, habove⟩
      · refine forall_mem_cons.mpr
          ⟨⟨le_rfl, Nat.pos_of_ne_zero (left_ne_zero_of_mul hne), by omega⟩, fun d hd => ?_⟩
        exact (hplaces d hd).imp_left Nat.le_of_succ_le
      · exact pairwise_cons.mpr ⟨fun d hd => (hplaces d hd).1, hsorted⟩

end Loop

section

variable {amount : Nat} (h : amount < word64) (threshold : Nat)
include h

theorem split_decomposeAmountIntoDigits :
    ∃ dust chunks, decomposeAmountIntoDigits amount threshold = handedOut false dust chunks ∧
      Split threshold amount 0 dust chunks := by
  unfold decomposeAmountIntoDigits
  split
  · next hzero => exact ⟨0, [], rfl, by simp [hzero], Nat.zero_le _, by simp, [], by simp⟩
  · obtain ⟨dust, chunks, hparts, -, hsplit⟩ :=
      @split_decomposeParts threshold 20 amount 0 1 0 false
      (h.trans (by decide)) (by omega) (fun _ => rfl) (Nat.zero_le _) nofun
    rw [pow_zero, mul_one, add_zero] at hsplit
    exact ⟨dust, chunks, hparts, hsplit⟩

theorem sum_decomposeAmountIntoDigits :
    ((decomposeAmountIntoDigits amount threshold).map AmountPart.amount).sum = amount := by
  obtain ⟨dust, chunks, hparts, hsplit⟩ := split_decomposeAmountIntoDigits h threshold
  rw [hparts, ← hsplit.sum, map_handedOut]
  by_cases hdust : dust = 0 <;> simp [hdust]

/-- The dust of an amount does not exceed the threshold, and the chunks make up the rest. -/
theorem dust_decomposeAmountIntoDigits :
    ∃ dust ≤ threshold,
    ((decomposeAmountIntoDigits amount threshold).filterMap AmountPart.dust?).getLast?.getD 0 =
        dust ∧ ((decomposeAmountIntoDigits amount threshold).filterMap AmountPart.chunk?).sum +
        dust = amount := by
  obtain ⟨dust, chunks, hparts, hsplit⟩ := split_decomposeAmountIntoDigits h threshold
  have hchunks : (AmountPart.chunk? ∘ AmountPart.chunk) = some := rfl
  have hdusts : (AmountPart.dust? ∘ AmountPart.chunk) = fun _ => none := rfl
  rw [hparts, ← hsplit.sum, handedOut, filterMap_append, filterMap_append, filterMap_map,
    filterMap_map, hchunks, hdusts]
  refine ⟨dust, hsplit.dust_le, ?_⟩
  by_cases hdust : dust = 0 <;>
    simp [hdust, filterMap_cons, AmountPart.chunk?, AmountPart.dust?, add_comm]

theorem decomposeAmount_ne_zero : 0 ∉ decomposeAmount amount threshold := by
  obtain ⟨dust, chunks, hparts, hsplit⟩ := split_decomposeAmountIntoDigits h threshold
  rw [decomposeAmount, hparts, map_handedOut]
  have habove := hsplit.above 0
  have hdust := hsplit.dust_le
  grind

theorem sum_decomposeAmount : (decomposeAmount amount threshold).sum = amount := by
  rw [decomposeAmount, sum_decomposeAmountIntoDigits h]

end

namespace Wallet

/-- What a list of destinations is given. -/
def given (dsts : List TransactionDestinationEntry) : Nat := (dsts.map (·.amount)).sum

theorem given_append (dsts dsts' : List TransactionDestinationEntry) :
    given (dsts ++ dsts') = given dsts + given dsts' := by
  rw [given, map_append, sum_append]
  rfl

end Wallet

end DarknetCoin
