import Mathlib.Algebra.Order.BigOperators.Group.List
import DarknetCoin.Theorems.WordArithmetic
import DarknetCoin.Model.FormatUtils

/-!
# Interest and the overflow check

`check_inputs_overflow` allows every deposit input eleven percent of interest, a constant, while the
rates of the interest are parameters of the currency. Inputs that pass the check add up exactly as
long as the longest term earns no more than that.
-/

namespace DarknetCoin

open Currency List

/-- The amounts of the inputs are words. -/
def WordInputs (inputs : List TransactionInput) : Prop := ∀ input ∈ inputs, input.amount < word64

namespace Currency

variable (cur : Currency)

/-- The terms a deposit can have. -/
def DepositTerm (term : Nat) : Prop := cur.depositMinTerm ≤ term ∧ term ≤ cur.depositMaxTerm

/-- The deposit inputs have terms a deposit can have. -/
def DepositInputs (inputs : List TransactionInput) : Prop :=
  ∀ input, TransactionInput.multisignature input ∈ inputs → input.term ≠ 0 →
    cur.DepositTerm input.term

/-- The factor an amount is multiplied with for a term. -/
def interestFactor (term : Nat) : Nat :=
  (term * cur.depositMaxTotalRate - cur.depositMinTotalRateFactor) * 5000 / 1037

/-- The interest of a deposit, in unbounded arithmetic. -/
def exactInterest (amount term : Nat) : Nat :=
  amount * cur.interestFactor term / (1000 * cur.depositMaxTerm)

/-- The interest an input earns, in unbounded arithmetic. -/
def interestOf : TransactionInput → Nat
  | .multisignature input =>
    if input.term = 0 then 0 else cur.exactInterest input.amount input.term
  | _ => 0

/-- The two words `calculateInterest` has at its end, the high one first. -/
def interestWords (amount term : Nat) : Nat × Nat :=
  let a := sub64 (mul64 term cur.depositMaxTotalRate) cur.depositMinTotalRateFactor
  let a := mul64 a 5000 / 1037
  let (bLo, bHi) := mul128 amount a
  div128By32 bHi bLo (1000 * cur.depositMaxTerm % word32)

variable {cur}

theorem depositMaxTerm_mul_lt : 1000 * cur.depositMaxTerm < word32 := by
  have hlt := cur.depositMaxTerm_lt
  rw [word32]
  omega

theorem depositMaxTerm_mul_pos : 0 < 1000 * cur.depositMaxTerm := by
  have hmin := cur.depositMinTerm_pos
  have hle := cur.depositMinTerm_le
  omega

/-- The eleven percent of the overflow check cover the interest of the longest term. -/
structure Covers (cur : Currency) : Prop where
  longest : cur.interestFactor cur.depositMaxTerm ≤ 110 * cur.depositMaxTerm
  word : cur.depositMinTotalRateFactor < word64

/-- They do if the largest rate is at most twice as much. -/
theorem Covers.of_rate (hrate : cur.depositMaxTotalRate ≤ 22) : cur.Covers := by
  have hfactor := cur.depositRate_lt
  have hmin : cur.depositMinTerm * cur.depositMaxTotalRate ≤ cur.depositMaxTerm * 22 :=
    Nat.mul_le_mul cur.depositMinTerm_le hrate
  have hprod : cur.depositMaxTerm * cur.depositMaxTotalRate ≤ cur.depositMaxTerm * 22 :=
    Nat.mul_le_mul_left _ hrate
  have hmax := cur.depositMaxTerm_lt
  refine ⟨?_, ?_⟩
  · unfold interestFactor
    omega
  · rw [word64]
    omega

theorem interestFactor_mono {term term' : Nat} (hterm : term ≤ term') :
    cur.interestFactor term ≤ cur.interestFactor term' := by
  apply Nat.div_le_div_right
  apply Nat.mul_le_mul_right
  exact Nat.sub_le_sub_right (Nat.mul_le_mul_right _ hterm) _

section

variable (hcovers : cur.Covers) {amount term : Nat}

include hcovers

variable (hterm : term ≤ cur.depositMaxTerm)
include hterm

theorem interestFactor_le : cur.interestFactor term ≤ 110 * cur.depositMaxTerm :=
  (interestFactor_mono hterm).trans hcovers.longest

omit hterm in
theorem interestFactor_words (hterm : cur.DepositTerm term) :
    mul64 (sub64 (mul64 term cur.depositMaxTotalRate) cur.depositMinTotalRateFactor) 5000 / 1037 =
      cur.interestFactor term := by
  have hle := interestFactor_le hcovers hterm.2
  have hmax := cur.depositMaxTerm_lt
  have hpre := (cur.calculateInterestPre_of_bounds hterm.1 hterm.2).2.2.1
  have hword := hcovers.word
  rw [interestFactor] at hle ⊢
  rw [mul64.eq_def term]
  generalize term * cur.depositMaxTotalRate = product at hle hpre ⊢
  -- the product may be more than a word, but the difference is small
  have hdifference : sub64 (product % word64) cur.depositMinTotalRateFactor =
      product - cur.depositMinTotalRateFactor := by
    simp only [sub64, word64] at hword ⊢
    omega
  rw [hdifference, mul64_of_lt (by rw [word64]; omega)]

theorem interestFactor_lt : cur.interestFactor term < word64 := by
  have hle := interestFactor_le hcovers hterm
  have hmax : 1000 * cur.depositMaxTerm < word32 := depositMaxTerm_mul_lt
  rw [word32] at hmax
  rw [word64]
  omega

theorem exactInterest_le : cur.exactInterest amount term ≤ amount * 11 / 100 := by
  have hpos : 0 < 1000 * cur.depositMaxTerm := depositMaxTerm_mul_pos
  rw [Nat.le_div_iff_mul_le (by decide)]
  -- both sides times the divisor of the interest
  apply Nat.le_of_mul_le_mul_right _ hpos
  calc cur.exactInterest amount term * 100 * (1000 * cur.depositMaxTerm)
      = cur.exactInterest amount term * (1000 * cur.depositMaxTerm) * 100 := by ring
    _ ≤ amount * cur.interestFactor term * 100 := Nat.mul_le_mul_right 100 (Nat.div_mul_le_self _ _)
    _ ≤ amount * (110 * cur.depositMaxTerm) * 100 :=
        Nat.mul_le_mul_right 100 (Nat.mul_le_mul_left amount (interestFactor_le hcovers hterm))
    _ = amount * 11 * (1000 * cur.depositMaxTerm) := by ring

omit hterm

/-- `calculateInterest` ends with a zero high word and the exact interest in the low one. -/
theorem interestWords_eq (hamt : amount < word64) (hterm : cur.DepositTerm term) :
    cur.interestWords amount term = (0, cur.exactInterest amount term) := by
  have hfactor := interestFactor_lt hcovers hterm.2
  have hproduct : amount * cur.interestFactor term < word64 * word64 :=
    Nat.mul_lt_mul'' hamt hfactor
  have hinterest : cur.exactInterest amount term < word64 := by
    have hle := @exactInterest_le cur hcovers amount term hterm.2
    omega
  simp only [interestWords, interestFactor_words hcovers hterm, mul128_eq hamt hfactor,
    Nat.mod_eq_of_lt depositMaxTerm_mul_lt]
  rw [div128By32_eq (Nat.div_lt_of_lt_mul hproduct) (Nat.mod_lt _ (by decide))
    depositMaxTerm_mul_pos, Nat.div_add_mod']
  exact Prod.ext (Nat.div_eq_of_lt hinterest) (Nat.mod_eq_of_lt hinterest)

theorem calculateInterest_eq (hamt : amount < word64) (hterm : cur.DepositTerm term) :
    cur.calculateInterest amount term = cur.exactInterest amount term := by
  change (cur.interestWords amount term).2 = _
  rw [interestWords_eq hcovers hamt hterm]

end

theorem exactInterest_mono {amount amount' term term' : Nat} (hamt : amount ≤ amount')
    (hterm : term ≤ term') : cur.exactInterest amount term ≤ cur.exactInterest amount' term' := by
  exact Nat.div_le_div_right (Nat.mul_le_mul hamt (interestFactor_mono hterm))

variable {input : TransactionInput} {allowance : Nat} (hword : input.amount < word64)
include hword

/-- `getTransactionInputAmount` in exact arithmetic, as long as the sum fits. -/
theorem getTransactionInputAmount_eq (hcovers : cur.Covers) (hterms : cur.DepositInputs [input])
    (hfits : input.amount + cur.interestOf input < word64) :
    cur.getTransactionInputAmount input = input.amount + cur.interestOf input := by
  cases input with
  | base input => rfl
  | key input => rfl
  | multisignature input =>
    by_cases hterm : input.term = 0
    · simp [getTransactionInputAmount, interestOf, TransactionInput.amount, if_pos hterm]
    have heq := calculateInterest_eq hcovers hword (hterms input mem_cons_self hterm)
    simp only [getTransactionInputAmount, interestOf, TransactionInput.amount, if_neg hterm]
      at hfits ⊢
    rw [TransactionInput.amount] at heq
    rw [heq, add64_of_lt hfits]

/-- The allowance of the overflow check: eleven percent above the amount of a deposit input. -/
theorem inputOverflowAmount_eq (hallowed : inputOverflowAmount input = some allowance) :
    allowance < word64 ∧ allowance = input.amount + match input with
      | .multisignature input => if input.term = 0 then 0 else input.amount * 11 / 100
      | _ => 0 := by
  cases input with
  | base input =>
    cases hallowed
    exact ⟨by decide, rfl⟩
  | key input =>
    cases hallowed
    exact ⟨hword, rfl⟩
  | multisignature input =>
    rw [TransactionInput.amount] at hword
    by_cases hterm : input.term = 0
    · simp only [inputOverflowAmount, if_pos hterm, Option.some.injEq] at hallowed
      subst hallowed
      simp only [if_pos hterm]
      exact ⟨hword, rfl⟩
    · -- eleven percent fits in one word, so the two words of the quotient are zero and itself
      have heleven : input.amount * 11 / 100 < word64 := by omega
      have hdiv : div128By32 (input.amount * 11 / word64) (input.amount * 11 % word64) 100 =
          (0, input.amount * 11 / 100) := by
        rw [div128By32_eq (by rw [word64] at *; omega) (Nat.mod_lt _ (by decide)) (by decide),
          Nat.div_add_mod', Nat.div_eq_of_lt heleven, Nat.mod_eq_of_lt heleven]
      simp only [inputOverflowAmount, if_neg hterm, mul128_eq hword (show 11 < word64 by decide),
        hdiv, lt_irrefl, if_false] at hallowed
      split at hallowed
      · cases hallowed
      rename_i hroom
      have hfits : input.amount + input.amount * 11 / 100 < word64 := by
        omega
      rw [add64_of_lt hfits, Option.some.injEq] at hallowed
      simp only [TransactionInput.amount, if_neg hterm]
      omega

theorem le_inputOverflowAmount (hcovers : cur.Covers) (hterms : cur.DepositInputs [input])
    (hallowed : inputOverflowAmount input = some allowance) :
    input.amount + cur.interestOf input ≤ allowance ∧ allowance < word64 := by
  obtain ⟨hlt, heq⟩ := inputOverflowAmount_eq hword hallowed
  refine ⟨?_, hlt⟩
  rw [heq]
  apply Nat.add_le_add_left
  cases input with
  | multisignature input =>
    unfold interestOf
    dsimp only
    split
    · exact le_rfl
    · rename_i hterm
      exact exactInterest_le hcovers (hterms input mem_cons_self hterm).2
  | _ => exact le_rfl

end Currency

variable {cur : Currency}

variable {inputs : List TransactionInput}

theorem Currency.DepositInputs.of_mem {input : TransactionInput} (h : cur.DepositInputs inputs)
    (hinput : input ∈ inputs) : cur.DepositInputs [input] :=
  fun deposit hmem => h deposit (mem_singleton.mp hmem ▸ hinput)

/-- What the inputs spend with their interest, in unbounded arithmetic. -/
def Currency.inputsWithInterest (cur : Currency) (inputs : List TransactionInput) : Nat :=
  (inputs.map fun input => input.amount + cur.interestOf input).sum

/-- A successful overflow check bounds what the allowances cover. -/
theorem sum_lt_of_checkInputsOverflowFrom {part : TransactionInput → Nat} {money : Nat}
    (hparts : ∀ input ∈ inputs, ∀ allowance, inputOverflowAmount input = some allowance →
      part input ≤ allowance ∧ allowance < word64) (hmoney : money < word64)
    (hcheck : checkInputsOverflowFrom money inputs = true) : money + (inputs.map part).sum <
    word64 := by
  -- the sum read so far is the accumulator of the check
  induction inputs generalizing money with
  | nil => exact hmoney
  | cons input inputs ih =>
    obtain ⟨hfirst, hrest⟩ := forall_mem_cons.mp hparts
    unfold checkInputsOverflowFrom at hcheck
    split at hcheck
    · cases hcheck
    rename_i allowance hallowed
    obtain ⟨hle, hallowance⟩ := hfirst allowance hallowed
    split at hcheck
    · cases hcheck
    rename_i hcarry
    have hfits : money + allowance < word64 := by
      rw [add64_lt_iff hallowance hmoney] at hcarry
      omega
    rw [add64_of_lt hfits] at hcheck
    have hsum := ih hrest hfits hcheck
    rw [map_cons, sum_cons]
    omega

section

variable (hcovers : cur.Covers)

include hcovers

theorem inputsWithInterest_lt {inputs : List TransactionInput} {money : Nat}
    (hwords : WordInputs inputs) (hterms : cur.DepositInputs inputs) (hmoney : money < word64)
    (hcheck : checkInputsOverflowFrom money inputs = true) : money + cur.inputsWithInterest inputs <
    word64 := by
  refine sum_lt_of_checkInputsOverflowFrom (fun input hinput allowance => ?_) hmoney hcheck
  exact le_inputOverflowAmount (hwords input hinput) hcovers (hterms.of_mem hinput)

theorem getTransactionAllInputsAmount_eq {tx : Transaction}
    (hwords : WordInputs tx.inputs) (hterms : cur.DepositInputs tx.inputs)
    (hcheck : checkInputsOverflow tx = true) :
    cur.getTransactionAllInputsAmount tx = cur.inputsWithInterest tx.inputs := by
  have hlt := inputsWithInterest_lt hcovers hwords hterms (by decide) hcheck
  rw [getTransactionAllInputsAmount,
    foldl_words (fun input => input.amount + cur.interestOf input) (by decide)
    fun input hinput total _ => ?_]
  · exact (Nat.mod_eq_of_lt hlt).trans (zero_add _)
  -- what one input counts for is not above the sum
  have hle : input.amount + cur.interestOf input ≤ cur.inputsWithInterest tx.inputs :=
    le_sum_of_mem (mem_map_of_mem hinput)
  rw [getTransactionInputAmount_eq (hwords input hinput) hcovers (hterms.of_mem hinput) (by omega)]
  rfl

end

/-- A transaction that spends one deposit. -/
def depositSpend (amount term : Nat) : Transaction where
  version := 1
  unlockTime := 0
  inputs := [.multisignature ⟨amount, 1, 0, term⟩]
  outputs := []
  extra := []
  signatures := []

/-- The largest amount the overflow check lets a deposit have. -/
def largestDeposit : Nat := 16618688354693289744

theorem checkInputsOverflow_largestDeposit {term : Nat} (hterm : term ≠ 0) :
    checkInputsOverflow (depositSpend largestDeposit term) = true := by
  have hallowed : inputOverflowAmount (.multisignature ⟨largestDeposit, 1, 0, term⟩) =
      inputOverflowAmount (.multisignature ⟨largestDeposit, 1, 0, 1⟩) := by
    simp only [inputOverflowAmount, if_neg hterm, if_neg one_ne_zero]
  rw [checkInputsOverflow, depositSpend, checkInputsOverflowFrom, hallowed]
  decide +kernel

/-- If the longest term earns more than eleven percent, it earns more than a word has room for. -/
theorem word64_le_of_not_covered
    (h : 110 * cur.depositMaxTerm < cur.interestFactor cur.depositMaxTerm) :
    word64 ≤ largestDeposit + cur.exactInterest largestDeposit cur.depositMaxTerm := by
  have hpos : 0 < cur.depositMaxTerm := by
    have := @depositMaxTerm_mul_pos cur
    omega
  have hmax := cur.depositMaxTerm_lt
  have hinterest : (largestDeposit * 110 + 5000) / 1000 ≤
      cur.exactInterest largestDeposit cur.depositMaxTerm := by
    calc (largestDeposit * 110 + 5000) / 1000
        = (largestDeposit * 110 + 5000) * cur.depositMaxTerm / (1000 * cur.depositMaxTerm) :=
          (Nat.mul_div_mul_right _ _ hpos).symm
      _ ≤ largestDeposit * cur.interestFactor cur.depositMaxTerm / (1000 * cur.depositMaxTerm) := by
        apply Nat.div_le_div_right
        refine le_trans ?_ (Nat.mul_le_mul_left largestDeposit (Nat.succ_le_of_lt h))
        rw [largestDeposit]
        omega
  rw [largestDeposit] at hinterest ⊢
  rw [word64]
  omega

/-- Inputs that pass `check_inputs_overflow` have the exact sum of their amounts and interests, no
interest needs a second word, and interest is monotone: this holds for a currency exactly if a
deposit of the longest term earns eleven percent at most. -/
theorem inputs_overflow_check_covers_interest (cur : Currency)
    (hfactor : cur.depositMinTotalRateFactor < word64) :
    ((∀ tx : Transaction, WordInputs tx.inputs → cur.DepositInputs tx.inputs →
        checkInputsOverflow tx = true →
        cur.getTransactionAllInputsAmount tx =
          (tx.inputs.map TransactionInput.amount).sum + (tx.inputs.map cur.interestOf).sum ∧
        ∀ input, TransactionInput.multisignature input ∈ tx.inputs → input.term ≠ 0 →
          (cur.interestWords input.amount input.term).1 = 0 ∧
            cur.calculateInterest input.amount input.term =
              cur.exactInterest input.amount input.term) ∧
      ∀ amount amount' term term', amount ≤ amount' → amount' < word64 → term ≤ term' →
        cur.DepositTerm term → cur.DepositTerm term' →
        cur.calculateInterest amount term ≤ cur.calculateInterest amount' term') ↔
    (cur.depositMaxTerm * cur.depositMaxTotalRate - cur.depositMinTotalRateFactor) * 5000 / 1037 ≤
      110 * cur.depositMaxTerm := by
  constructor
  · intro ⟨hexact, _⟩
    by_contra hover
    have hlarge := word64_le_of_not_covered (Nat.lt_of_not_le hover)
    have hterm : cur.depositMaxTerm ≠ 0 := by
      have := @depositMaxTerm_mul_pos cur
      omega
    obtain ⟨hsum, -⟩ := hexact (depositSpend largestDeposit cur.depositMaxTerm)
      (forall_mem_singleton.mpr (show largestDeposit < word64 by decide))
      (fun input hmem _ => by
        obtain rfl := TransactionInput.multisignature.inj (mem_singleton.mp hmem)
        exact ⟨cur.depositMinTerm_le, le_rfl⟩)
      (checkInputsOverflow_largestDeposit hterm)
    -- the sum the code returns is a word
    have hword : cur.getTransactionAllInputsAmount
        (depositSpend largestDeposit cur.depositMaxTerm) < word64 := add64_lt _ _
    simp only [depositSpend, map_singleton, sum_singleton, interestOf, if_neg hterm,
      TransactionInput.amount] at hsum hword
    omega
  · intro hlongest
    have hcovers : cur.Covers := ⟨hlongest, hfactor⟩
    refine ⟨fun tx hwords hterms hcheck => ⟨?_, ?_⟩, ?_⟩
    · rw [getTransactionAllInputsAmount_eq hcovers hwords hterms hcheck, inputsWithInterest,
        sum_map_add]
    · intro input hmem hterm
      have hamt : input.amount < word64 := hwords _ hmem
      rw [calculateInterest_eq hcovers hamt (hterms input hmem hterm),
        interestWords_eq hcovers hamt (hterms input hmem hterm)]
      exact ⟨rfl, rfl⟩
    · intro amount amount' term term' hamt hword hterm hdeposit hdeposit'
      rw [calculateInterest_eq hcovers (by omega) hdeposit,
        calculateInterest_eq hcovers hword hdeposit']
      exact exactInterest_mono hamt hterm

/-- Spends half of the words with a key input, and a deposit held for the longest term. -/
def maturedTransaction : Transaction where
  version := 1
  unlockTime := 0
  inputs := [.key ⟨2 ^ 63, [0], 0⟩, .multisignature ⟨2000 * Currency.coin, 1, 0, 12 * 11000⟩]
  outputs := []
  extra := []
  signatures := []

theorem inputs_overflow_check_covers_interest_matured :
    checkInputsOverflow maturedTransaction = true ∧
      Currency.mainnet.getTransactionAllInputsAmount maturedTransaction =
        (2 ^ 63 + 2000 * Currency.coin) + 10045001515 := by
  have hcheck : checkInputsOverflow maturedTransaction = true := by decide +kernel
  have hwords : WordInputs maturedTransaction.inputs := by unfold WordInputs; decide +kernel
  have hterms : mainnet.DepositInputs maturedTransaction.inputs := by
    intro input hmem _
    simp only [maturedTransaction, mem_cons, reduceCtorEq, not_mem_nil, or_false,
      false_or, TransactionInput.multisignature.injEq] at hmem
    subst hmem
    exact ⟨by decide, by decide⟩
  refine ⟨hcheck, ?_⟩
  rw [(((inputs_overflow_check_covers_interest mainnet (by decide)).mpr (by decide)).1
    maturedTransaction hwords hterms hcheck).1]
  decide +kernel

/-- The currency of a test of `calculateInterest`. -/
def doubling : Currency :=
  { mainnet with
    depositMaxTotalRate := 100
    depositMinTotalRateFactor := 0
    depositMaxTerm := 100000
    depositMinTerm_le := by decide
    depositRate_lt := by decide
    depositMaxTerm_lt := by decide }

/-- A deposit passes the check, and its amount with the interest is more than a word. -/
theorem interest_overflows : checkInputsOverflow (depositSpend largestDeposit 100000) = true ∧
    largestDeposit + doubling.exactInterest largestDeposit 100000 = 6184812221390839539 + 2 ^ 64 ∧
    doubling.getTransactionAllInputsAmount (depositSpend largestDeposit 100000) =
    6184812221390839539 := by
  decide +kernel

end DarknetCoin
