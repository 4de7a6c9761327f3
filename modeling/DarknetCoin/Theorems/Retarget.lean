import Mathlib.Algebra.Order.Floor.Div
import DarknetCoin.Data.OrderStatistics
import DarknetCoin.Model.Currency
import DarknetCoin.Theorems.WordArithmetic

/-!
# Finding the difficulty

The difficulty of the next block is the work of the blocks that are left when the outliers are cut
off, scaled to the time they took, rounded up, and zero where this does not fit in a word. As many
timestamps as are cut off at either end can be replaced, and the two that are used stay between
their neighbours.
-/

namespace DarknetCoin

open Data List

namespace Currency

variable (cur : Currency)

/-- The number of blocks that are left when the outliers are cut off. -/
def difficultyKept : Nat := cur.difficultyWindow - 2 * cur.difficultyCut

/-- `cutBegin` of `nextDifficulty`, for a number of blocks. -/
def cutBegin (length : Nat) : Nat :=
  if length ≤ cur.difficultyKept then 0 else (length - cur.difficultyKept + 1) / 2

/-- `cutEnd` of `nextDifficulty`. -/
def cutEnd (length : Nat) : Nat :=
  if length ≤ cur.difficultyKept then length else cur.cutBegin length + cur.difficultyKept

/-- The timestamps `nextDifficulty` looks at, sorted. -/
def windowTimes (timestamps : List Nat) : List Nat :=
  (timestamps.take cur.difficultyWindow).insertionSort (· ≤ ·)

variable {cur} {length : Nat}

theorem cut_bounds (hlen : 2 ≤ length) :
    cur.cutBegin length + 2 ≤ cur.cutEnd length ∧ cur.cutEnd length ≤ length := by
  have hcut := cur.difficultyCut_le
  by_cases hfew : length ≤ cur.difficultyKept
  · simp only [cutEnd, cutBegin, if_pos hfew]
    omega
  · simp only [cutEnd, cutBegin, if_neg hfew]
    rw [difficultyKept] at hfew ⊢
    omega

theorem cutBegin_le (n : Nat) : min (cur.cutBegin (min n cur.difficultyWindow))
    (n - cur.cutEnd (min n cur.difficultyWindow)) ≤
    min n cur.difficultyWindow - cur.cutEnd (min n cur.difficultyWindow) := by
  have hcut := cur.difficultyCut_le
  rcases Nat.le_total n cur.difficultyWindow with hle | hle
  · rw [Nat.min_eq_left hle]
    exact min_le_right _ _
  rw [Nat.min_eq_right hle]
  have hmany : ¬ cur.difficultyWindow ≤ cur.difficultyKept ∨ cur.difficultyCut = 0 := by
    rw [difficultyKept]
    omega
  rcases hmany with hmany | hnone
  · simp only [cutEnd, cutBegin, if_neg hmany]
    rw [difficultyKept] at hmany ⊢
    omega
  · simp [cutBegin, difficultyKept, hnone]

end Currency

/-- The end of `nextDifficulty`. -/
def roundedQuotient (work target timeSpan : Nat) : Nat :=
  let (low, high) := mul128 work target
  let sum := sub64 (add64 low timeSpan) 1
  if high ≠ 0 || sum < low then 0 else sum / timeSpan

/-- The sum that rounds up wraps around exactly when it does not fit in a word. -/
theorem roundedQuotient_eq {work target timeSpan : Nat} (hwork : work < word64)
    (htarget : target < word64) (hspan : 0 < timeSpan) (hfits : timeSpan < word64) :
    roundedQuotient work target timeSpan = if work * target + timeSpan - 1 < word64 then
    (work * target) ⌈/⌉ timeSpan else 0 := by
  rw [roundedQuotient, mul128_eq hwork htarget, Nat.ceilDiv_eq_add_pred_div]
  generalize work * target = product
  by_cases hsmall : product < word64
  · rw [Nat.mod_eq_of_lt hsmall, Nat.div_eq_of_lt hsmall]
    have hsum : sub64 (add64 product timeSpan) 1 = (product + timeSpan - 1) % word64 := by
      simp only [sub64, add64, word64] at hsmall hfits ⊢
      omega
    simp only [hsum, ne_eq, not_true_eq_false, decide_false, Bool.false_or, decide_eq_true_eq]
    by_cases hsum : product + timeSpan - 1 < word64
    · rw [Nat.mod_eq_of_lt hsum, if_pos hsum, if_neg (by omega)]
    rw [if_neg hsum, if_pos]
    rw [Nat.mod_eq_sub_mod (by omega), Nat.mod_eq_of_lt (by omega)]
    omega
  · have hhigh : product / word64 ≠ 0 := by
      rw [Nat.div_ne_zero_iff]
      exact ⟨by decide, not_lt.mp hsmall⟩
    simp only [ne_eq, hhigh, not_false_eq_true, decide_true, Bool.true_or, if_true]
    rw [if_neg (by omega)]

/-- What `mul128` asserts of the product of the high half-words. -/
theorem hiDword_mul_le_mul128 {a b : Nat} (ha : a < word64) (hb : b < word64) :
    hiDword a * hiDword b ≤ (mul128 a b).2 := by
  rw [mul128_eq ha hb, Nat.le_div_iff_mul_le (by decide)]
  calc hiDword a * hiDword b * word64 = hiDword a * word32 * (hiDword b * word32) := by
        rw [show word64 = word32 * word32 by rfl]
        ring
    _ ≤ a * b := Nat.mul_le_mul (Nat.div_mul_le_self a _) (Nat.div_mul_le_self b _)

namespace Currency

variable {cur : Currency} {timestamps timestamps' cumulativeDifficulties : List Nat} {i j k : Nat}

theorem length_windowTimes : (cur.windowTimes timestamps).length =
    min timestamps.length cur.difficultyWindow := by
  rw [windowTimes, length_insertionSort, length_take, Nat.min_comm]

theorem windowTimes_le (hij : i ≤ j) (hj : j < (cur.windowTimes timestamps).length) :
    (cur.windowTimes timestamps).getD i 0 ≤ (cur.windowTimes timestamps).getD j 0 := by
  rw [getD_eq_getElem _ _ (hij.trans_lt hj), getD_eq_getElem _ _ hj]
  exact sortedLE_insertionSort.getElem_le_getElem_of_le hij

theorem windowTimes_lt (htimes : ∀ t ∈ timestamps, t < word64) (i : Nat) :
    (cur.windowTimes timestamps).getD i 0 < word64 := by
  by_cases hi : i < (cur.windowTimes timestamps).length
  · rw [getD_eq_getElem _ _ hi]
    have hmem : (cur.windowTimes timestamps)[i] ∈ timestamps.take cur.difficultyWindow :=
      (mem_insertionSort _).mp (getElem_mem hi)
    exact htimes _ (mem_of_mem_take hmem)
  · rw [getD_eq_default _ _ (not_lt.mp hi)]
    decide

theorem windowTimes_of_replaced (hlength : timestamps'.length = timestamps.length)
    (hreplaced : replaced timestamps timestamps' ≤ k) (hk : k ≤ i)
    (hi : i + k < min timestamps.length cur.difficultyWindow) :
    (cur.windowTimes timestamps).getD (i - k) 0 ≤ (cur.windowTimes timestamps').getD i 0 ∧
      (cur.windowTimes timestamps').getD i 0 ≤ (cur.windowTimes timestamps).getD (i + k) 0 := by
  have hsame : (timestamps.take cur.difficultyWindow).length =
      (timestamps'.take cur.difficultyWindow).length := by
    rw [length_take, length_take, hlength]
  have hfew : replaced (timestamps.take cur.difficultyWindow)
      (timestamps'.take cur.difficultyWindow) ≤ k :=
    replaced_take_le.trans hreplaced
  have hlen : (timestamps.take cur.difficultyWindow).length =
      min timestamps.length cur.difficultyWindow := by
    rw [length_take, Nat.min_comm]
  constructor
  · have hplace : i - k + k = i := Nat.sub_add_cancel hk
    rw [replaced_comm] at hfew
    rw [windowTimes, ← hplace, Nat.add_sub_cancel]
    exact getD_insertionSort_le_of_replaced hsame.symm hfew (by omega)
  · exact getD_insertionSort_le_of_replaced hsame hfew (by omega)

theorem nextDifficulty_eq (hmany : 2 ≤ i) (hi : (timestamps.take cur.difficultyWindow).length = i) :
    cur.nextDifficulty timestamps cumulativeDifficulties =
      roundedQuotient
      (sub64 ((cumulativeDifficulties.take cur.difficultyWindow).getD (cur.cutEnd i - 1) 0)
          ((cumulativeDifficulties.take cur.difficultyWindow).getD (cur.cutBegin i) 0))
          cur.difficultyTarget
        (max 1 (sub64 ((cur.windowTimes timestamps).getD (cur.cutEnd i - 1) 0)
          ((cur.windowTimes timestamps).getD (cur.cutBegin i) 0))) := by
  subst hi
  exact if_neg (by omega)

/-- The difficulty of the next block is the work of the blocks that count, scaled to the time they
took and rounded up; it is zero if it does not fit in a word. -/
theorem nextDifficulty_exact (hmany : 2 ≤ timestamps.length)
    (hlength : cumulativeDifficulties.length = timestamps.length)
    (htimes : ∀ t ∈ timestamps, t < word64) (hworks : ∀ d ∈ cumulativeDifficulties, d < word64)
    (hincreasing : cumulativeDifficulties.Pairwise (· < ·))
    (htarget : cur.difficultyTarget < word64) :
    let length := min timestamps.length cur.difficultyWindow
    let first := cur.cutBegin length
    let last := cur.cutEnd length - 1
    let timeSpan :=
      max 1 ((cur.windowTimes timestamps).getD last 0 - (cur.windowTimes timestamps).getD first 0)
    let work := cumulativeDifficulties.getD last 0 - cumulativeDifficulties.getD first 0
    -- the assertions
    (first + 2 ≤ cur.cutEnd length ∧ cur.cutEnd length ≤ length ∧ 0 < work ∧
      hiDword work * hiDword cur.difficultyTarget ≤ (mul128 work cur.difficultyTarget).2) ∧
    (cur.nextDifficulty timestamps cumulativeDifficulties =
      if work * cur.difficultyTarget + timeSpan - 1 < 2 ^ 64 then
        (work * cur.difficultyTarget) ⌈/⌉ timeSpan
      else 0) ∧
    (0 < cur.difficultyTarget → 1 ≤ (work * cur.difficultyTarget) ⌈/⌉ timeSpan) ∧
    ∀ timestamps' k, timestamps'.length = timestamps.length → replaced timestamps timestamps' ≤ k →
      k ≤ min first (timestamps.length - cur.cutEnd length) →
        ((cur.windowTimes timestamps).getD (first - k) 0 ≤
          (cur.windowTimes timestamps').getD first 0 ∧
          (cur.windowTimes timestamps').getD first 0 ≤
          (cur.windowTimes timestamps).getD (first + k) 0) ∧
        (cur.windowTimes timestamps).getD (last - k) 0 ≤ (cur.windowTimes timestamps').getD last 0 ∧
          (cur.windowTimes timestamps').getD last 0 ≤
          (cur.windowTimes timestamps).getD (last + k) 0 := by
  intro length first last timeSpan work
  have hlen : (timestamps.take cur.difficultyWindow).length = length := by
    rw [length_take, Nat.min_comm]
  have htwo : 2 ≤ length := le_min hmany cur.two_le_difficultyWindow
  obtain ⟨hcut, hend⟩ : first + 2 ≤ cur.cutEnd length ∧ cur.cutEnd length ≤ length :=
    cut_bounds htwo
  have hlast : last < length := by omega
  have hfits : last < cumulativeDifficulties.length := by omega
  -- the work that counts is the difference of two of the cumulative difficulties
  have htake (i : Nat) (hi : i < length) :
      (cumulativeDifficulties.take cur.difficultyWindow).getD i 0 =
          cumulativeDifficulties.getD i 0 := by
    rw [getD_eq_getElem?_getD, getElem?_take_of_lt (by omega), getD_eq_getElem?_getD]
  have hless : cumulativeDifficulties.getD first 0 < cumulativeDifficulties.getD last 0 := by
    rw [getD_eq_getElem _ _ (by omega : first < _), getD_eq_getElem _ _ hfits]
    exact pairwise_iff_getElem.mp hincreasing first last _ hfits (by omega)
  have hbound : cumulativeDifficulties.getD last 0 < word64 := by
    rw [getD_eq_getElem _ _ hfits]
    exact hworks _ (getElem_mem hfits)
  have hwork : work < word64 := by omega
  have hpositive : 0 < work := by omega
  have htime : (cur.windowTimes timestamps).getD last 0 < word64 := windowTimes_lt htimes last
  have hspan : 0 < timeSpan ∧ timeSpan < word64 := by
    omega
  refine ⟨⟨hcut, hend, hpositive, hiDword_mul_le_mul128 hwork htarget⟩, ?_, fun hpos => ?_,
    fun timestamps' k hsame hreplaced hk => ?_⟩
  · rw [nextDifficulty_eq htwo hlen, htake _ hlast, htake _ (by omega), sub64_of_le hless.le hbound,
      sub64_of_le (windowTimes_le (by omega) (by rwa [length_windowTimes])) htime]
    exact roundedQuotient_eq hwork htarget hspan.1 hspan.2
  · rw [Nat.one_le_iff_ne_zero, ← Nat.pos_iff_ne_zero, Nat.ceilDiv_eq_add_pred_div]
    have hproduct := Nat.mul_pos hpositive hpos
    exact Nat.div_pos (by omega) hspan.1
  · have hroom := (hk.trans (cutBegin_le timestamps.length) : k ≤ length - cur.cutEnd length)
    have hbegin : k ≤ first := hk.trans (min_le_left _ _)
    exact ⟨windowTimes_of_replaced hsame hreplaced hbegin (by omega),
      windowTimes_of_replaced hsame hreplaced (by omega) (by omega)⟩

/-- Three blocks of which one has a timestamp from the future. -/
theorem nextDifficulty_exact_three :
    mainnet.nextDifficulty [1000, 9000, 1240] [10, 30, 70] = 2 := by
  have hexact := (@nextDifficulty_exact mainnet [1000, 9000, 1240] [10, 30, 70] (by decide) rfl
    (by decide) (by decide) (by decide) (by decide)).2.1
  rw [hexact]
  decide +kernel

end Currency

end DarknetCoin
