import DarknetCoin.Data.LongDivision
import DarknetCoin.Model.IntUtil

/-!
# What the word arithmetic computes

`mul128` and `div128_32` are exact: the two words of the product, and the two words of the
quotient. Sums and differences of words are the exact ones as long as these fit.
-/

namespace DarknetCoin

open Data LongDivision List

variable {a b x : Nat}

theorem add64_of_lt (h : a + b < word64) : add64 a b = a + b := Nat.mod_eq_of_lt h

theorem mul64_of_lt (h : a * b < word64) : mul64 a b = a * b := Nat.mod_eq_of_lt h

theorem sub64_of_le (hle : b ≤ a) (ha : a < word64) : sub64 a b = a - b := by
  unfold sub64
  rw [show a + word64 - b = a - b + word64 by omega, Nat.add_mod_right]
  exact Nat.mod_eq_of_lt (lt_of_le_of_lt (Nat.sub_le a b) ha)

theorem add64_lt (a b : Nat) : add64 a b < word64 := Nat.mod_lt _ (by decide)

theorem foldl_words {α : Type} (f : α → Nat) {step : Nat → α → Nat} {values : List α} {start : Nat}
    (hstart : start < word64) (hstep : ∀ a ∈ values, ∀ total < word64, step total a =
      (total + f a) % word64) :
    values.foldl step start = (start + (values.map f).sum) % word64 := by
  induction values generalizing start with
  | nil => exact (Nat.mod_eq_of_lt hstart).symm
  | cons a values ih =>
    obtain ⟨hfirst, hrest⟩ := forall_mem_cons.mp hstep
    rw [foldl_cons, hfirst start hstart, ih (Nat.mod_lt _ (by decide)) hrest, Nat.mod_add_mod,
      map_cons, sum_cons, add_assoc]

theorem bmod_word64_of_lt (h : x < 2 ^ 63) : (x : Int).bmod word64 = x := by
  rw [Int.bmod_def]
  simp only [word64]
  omega

theorem bmod_word64_of_le (hle : 2 ^ 63 ≤ x) (h : x < word64) :
    (x : Int).bmod word64 = (x : Int) - 2 ^ 64 := by
  rw [Int.bmod_def]
  simp only [word64] at h ⊢
  omega

/-- The sum of two words is smaller than one of them exactly when it does not fit. -/
theorem add64_lt_iff (ha : a < word64) (hb : b < word64) : add64 a b < b ↔ word64 ≤ a + b := by
  constructor
  · intro hlt
    by_contra hfits
    rw [add64_of_lt (by omega)] at hlt
    omega
  · intro hwraps
    unfold add64
    rw [Nat.mod_eq_sub_mod hwraps, Nat.mod_eq_of_lt (by omega)]
    omega

/-- The carries of the schoolbook product, with its four partial products as unknowns. -/
private theorem combine_products {ac ad bc bd : Nat} (hac : ac ≤ (2 ^ 32 - 1) * (2 ^ 32 - 1))
    (had : ad ≤ (2 ^ 32 - 1) * (2 ^ 32 - 1)) (hbc : bc ≤ (2 ^ 32 - 1) * (2 ^ 32 - 1))
    (hbd : bd ≤ (2 ^ 32 - 1) * (2 ^ 32 - 1)) : let adbc := add64 ad bc
    let productLo := add64 bd (mul64 adbc word32)
    add64 (add64 (add64 ac (hiDword adbc)) ((if adbc < ad then 1 else 0) * word32))
        (if productLo < bd then 1 else 0) * word64 + productLo =
      ac * word64 + (ad + bc) * word32 + bd := by
  simp only [add64, mul64, hiDword, word64, word32]
  norm_num at hac had hbc hbd ⊢
  split <;> split <;> omega

private theorem dword_mul_le {y : Nat} (hx : x < word32) (hy : y < word32) :
    x * y ≤ (2 ^ 32 - 1) * (2 ^ 32 - 1) :=
  Nat.mul_le_mul (Nat.le_sub_one_of_lt hx) (Nat.le_sub_one_of_lt hy)

private theorem hiDword_lt {n : Nat} (h : n < word64) : hiDword n < word32 :=
  Nat.div_lt_of_lt_mul h

private theorem loDword_lt (n : Nat) : loDword n < word32 := Nat.mod_lt _ (by decide)

private theorem dwords (n : Nat) : hiDword n * word32 + loDword n = n :=
  Nat.div_add_mod' n word32

theorem mul128_eq (ha : a < word64) (hb : b < word64) :
    mul128 a b = (a * b % word64, a * b / word64) := by
  have hac := dword_mul_le (hiDword_lt ha) (hiDword_lt hb)
  have had := dword_mul_le (hiDword_lt ha) (loDword_lt b)
  have hbc := dword_mul_le (loDword_lt a) (hiDword_lt hb)
  have hbd := dword_mul_le (loDword_lt a) (loDword_lt b)
  have hfits : ∀ {n : Nat}, n ≤ (2 ^ 32 - 1) * (2 ^ 32 - 1) → n < word64 := by
    intro n hn
    exact lt_of_le_of_lt hn (by decide)
  have hsum : (mul128 a b).2 * word64 + (mul128 a b).1 = a * b := by
    have hcombined := combine_products hac had hbc hbd
    simp only [mul128, mul64_of_lt (hfits hac), mul64_of_lt (hfits had), mul64_of_lt (hfits hbc),
      mul64_of_lt (hfits hbd)]
    rw [hcombined]
    calc hiDword a * hiDword b * word64 +
          (hiDword a * loDword b + loDword a * hiDword b) * word32 + loDword a * loDword b
        = (hiDword a * word32 + loDword a) * (hiDword b * word32 + loDword b) := by
          rw [show word64 = word32 * word32 by rfl]
          ring
      _ = a * b := by rw [dwords, dwords]
  have hlo : (mul128 a b).1 < word64 := add64_lt _ _
  rw [← hsum]
  apply Prod.ext
  · rw [Nat.mul_add_mod_self_right, Nat.mod_eq_of_lt hlo]
  · rw [mul_comm, Nat.mul_add_div (by decide), Nat.div_eq_of_lt hlo, add_zero]

/-- `div128_32` is long division on four half-words. -/
theorem div128By32_eq_divide (hi lo divisor : Nat) : ∃ q3 q2 q1 q0, (divide word32 divisor
        [hiDword hi, loDword hi, hiDword lo, loDword lo] 0).1 = [q3, q2, q1, q0] ∧
      div128By32 hi lo divisor = (mul64 q3 word32 + q2, mul64 q1 word32 + q0) := by
  refine ⟨_, _, _, _, rfl, ?_⟩
  simp [div128By32, divWithReminder, add_comm (_ * word32)]

theorem div128By32_eq {hi lo divisor : Nat} (hhi : hi < word64) (hlo : lo < word64)
    (hpos : 0 < divisor) : div128By32 hi lo divisor =
    ((hi * word64 + lo) / divisor / word64, (hi * word64 + lo) / divisor % word64) := by
  obtain ⟨q3, q2, q1, q0, hdigits, hdiv⟩ := div128By32_eq_divide hi lo divisor
  have hlt : ∀ d ∈ [q3, q2, q1, q0], d < word32 := by
    rw [← hdigits]
    apply divide_lt hpos _ hpos
    intro d hd
    simp only [mem_cons, not_mem_nil, or_false] at hd
    rcases hd with rfl | rfl | rfl | rfl
    exacts [hiDword_lt hhi, loDword_lt hi, hiDword_lt hlo, loDword_lt lo]
  have hvalue := @value_divide word32 divisor
    [hiDword hi, loDword hi, hiDword lo, loDword lo] hpos 0 0 hpos
  rw [hdigits] at hvalue
  simp only [value_cons, value_nil, zero_mul, zero_add] at hvalue
  have hdividend : ((hiDword hi * word32 + loDword hi) * word32 + hiDword lo) * word32 +
      loDword lo = hi * word64 + lo := by
    rw [dwords, show (hi * word32 + hiDword lo) * word32 + loDword lo =
      hi * (word32 * word32) + (hiDword lo * word32 + loDword lo) by ring, dwords]
    rfl
  rw [hdividend] at hvalue
  rw [hdiv, ← hvalue]
  simp only [mul64, word64, word32] at hlt ⊢
  apply Prod.ext <;> norm_num at hlt ⊢ <;> omega

/-! ### The proof of work

The test never forms the product of digest and difficulty. It adds the words of four partial
products column by column and keeps only the carry of each column; the last carry says whether the
product fits. -/

variable {hash : Hash} {difficulty : Nat}

theorem cadd_eq_true_iff {a b : Nat} (ha : a < word64) (hb : b < word64) : cadd a b = true ↔
    word64 ≤ a + b := by
  rw [cadd, decide_eq_true_iff, add64, add_comm, ← add64, add64_lt_iff hb ha]

/-- A column with a carry from below, which matters where the sum is the largest word. -/
theorem cadc_eq_true_iff {a b : Nat} {c : Bool} (ha : a < word64) (hb : b < word64) :
    cadc a b c = true ↔ word64 ≤ a + b + c.toNat := by
  cases c with
  | false => simpa [cadc, cadd] using cadd_eq_true_iff ha hb
  | true =>
    rw [cadc, Bool.or_eq_true, ← cadd, cadd_eq_true_iff ha hb]
    simp only [Bool.true_and, beq_iff_eq, Bool.toNat_true, add64, word64] at ha hb ⊢
    omega

theorem hashWord_sum (hash : Hash) :
    hash.toNat = hashWord hash 0 + hashWord hash 1 * 2 ^ 64 + hashWord hash 2 * 2 ^ 128 +
    hashWord hash 3 * 2 ^ 192 := by
  simp only [hashWord, word64]
  omega

theorem hashWord_lt (hash : Hash) (i : Nat) : hashWord hash i < word64 := Nat.mod_lt _ (by decide)

/-- Four partial products, each of two words, add up to less than 256 bits if no column carries into
the next word. -/
theorem columns_fit {p₀ p₁ p₂ p₃ : Nat} (h₀ : p₀ / word64 < word64) (h₁ : p₁ / word64 < word64)
    (h₂ : p₂ / word64 < word64) :
    p₀ + p₁ * 2 ^ 64 + p₂ * 2 ^ 128 + p₃ * 2 ^ 192 < 2 ^ 256 ↔
    p₃ / word64 = 0 ∧ cadc (p₂ / word64) (p₃ % word64)
        (cadc (p₁ / word64) (p₂ % word64) (cadd (p₀ / word64) (p₁ % word64))) = false := by
  have hlow (p : Nat) : p % word64 < word64 := Nat.mod_lt _ (by decide)
  have hfirst := cadd_eq_true_iff h₀ (hlow p₁)
  have hsecond := cadc_eq_true_iff (c := cadd (p₀ / word64) (p₁ % word64)) h₁ (hlow p₂)
  rw [← Bool.not_eq_true, cadc_eq_true_iff h₂ (hlow p₃)]
  generalize cadc (p₁ / word64) (p₂ % word64) (cadd (p₀ / word64) (p₁ % word64)) =
    second at hsecond ⊢
  generalize cadd (p₀ / word64) (p₁ % word64) = first at hfirst hsecond
  simp only [word64] at *
  cases first <;> cases second <;> simp at hfirst hsecond ⊢ <;> omega

theorem checkHash_eq_true_iff (hdiff : difficulty < word64) :
    checkHash hash difficulty = true ↔ hash.toNat * difficulty < 2 ^ 256 := by
  have hhigh (i : Nat) : hashWord hash i * difficulty / word64 < word64 :=
    Nat.div_lt_of_lt_mul (Nat.mul_lt_mul'' (hashWord_lt hash i) hdiff)
  have hsum : hash.toNat * difficulty = hashWord hash 0 * difficulty + hashWord hash 1 *
      difficulty * 2 ^ 64 +
      hashWord hash 2 * difficulty * 2 ^ 128 + hashWord hash 3 * difficulty * 2 ^ 192 := by
    rw [hashWord_sum hash]
    ring
  rw [hsum, columns_fit (hhigh 0) (hhigh 1) (hhigh 2)]
  simp only [checkHash, checkHashWith, mulWords, Nat.mod_eq_of_lt (hhigh _)]
  split
  next hne => simp [hne]
  next heq => simp [not_not.mp heq]

/-- The proof-of-work test is exact, with the wide product of the compiler and with the portable
one. -/
theorem check_hash_exact (hash : Hash) (difficulty : UInt64) :
    (checkHash hash difficulty.toNat = true ↔ hash.toNat * difficulty.toNat < 2 ^ 256) ∧
      (checkHashWith mul128 hash difficulty.toNat = true ↔ hash.toNat * difficulty.toNat <
        2 ^ 256) := by
  have hdiff : difficulty.toNat < word64 := difficulty.toNat_lt
  refine ⟨checkHash_eq_true_iff hdiff, ?_⟩
  rw [← checkHash_eq_true_iff hdiff]
  have hmul (i : Nat) : mul128 (hashWord hash i) difficulty.toNat =
      mulWords (hashWord hash i) difficulty.toNat := by
    have hhigh := Nat.div_lt_of_lt_mul (Nat.mul_lt_mul'' (hashWord_lt hash i) hdiff)
    rw [mul128_eq (hashWord_lt hash i) hdiff, mulWords, Nat.mod_eq_of_lt hhigh]
  simp only [checkHashWith, checkHash, hmul]

end DarknetCoin
