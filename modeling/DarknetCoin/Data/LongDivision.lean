import Mathlib.Tactic.Ring

/-!
# Long division

Division of a number by a small divisor, digit by digit from the most significant one, with the
remainder carried to the next digit.
-/

namespace Data

namespace LongDivision

/-- Read digits, the most significant first, after the number read so far. -/
def value (base : Nat) (n : Nat) (digits : List Nat) : Nat :=
  digits.foldl (fun n digit => n * base + digit) n

/-- Divide digits, the most significant first, with the remainder of those before them. -/
def divide (base divisor : Nat) : List Nat → Nat → List Nat × Nat
  | [], remainder => ([], remainder)
  | digit :: digits, remainder =>
    let dividend := remainder * base + digit
    let (quotient, remainder) := divide base divisor digits (dividend % divisor)
    (dividend / divisor :: quotient, remainder)

variable {base divisor : Nat}

@[simp] theorem value_nil (n : Nat) : value base n [] = n := rfl

variable (digits : List Nat)

@[simp] theorem value_cons (n digit : Nat) :
    value base n (digit :: digits) = value base (n * base + digit) digits := rfl

theorem divide_cons (digit : Nat) (remainder : Nat) :
    divide base divisor (digit :: digits) remainder = ((remainder * base + digit) / divisor ::
          (divide base divisor digits ((remainder * base + digit) % divisor)).1,
        (divide base divisor digits ((remainder * base + digit) % divisor)).2) := rfl

/-- Carrying the quotient and the remainder to the next digit loses nothing. -/
private theorem carry_digit (quotient remainder digit : Nat) :
    (quotient * base + (remainder * base + digit) / divisor) * divisor +
    (remainder * base + digit) % divisor = (quotient * divisor + remainder) * base + digit := by
  have hsplit := Nat.div_add_mod (remainder * base + digit) divisor
  calc (quotient * base + (remainder * base + digit) / divisor) * divisor +
    (remainder * base + digit) % divisor
      = quotient * base * divisor + (divisor * ((remainder * base + digit) / divisor) +
          (remainder * base + digit) % divisor) := by ring
    _ = quotient * base * divisor + (remainder * base + digit) := by rw [hsplit]
    _ = (quotient * divisor + remainder) * base + digit := by ring

/-- The quotient digits, read after the quotient of what came before, stand for the quotient. -/
theorem value_divide (hpos : 0 < divisor) : ∀ (quotient remainder : Nat), remainder < divisor →
      value base quotient (divide base divisor digits remainder).1 =
        value base (quotient * divisor + remainder) digits / divisor := by
  -- the digits are read with the quotient and the remainder so far as accumulators
  induction digits with
  | nil =>
    intro quotient remainder hlt
    change quotient = (quotient * divisor + remainder) / divisor
    rw [mul_comm, Nat.mul_add_div hpos, Nat.div_eq_of_lt hlt, add_zero]
  | cons digit digits ih =>
    intro quotient remainder hlt
    rw [divide_cons, value_cons, value_cons, ih _ _ (Nat.mod_lt _ hpos), carry_digit]

/-- Quotient digits are smaller than the base. -/
theorem divide_lt (hpos : 0 < divisor) {digits : List Nat} (hdigits : ∀ d ∈ digits, d < base) :
    ∀ {remainder : Nat}, remainder < divisor → ∀ d ∈ (divide base divisor digits remainder).1,
    d < base := by
  induction digits with
  | nil =>
    intro remainder _ d hd
    cases hd
  | cons digit digits ih =>
    intro remainder hlt d hd
    rw [divide_cons, List.mem_cons] at hd
    rcases hd with rfl | hrest
    · -- a remainder below the divisor leaves room for one digit only
      have hdigit : digit < base := hdigits digit List.mem_cons_self
      apply Nat.div_lt_of_lt_mul
      calc remainder * base + digit < remainder * base + base := by omega
        _ = (remainder + 1) * base := by ring
        _ ≤ divisor * base := Nat.mul_le_mul_right base hlt
    · exact ih (fun d hd => hdigits d (List.mem_cons_of_mem _ hd)) (Nat.mod_lt _ hpos) d hrest

end LongDivision

end Data
