import DarknetCoin.Model.Types

/-!
# Word arithmetic

`Common/int-util.h`, `Common/Math.h` and `CryptoNoteCore/Difficulty.cpp`: 64-bit addition and
subtraction, the portable 64 × 64 → 128 bit product, the 128-bit by 32-bit long division, the
median of a vector and the proof-of-work test, as the code computes them.
-/

namespace DarknetCoin

/-- The number of values of a 64-bit word. -/
def word64 : Nat := 2 ^ 64

/-- The number of values of a 32-bit word. -/
def word32 : Nat := 2 ^ 32

/-- The number of values of a 16-bit word. -/
def word16 : Nat := 2 ^ 16

def add64 (a b : Nat) : Nat := (a + b) % word64

def sub64 (a b : Nat) : Nat := (a + word64 - b) % word64

def mul64 (a b : Nat) : Nat := a * b % word64

def hiDword (value : Nat) : Nat := value / word32

def loDword (value : Nat) : Nat := value % word32

/-- `mul128`: the low word of the product, and its high word. -/
def mul128 (multiplier multiplicand : Nat) : Nat × Nat :=
  let a := hiDword multiplier
  let b := loDword multiplier
  let c := hiDword multiplicand
  let d := loDword multiplicand
  let ac := mul64 a c
  let ad := mul64 a d
  let bc := mul64 b c
  let bd := mul64 b d
  let adbc := add64 ad bc
  let adbcCarry := if adbc < ad then 1 else 0
  let productLo := add64 bd (mul64 adbc word32)
  let productLoCarry := if productLo < bd then 1 else 0
  (productLo, add64 (add64 (add64 ac (hiDword adbc)) (adbcCarry * word32)) productLoCarry)

/-- `div_with_reminder`: the quotient and the new remainder. -/
def divWithReminder (dividend divisor remainder : Nat) : Nat × Nat :=
  let dividend := dividend + remainder * word32
  (dividend / divisor, dividend % divisor)

/-- `div128_32`: the high and the low word of the quotient. -/
def div128By32 (dividendHi dividendLo divisor : Nat) : Nat × Nat :=
  let (q3, r3) := divWithReminder (hiDword dividendHi) divisor 0
  let (q2, r2) := divWithReminder (loDword dividendHi) divisor r3
  let (q1, r1) := divWithReminder (hiDword dividendLo) divisor r2
  let (q0, _) := divWithReminder (loDword dividendLo) divisor r1
  (mul64 q3 word32 + q2, mul64 q1 word32 + q0)

def medianValue (v : List Nat) : Nat :=
  let sorted := v.insertionSort (· ≤ ·)
  let n := v.length / 2
  if v.length = 0 then 0
  else if v.length % 2 = 1 then sorted.getD n 0
  else add64 (sorted.getD (n - 1) 0) (sorted.getD n 0) / 2

/-- `cadd`: the sum of two words carries. -/
def cadd (a b : Nat) : Bool := add64 a b < a

/-- `cadc`: the sum of two words and a carry carries. -/
def cadc (a b : Nat) (c : Bool) : Bool := add64 a b < a || (c && add64 a b == word64 - 1)

/-- The `i`-th 64-bit word of a digest, the least significant first. -/
def hashWord (hash : Hash) (i : Nat) : Nat := hash.toNat / 2 ^ (64 * i) % word64

/-- `mul` of `Difficulty.cpp`: the low and the high word of the exact product. -/
def mulWords (a b : Nat) : Nat × Nat := (a * b % word64, a * b / word64 % word64)

/-- `check_hash` with one of the two implementations of `mul`, which the compiler chooses. -/
def checkHashWith (mul : Nat → Nat → Nat × Nat) (hash : Hash) (difficulty : Nat) : Bool :=
  let (top, high) := mul (hashWord hash 3) difficulty
  if high ≠ 0 then false
  else
    let (_, cur) := mul (hashWord hash 0) difficulty
    let (low, high) := mul (hashWord hash 1) difficulty
    let carry := cadd cur low
    let cur := high
    let (low, high) := mul (hashWord hash 2) difficulty
    let carry := cadc cur low carry
    let carry := cadc high top carry
    !carry

/-- `check_hash`: the digest, read as a 256-bit number, times the difficulty fits in 256 bits. -/
def checkHash : Hash → Nat → Bool := checkHashWith mulWords

end DarknetCoin
