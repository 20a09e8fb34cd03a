-- SUMMARY: Rounding to doubles, as far as it decides whether a scaled decimal number is in range.

/-! # Doubles

A decimal number becomes a double in three roundings: its significand is rounded to 53 bits, the
power of ten that scales it is rounded as well, and so is their product. Roundings go to the nearest
double, of two to the even one. Only a product can be out of range. -/

namespace Munch

namespace Double

/-- The nearest natural number to a quotient; of two, the even one. -/
def roundQuotient (n d : Nat) : Nat :=
  let q := n / d
  let r := n % d
  if d < 2 * r || (2 * r == d && q % 2 == 1) then q + 1 else q

/-- A rounded quotient is at most half a unit away. -/
theorem roundQuotient_near (n : Nat) {d : Nat} (hd : 0 < d) :
    2 * (d * roundQuotient n d) ≤ 2 * n + d ∧ 2 * n ≤ 2 * (d * roundQuotient n d) + d := by
  have hn : d * (n / d) + n % d = n := Nat.div_add_mod n d
  have hr : n % d < d := Nat.mod_lt n hd
  simp only [roundQuotient, Bool.or_eq_true, Bool.and_eq_true, decide_eq_true_eq, beq_iff_eq]
  split
  · rw [Nat.mul_succ]
    omega
  · omega

/-- Half way between two numbers the even one is taken. -/
theorem roundQuotient_of_tie {n d : Nat} (h : 2 * (n % d) = d) : roundQuotient n d % 2 = 0 := by
  simp only [roundQuotient, h, Nat.lt_irrefl, decide_false, Bool.false_or, beq_self_eq_true,
    Bool.true_and, beq_iff_eq]
  split <;> omega

/-- The nearest natural number of 53 significant bits; of two, the one whose 53 bits are even. -/
def round (n : Nat) : Nat :=
  let unit := 1 <<< (n.log2 + 1 - 53)
  unit * roundQuotient n unit

/-- The smallest number out of range: half way from the largest double to the next power of two. -/
def overflow : Nat :=
  1 <<< 1024 - 1 <<< 970

/-- The largest power of ten that is in range, by its exponent. -/
def largestPower : Nat := 308

/-- Whether a significand times a power of ten is in range. Fractions always are, and so is 0. -/
def inRange (significand : Nat) (exponent : Int) : Bool :=
  if exponent < 0 then true
  else if largestPower < exponent then significand == 0
  else round significand * round (Nat.pow 10 exponent.toNat) < overflow

end Double

end Munch
