/-!
# Rounding quotients

Quotients of natural numbers rounded to the nearest whole number, and written with a fixed number of
decimal places.  A quotient half way between two neighbours goes to the even one.
-/

namespace ProofSearch

/-- The whole number nearest to `a / b`; a tie goes to the even neighbour. -/
def roundDiv (a b : Nat) : Nat :=
  let q := a / b
  let r := a % b
  if 2 * r < b then q
  else if b < 2 * r then q + 1
  else q + q % 2

/-- The rounded quotient is at most half a unit away. -/
theorem roundDiv_near (a b : Nat) (hb : 0 < b) :
    2 * (roundDiv a b * b) ≤ 2 * a + b ∧ 2 * a ≤ 2 * (roundDiv a b * b) + b := by
  have hdiv : b * (a / b) + a % b = a := Nat.div_add_mod a b
  have hmod : a % b < b := Nat.mod_lt a hb
  have hcomm : a / b * b = b * (a / b) := Nat.mul_comm ..
  simp only [roundDiv]
  split
  · omega
  · split
    · have : (a / b + 1) * b = a / b * b + b := Nat.succ_mul ..
      omega
    · rcases Nat.mod_two_eq_zero_or_one (a / b) with h | h
      · simp only [h, Nat.add_zero]
        omega
      · have : (a / b + 1) * b = a / b * b + b := Nat.succ_mul ..
        simp only [h]
        omega

/-- The digits of `n` with zeros in front up to the given width. -/
def padDigits (width n : Nat) : String :=
  let digits := n.repr
  String.ofList (List.replicate (width - digits.length) '0') ++ digits

/-- The quotient `a / b` with the given number of decimal places. -/
def fixedText (places a b : Nat) : String :=
  let scaled := roundDiv (a * Nat.pow 10 places) b
  (scaled / Nat.pow 10 places).repr ++ "." ++ padDigits places (scaled % Nat.pow 10 places)

end ProofSearch
