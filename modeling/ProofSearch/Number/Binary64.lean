import ProofSearch.Number.Rounding

/-!
# Double precision numbers

Finite doubles that are not negative, known by their bits.  Read as natural numbers, the bits of
such doubles are ordered as their values.  All values are whole multiples of the least positive
double, `2 ^ -1074`, so exact arithmetic on them is arithmetic on natural numbers.
-/

namespace ProofSearch

namespace Binary64

/-- One over the least positive double. -/
def scale : Nat := Nat.pow 2 1074

/-- The value of a finite double, counted in multiples of the least positive double. -/
def units (bits : Nat) : Nat :=
  let fraction := bits % Nat.pow 2 52
  match bits / Nat.pow 2 52 with
  | 0 => fraction
  | exponent + 1 => (Nat.pow 2 52 + fraction) * Nat.pow 2 exponent

/-- The bits of the double nearest to `a / b`, for quotients in the range of finite doubles; a tie
goes to the double with an even fraction. -/
def nearest (a b : Nat) : Nat :=
  let shift := (a * scale / b).log2 + 1 - 53
  shift * Nat.pow 2 52 + roundDiv (a * scale) (b * Nat.pow 2 shift)

end Binary64

end ProofSearch
