import ProofSearch.Number.Binary64

/-!
# Success probabilities

A probability is a double from 0 to 1.  Probabilities order the goals and rules still to be tried
and never decide what holds.  Zero has two signs: the negative zero comes before the positive one,
and `Percent.rank` is the place in that order.
-/

namespace ProofSearch

namespace Percent

/-- The bits of the double 1. -/
def oneBits : Nat := 0x3FF0000000000000

/-- The bit that marks a negative double. -/
def signBit : Nat := 0x8000000000000000

/-- The bits of the infinite double; greater magnitudes are not numbers. -/
def infinityBits : Nat := 0x7FF0000000000000

end Percent

/-- A success probability, held as the bits of a double from 0 to 1 or of the negative zero. -/
structure Percent where
  bits : Nat
  bounded : bits ≤ Percent.oneBits ∨ bits = Percent.signBit
deriving DecidableEq, Repr

namespace Percent

def zero : Percent := ⟨0, by decide⟩

def hundred : Percent := ⟨oneBits, by decide⟩

def ninety : Percent := ⟨0x3FECCCCCCCCCCCCD, by decide⟩

def fifty : Percent := ⟨0x3FE0000000000000, by decide⟩

instance : Inhabited Percent := ⟨hundred⟩

/-- The probability nearest to the double with the given bits.  What is not a number counts as
zero. -/
def ofBits (bits : Nat) : Percent :=
  let magnitude := bits % signBit
  if infinityBits < magnitude then zero
  else if signBit ≤ bits then
    if magnitude = 0 then ⟨signBit, .inr rfl⟩ else zero
  else if h : magnitude ≤ oneBits then ⟨magnitude, .inl h⟩
  else hundred

/-- Whole percentage points; more than a hundred count as a hundred. -/
def ofPoints (points : Nat) : Percent := ofBits (Binary64.nearest points 100)

def isNegativeZero (p : Percent) : Bool := p.bits = signBit

/-- The value in multiples of the least positive double. -/
def units (p : Percent) : Nat := if p.isNegativeZero then 0 else Binary64.units p.bits

/-- The product rounded to the nearest double. -/
def mul (p q : Percent) : Percent :=
  let magnitude := Binary64.nearest (p.units * q.units) (Binary64.scale * Binary64.scale)
  ofBits (if p.isNegativeZero = q.isNegativeZero then magnitude else signBit + magnitude)

instance : Mul Percent := ⟨mul⟩

/-- Equality of values, for which the two zeros are one. -/
def sameValue (p q : Percent) : Bool := p.units = q.units

/-- The place of a probability in the order of all of them. -/
def rank (p : Percent) : Nat := if p.isNegativeZero then 0 else p.bits + 1

instance : Ord Percent := ⟨fun p q => compare p.rank q.rank⟩

theorem rank_injective {p q : Percent} (h : p.rank = q.rank) : p = q := by
  obtain ⟨p, hp⟩ := p
  obtain ⟨q, hq⟩ := q
  simp only [rank, isNegativeZero, decide_eq_true_eq] at h
  simp only [mk.injEq]
  split at h <;> split at h <;> omega

instance : Std.TransOrd Percent where
  eq_swap {p q} :=
    show compare p.rank q.rank = (compare q.rank p.rank).swap from Std.OrientedCmp.eq_swap
  isLE_trans {p q r} h₁ h₂ :=
    have h₁ : (compare p.rank q.rank).isLE := h₁
    have h₂ : (compare q.rank r.rank).isLE := h₂
    show (compare p.rank r.rank).isLE from Std.TransCmp.isLE_trans h₁ h₂

instance : Std.LawfulEqOrd Percent where
  eq_of_compare h := rank_injective (Std.LawfulEqOrd.eq_of_compare h)

/-- The written form in percentage points with four places, such as `90.0000%`. -/
def text (p : Percent) : String :=
  let points := Binary64.units (Binary64.nearest (p.units * 100) Binary64.scale)
  (if p.isNegativeZero then "-" else "") ++ fixedText 4 points Binary64.scale ++ "%"

/-! ## Exact text -/

/-- The bits as sixteen hexadecimal digits. -/
def hexText (p : Percent) : String :=
  let digits := Nat.toDigits 16 p.bits
  String.ofList (List.replicate (16 - digits.length) '0' ++ digits)

def hexDigit? (c : Char) : Option Nat :=
  if c.isDigit then some (c.toNat - '0'.toNat)
  else if 'a' ≤ c && c ≤ 'f' then some (c.toNat - 'a'.toNat + 10)
  else if 'A' ≤ c && c ≤ 'F' then some (c.toNat - 'A'.toNat + 10)
  else none

/-- The probability nearest to the double whose bits are written in hexadecimal digits. -/
def ofHex? (s : String) : Option Percent :=
  match s.toList.foldlM (fun n c => (hexDigit? c).map (16 * n + ·)) 0 with
  | some bits => if s.isEmpty || Nat.pow 2 64 ≤ bits then none else some (ofBits bits)
  | none => none

end Percent

end ProofSearch
