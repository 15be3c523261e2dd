/-
Decimal text with a fixed number of places.

The value of a binary fraction is written exactly as it is, rounded to the given
number of decimal places; a tie goes to the even digit.

* `roundHalfEven` — the nearest whole number to a quotient;
* `BinaryFraction.fixedPlaces` — the text.

Design notes: a finite non-negative double is a whole number times a power of
two, so it can be rounded in exact arithmetic.
-/
import Hart.Text.Hex

namespace Hart.Decimal

/-- The whole number nearest to a quotient; of two equally near, the even one. -/
def roundHalfEven (numerator denominator : Nat) : Nat :=
  let q := numerator / denominator
  let twice := 2 * (numerator % denominator)
  if twice < denominator ∨ (twice = denominator ∧ q % 2 = 0) then q else q + 1

/-- The number `mantissa * 2 ^ exponent`. -/
structure BinaryFraction where
  mantissa : Nat
  exponent : Int
  deriving DecidableEq, Repr

namespace BinaryFraction

/-- The value of a non-negative finite double. -/
def ofFloat (v : Float) : BinaryFraction :=
  let bits := v.toBits.toNat
  let field : Nat := bits / Nat.pow 2 52 % Nat.pow 2 11
  let fraction : Nat := bits % Nat.pow 2 52
  if field = 0 then ⟨fraction, -1074⟩ else ⟨Nat.pow 2 52 + fraction, (field : Int) - 1075⟩

/-- The value in units of `10 ^ -places`, rounded to a whole number. -/
def scaled (places : Nat) (v : BinaryFraction) : Nat :=
  roundHalfEven (v.mantissa * Nat.pow 10 places * Nat.pow 2 v.exponent.toNat)
    (Nat.pow 2 (-v.exponent).toNat)

/-- The value with `places` decimal places. -/
def fixedPlaces (places : Nat) (v : BinaryFraction) : String :=
  let n := v.scaled places
  let whole := toString (n / Nat.pow 10 places)
  if places = 0 then whole
  else whole ++ "." ++ Text.padLeft places '0' (toString (n % Nat.pow 10 places))

end BinaryFraction

end Hart.Decimal
