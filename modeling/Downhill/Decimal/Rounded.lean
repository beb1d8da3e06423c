/-!
# Decimal roundings of stored numbers

A binary floating-point number is stored as a sign, an exponent and a fraction. `Stored` is what
those fields say: not a number, an infinity, or `± m · 2^q` with natural `m`; `Stored.ofFields`
reads it off. `Numeral` is a decimal `± d · 10^e`, and `Numeral.plain` writes it positionally,
never with an exponent. `Ratio` is a non-negative rational with a positive denominator, the form in
which a stored number is compared with points of a decimal grid.

* `Stored.shortest`: the decimal with the fewest digits that reads back. The reals that round to a
  stored number form an interval around it, which contains its ends exactly when the significand
  is even. The decimal grids are visited from the coarsest to the finest, and the two neighbours of
  the number on each grid are tested. Of two neighbours inside the interval the nearer one wins,
  and of two equally near ones the larger. `Stored.text` writes that decimal.
* `Ratio.toPlaces`, `Ratio.toDigits`: the decimal with a number of places or of significant digits
  that is nearest to the exact binary value, where a tie goes to the even digit.
-/

namespace Downhill

/-! ### Stored numbers and numerals -/

/-- What the fields of a stored binary number say. -/
inductive Stored where
  /-- Not a number. -/
  | nan
  /-- An infinity. -/
  | infinite (negative : Bool)
  /-- The number `± significand · 2 ^ exponent`. The flag `closeBelow` says that the next smaller
  magnitude is at half the distance of the next larger one. -/
  | finite (negative : Bool) (significand : Nat) (exponent : Int) (closeBelow : Bool)
deriving DecidableEq, Repr

/-- Reads a stored number with `fractionBits` bits of fraction and `exponentBits` bits of exponent
from its bit pattern `bits`. -/
def Stored.ofFields (fractionBits exponentBits bits : Nat) : Stored :=
  let hidden := Nat.pow 2 fractionBits
  let range := Nat.pow 2 exponentBits
  let fraction := bits % hidden
  let biased := bits / hidden % range
  let negative := bits / hidden / range % 2 == 1
  let lowest : Int := 2 - (range / 2 : Nat) - fractionBits
  if biased = range - 1 then
    if fraction = 0 then .infinite negative else .nan
  else if biased = 0 then
    .finite negative fraction lowest false
  else
    .finite negative (hidden + fraction) (lowest + (biased - 1))
      (fraction == 0 && 1 < biased)

/-- A non-negative rational number. -/
structure Ratio where
  /-- The numerator. -/
  num : Nat
  /-- The denominator, which is positive in every use. -/
  den : Nat

namespace Ratio

/-- The rational `m · 2 ^ q`. -/
def ofBinary (m : Nat) (q : Int) : Ratio :=
  ⟨m * Nat.pow 2 q.toNat, Nat.pow 2 (-q).toNat⟩

/-- The rational `r / 10 ^ e`. -/
def overTenPow (r : Ratio) (e : Int) : Ratio :=
  ⟨r.num * Nat.pow 10 (-e).toNat, r.den * Nat.pow 10 e.toNat⟩

/-- The number of decimal digits of `n`, none for zero. -/
def digitCount (n : Nat) : Nat :=
  if n = 0 then 0 else (Nat.toDigits 10 n).length

/-- The exponent of the leading decimal digit of a positive rational: the greatest `e` with
`10 ^ e ≤ r`. -/
def decade (r : Ratio) : Int :=
  if r.den ≤ r.num then digitCount (r.num / r.den) - 1
  else -(digitCount ((r.den - 1) / r.num) : Int)

/-- The nearest natural number to `r`, a tie going to the even neighbour. -/
def nearest (r : Ratio) : Nat :=
  let floor := r.num / r.den
  let excess := 2 * (r.num % r.den)
  if excess < r.den then floor
  else if r.den < excess then floor + 1
  else if floor % 2 = 0 then floor else floor + 1

end Ratio

/-- The decimal number `± digits · 10 ^ exponent`. -/
structure Numeral where
  /-- Whether a minus sign is written. -/
  negative : Bool
  /-- The digits, as a natural number. -/
  digits : Nat
  /-- The exponent of ten. -/
  exponent : Int
deriving DecidableEq, Repr

namespace Numeral

/-- The sign of a numeral as text. -/
def sign (negative : Bool) : String := if negative then "-" else ""

/-- Writes a numeral positionally: trailing zeros up to the units, leading zeros down to the first
digit, and a point only where digits follow it. -/
def plain (x : Numeral) : String :=
  let digits := toString x.digits
  if 0 ≤ x.exponent then
    sign x.negative ++ digits ++ "".pushn '0' x.exponent.toNat
  else
    let places := (-x.exponent).toNat
    let padded := "".pushn '0' (places + 1 - digits.length) ++ digits
    let whole := padded.length - places
    sign x.negative ++ String.ofList (padded.toList.take whole) ++ "."
      ++ String.ofList (padded.toList.drop whole)

/-- Writes a numeral as digits and an exponent of ten. -/
def scientific (x : Numeral) : String :=
  sign x.negative ++ toString x.digits ++ "e" ++ toString x.exponent

end Numeral

/-! ### The shortest decimal that reads back -/

/-- The interval of reals that round to `significand · 2 ^ exponent`, all three numbers as
rationals over the same denominator. -/
structure Cell where
  /-- The stored number. -/
  value : Ratio
  /-- The lower end. -/
  low : Ratio
  /-- The upper end. -/
  high : Ratio
  /-- Whether the ends belong to the interval. -/
  closed : Bool

namespace Cell

/-- The interval of the reals that round to a stored number. -/
def ofBinary (significand : Nat) (exponent : Int) (closeBelow : Bool) : Cell where
  value := .ofBinary (4 * significand) (exponent - 2)
  low := .ofBinary (4 * significand - (if closeBelow then 1 else 2)) (exponent - 2)
  high := .ofBinary (4 * significand + 2) (exponent - 2)
  closed := significand % 2 == 0

/-- Whether `d · 10 ^ e` lies in the interval. -/
def holds (cell : Cell) (d : Nat) (e : Int) : Bool :=
  let low := cell.low.overTenPow e
  let high := cell.high.overTenPow e
  if cell.closed then low.num ≤ d * low.den && d * high.den ≤ high.num
  else low.num < d * low.den && d * high.den < high.num

/-- The point of the grid `10 ^ e` that lies in the interval and is nearest to the stored number,
if the interval contains a neighbour of that number on the grid. -/
def onGrid (cell : Cell) (e : Int) : Option Nat :=
  let scaled := cell.value.overTenPow e
  let below := scaled.num / scaled.den
  let excess := 2 * (scaled.num % scaled.den)
  match cell.holds below e, cell.holds (below + 1) e with
  | true, true => some (if excess < scaled.den then below else below + 1)
  | true, false => some below
  | false, true => some (below + 1)
  | false, false => none

/-- The first hit on the grids `10 ^ e`, `10 ^ (e - 1)`, …, of which `count` are visited. -/
def firstHit (cell : Cell) : (count : Nat) → (e : Int) → Option (Nat × Int)
  | 0, _ => none
  | count + 1, e =>
    match cell.onGrid e with
    | some d => some (d, e)
    | none => cell.firstHit count (e - 1)

end Cell

namespace Stored

/-- Enough grids to reach the seventeenth digit from one place above the leading one. -/
def gridCount : Nat := 24

/-- The decimal with the fewest digits that rounds to `± significand · 2 ^ exponent`. -/
def shortest (negative : Bool) (significand : Nat) (exponent : Int) (closeBelow : Bool) :
    Numeral :=
  if significand = 0 then ⟨negative, 0, 0⟩
  else
    let cell := Cell.ofBinary significand exponent closeBelow
    match cell.firstHit gridCount (cell.value.decade + 1) with
    | some (d, e) => ⟨negative, d, e⟩
    | none => ⟨negative, cell.value.nearest, 0⟩

/-- A stored number as text: positional, with the fewest digits that read back. -/
def text : Stored → String
  | .nan => "NaN"
  | .infinite negative => Numeral.sign negative ++ "inf"
  | .finite negative significand exponent closeBelow =>
    (shortest negative significand exponent closeBelow).plain

end Stored

/-! ### Decimal places and digits -/

namespace Ratio

/-- The nearest multiple of `10 ^ e`, as a numeral. -/
def roundedAt (r : Ratio) (negative : Bool) (e : Int) : Numeral :=
  ⟨negative, (r.overTenPow e).nearest, e⟩

/-- Rounds `r` to `places` decimals. -/
def toPlaces (r : Ratio) (negative : Bool) (places : Nat) : Numeral :=
  r.roundedAt negative (-places)

/-- Rounds `r`, which is positive, to `digits` significant digits. -/
def toDigits (r : Ratio) (negative : Bool) (digits : Nat) : Numeral :=
  r.roundedAt negative (r.decade - (digits - 1))

end Ratio

end Downhill
