/-!
# Shortest Decimals

The fewest significant digits that still denote a given floating point number.

A finite double is `m * 2 ^ q` for a natural `m` and an integer `q`, and it is
the nearest double to every real of an interval around it. A grid of decimals
with a given number of digits has a point in that interval exactly if one of the
two grid points next to the number lies in it. So the two neighbours are tried on
grids of one digit, two digits and so on, in exact arithmetic. Seventeen digits
always suffice. Of two neighbours in the interval the nearer one is taken, and
of two equally near ones the even one.

## Main definitions

* `Rounding`: A number with the interval of reals that round to it.
* `Rounding.onGrid`: The grid point in the interval that is nearest to it.
* `Rounding.shortest`: The first grid with such a point.
* `floatText`: The decimal notation of a double.
-/

namespace Chomsky

/-- The positive number `value / unit` and the interval from `low / unit` to
    `high / unit` of the reals that round to it. -/
structure Rounding where
  low : Nat
  value : Nat
  high : Nat
  unit : Nat
  /-- Whether the ends of the interval belong to it. -/
  closed : Bool
  deriving Repr

namespace Rounding

/-- The exact value of a positive finite double, given by its bits, in quarters
    of a unit in the last place. Below a power of two the doubles lie twice as
    dense, and a tie goes to the even mantissa. -/
def ofBits (bits : Nat) : Rounding :=
  let stored := bits / Nat.pow 2 52 % Nat.pow 2 11
  let fraction := bits % Nat.pow 2 52
  let m := if stored = 0 then fraction else Nat.pow 2 52 + fraction
  let e := if stored = 0 then 1 else stored
  let scale := Nat.pow 2 (e - 1077)
  { low := (4 * m - if fraction = 0 ∧ 1 < stored then 1 else 2) * scale
    value := 4 * m * scale
    high := (4 * m + 2) * scale
    unit := Nat.pow 2 (1077 - e)
    closed := m % 2 = 0 }

/-- The exponent of the first significant digit: zero for a number from one to
    below ten. -/
def magnitude (r : Rounding) : Int :=
  if r.unit ≤ r.value then (Nat.toDigits 10 (r.value / r.unit)).length - 1
  else -(((List.range 325).find? fun k => r.unit ≤ r.value * Nat.pow 10 k).getD 0 : Nat)

/-- The number in units of `10 ^ exponent`. -/
def inUnits (r : Rounding) (exponent : Int) : Rounding :=
  if 0 ≤ exponent then { r with unit := r.unit * Nat.pow 10 exponent.toNat }
  else
    let factor := Nat.pow 10 (-exponent).toNat
    { r with low := r.low * factor, value := r.value * factor, high := r.high * factor }

/-- Whether a whole number rounds to the number. -/
def admits (r : Rounding) (n : Nat) : Bool :=
  if r.closed then r.low ≤ n * r.unit && n * r.unit ≤ r.high
  else r.low < n * r.unit && n * r.unit < r.high

/-- The whole number in the interval that is nearest to the number. -/
def nearest (r : Rounding) : Option Nat :=
  let below := r.value / r.unit
  let above := below + 1
  match r.admits below, r.admits above with
  | true, false => some below
  | false, true => some above
  | false, false => none
  | true, true =>
      let twice := 2 * r.value
      let middle := (below + above) * r.unit
      if twice < middle then some below
      else if middle < twice then some above
      else if below % 2 = 0 then some below else some above

/-- The shortest decimal, as its digits and the exponent of the last one. -/
def shortest (r : Rounding) : Nat × Int :=
  ((List.range 17).findSome? fun (k : Nat) =>
    let exponent := r.magnitude - k
    (r.inUnits exponent).nearest.map (·, exponent)).getD (0, 0)

end Rounding

/-- The digits of a number without zeros at the end, and its magnitude: the
    exponent of the first digit. -/
def significant (d : Nat × Int) : List Char × Int :=
  let all := Nat.toDigits 10 d.1
  ((all.reverse.dropWhile (· == '0')).reverse, d.2 + all.length - 1)

/-- Digits in decimal notation. Numbers from `10 ^ -5` to below `10 ^ 16` are
    written out, with at least one digit behind the point. Others have one digit
    before the point and a signed exponent, and no point behind a single
    digit. -/
def decimalText (digits : List Char) (magnitude : Int) : String :=
  if 0 ≤ magnitude ∧ magnitude < 16 then
    let whole := magnitude.toNat + 1
    let padded := digits ++ List.replicate (whole - digits.length) '0'
    let rest := padded.drop whole
    String.ofList (padded.take whole ++ '.' :: if rest.isEmpty then ['0'] else rest)
  else if -5 ≤ magnitude ∧ magnitude < 0 then
    String.ofList ('0' :: '.' :: List.replicate ((-magnitude).toNat - 1) '0' ++ digits)
  else
    let tail := digits.drop 1
    String.ofList (digits.take 1 ++ if tail.isEmpty then [] else '.' :: tail) ++ "e" ++
      (if magnitude < 0 then "-" else "+") ++ toString magnitude.natAbs

/-- The shortest decimal notation of a finite double. -/
def floatText (x : Float) : String :=
  let bits := x.toBits.toNat
  let negative := Nat.pow 2 63 ≤ bits
  let magnitude := bits % Nat.pow 2 63
  let text :=
    if magnitude = 0 then "0.0"
    else
      let (digits, exponent) := significant (Rounding.ofBits magnitude).shortest
      decimalText digits exponent
  if negative then "-" ++ text else text

end Chomsky
