import Chomsky.Json.Fault
import Chomsky.Json.Value

/-!
# Numerals

Reading a JSON number byte by byte.

The digits before an exponent are gathered into one natural number of 64 bits,
the significand, and the digits behind the point count its exponent down. Digits
that no longer fit are dropped, which costs nothing but their place: one before
the point counts the exponent up, and one behind it is ignored. Numerals with
neither point nor exponent are integers if 64 bits hold them. The others are
floating point numbers, rounded once for the significand and once for each
multiplication or division by a power of ten.

A numeral ends at the first byte that cannot belong to it. That byte is left to
whatever follows the number, and only there a number beyond the range of a
double is noticed. An exponent beyond 32 bits is noticed at once.

## Main definitions

* `Numeral`: How far a numeral has been read.
* `Numeral.value`: The number read so far, if it may end there.
* `Numeral.step`: Read one more byte.
* `scale`: A significand times a power of ten.
-/

namespace Chomsky

/-- The value of a decimal digit. -/
def digit? (b : UInt8) : Option Nat :=
  if '0'.toUInt8 ≤ b ∧ b ≤ '9'.toUInt8 then some (b - '0'.toUInt8).toNat else none

/-- The largest natural number of 64 bits. -/
def maxSignificand : Nat := UInt64.size - 1

/-- The largest exponent of 32 bits with a sign. -/
def maxExponent : Nat := Nat.pow 2 31 - 1

/-- The double nearest to a power of ten, for exponents up to 308. -/
def powerOfTen (k : Nat) : Float := Float.ofScientific 1 false k

/-- A number divided by a power of ten, in steps that a double can hold. -/
def divideByTens (x : Float) (k : Nat) : Float :=
  if k ≤ 308 then x / powerOfTen k
  else if x == 0 then x
  else divideByTens (x / powerOfTen 308) (k - 308)
  termination_by k

/-- A significand times a power of ten, unless it is beyond the range of a
    double. Zero is never beyond it. -/
def scale (significand : Nat) (exponent : Int) : Except Fault Float :=
  let x := significand.toUInt64.toFloat
  if exponent < 0 then .ok (divideByTens x exponent.natAbs)
  else if 308 < exponent then if x == 0 then .ok x else .error .numberOutOfRange
  else
    let y := x * powerOfTen exponent.natAbs
    if y.isInf then .error .numberOutOfRange else .ok y

/-- How far a numeral has been read, its sign apart. -/
inductive Numeral where
  /-- Nothing but a sign: a digit must follow. -/
  | sign
  /-- A leading zero, behind which no digit may follow. -/
  | zero
  /-- Digits that make an integer of 64 bits. -/
  | integer (significand : Nat)
  /-- More digits than fit, `dropped` of them. -/
  | long (significand dropped : Nat)
  /-- A point behind which a digit must follow. -/
  | point (significand dropped : Nat)
  /-- Digits behind the point, and the exponent they leave. -/
  | fraction (significand : Nat) (exponent : Int)
  /-- Digits behind the point that no longer fit. -/
  | longFraction (significand : Nat) (exponent : Int)
  /-- The letter of an exponent: its sign or a digit must follow. -/
  | letter (significand : Nat) (exponent : Int)
  /-- The sign of an exponent: a digit must follow. -/
  | letterSign (significand : Nat) (exponent : Int) (up : Bool)
  /-- Digits of an exponent. -/
  | exponent (significand : Nat) (exponent : Int) (up : Bool) (digits : Nat)
  /-- Digits of an exponent that makes the number zero. -/
  | vanishing
  deriving DecidableEq, Repr

namespace Numeral

/-- The number read so far. There is none while a digit must follow. -/
def value (negative : Bool) (n : Numeral) : Option (Except Fault Number) :=
  let float (r : Except Fault Float) : Option (Except Fault Number) :=
    some (r.map fun x => .float (if negative then -x else x))
  let whole (s : Nat) : Option (Except Fault Number) :=
    if !negative then some (.ok (.natural s))
    -- Minus zero and whatever is below the integers of 64 bits are doubles.
    else if s = 0 ∨ Nat.pow 2 63 < s then float (.ok s.toUInt64.toFloat)
    else some (.ok (.negative (s - 1)))
  match n with
  | sign => none
  | zero => whole 0
  | integer s => whole s
  | long s dropped => float (scale s dropped)
  | point _ _ => none
  | fraction s e => float (scale s e)
  | longFraction s e => float (scale s e)
  | letter _ _ => none
  | letterSign _ _ _ => none
  | exponent s e up digits => float (scale s (if up then e + digits else e - digits))
  | vanishing => float (.ok 0)

/-- Read a digit. There is no result when the numeral must end before it. -/
def takeDigit (d : Nat) : Numeral → Except Fault Numeral
  | sign => .ok (if d = 0 then zero else integer d)
  | zero => .error .invalidNumber
  | integer s =>
      .ok (if s * 10 + d ≤ maxSignificand then integer (s * 10 + d) else long s 1)
  | long s dropped => .ok (long s (dropped + 1))
  | point s dropped =>
      .ok (if s * 10 + d ≤ maxSignificand then fraction (s * 10 + d) (dropped - 1)
        else longFraction s dropped)
  | fraction s e =>
      .ok (if s * 10 + d ≤ maxSignificand then fraction (s * 10 + d) (e - 1)
        else longFraction s e)
  | longFraction s e => .ok (longFraction s e)
  | letter s e => .ok (exponent s e true d)
  | letterSign s e up => .ok (exponent s e up d)
  | exponent s e up digits =>
      if digits * 10 + d ≤ maxExponent then .ok (exponent s e up (digits * 10 + d))
      else if s ≠ 0 ∧ up then .error .numberOutOfRange
      else .ok vanishing
  | vanishing => .ok vanishing

/-- The significand and the exponent of digits that an exponent may follow. -/
def base : Numeral → Option (Nat × Int)
  | zero => some (0, 0)
  | integer s => some (s, 0)
  | long s dropped => some (s, dropped)
  | fraction s e => some (s, e)
  | longFraction s e => some (s, e)
  | _ => none

/-- The significand and the number of dropped digits that a point may follow. -/
def whole : Numeral → Option (Nat × Nat)
  | zero => some (0, 0)
  | integer s => some (s, 0)
  | long s dropped => some (s, dropped)
  | _ => none

/-- Read a byte that is not a digit, where the numeral goes on with it. -/
def takeMark (b : UInt8) (n : Numeral) : Option Numeral :=
  if b = '.'.toUInt8 then n.whole.map fun p => point p.1 p.2
  else if b = 'e'.toUInt8 ∨ b = 'E'.toUInt8 then n.base.map fun p => letter p.1 p.2
  else if b = '+'.toUInt8 ∨ b = '-'.toUInt8 then
    match n with
    | letter s e => some (letterSign s e (b = '+'.toUInt8))
    | _ => none
  else none

/-- What a byte does to a numeral. -/
inductive Outcome where
  /-- The byte belongs to it. -/
  | more (n : Numeral)
  /-- The numeral ended before the byte. -/
  | ended (n : Number)

/-- Read one more byte. A numeral that may not end where it stands is faulty if
    the byte does not belong to it. -/
def step (negative : Bool) (n : Numeral) (b : UInt8) : Except Fault Outcome :=
  match digit? b with
  | some d => (n.takeDigit d).map .more
  | none =>
      match n.takeMark b with
      | some next => .ok (.more next)
      | none =>
          match n.value negative with
          | some r => r.map .ended
          | none => .error .invalidNumber

end Numeral

end Chomsky
