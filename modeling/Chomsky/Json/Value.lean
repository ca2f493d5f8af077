/-!
# JSON Values

A JSON value with its object members in order. The order of the members belongs
to the value, since a grammar written as an object lists its rules in it.

Numbers come in the three kinds that a reader tells apart: natural numbers and
negative integers of 64 bits, and floating point numbers for all the rest.

## Main definitions

* `Number`, `Json`: The values.
* `insertMember`: Add a member, or replace the one with the same key in place.
-/

namespace Chomsky

/-- A JSON number. -/
inductive Number where
  /-- The integer `n`. -/
  | natural (n : Nat)
  /-- The integer `-(n + 1)`. -/
  | negative (n : Nat)
  /-- A number with a fraction or an exponent, or too large for an integer. -/
  | float (x : Float)

/-- A JSON value. -/
inductive Json where
  | null
  | bool (b : Bool)
  | number (n : Number)
  | string (s : String)
  | array (items : List Json)
  | object (members : List (String × Json))

namespace Json

/-- Add a member at the end, or replace the value of the member with that key
    where it stands. -/
def insertMember (key : String) (value : Json) : List (String × Json) → List (String × Json)
  | [] => [(key, value)]
  | m :: rest =>
      if m.1 = key then (key, value) :: rest else m :: insertMember key value rest

end Json

end Chomsky
