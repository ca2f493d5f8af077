import Chomsky.Decimal.Shortest
import Chomsky.Options.Basic
import Chomsky.Text.Quoted

/-!
# Options from JSON

Reading options from a JSON value.

An object gives them by name, in any order; those it leaves out keep their
defaults, and members of other names are ignored. An array gives them by place
and may stop early. The first value that does not fit is the one reported.

The form of a source is a name. It may also be written as an object with that
name as its only key and null as the value.

## Main definitions

* `Expectation`, `OptionsError`: What was expected, and what came instead.
* `Options.ofJson`: The options of a JSON value.
-/

namespace Chomsky

/-- What a place in the options must hold. -/
inductive Expectation where
  | boolean
  | string
  | natural
  | formatName
  | unit
  | options
  deriving DecidableEq, Repr

/-- The name of what is expected. -/
def Expectation.name : Expectation → String
  | boolean => "a boolean"
  | string => "a string"
  | natural => "usize"
  | formatName => "string or map"
  | unit => "unit"
  | options => "struct ConversionOptions"

/-- A reason for which a JSON value does not give options. -/
inductive OptionsError where
  | wrongKind (got : Json) (want : Expectation)
  /-- A number is negative, `-(n + 1)`, where it must not be. -/
  | negative (n : Nat)
  | unknownFormat (name : String)
  /-- A form is written as an object that does not have one member. -/
  | formatMembers
  /-- An array has this many items, which is more than there are options. -/
  | tooLong (length : Nat)

/-- A JSON value in a message. -/
def Json.description : Json → String
  | .null => "null"
  | .bool b => "boolean `" ++ toString b ++ "`"
  | .number (.natural n) => "integer `" ++ toString n ++ "`"
  | .number (.negative n) => "integer `-" ++ toString (n + 1) ++ "`"
  | .number (.float x) => "floating point `" ++ floatText x ++ "`"
  | .string s => "string " ++ quoted s
  | .array _ => "sequence"
  | .object _ => "map"

/-- How a value that does not give options is reported. -/
def OptionsError.message : OptionsError → String
  | wrongKind got want => "invalid type: " ++ got.description ++ ", expected " ++ want.name
  | negative n =>
      "invalid value: integer `-" ++ toString (n + 1) ++ "`, expected " ++
        Expectation.natural.name
  | unknownFormat name => "unknown variant `" ++ name ++ "`, expected `text` or `json`"
  | formatMembers => "invalid value: map, expected map with a single key"
  | tooLong length =>
      "invalid length " ++ toString length ++ ", expected fewer elements in array"

namespace Json

/-- The truth value that an option holds. -/
def toBool : Json → Except OptionsError Bool
  | .bool b => .ok b
  | v => .error (.wrongKind v .boolean)

/-- The text that an option holds. -/
def toText : Json → Except OptionsError String
  | .string s => .ok s
  | v => .error (.wrongKind v .string)

/-- The natural number that an option holds. -/
def toNatural : Json → Except OptionsError Nat
  | .number (.natural n) => .ok n
  | .number (.negative n) => .error (.negative n)
  | v => .error (.wrongKind v .natural)

/-- The form of the given name. -/
def namedFormat (name : String) : Except OptionsError Format :=
  match Format.ofName? name with
  | some f => .ok f
  | none => .error (.unknownFormat name)

/-- The form of a source that an option holds. -/
def toFormat : Json → Except OptionsError Format
  | .string name => namedFormat name
  | .object [(name, v)] => do
      let f ← namedFormat name
      match v with
      | .null => return f
      | v => throw (.wrongKind v .unit)
  | .object _ => .error .formatMembers
  | v => .error (.wrongKind v .formatName)

end Json

namespace Options

/-- The options with the one of the given name set. Other names are ignored. -/
def setMember (o : Options) (name : String) (v : Json) : Except OptionsError Options :=
  if name = "keep_start_epsilon" then v.toBool.map ({ o with keepStartEpsilon := · })
  else if name = "start_symbol" then v.toText.map ({ o with startSymbol := · })
  else if name = "max_nullable_per_body" then v.toNatural.map ({ o with maxNullable := · })
  else if name = "format" then v.toFormat.map ({ o with format := · })
  else .ok o

/-- The names of the options, in the order of their places in an array. -/
def names : List String :=
  ["keep_start_epsilon", "start_symbol", "max_nullable_per_body", "format"]

/-- Set the options of a list of members, one after the other. -/
def setMembers (o : Options) (members : List (String × Json)) : Except OptionsError Options :=
  members.foldlM (fun o m => o.setMember m.1 m.2) o

/-- The options that a JSON value gives. -/
def ofJson : Json → Except OptionsError Options
  | .object members => setMembers {} members
  | .array items => do
      let o ← setMembers {} (names.zip items)
      if names.length < items.length then throw (.tooLong items.length)
      return o
  | v => .error (.wrongKind v .options)

end Options

end Chomsky
