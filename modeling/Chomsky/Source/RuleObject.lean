import Chomsky.Json.Reader
import Chomsky.Source.Entry

/-!
# Rule Objects

The JSON form of a grammar source: an object that maps each left-hand side to an
array of alternatives, with comments allowed.

The members are checked one after the other, and the first one that is not a
rule refuses the source. The rules in front of it have been read by then, which a
log of the reading may show.

## Main definitions

* `ShapeError`: A value that is JSON and yet no grammar.
* `memberEntry`: The entry of a member.
* `memberEntries`: The entries up to the first error.
* `objectEntries`: The entries of a JSON value.
-/

namespace Chomsky

/-- A way for a JSON value not to be a grammar. -/
inductive ShapeError where
  | notObject
  | emptyLeftHandSide
  | notArray (key : String)
  | notStrings (key : String)
  deriving DecidableEq, Repr

/-- How a shape error is reported. Keys are shown as they were written. -/
def ShapeError.message : ShapeError → String
  | notObject => "Grammar must be specified as an object"
  | emptyLeftHandSide => "Left-hand-side must not be empty"
  | notArray key => "Right-hand-side of '" ++ key ++ "' must be an array"
  | notStrings key => "Right-hand-side of '" ++ key ++ "' must be an array of strings"

/-- The text of a JSON string. -/
def Json.string? : Json → Option String
  | .string s => some s
  | _ => none

/-- The entry of a member of a rule object. -/
def memberEntry (key : String) (value : Json) : Except ShapeError Entry :=
  let lhs := trim key.toList
  if lhs.isEmpty then .error .emptyLeftHandSide
  else
    match value with
    | .array items =>
        match items.mapM Json.string? with
        | some alternatives => .ok (.rule ⟨String.ofList lhs⟩ alternatives)
        | none => .error (.notStrings key)
    | _ => .error (.notArray key)

/-- The entries of the members in front of the first error, and that error. -/
def memberEntries : List (String × Json) → List Entry × Option ShapeError
  | [] => ([], none)
  | m :: rest =>
      match memberEntry m.1 m.2 with
      | .error e => ([], some e)
      | .ok entry =>
          let (entries, error) := memberEntries rest
          (entry :: entries, error)

/-- The entries of a JSON value in front of the first error, and that error. -/
def objectEntries : Json → List Entry × Option ShapeError
  | .object members => memberEntries members
  | _ => ([], some .notObject)

end Chomsky
