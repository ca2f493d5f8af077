import Chomsky.Source.RuleLines
import Chomsky.Source.RuleObject

/-!
# Grammar Sources

Reading a grammar from a text in either of its two forms.

A text in line form is always a grammar, if perhaps an empty one. A text in JSON
form can fail twice over: as JSON, where the place of the fault is known, and as
a grammar, where only the offending member is.

## Main definitions

* `Format`: The two forms.
* `ParsingError`: A source that is not a grammar.
* `Reading`: The entries of a source, and what ended the reading early.
* `parse`: The grammar of a source.
-/

namespace Chomsky

/-- The form of a grammar source. -/
inductive Format where
  /-- One rule in a line. -/
  | text
  | json
  deriving DecidableEq, Repr

/-- The name of a form. -/
def Format.name : Format → String
  | text => "text"
  | json => "json"

/-- The form of a given name. -/
def Format.ofName? (name : String) : Option Format :=
  if name = Format.text.name then some .text
  else if name = Format.json.name then some .json
  else none

/-- A reason for which a source is not a grammar. -/
inductive ParsingError where
  /-- It is not JSON. -/
  | malformed (error : ReadError)
  /-- It is JSON and yet no grammar. -/
  | misshapen (error : ShapeError)
  deriving DecidableEq, Repr

namespace ParsingError

/-- The line the error refers to. A fault without a place is put on line zero,
    and an error of shape on none. -/
def line : ParsingError → Option Nat
  | malformed e => some ((e.position.map Position.line).getD 0)
  | misshapen _ => none

/-- What the error is. -/
def detail : ParsingError → String
  | malformed e => "Invalid JSON syntax: " ++ e.message
  | misshapen e => e.message

/-- What the error is, and where. -/
def message (e : ParsingError) : String :=
  match e.line with
  | some n => "ParsingError in line " ++ toString n ++ ": " ++ e.detail
  | none => "ParsingError: " ++ e.detail

end ParsingError

/-- What reading a source comes to. -/
structure Reading where
  entries : List Entry
  /-- What ended the reading early. -/
  error : Option ParsingError
  deriving DecidableEq, Repr

/-- Read a source in JSON form. -/
def readObject (source : String) : Reading :=
  match Json.read (.withoutComments (textBytes source)) with
  | .error e => ⟨[], some (.malformed e)⟩
  | .ok value =>
      let (entries, error) := objectEntries value
      ⟨entries, error.map .misshapen⟩

/-- Read a source in either form. -/
def readSource (format : Format) (source : String) : Reading :=
  match format with
  | .text => ⟨lineEntries source, none⟩
  | .json => readObject source

/-- The grammar that a reading has come to, unless it ended early. -/
def Reading.parsed (r : Reading) : Except ParsingError Parsed :=
  match r.error with
  | some e => .error e
  | none => .ok (Parsed.ofEntries r.entries)

/-- The grammar of a source. -/
def parse (format : Format) (source : String) : Except ParsingError Parsed :=
  (readSource format source).parsed

end Chomsky
