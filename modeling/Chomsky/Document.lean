import Chomsky.Conversion
import Chomsky.Json.Printer

/-!
# Conversions as JSON

The document that records a conversion: the start symbol, the rules of the final
grammar, the text of the grammar after every stage if wanted, and the warnings.

Symbols are written by their text alone. In the final grammar nothing is lost by
that, since a body of one symbol holds a terminal there and a body of two holds
variables.

## Main definitions

* `Conversion.toJson`: The document.
* `Conversion.document`: The document as text.
-/

namespace Chomsky

/-- A body as an array of texts. -/
def Body.toJson (body : Body) : Json := .array (body.map fun s => .string s.text)

/-- The rules of a grammar as an object. -/
def Grammar.toJson (g : Grammar) : Json :=
  .object (g.rules.map fun r => (r.1.name, .array (r.2.map Body.toJson)))

/-- A warning with its kind and what it refers to. -/
def Warning.toJson : Warning → Json
  | emptyAlternative lhs index =>
      .object [("kind", .string "empty_alternative"), ("variable", .string lhs.name),
        ("index", .number (.natural index))]
  | epsilonDropped lhs index =>
      .object [("kind", .string "epsilon_dropped"), ("variable", .string lhs.name),
        ("index", .number (.natural index))]
  | missingLeftHandSide line =>
      .object [("kind", .string "missing_left_hand_side"), ("line", .number (.natural line))]
  | unknownStartSymbol start =>
      .object [("kind", .string "unknown_start_symbol"), ("symbol", .string start.name)]

/-- The grammar after a stage. -/
def stageToJson (s : Stage × Grammar) : Json :=
  .object [("stage", .string s.1.name), ("label", .string s.1.label), ("text", .string s.2.text)]

namespace Conversion

/-- The document of a conversion, with the grammars after all stages if
    wanted. -/
def toJson (steps : Bool) (c : Conversion) : Json :=
  .object ([("start", .string c.start.name), ("rules", c.final.toJson)] ++
    (if steps then [("steps", .array (c.stages.map stageToJson))] else []) ++
    [("warnings", .array (c.warnings.map Warning.toJson))])

/-- The document of a conversion as text, ended by a newline. -/
def document (steps : Bool) (c : Conversion) : String := (c.toJson steps).pretty ++ "\n"

end Conversion

end Chomsky
