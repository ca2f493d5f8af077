import Chomsky.Binary
import Chomsky.Epsilon
import Chomsky.Grammar.Text
import Chomsky.Isolation
import Chomsky.Options.Basic
import Chomsky.Unit

/-!
# Conversions

A grammar taken to Chomsky normal form.

The stages come in an order that lets none of them undo another: empty
productions go first, since dropping symbols makes new unit productions; unit
productions go next; long bodies are then broken up, and at last the terminals
in the two-symbol bodies give way to variables. A conversion keeps the grammar
after every stage.

Only the first stage can fail. A start symbol that is not in the grammar is worth
a warning and no more.

## Main definitions

* `Stage`: The stages, with their names and headings.
* `Conversion`: The grammars after the stages, and the warnings.
* `convertGrammar`, `convert`: Convert a grammar, or the text of one.
-/

namespace Chomsky

/-- The stages of a conversion, beginning with the grammar as it was read. -/
inductive Stage where
  | parsed
  | epsilonElimination
  | unitElimination
  | longRuleElimination
  | terminalIsolation
  deriving DecidableEq, Repr

namespace Stage

/-- The name of a stage in a document. -/
def name : Stage → String
  | parsed => "parsed"
  | epsilonElimination => "epsilon_elimination"
  | unitElimination => "unit_elimination"
  | longRuleElimination => "long_rule_elimination"
  | terminalIsolation => "terminal_isolation"

/-- The heading of a stage. -/
def label : Stage → String
  | parsed => "Parsed Grammar"
  | epsilonElimination => "After ε-Elimination"
  | unitElimination => "After Unit Production Elimination"
  | longRuleElimination => "After Long Rule Elimination"
  | terminalIsolation => "After Terminal Pair Replacement"

end Stage

/-- The outcome of a conversion. -/
structure Conversion where
  /-- The start symbol it was done for. -/
  start : Variable
  parsed : Grammar
  withoutEpsilon : Grammar
  /-- The grammar without unit productions as well. -/
  withoutUnits : Grammar
  /-- The grammar without long bodies as well. -/
  binary : Grammar
  /-- The grammar in normal form. -/
  final : Grammar
  warnings : List Warning
  deriving DecidableEq, Repr

/-- The grammar after each stage. -/
def Conversion.stages (c : Conversion) : List (Stage × Grammar) :=
  [(.parsed, c.parsed), (.epsilonElimination, c.withoutEpsilon),
    (.unitElimination, c.withoutUnits), (.longRuleElimination, c.binary),
    (.terminalIsolation, c.final)]

/-- The warning that a start symbol is not in the grammar. -/
def startWarnings (o : Options) (g : Grammar) : List Warning :=
  if g.contains o.start then [] else [.unknownStartSymbol o.start]

/-- Take a grammar with the given warnings through all stages. -/
def runStages (o : Options) (p : Parsed) : Except TooComplex Conversion :=
  (p.grammar.eliminateEpsilon o.start o.keepStartEpsilon o.maxNullable).map fun withoutEpsilon =>
    let withoutUnits := withoutEpsilon.eliminateUnits
    let binary := withoutUnits.eliminateLong
    { start := o.start
      parsed := p.grammar
      withoutEpsilon := withoutEpsilon
      withoutUnits := withoutUnits
      binary := binary
      final := binary.isolateTerminals
      warnings := p.warnings ++ startWarnings o p.grammar }

/-- Convert a grammar. -/
def convertGrammar (o : Options) (g : Grammar) : Except TooComplex Conversion :=
  runStages o ⟨g, []⟩

/-- A reason for which a source is not converted. -/
inductive ConversionError where
  | parsing (error : ParsingError)
  | tooComplex (error : TooComplex)
  deriving DecidableEq, Repr

/-- How a failed conversion is reported. -/
def ConversionError.message : ConversionError → String
  | parsing e => e.message
  | tooComplex e => e.message

/-- Read a source and convert its grammar. -/
def convert (o : Options) (source : String) : Except ConversionError Conversion :=
  match parse o.format source with
  | .error e => .error (.parsing e)
  | .ok p => (runStages o p).mapError .tooComplex

end Chomsky
