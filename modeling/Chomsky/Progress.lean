import Chomsky.Conversion
import Chomsky.Text.Quoted

/-!
# Progress of a Conversion

What a conversion reports while it works. Warnings come first, and then every
stage tells what it found and how large the grammar is now. A conversion that
fails has reported the nullable variables by then.

## Main definitions

* `stageEvent`: The size of the grammar after a stage.
* `nullableEvent`, `unitEvent`, `chainEvents`, `isolationEvents`: What the
  stages find.
* `conversionEvents`: Everything that converting a grammar reports.
* `sourceEvents`: Everything that converting a source reports.
-/

namespace Chomsky

/-- The size of the grammar after a stage. -/
def stageEvent (stage : Stage) (g : Grammar) : Event :=
  ⟨.debug, stage.label ++ ": " ++ toString g.size ++ " variables, " ++
    toString g.productionCount ++ " productions"⟩

/-- The nullable variables of a grammar. -/
def nullableEvent (g : Grammar) : Event :=
  ⟨.debug, "Nullable variables: [" ++
    ", ".intercalate (g.nullable.map fun v => quoted v.name) ++ "]"⟩

/-- The number of unit pairs of a grammar. -/
def unitEvent (g : Grammar) : Event :=
  ⟨.debug, toString g.unitPairs.length ++ " unit pairs after closure"⟩

/-- An introduced variable. -/
def freshEvent (v : Variable) : Event := ⟨.trace, "Introducing fresh variable " ++ v.name⟩

/-- The chain variables of the long bodies of a grammar. -/
def chainEvents (g : Grammar) : List Event :=
  g.links.map (fun l => freshEvent l.1) ++
    [⟨.debug, "Introduced " ++ toString g.links.length ++ " variables for long rules"⟩]

/-- The variables of the isolated terminals of a grammar. -/
def isolationEvents (g : Grammar) : List Event :=
  g.isolation.map (fun p => freshEvent p.2) ++
    [⟨.debug, "Isolated " ++ toString g.isolation.length ++ " terminals"⟩]

/-- What the stages behind the first report. -/
def laterEvents (c : Conversion) : List Event :=
  [stageEvent .epsilonElimination c.withoutEpsilon, unitEvent c.withoutEpsilon,
    stageEvent .unitElimination c.withoutUnits] ++ chainEvents c.withoutUnits ++
    [stageEvent .longRuleElimination c.binary] ++ isolationEvents c.binary ++
    [stageEvent .terminalIsolation c.final]

/-- Everything that converting a grammar reports. -/
def conversionEvents (o : Options) (p : Parsed) : List Event :=
  (p.warnings ++ startWarnings o p.grammar).map (fun w => ⟨.warn, w.message⟩) ++
    [stageEvent .parsed p.grammar, nullableEvent p.grammar] ++
    match runStages o p with
    | .error _ => []
    | .ok c => laterEvents c

/-- Everything that converting a source reports. -/
def sourceEvents (o : Options) (source : String) : List Event :=
  let reading := readSource o.format source
  entryEvents [] reading.entries ++
    match reading.parsed with
    | .error _ => []
    | .ok p => conversionEvents o p

end Chomsky
