import Chomsky.Event
import Chomsky.Grammar.Basic
import Chomsky.Text.Blank
import Chomsky.Warning

/-!
# Source Entries

What a grammar source says, before it is a grammar.

Sources come in two forms, lines of rules and a JSON object, and both reduce to a
list of entries. An entry is a rule whose alternatives are still text, or a line
that yields no rule. From here on the two forms are treated alike: an alternative
is decomposed character by character, with blanks trimmed off its ends, and the
markers `ε` in it stand for the empty word. They are dropped where anything else
is left, and an alternative made of them alone is the empty production.

## Main definitions

* `Entry`: A rule in text, or a line without one.
* `readAlternative`: The body an alternative denotes.
* `dropsEpsilon`: The alternative holds a marker that its body does not show.
* `Entry.warnings`: What is to be said about an entry.
* `Parsed.ofEntries`: The grammar and the warnings of a source.
* `entryEvents`: What reading a source reports to a log.
-/

namespace Chomsky

/-- A piece of a grammar source. -/
inductive Entry where
  /-- A left-hand side and its alternatives. -/
  | rule (lhs : Variable) (alternatives : List String)
  /-- A line with an arrow and nothing before it. -/
  | nameless (line : Nat)
  /-- A line without an arrow that is not blank. -/
  | skipped (line : Nat)
  deriving DecidableEq, Repr

/-- The body that an alternative denotes. Blanks at its ends do not count, and
    its markers `ε` only count where there is nothing else. -/
def readAlternative (text : String) : Body :=
  let cs := trim text.toList
  let body := (cs.filter (· != epsilonMark)).map Symbol.classify
  if body.isEmpty && cs.contains epsilonMark then [.epsilon] else body

/-- Whether an alternative holds a marker `ε` without being that marker. -/
def dropsEpsilon (text : String) : Bool :=
  let cs := trim text.toList
  cs.contains epsilonMark && cs != [epsilonMark]

/-- What is to be said about the alternative with the given index. -/
def alternativeWarnings (lhs : Variable) (index : Nat) (text : String) : List Warning :=
  (if dropsEpsilon text then [.epsilonDropped lhs index] else []) ++
    (if (readAlternative text).isEmpty then [.emptyAlternative lhs index] else [])

namespace Entry

/-- What is to be said about an entry. -/
def warnings : Entry → List Warning
  | rule lhs alternatives =>
      alternatives.zipIdx.flatMap fun a => alternativeWarnings lhs a.2 a.1
  | nameless line => [.missingLeftHandSide line]
  | skipped _ => []

/-- The rule of an entry, if it has one. -/
def rule? : Entry → Option Rule
  | rule lhs alternatives => some (lhs, alternatives.map readAlternative)
  | nameless _ => none
  | skipped _ => none

end Entry

/-- A grammar as read from a source, with the warnings of the source. -/
structure Parsed where
  grammar : Grammar
  warnings : List Warning
  deriving DecidableEq, Repr

/-- The grammar and the warnings of a source. A later rule for the same variable
    replaces an earlier one; the warnings of both stay. -/
def Parsed.ofEntries (entries : List Entry) : Parsed :=
  ⟨Grammar.ofRules (entries.filterMap Entry.rule?), entries.flatMap Entry.warnings⟩

/-- What reading the entries of a source reports, given the variables that
    have rules already. -/
def entryEvents (known : List Variable) : List Entry → List Event
  | [] => []
  | .rule lhs _ :: rest =>
      if known.contains lhs then
        ⟨.debug, "Redefinition of " ++ lhs.name ++ " replaces its earlier alternatives"⟩ ::
          entryEvents known rest
      else entryEvents (lhs :: known) rest
  | .nameless _ :: rest => entryEvents known rest
  | .skipped line :: rest =>
      ⟨.trace, "Skipping line " ++ toString line ++ ": no '->'"⟩ :: entryEvents known rest

end Chomsky
