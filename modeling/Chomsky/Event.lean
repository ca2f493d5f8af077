import Chomsky.Text.Masked

/-!
# Events

What the stages report while they work, for a reader who wants to watch. An
event has a level of severity, and a log shows the events of the chosen level
and of the more severe ones. Logs are watched on terminals, so the messages are
masked there.

## Main definitions

* `Level`: Severities, the most severe first.
* `Event`: A message of some severity.
* `visible`: The events that a chosen level lets through.
* `logged`: Those events as a log shows them.
-/

namespace Chomsky

/-- How severe an event is, the most severe first. -/
inductive Level where
  | error
  | warn
  | info
  | debug
  | trace
  deriving DecidableEq, Repr

namespace Level

/-- The name of a level in a log. -/
def name : Level → String
  | error => "ERROR"
  | warn => "WARN"
  | info => "INFO"
  | debug => "DEBUG"
  | trace => "TRACE"

/-- Zero for the most severe level, growing towards the least severe. -/
def rank : Level → Nat
  | error => 0
  | warn => 1
  | info => 2
  | debug => 3
  | trace => 4

/-- The level that somebody asks for, by its name in capital or small letters or by
    its number from one. The empty name stands for errors alone. `off` and zero are
    no level, and neither is any other name. -/
def ofName? (name : String) : Option Level :=
  let word := name.toLower
  if word = "error" ∨ word = "1" ∨ word = "" then some error
  else if word = "warn" ∨ word = "2" then some warn
  else if word = "info" ∨ word = "3" then some info
  else if word = "debug" ∨ word = "4" then some debug
  else if word = "trace" ∨ word = "5" then some trace
  else none

end Level

/-- A message of some severity. -/
structure Event where
  level : Level
  message : String
  deriving DecidableEq, Repr

/-- The events that are at least as severe as the given level. Without a level
    nothing is shown. -/
def visible (level : Option Level) (events : List Event) : List Event :=
  match level with
  | none => []
  | some l => events.filter fun e => e.level.rank ≤ l.rank

/-- The events of a log: those that the chosen level lets through, with their
    messages masked. -/
def logged (level : Option Level) (events : List Event) : List Event :=
  (visible level events).map fun e => { e with message := masked e.message }

end Chomsky
