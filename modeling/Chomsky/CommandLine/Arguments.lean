import Chomsky.Options.Basic

/-!
# Command Line Arguments

The arguments of the program: at most one grammar file, flags, settings that take a
value, and requests to be told something instead.

An argument is read on its own, except that a setting without a value takes the
next argument for it. A value in an argument of its own must not begin with a
dash, lest a forgotten value swallow an option; a lone dash is a value, and
behind an equals sign anything is. Options of one letter may be joined, and a
setting of one letter may end such a group. Behind two dashes every argument is a
file.

Nothing may be given twice.

The pieces count from left to right, up to the first one that is a request or is
refused. What stands behind that one is never looked at, so nothing is wrong with
it.

## Main definitions

* `Flag`, `Setting`, `Request`: The options without and with a value, and those that
  ask to be told something.
* `Piece`: What a piece of the arguments says.
* `Arguments`: What the pieces say about a conversion.
* `Command`: What the arguments ask for.
* `UsageError`: Why arguments are refused.
* `Command.parse`: Read the arguments.
* `Arguments.options`: The options of the conversion.
-/

namespace Chomsky

/-- An option without a value. -/
inductive Flag where
  | keepStartEpsilon
  | steps
  | compact
  | verbose
  deriving DecidableEq, Repr

/-- An option with a value. -/
inductive Setting where
  | format
  | start
  | maxNullable
  | output
  deriving DecidableEq, Repr

/-- An option that asks to be told something instead of converting a grammar. -/
inductive Request where
  /-- What the options are, in brief. -/
  | summary
  /-- What the options are, at length. -/
  | help
  | version
  deriving DecidableEq, Repr

/-- An option. -/
inductive CommandOption where
  | flag (f : Flag)
  | setting (s : Setting)
  | request (r : Request)
  deriving DecidableEq, Repr

/-- The name of a flag. -/
def Flag.name : Flag → String
  | keepStartEpsilon => "--keep-start-epsilon"
  | steps => "--steps"
  | compact => "--compact"
  | verbose => "--verbose"

/-- The name of a setting. -/
def Setting.name : Setting → String
  | format => "--format"
  | start => "--start"
  | maxNullable => "--max-nullable"
  | output => "--output"

/-- The name of a request. -/
def Request.name : Request → String
  | summary => "-h"
  | help => "--help"
  | version => "--version"

namespace CommandOption

/-- The name of an option. -/
def name : CommandOption → String
  | flag f => f.name
  | setting s => s.name
  | request r => r.name

/-- The option of a name behind two dashes. -/
def ofName? (name : String) : Option CommandOption :=
  if name = "keep-start-epsilon" then some (.flag .keepStartEpsilon)
  else if name = "steps" then some (.flag .steps)
  else if name = "compact" then some (.flag .compact)
  else if name = "verbose" then some (.flag .verbose)
  else if name = "format" then some (.setting .format)
  else if name = "start" then some (.setting .start)
  else if name = "max-nullable" then some (.setting .maxNullable)
  else if name = "output" then some (.setting .output)
  else if name = "help" then some (.request .help)
  else if name = "version" then some (.request .version)
  else none

/-- The option of a letter behind one dash. -/
def ofLetter? (letter : Char) : Option CommandOption :=
  if letter = 's' then some (.setting .start)
  else if letter = 'o' then some (.setting .output)
  else if letter = 'v' then some (.flag .verbose)
  else if letter = 'h' then some (.request .summary)
  else if letter = 'V' then some (.request .version)
  else none

end CommandOption

/-- A reason for which arguments are refused. -/
inductive UsageError where
  | unknownOption (arg : String)
  | repeatedFlag (f : Flag)
  | repeatedSetting (s : Setting)
  | missingValue (s : Setting)
  | needlessValue (option : CommandOption)
  | invalidValue (s : Setting) (value : String)
  | secondFile (path : String)
  deriving DecidableEq, Repr

/-- What is wrong with the arguments. -/
def UsageError.message : UsageError → String
  | unknownOption arg => "unknown option " ++ arg
  | repeatedFlag f => f.name ++ " is given twice"
  | repeatedSetting s => s.name ++ " is given twice"
  | missingValue s => s.name ++ " needs a value"
  | needlessValue option => option.name ++ " takes no value"
  | invalidValue s value => "invalid value '" ++ value ++ "' for " ++ s.name
  | secondFile path => "unexpected argument " ++ path

/-- What a piece of the arguments says. -/
inductive Piece where
  | file (path : String)
  | flag (f : Flag)
  | setting (s : Setting) (value : String)
  | request (r : Request)
  /-- Nothing, since it cannot be read. -/
  | refused (error : UsageError)
  deriving DecidableEq, Repr

/-- What the pieces say about a conversion. -/
structure Arguments where
  /-- The grammar file. Without one the standard input is read. -/
  file : Option String := none
  keepStartEpsilon : Bool := false
  steps : Bool := false
  compact : Bool := false
  verbose : Bool := false
  format : Option Format := none
  start : Option String := none
  maxNullable : Option Nat := none
  output : Option String := none
  deriving DecidableEq, Repr

/-- What the arguments ask for. -/
inductive Command where
  | convert (a : Arguments)
  | tell (r : Request)
  deriving DecidableEq, Repr

/-- A natural number of 64 bits in decimal, perhaps with a plus sign. -/
def parseNatural (text : String) : Option Nat :=
  let digits := match text.toList with
    | '+' :: rest => rest
    | cs => cs
  if digits.isEmpty || !digits.all Char.isDigit then none
  else
    let n := digits.foldl (fun n c => n * 10 + (c.toNat - '0'.toNat)) 0
    if n < UInt64.size then some n else none

/-- A text at its first equals sign. -/
def splitEquals : List Char → List Char × Option (List Char)
  | [] => ([], none)
  | '=' :: rest => ([], some rest)
  | c :: rest =>
      let (name, value) := splitEquals rest
      (c :: name, value)

/-- Whether an argument may be the value of the option in front of it. -/
def isValue (arg : String) : Bool := arg = "-" || arg.toList.head? != some '-'

/-- The pieces of a group of letters, and the setting that still needs a value
    when the group ends in one. -/
def readGroup (arg : String) : List Char → List Piece × Option Setting
  | [] => ([], none)
  | letter :: rest =>
      match CommandOption.ofLetter? letter with
      | none => ([.refused (.unknownOption arg)], none)
      | some (.flag f) =>
          let (pieces, waiting) := readGroup arg rest
          (.flag f :: pieces, waiting)
      | some (.request r) => ([.request r], none)
      | some (.setting s) =>
          match rest with
          | [] => ([], some s)
          -- An equals sign in front of the value does not belong to it.
          | '=' :: value => ([.setting s (String.ofList value)], none)
          | value => ([.setting s (String.ofList value)], none)

/-- The pieces of an argument in front of two dashes, and the setting that still
    needs a value. -/
def readArgument (arg : String) : List Piece × Option Setting :=
  match arg.toList with
  | '-' :: '-' :: body =>
      let (name, value) := splitEquals body
      match CommandOption.ofName? (String.ofList name), value with
      | none, _ => ([.refused (.unknownOption arg)], none)
      | some (.flag f), none => ([.flag f], none)
      | some (.request r), none => ([.request r], none)
      | some (.setting s), none => ([], some s)
      | some (.setting s), some v => ([.setting s (String.ofList v)], none)
      | some option, some _ => ([.refused (.needlessValue option)], none)
  | '-' :: letter :: rest => readGroup arg (letter :: rest)
  | _ => ([.file arg], none)

/-- The pieces of all arguments in order. A setting may be waiting for its value. -/
def readArguments (waiting : Option Setting) : List String → List Piece
  | [] =>
      match waiting with
      | none => []
      | some s => [.refused (.missingValue s)]
  | arg :: rest =>
      match waiting with
      | some s =>
          if isValue arg then .setting s arg :: readArguments none rest
          else [.refused (.missingValue s)]
      | none =>
          if arg = "--" then rest.map .file
          else
            let (pieces, next) := readArgument arg
            pieces ++ readArguments next rest

namespace Arguments

/-- The arguments with a flag that has not been given yet. -/
def setFlag (a : Arguments) (f : Flag) : Except UsageError Arguments :=
  match f with
  | .keepStartEpsilon =>
      if a.keepStartEpsilon then .error (.repeatedFlag f)
      else .ok { a with keepStartEpsilon := true }
  | .steps => if a.steps then .error (.repeatedFlag f) else .ok { a with steps := true }
  | .compact => if a.compact then .error (.repeatedFlag f) else .ok { a with compact := true }
  | .verbose => if a.verbose then .error (.repeatedFlag f) else .ok { a with verbose := true }

/-- The arguments with a setting that has not been given yet. -/
def setValue (a : Arguments) (s : Setting) (value : String) : Except UsageError Arguments :=
  match s with
  | .format =>
      if a.format.isSome then .error (.repeatedSetting s)
      else
        match Format.ofName? value with
        | some f => .ok { a with format := some f }
        | none => .error (.invalidValue s value)
  | .start =>
      if a.start.isSome then .error (.repeatedSetting s)
      else .ok { a with start := some value }
  | .maxNullable =>
      if a.maxNullable.isSome then .error (.repeatedSetting s)
      else
        match parseNatural value with
        | some n => .ok { a with maxNullable := some n }
        | none => .error (.invalidValue s value)
  | .output =>
      if a.output.isSome then .error (.repeatedSetting s)
      else .ok { a with output := some value }

/-- The arguments with a grammar file, if there is none yet. -/
def setFile (a : Arguments) (path : String) : Except UsageError Arguments :=
  if a.file.isSome then .error (.secondFile path) else .ok { a with file := some path }

/-- The options of the conversion, with defaults for what is not given. -/
def options (a : Arguments) : Options :=
  let default : Options := {}
  { keepStartEpsilon := a.keepStartEpsilon
    startSymbol := a.start.getD default.startSymbol
    maxNullable := a.maxNullable.getD default.maxNullable
    format := a.format.getD default.format }

end Arguments

namespace Command

/-- What pieces ask for, when those in front of them have said what the arguments
    are so far. -/
def ofPieces (a : Arguments) : List Piece → Except UsageError Command
  | [] => .ok (.convert a)
  | .refused e :: _ => .error e
  | .request r :: _ => .ok (.tell r)
  | .file path :: rest => (a.setFile path).bind fun b => ofPieces b rest
  | .flag f :: rest => (a.setFlag f).bind fun b => ofPieces b rest
  | .setting s value :: rest => (a.setValue s value).bind fun b => ofPieces b rest

/-- Read the arguments. -/
def parse (args : List String) : Except UsageError Command := ofPieces {} (readArguments none args)

end Command

end Chomsky
