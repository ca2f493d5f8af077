import Chomsky.CommandLine.Arguments
import Chomsky.CommandLine.Directory
import Chomsky.Document
import Chomsky.Progress

/-!
# The Program

The program as a function of its arguments, its input and the files around it.

A run reads the arguments, then the source, then converts it, and only then shows
anything or writes a file. Each step can fail, and a run that fails has neither
shown nor written anything. It may have reported events to the log by then.

A request in the arguments ends the run before it has begun: what was requested is
shown, and no source is read.

What the program does about a source is decided by `answer`, which needs no files.
`run` is that decision carried out on a directory.

## Main definitions

* `Product`: What a successful run shows or writes.
* `Failure`: Why a run fails.
* `logLevel`: The level of the log.
* `answer`: The decision.
* `run`: The program on a directory.
-/

namespace Chomsky

/-- What a run leaves behind. -/
inductive Product where
  /-- A text on the standard output. -/
  | shown (text : String)
  | written (path text : String)
  deriving DecidableEq, Repr

/-- A reason for which a run fails. -/
inductive Failure where
  | usage (error : UsageError)
  | unreadableFile (path : String) (error : FileError)
  | unreadableInput (error : FileError)
  | conversion (error : ConversionError)
  | unwritable (path : String) (error : FileError)
  deriving DecidableEq, Repr

namespace Failure

/-- The exit code of a run that fails. -/
def code : Failure → Nat
  | usage _ => 2
  | _ => 1

/-- A message with what it is caused by. -/
def withCause (message cause : String) : String :=
  "Error: " ++ message ++ "\n\nCaused by:\n    " ++ cause ++ "\n"

/-- How a failure is reported. What is wrong with the arguments is told by
    whoever reads them. -/
def report : Failure → Option String
  | usage _ => none
  | unreadableFile path e =>
      some (withCause ("Could not read grammar file " ++ path) e.message)
  | unreadableInput e => some (withCause "Could not read grammar from stdin" e.message)
  | conversion e => some ("Error: " ++ e.message ++ "\n")
  | unwritable path e => some (withCause ("Could not write " ++ path) e.message)

end Failure

/-- The level of the log: the one asked for by name, or else what the arguments
    call for. A name that is no level asks for no log. -/
def logLevel (requested : Option String) (a : Arguments) : Option Level :=
  match requested with
  | some name => Level.ofName? name
  | none => some (if a.verbose then .debug else .warn)

/-- The text of a conversion: every stage under its heading if wanted, and the
    final grammar. -/
def Conversion.display (steps compact : Bool) (c : Conversion) : String :=
  (if steps then
    String.join (c.stages.map fun s => s.1.label ++ ":\n" ++ s.2.text ++ "\n\n") ++
      "Chomsky Normal Form:\n"
  else "") ++ (if compact then c.final.compact else c.final.text) ++ "\n"

/-- What a conversion leads to: a document, if an output is named, and the text
    of it otherwise. The output named by a dash is the standard output. -/
def product (a : Arguments) (c : Conversion) : Product :=
  match a.output with
  | none => .shown (c.display a.steps a.compact)
  | some path =>
      if path = "-" then .shown (c.document a.steps) else .written path (c.document a.steps)

/-- The failure to read a source. -/
def Arguments.sourceFailure (a : Arguments) (e : FileError) : Failure :=
  match a.file with
  | some path => .unreadableFile path e
  | none => .unreadableInput e

/-- What the program does about a source, and what it reports on the way. -/
def answer (a : Arguments) (source : Except FileError ByteArray) :
    List Event × Except Failure Product :=
  match source.bind decodeBytes with
  | .error e => ([], .error (a.sourceFailure e))
  | .ok text =>
      (sourceEvents a.options text,
        match convert a.options text with
        | .error e => .error (.conversion e)
        | .ok c => .ok (product a c))

/-- What is there before a run. -/
structure Surroundings where
  input : ByteArray
  directory : Directory
  /-- The level of the log, if one is asked for. -/
  level : Option String

/-- What is there after a run. -/
structure RunResult where
  output : String
  log : List Event
  directory : Directory
  failure : Option Failure

namespace RunResult

/-- The exit code. -/
def code (r : RunResult) : Nat :=
  match r.failure with
  | none => 0
  | some f => f.code

/-- The text on the standard error output, the log apart. -/
def report (r : RunResult) : Option String :=
  match r.failure with
  | none => some ""
  | some f => f.report

end RunResult

/-- The bytes of the source that the arguments name. -/
def Arguments.source (a : Arguments) (s : Surroundings) : Except FileError ByteArray :=
  match a.file with
  | some path => s.directory.read path
  | none => .ok s.input

/-- The program. What it tells on a request is up to whoever words the notices. -/
def run (args : List String) (s : Surroundings) (notice : Request → String := Request.name) :
    RunResult :=
  match Command.parse args with
  | .error e => ⟨"", [], s.directory, some (.usage e)⟩
  | .ok (.tell r) => ⟨notice r, [], s.directory, none⟩
  | .ok (.convert a) =>
      let (events, result) := answer a (a.source s)
      let log := logged (logLevel s.level a) events
      match result with
      | .error f => ⟨"", log, s.directory, some f⟩
      | .ok (.shown text) => ⟨text, log, s.directory, none⟩
      | .ok (.written path text) =>
          match s.directory.write path text.toUTF8 with
          | .error e => ⟨"", log, s.directory, some (.unwritable path e)⟩
          | .ok directory => ⟨"", log, directory, none⟩

end Chomsky
