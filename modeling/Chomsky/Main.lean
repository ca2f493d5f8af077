import Chomsky.CommandLine.Run

/-!
# Entry Point

The program on the real input, files and log. All decisions are taken by
`Command.parse` and `answer`; what is left to do here is to read what they need and
to carry out what they say, and to word what is told on request.
-/

namespace Chomsky

/-- The reason of a failed operation on a file. -/
def fileError : IO.Error → FileError
  | .noFileOrDirectory _ _ _ => .notFound
  | .inappropriateType _ 20 _ => .notDirectory
  | .inappropriateType _ 21 _ => .isDirectory
  | .invalidArgument _ 36 _ => .nameTooLong
  | .permissionDenied _ number reason =>
      .other (reason ++ " (os error " ++ toString number ++ ")")
  | e => .other (toString e)

/-- An operation on a file, with its failure as a value. -/
def attempt {α : Type} (action : IO α) : IO (Except FileError α) := do
  match ← action.toBaseIO with
  | .ok a => return .ok a
  | .error e => return .error (fileError e)

/-- Everything that a stream still has to give. -/
partial def readStream (stream : IO.FS.Stream) (bytes : ByteArray) : IO ByteArray := do
  let more ← stream.read 65536
  if more.isEmpty then return bytes else readStream stream (bytes ++ more)

/-- The bytes of the source that the arguments name. -/
def readBytes (a : Arguments) : IO (Except FileError ByteArray) := do
  match a.file with
  | some path => attempt (IO.FS.readBinFile path)
  | none => attempt (do readStream (← IO.getStdin) .empty)

/-- The options as they are told, and what they are for. -/
def optionTexts : List (String × String) := [
  ("--format <FORMAT>", "Format of the grammar, text or json"),
  ("-s, --start <START>", "Start symbol of the grammar"),
  ("--keep-start-epsilon", "Keep the empty body of a start symbol that no body contains"),
  ("--max-nullable <MAX_NULLABLE>", "Give up if a body contains more nullable symbols than this"),
  ("--steps", "Print the grammar after every stage"),
  ("--compact", "Print the symbols of a body without spaces"),
  ("-o, --output <OUTPUT>", "Write the result as JSON into this file (\"-\" for stdout)"),
  ("-v, --verbose", "Log what every stage does"),
  ("-h, --help", "Print help"),
  ("-V, --version", "Print version")]

/-- The help, with some text between an option and what it is for. -/
def helpText (gap : String) : String :=
  "Convert a context-free grammar into Chomsky Normal Form\n\n" ++
    "Usage: cnf [OPTIONS] [GRAMMAR]\n\n" ++
    String.join (optionTexts.map fun o => "  " ++ o.1 ++ gap ++ o.2 ++ "\n")

/-- What is told on a request. -/
def notice : Request → String
  | .summary => helpText "  "
  | .help => helpText "\n          "
  | .version => "cnf-normalizer 0.1.0\n"

/-- Report a failure and give its exit code. -/
def fail (f : Failure) : IO UInt32 := do
  IO.eprint (f.report.getD "")
  return f.code.toUInt32

/-- Show or write what a run leads to. -/
def deliver : Product → IO UInt32
  | .shown text => do
      IO.print text
      return 0
  | .written path text => do
      match ← attempt (IO.FS.writeFile path text) with
      | .ok _ => return 0
      | .error e => fail (.unwritable path e)

end Chomsky

open Chomsky in
/-- Do what the arguments ask for. The variable `RUST_LOG` of the environment may
    set the level of the log. -/
def main (args : List String) : IO UInt32 := do
  match Command.parse args with
  | .error e =>
      IO.eprintln ("error: " ++ e.message)
      fail (.usage e)
  | .ok (.tell r) => deliver (.shown (notice r))
  | .ok (.convert a) =>
      let (events, result) := answer a (← readBytes a)
      for event in logged (logLevel (← IO.getEnv "RUST_LOG") a) events do
        IO.eprintln (event.level.name ++ " " ++ event.message)
      match result with
      | .error f => fail f
      | .ok product => deliver product
