/-!
# Directories

The files that the program can read and write, and how paths lead to them.

A file is known by the names on the way to it, and every beginning of such a way
is a directory. The directories above are there as well, with nothing else in
them at first.

A path is followed name by name, each but the last one from a directory into a
directory. Slashes in a row count as one, a dot stays where it is, and two dots go
back. A slash behind the last name asks for a directory. There are limits on the
length of a path, which is checked at first, and of a name, which is checked when
the name is looked up in its directory.

The system may refuse any access, with a reason of its own. Whoever looks up a
name has to be let into the directory, whoever adds a file has to be allowed to
write to the directory, and a file that is there has permissions of its own.

Writing creates the file if its directory exists and replaces what it held.
Either all of it happens or none.

## Main definitions

* `Access`: What can be permitted.
* `Directory`: Files by their ways, and what the system permits.
* `FileError`: Why a file cannot be read or written.
* `Target`: Where a path leads.
* `Directory.read`, `Directory.write`: The operations.
-/

namespace Chomsky

/-- The names on the way to a file. A way to something outside begins with two
    dots for each directory to go up, or with a slash for the outermost one. -/
abbrev Way := List String

namespace Way

/-- Whether a way leads to a directory above, or to the one where ways begin. -/
def isAbove (way : Way) : Bool := way == ["/"] || way.all (· == "..")

/-- The way to the directory that holds the given one. The outermost directory
    holds itself. -/
def parent (way : Way) : Way :=
  if way = ["/"] then way
  else if way.isAbove then way ++ [".."]
  else way.dropLast

end Way

/-- What is done to a directory or a file. -/
inductive Access where
  /-- Look up a name in a directory. -/
  | pass
  | read
  /-- Write to a file, or add one to a directory. -/
  | write
  deriving DecidableEq, Repr

/-- The files below a directory, and what the system permits. -/
structure Directory where
  files : List (Way × ByteArray)
  /-- The reason for which the system refuses an access to what is at a way, or
      will refuse it once a file is there. -/
  refusal : Access → Way → Option String := fun _ _ => none

/-- A reason for which a file is not read or written. -/
inductive FileError where
  | notFound
  | notDirectory
  | isDirectory
  | nameTooLong
  | invalidText
  /-- Any other reason, in the words of the system. -/
  | other (reason : String)
  deriving DecidableEq, Repr

/-- How a file error is reported. -/
def FileError.message : FileError → String
  | notFound => "No such file or directory (os error 2)"
  | notDirectory => "Not a directory (os error 20)"
  | isDirectory => "Is a directory (os error 21)"
  | nameTooLong => "File name too long (os error 36)"
  | invalidText => "stream did not contain valid UTF-8"
  | other reason => reason

/-- The text that bytes encode. -/
def decodeBytes (bytes : ByteArray) : Except FileError String :=
  match String.fromUTF8? bytes with
  | some s => .ok s
  | none => .error .invalidText

/-- The most bytes of a path. -/
def pathLimit : Nat := 4095

/-- The most bytes of a name in a directory. -/
def nameLimit : Nat := 255

/-- Where a path leads. -/
inductive Target where
  /-- To a directory, by dots or slashes. -/
  | directory (way : Way)
  /-- To a name in a directory, with a slash behind it or without one. -/
  | entry (here : Way) (name : String) (slashed : Bool)
  deriving DecidableEq, Repr

/-- The names of a path. -/
def pathNames (path : String) : List String :=
  ((path.toList.splitOn '/').map String.ofList).filter (· ≠ "")

namespace Directory

/-- Whether a way leads to a file. -/
def isFile (d : Directory) (way : Way) : Bool := (d.files.lookup way).isSome

/-- Whether a way leads to a directory. -/
def isDirectory (d : Directory) (way : Way) : Bool :=
  way.isAbove || d.files.any fun f => way.length < f.1.length && way.isPrefixOf f.1

/-- Fail if the system refuses an access. -/
def allow (d : Directory) (access : Access) (way : Way) : Except FileError Unit :=
  match d.refusal access way with
  | some reason => .error (.other reason)
  | none => .ok ()

/-- The way from a directory into the one of the given name. -/
def enter (d : Directory) (here : Way) (name : String) : Except FileError Way :=
  let way := here ++ [name]
  match d.allow .pass here with
  | .error e => .error e
  | .ok _ =>
      if name = "." then .ok here
      else if name = ".." then .ok here.parent
      else if nameLimit < name.utf8ByteSize then .error .nameTooLong
      else if d.isFile way then .error .notDirectory
      else if d.isDirectory way then .ok way
      else .error .notFound

/-- Where the last name of a path leads. It is not looked up yet, but its
    directory has to let one in. -/
def arrive (d : Directory) (here : Way) (name : String) (slashed : Bool) :
    Except FileError Target :=
  match d.allow .pass here with
  | .error e => .error e
  | .ok _ =>
      if name = "." then .ok (.directory here)
      else if name = ".." then .ok (.directory here.parent)
      else .ok (.entry here name slashed)

/-- Where a path leads. The empty path leads nowhere. -/
def resolve (d : Directory) (path : String) : Except FileError Target :=
  if path = "" then .error .notFound
  else if pathLimit < path.utf8ByteSize then .error .nameTooLong
  else
    let start : Way := if path.toList.head? = some '/' then ["/"] else []
    let names := pathNames path
    match names.getLast? with
    | none => .ok (.directory start)
    | some name =>
        match names.dropLast.foldlM d.enter start with
        | .error e => .error e
        | .ok here => d.arrive here name (path.toList.getLast? = some '/')

/-- The failure to read a directory as if it were a file. It is opened first. -/
def readDirectory (d : Directory) (way : Way) : FileError :=
  match d.allow .read way with
  | .error e => e
  | .ok _ => .isDirectory

/-- The bytes of the file at a path. -/
def read (d : Directory) (path : String) : Except FileError ByteArray :=
  match d.resolve path with
  | .error e => .error e
  | .ok (.directory way) => .error (d.readDirectory way)
  | .ok (.entry here name slashed) =>
      let way := here ++ [name]
      if nameLimit < name.utf8ByteSize then .error .nameTooLong
      else
        match d.files.lookup way with
        | some bytes =>
            if slashed then .error .notDirectory
            else
              match d.allow .read way with
              | .error e => .error e
              | .ok _ => .ok bytes
        | none => .error (if d.isDirectory way then d.readDirectory way else .notFound)

/-- The files with the one of the given way set to some bytes. -/
def setFile (way : Way) (bytes : ByteArray) : List (Way × ByteArray) → List (Way × ByteArray)
  | [] => [(way, bytes)]
  | f :: rest => if f.1 = way then (way, bytes) :: rest else f :: setFile way bytes rest

/-- The directory with the file of the given way set to some bytes. -/
def withFile (d : Directory) (way : Way) (bytes : ByteArray) : Directory :=
  { d with files := setFile way bytes d.files }

/-- The directory after the file at a path has been written. A slash behind the
    last name is refused before the name is looked up. A file that is there has to
    be writable, and otherwise its directory has to be. -/
def write (d : Directory) (path : String) (bytes : ByteArray) : Except FileError Directory :=
  match d.resolve path with
  | .error e => .error e
  | .ok (.directory _) => .error .isDirectory
  | .ok (.entry here name slashed) =>
      let way := here ++ [name]
      if slashed then .error .isDirectory
      else if nameLimit < name.utf8ByteSize then .error .nameTooLong
      else if d.isDirectory way then .error .isDirectory
      else
        match d.allow .write (if d.isFile way then way else here) with
        | .error e => .error e
        | .ok _ => .ok (d.withFile way bytes)

/-- The directory that holds files of the given paths, with every access
    permitted. -/
def ofFiles (files : List (String × ByteArray)) : Directory :=
  { files := files.map fun f => (pathNames f.1, f.2) }

end Directory

end Chomsky
