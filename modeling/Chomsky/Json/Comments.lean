/-!
# Comments in JSON

A grammar written as JSON may hold comments, between `/*` and `*/` or from `//`
to the end of the line. They are blanked out before the reader sees them, byte
for byte, so that positions in the text stay what they are.

The machine below knows only strings and comments. A slash outside a string must
open a comment. If it does not, the bytes behind it cannot be delivered, not
until one of them makes it a comment after all. The text must not end inside a
string or a block comment either, nor behind a lone slash. So what reaches the
reader is a feed of bytes, some of which fail to be read, and the knowledge
whether its end can be read as an end.

## Main definitions

* `CommentState`: Where the machine stands.
* `CommentState.step`: One byte: the next state and the byte delivered, if any.
* `Feed`: What a reader gets to see of a text.
* `Feed.withoutComments`, `Feed.plain`: The feeds of a text.
-/

namespace Chomsky

/-- Where the machine stands between two bytes. -/
inductive CommentState where
  /-- Outside strings and comments. -/
  | code
  | string
  /-- In a string, behind a backslash. -/
  | escape
  /-- Behind a slash that must open a comment. -/
  | slash
  | block
  /-- In a block comment, behind a star. -/
  | star
  | line
  deriving DecidableEq, Repr

namespace CommentState

/-- The byte delivered in place of one that belongs to a comment. -/
def space : UInt8 := 0x20

/-- The state after a byte, and what is delivered for it. -/
def step (state : CommentState) (b : UInt8) : CommentState × Option UInt8 :=
  match state with
  | code =>
      if b = '"'.toUInt8 then (string, some b)
      else if b = '/'.toUInt8 then (slash, some space)
      else (code, some b)
  | string =>
      if b = '"'.toUInt8 then (code, some b)
      else if b = '\\'.toUInt8 then (escape, some b)
      else (string, some b)
  | escape => (string, some b)
  | slash =>
      if b = '*'.toUInt8 then (block, some space)
      else if b = '/'.toUInt8 then (line, some space)
      else (slash, none)
  | block => (if b = '*'.toUInt8 then star else block, some space)
  | star =>
      (if b = '/'.toUInt8 then code else if b = '*'.toUInt8 then star else block, some space)
  | line => if b = '\n'.toUInt8 then (code, some b) else (line, some space)

/-- Whether a text may end in a state. -/
def final : CommentState → Bool
  | code => true
  | line => true
  | _ => false

end CommentState

/-- What a reader gets to see of a text. -/
structure Feed where
  /-- The bytes in order, with `none` for one that fails to be read. -/
  reads : List (Option UInt8)
  /-- Whether reading at the end reports the end, and does not fail. -/
  ends : Bool
  deriving DecidableEq, Repr

namespace Feed

/-- The feed of the bytes that follow a state of the comment machine. -/
def follow (state : CommentState) : List UInt8 → Feed
  | [] => ⟨[], state.final⟩
  | b :: rest =>
      let (next, delivered) := state.step b
      let feed := follow next rest
      ⟨delivered :: feed.reads, feed.ends⟩

/-- A text with its comments blanked out. -/
def withoutComments (bytes : List UInt8) : Feed := follow .code bytes

/-- A text as it is. -/
def plain (bytes : List UInt8) : Feed := ⟨bytes.map some, true⟩

end Feed

end Chomsky
