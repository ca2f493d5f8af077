import Chomsky.Json.Comments
import Chomsky.Json.Numeral

/-!
# Reading JSON

A machine that reads a JSON text one byte at a time.

The machine keeps the containers that are open, innermost first, and a phase
that says what it expects next. One step takes one byte, so reading a text is a
recursion on its bytes. A number has no closing mark: it is complete when a byte
arrives that does not belong to it, and that byte is then read as what follows a
value.

A fault is located by the last byte read, the offending one included. Lines
count from one, and columns count the bytes since the last newline.

If the source fails to deliver a byte, the fault is located by the innermost
open container. The reader still looks for the end of that container, so the
blanks that follow and the first byte behind them are counted in. With no
container open such a fault has no place at all.

## Main definitions

* `Position`: A place in a text.
* `Frame`, `Phase`, `Reader`: What is open, what is expected, and both.
* `Reader.step`: Read one byte.
* `Reader.finish`: Meet the end of the text.
* `ReadError`: A fault and its place.
* `Json.read`: The value of a feed.
-/

namespace Chomsky

/-- A place in a text, given by the bytes in front of it. -/
structure Position where
  /-- One more than the number of newlines. -/
  line : Nat
  /-- The number of bytes behind the last newline. -/
  column : Nat
  deriving DecidableEq, Repr

namespace Position

/-- The place in front of a text. -/
def start : Position := ⟨1, 0⟩

/-- The place behind one more byte. -/
def advance (p : Position) (b : UInt8) : Position :=
  if b = '\n'.toUInt8 then ⟨p.line + 1, 0⟩ else ⟨p.line, p.column + 1⟩

end Position

/-- A fault, and its place if it has one. -/
structure ReadError where
  fault : Fault
  position : Option Position
  deriving DecidableEq, Repr

/-- How a fault and its place are reported. -/
def ReadError.message (e : ReadError) : String :=
  match e.position with
  | none => e.fault.message
  | some p =>
      e.fault.message ++ " at line " ++ toString p.line ++ " column " ++ toString p.column

/-- Whether a byte is a blank between tokens. -/
def isJsonBlank (b : UInt8) : Bool :=
  b = ' '.toUInt8 || b = '\t'.toUInt8 || b = '\n'.toUInt8 || b = '\r'.toUInt8

/-- The value of a hexadecimal digit. -/
def hexDigit? (b : UInt8) : Option Nat :=
  if '0'.toUInt8 ≤ b ∧ b ≤ '9'.toUInt8 then some (b - '0'.toUInt8).toNat
  else if 'a'.toUInt8 ≤ b ∧ b ≤ 'f'.toUInt8 then some ((b - 'a'.toUInt8).toNat + 10)
  else if 'A'.toUInt8 ≤ b ∧ b ≤ 'F'.toUInt8 then some ((b - 'A'.toUInt8).toNat + 10)
  else none

/-- The number of hexadecimal digits, the most significant one first. -/
def hexValue (bytes : List UInt8) : Option Nat :=
  bytes.foldl (fun n b => do return (← n) * 16 + (← hexDigit? b)) (some 0)

/-- What is expected next inside a string. -/
inductive StringPhase where
  /-- A character or the closing quote. -/
  | plain
  /-- The character behind a backslash. -/
  | escape
  /-- The rest of the four digits of a code unit, of which these are read. -/
  | unit (digits : List UInt8)
  /-- The backslash of the second code unit, behind a high surrogate. -/
  | lowEscape (high : Nat)
  /-- The letter of the second code unit. -/
  | lowLetter (high : Nat)
  /-- The rest of the four digits of the second code unit. -/
  | lowUnit (high : Nat) (digits : List UInt8)
  deriving DecidableEq, Repr

/-- The bytes of a text. -/
def textBytes (s : String) : List UInt8 := s.toList.flatMap String.utf8EncodeChar

/-- The bytes that encode a code point. -/
def encodeCodePoint (n : Nat) : List UInt8 := String.utf8EncodeChar (Char.ofNat n)

/-- The text that bytes encode. -/
def decodeText (bytes : List UInt8) : Option String := String.fromUTF8? bytes.toByteArray

namespace StringPhase

/-- What a byte does to a string. -/
inductive Outcome where
  /-- The string goes on, with these bytes added to its text. -/
  | more (phase : StringPhase) (text : List UInt8)
  | closed

/-- What an escaped character stands for. -/
def escaped (b : UInt8) : Option UInt8 :=
  if b = '"'.toUInt8 ∨ b = '\\'.toUInt8 ∨ b = '/'.toUInt8 then some b
  else if b = 'b'.toUInt8 then some 0x08
  else if b = 'f'.toUInt8 then some 0x0C
  else if b = 'n'.toUInt8 then some 0x0A
  else if b = 'r'.toUInt8 then some 0x0D
  else if b = 't'.toUInt8 then some 0x09
  else none

/-- The code unit of four digits: a character, or the first half of one. -/
def firstUnit (digits : List UInt8) : Except Fault Outcome :=
  match hexValue digits with
  | none => .error .invalidEscape
  | some n =>
      if 0xDC00 ≤ n ∧ n ≤ 0xDFFF then .error .loneSurrogate
      else if 0xD800 ≤ n ∧ n ≤ 0xDBFF then .ok (.more (lowEscape n) [])
      else .ok (.more plain (encodeCodePoint n))

/-- The character of a high surrogate and a code unit of four digits. -/
def secondUnit (high : Nat) (digits : List UInt8) : Except Fault Outcome :=
  match hexValue digits with
  | none => .error .invalidEscape
  | some n =>
      if 0xDC00 ≤ n ∧ n ≤ 0xDFFF then
        .ok (.more plain
          (encodeCodePoint (0x10000 + (high - 0xD800) * 0x400 + (n - 0xDC00))))
      else .error .loneSurrogate

/-- Read one byte of a string. -/
def step (phase : StringPhase) (b : UInt8) : Except Fault Outcome :=
  match phase with
  | plain =>
      if b = '"'.toUInt8 then .ok .closed
      else if b = '\\'.toUInt8 then .ok (.more escape [])
      else if b < 0x20 then .error .controlCharacter
      else .ok (.more plain [b])
  | escape =>
      if b = 'u'.toUInt8 then .ok (.more (unit []) [])
      else
        match escaped b with
        | some c => .ok (.more plain [c])
        | none => .error .invalidEscape
  | unit digits =>
      if digits.length < 3 then .ok (.more (unit (digits ++ [b])) [])
      else firstUnit (digits ++ [b])
  | lowEscape high =>
      if b = '\\'.toUInt8 then .ok (.more (lowLetter high) []) else .error .unfinishedSurrogate
  | lowLetter high =>
      if b = 'u'.toUInt8 then .ok (.more (lowUnit high []) []) else .error .unfinishedSurrogate
  | lowUnit high digits =>
      if digits.length < 3 then .ok (.more (lowUnit high (digits ++ [b])) [])
      else secondUnit high (digits ++ [b])

end StringPhase

/-- The members of an object read so far. -/
abbrev Members := List (String × Json)

/-- A container whose next value is being read. -/
inductive Frame where
  /-- An array with the items before it, the last one first. -/
  | list (before : List Json)
  /-- An object with the members before it, and the key of the value. -/
  | member (before : Members) (key : String)

/-- Where a string stands. -/
inductive StringRole where
  | value
  /-- It is a key of the object with these members before it. -/
  | key (before : Members)

/-- What is expected next. -/
inductive Phase where
  | value
  /-- The first item of an array, or its end. -/
  | firstItem
  /-- An item of an array behind a comma. -/
  | nextItem
  /-- The first key of an object, or its end. -/
  | firstKey
  /-- A key of an object behind a comma. -/
  | nextKey (before : Members)
  /-- The colon behind a key. -/
  | colon (before : Members) (key : String)
  /-- The next byte of a word, those behind it, and what the word stands for. -/
  | word (next : UInt8) (rest : List UInt8) (result : Json)
  | number (negative : Bool) (n : Numeral)
  /-- The rest of a string, whose text so far is held last byte first. -/
  | string (role : StringRole) (phase : StringPhase) (text : List UInt8)
  /-- A comma or the end of the innermost container, behind a complete value. -/
  | after (result : Json)

/-- The containers that are open, innermost first, and what is expected next. -/
structure Reader where
  frames : List Frame
  phase : Phase

namespace Reader

/-- The nesting that is refused. -/
def maxDepth : Nat := 128

/-- The reader in front of a text. -/
def start : Reader := ⟨[], .value⟩

/-- Open a container around the ones that are open, unless that is too deep. -/
def deepen (frames : List Frame) (next : Reader) : Except Fault Reader :=
  if frames.length + 1 < maxDepth then .ok next else .error .recursionLimit

/-- Read the first byte of a value. -/
def beginValue (frames : List Frame) (b : UInt8) : Except Fault Reader :=
  if b = 'n'.toUInt8 then .ok ⟨frames, .word 'u'.toUInt8 (textBytes "ll") .null⟩
  else if b = 't'.toUInt8 then .ok ⟨frames, .word 'r'.toUInt8 (textBytes "ue") (.bool true)⟩
  else if b = 'f'.toUInt8 then .ok ⟨frames, .word 'a'.toUInt8 (textBytes "lse") (.bool false)⟩
  else if b = '-'.toUInt8 then .ok ⟨frames, .number true .sign⟩
  else if b = '"'.toUInt8 then .ok ⟨frames, .string .value .plain []⟩
  else if b = '['.toUInt8 then deepen frames ⟨.list [] :: frames, .firstItem⟩
  -- An object has a frame only while one of its values is read.
  else if b = '{'.toUInt8 then deepen frames ⟨frames, .firstKey⟩
  else
    match digit? b with
    | some d => (Numeral.sign.takeDigit d).map fun n => ⟨frames, .number false n⟩
    | none => .error .expectedValue

/-- Read the byte behind a complete value. -/
def afterValue (frames : List Frame) (v : Json) (b : UInt8) : Except Fault Reader :=
  if isJsonBlank b then .ok ⟨frames, .after v⟩
  else
    match frames with
    | [] => .error .trailingCharacters
    | .list before :: rest =>
        if b = ','.toUInt8 then .ok ⟨.list (v :: before) :: rest, .nextItem⟩
        else if b = ']'.toUInt8 then .ok ⟨rest, .after (.array (v :: before).reverse)⟩
        else .error .expectedListComma
    | .member before key :: rest =>
        let members := Json.insertMember key v before
        if b = ','.toUInt8 then .ok ⟨rest, .nextKey members⟩
        else if b = '}'.toUInt8 then .ok ⟨rest, .after (.object members)⟩
        else .error .expectedObjectComma

/-- What a complete string leads to. -/
def closeString (frames : List Frame) (role : StringRole) (text : List UInt8) :
    Except Fault Reader :=
  match decodeText text.reverse with
  | none => .error .invalidCodePoint
  | some s =>
      match role with
      | .value => .ok ⟨frames, .after (.string s)⟩
      | .key before => .ok ⟨frames, .colon before s⟩

/-- Read one byte. -/
def step (r : Reader) (b : UInt8) : Except Fault Reader :=
  match r.phase with
  | .value => if isJsonBlank b then .ok r else beginValue r.frames b
  | .firstItem =>
      if isJsonBlank b then .ok r
      -- The frame of the array is the innermost one.
      else if b = ']'.toUInt8 then .ok ⟨r.frames.tail, .after (.array [])⟩
      else beginValue r.frames b
  | .nextItem =>
      if isJsonBlank b then .ok r
      else if b = ']'.toUInt8 then .error .trailingComma
      else beginValue r.frames b
  | .firstKey =>
      if isJsonBlank b then .ok r
      else if b = '}'.toUInt8 then .ok ⟨r.frames, .after (.object [])⟩
      else if b = '"'.toUInt8 then .ok ⟨r.frames, .string (.key []) .plain []⟩
      else .error .keyNotString
  | .nextKey before =>
      if isJsonBlank b then .ok r
      else if b = '}'.toUInt8 then .error .trailingComma
      else if b = '"'.toUInt8 then .ok ⟨r.frames, .string (.key before) .plain []⟩
      else .error .keyNotString
  | .colon before key =>
      if isJsonBlank b then .ok r
      else if b = ':'.toUInt8 then .ok ⟨.member before key :: r.frames, .value⟩
      else .error .expectedColon
  | .word next rest v =>
      if b ≠ next then .error .expectedWord
      else
        match rest with
        | [] => .ok ⟨r.frames, .after v⟩
        | c :: others => .ok ⟨r.frames, .word c others v⟩
  | .number negative n =>
      match n.step negative b with
      | .error f => .error f
      | .ok (.more next) => .ok ⟨r.frames, .number negative next⟩
      -- The number ended in front of this byte, which is still to be read.
      | .ok (.ended v) => afterValue r.frames (.number v) b
  | .string role phase text =>
      match phase.step b with
      | .error f => .error f
      | .ok (.more next added) => .ok ⟨r.frames, .string role next (added.reverse ++ text)⟩
      | .ok .closed => closeString r.frames role text
  | .after v => afterValue r.frames v b

/-- Meet the end of the text behind a complete value. -/
def finishAfter (frames : List Frame) (v : Json) : Except Fault Json :=
  match frames with
  | [] => .ok v
  | .list _ :: _ => .error .endInList
  | .member _ _ :: _ => .error .endInObject

/-- Meet the end of the text. -/
def finish (r : Reader) : Except Fault Json :=
  match r.phase with
  | .value => .error .endInValue
  | .firstItem => .error .endInList
  | .nextItem => .error .endInValue
  | .firstKey => .error .endInObject
  | .nextKey _ => .error .endInValue
  | .colon _ _ => .error .endInObject
  | .word _ _ _ => .error .endInValue
  | .number negative n =>
      match n.value negative with
      | none => .error .endInValue
      | some (.error f) => .error f
      | some (.ok v) => finishAfter r.frames (.number v)
  | .string _ _ _ => .error .endInString
  | .after v => finishAfter r.frames v

/-- The kinds of containers. -/
inductive Container where
  | list
  | object
  deriving DecidableEq, Repr

/-- The innermost container that is open. -/
def container (r : Reader) : Option Container :=
  match r.phase with
  | .firstKey => some .object
  | .nextKey _ => some .object
  | .colon _ _ => some .object
  | .string (.key _) _ _ => some .object
  | _ =>
      match r.frames with
      | [] => none
      | .list _ :: _ => some .list
      | .member _ _ :: _ => some .object

/-- Pass over blanks and the byte behind them: where that leads, that byte, and
    what is left to read. -/
def skipBlanks (p : Position) :
    List (Option UInt8) → Position × Option UInt8 × List (Option UInt8)
  | some b :: rest =>
      if isJsonBlank b then skipBlanks (p.advance b) rest else (p.advance b, some b, rest)
  | rest => (p, none, rest)

/-- How far the search for the end of a container gets after the source has
    failed. An array's end may be hidden by one comma. -/
def searchEnd (c : Container) (p : Position) (reads : List (Option UInt8)) : Position :=
  match skipBlanks p reads with
  | (q, some b, rest) =>
      match c with
      | .list => if b = ','.toUInt8 then (skipBlanks q rest).1 else q
      | .object => q
  | (q, none, _) => q

/-- The error of a reader that the source failed, with what could be read from
    there on. -/
def failure (r : Reader) (p : Position) (reads : List (Option UInt8)) : ReadError :=
  ⟨.invalidData, r.container.map fun c => searchEnd c p reads⟩

/-- Read what is left of a feed. -/
def run (ends : Bool) (r : Reader) (p : Position) : List (Option UInt8) → Except ReadError Json
  | [] =>
      if ends then
        match r.finish with
        | .ok v => .ok v
        | .error f => .error ⟨f, some p⟩
      else .error (r.failure p [])
  | none :: rest => .error (r.failure p rest)
  | some b :: rest =>
      match r.step b with
      | .error f => .error ⟨f, some (p.advance b)⟩
      | .ok next => run ends next (p.advance b) rest

end Reader

/-- The value of a feed. -/
def Json.read (feed : Feed) : Except ReadError Json :=
  Reader.start.run feed.ends .start feed.reads

end Chomsky
