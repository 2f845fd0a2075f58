import TypeGuard.Json.Printer
import TypeGuard.Text.Quoted

/-!
# What can be wrong with a JSON text

A text is malformed, or a well-formed part of it does not fit what is read from
it.  Lines are counted from one; a column counts the bytes of the line that
have been read.
-/

namespace TypeGuard.Json

inductive Found where
  | null
  | bool (value : Bool)
  | number (value : Number)
  | string (text : String)
  | sequence
  | map
  deriving DecidableEq

def Found.ofJson : Json → Found
  | .null => .null
  | .bool b => .bool b
  | .number n => .number n
  | .string s => .string s
  | .array _ => .sequence
  | .object _ => .map

def Found.text : Found → String
  | .null => "null"
  | .bool b => s!"boolean `{b}`"
  | .number (.integer i) => s!"integer `{i}`"
  | .number (.double x) => s!"floating point `{Number.text (.double x)}`"
  | .string s => s!"string {Text.quoted s}"
  | .sequence => "sequence"
  | .map => "map"

inductive Fault where
  | endOfValue
  | endOfString
  | endOfList
  | endOfObject
  | expectedValue
  | expectedWord
  | expectedColon
  | expectedCommaOrBracket
  | expectedCommaOrBrace
  | trailingComma
  | trailingCharacters
  | keyNotString
  | controlCharacter
  | invalidEscape
  | loneSurrogate
  | unfinishedSurrogate
  | invalidNumber
  | numberOutOfRange
  | nestedTooDeep
  | wrongType (found : Found) (expected : String)
  | wrongLength (length : Nat) (expected : String)
  | wrongIndex (index : Int) (bound : Nat)
  | unknownVariant (name : String) (known : List String)
  | missingField (name : String)
  | duplicateField (name : String)
  deriving DecidableEq

def Fault.text : Fault → String
  | .endOfValue => "EOF while parsing a value"
  | .endOfString => "EOF while parsing a string"
  | .endOfList => "EOF while parsing a list"
  | .endOfObject => "EOF while parsing an object"
  | .expectedValue => "expected value"
  | .expectedWord => "expected ident"
  | .expectedColon => "expected `:`"
  | .expectedCommaOrBracket => "expected `,` or `]`"
  | .expectedCommaOrBrace => "expected `,` or `\x7d`"
  | .trailingComma => "trailing comma"
  | .trailingCharacters => "trailing characters"
  | .keyNotString => "key must be a string"
  | .controlCharacter => "control character (\\u0000-\\u001F) found while parsing a string"
  | .invalidEscape => "invalid escape"
  | .loneSurrogate => "lone leading surrogate in hex escape"
  | .unfinishedSurrogate => "unexpected end of hex escape"
  | .invalidNumber => "invalid number"
  | .numberOutOfRange => "number out of range"
  | .nestedTooDeep => "recursion limit exceeded"
  | .wrongType found expected => s!"invalid type: {found.text}, expected {expected}"
  | .wrongLength length expected => s!"invalid length {length}, expected {expected}"
  | .wrongIndex index bound =>
      s!"invalid value: integer `{index}`, expected variant index 0 <= i < {bound}"
  | .unknownVariant name known =>
      let listed := ", ".intercalate (known.map fun variant => s!"`{variant}`")
      s!"unknown variant `{name}`, expected one of {listed}"
  | .missingField name => s!"missing field `{name}`"
  | .duplicateField name => s!"duplicate field `{name}`"

/-! ## Places -/

structure Position where
  line : Nat
  column : Nat
  deriving DecidableEq, Repr

namespace Position

def start : Position := ⟨1, 0⟩

def next (p : Position) (c : Char) : Position :=
  if c = '\n' then ⟨p.line + 1, 0⟩ else ⟨p.line, p.column + c.utf8Size⟩

def nextByte (p : Position) (c : Char) : Position :=
  if c = '\n' then ⟨p.line + 1, 0⟩ else ⟨p.line, p.column + 1⟩

def advance (p : Position) (text : List Char) : Position := text.foldl next p

/-- After `count` more bytes, which may end inside a character; `none` if the
text has fewer. -/
def advanceBytes (p : Position) : Nat → List Char → Option Position
  | 0, _ => some p
  | _ + 1, [] => none
  | count + 1, c :: rest =>
      if c.utf8Size ≤ count + 1 then (p.next c).advanceBytes (count + 1 - c.utf8Size) rest
      else some ⟨p.line, p.column + (count + 1)⟩

end Position

inductive Segment where
  | member (name : String)
  | item (index : Nat)
  /-- A place in an object that belongs to no member. -/
  | between
  deriving DecidableEq, Repr

def Segment.text : Segment → String
  | .member name => name
  | .item index => s!"[{index}]"
  | .between => "?"

def pathText : List Segment → String
  | [] => "."
  | first :: rest =>
      first.text ++ String.join (rest.map fun segment =>
        match segment with
        | .item _ => segment.text
        | _ => "." ++ segment.text)

structure Failure where
  path : List Segment
  fault : Fault
  position : Position
  deriving DecidableEq

def Failure.message (failure : Failure) : String :=
  let place := s!"line {failure.position.line} column {failure.position.column}"
  s!"at JSON path {pathText failure.path} → {failure.fault.text} at {place}"

end TypeGuard.Json
