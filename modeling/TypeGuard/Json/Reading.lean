import TypeGuard.Json.Fault

/-!
# Reading characters of a JSON text

A reading consumes a front part of the text or fails at a place in it.  A fault
is reported either where the reading stands or, when the next character is to
blame, one byte further.
-/

namespace TypeGuard.Json

structure Cursor where
  rest : List Char
  position : Position

def Cursor.ofText (text : String) : Cursor := ⟨text.toList, .start⟩

abbrev Reading (α : Type) := StateT Cursor (Except Failure) α

namespace Reading

variable {α : Type}

def failAt (position : Position) (fault : Fault) : Reading α :=
  throw ⟨[], fault, position⟩

def fail (fault : Fault) : Reading α := do failAt (← get).position fault

/-- Fail one byte further, or here at the end of the text. -/
def failNext (fault : Fault) : Reading α := do
  let cursor ← get
  match cursor.rest with
  | [] => failAt cursor.position fault
  | c :: _ => failAt (cursor.position.nextByte c) fault

def within (segment : Segment) (reading : Reading α) : Reading α := fun cursor =>
  match reading cursor with
  | .ok result => .ok result
  | .error failure => .error { failure with path := segment :: failure.path }

def peek : Reading (Option Char) := do return (← get).rest.head?

def skip : Reading Unit := modify fun cursor =>
  match cursor.rest with
  | [] => cursor
  | c :: rest => ⟨rest, cursor.position.next c⟩

def isBlank (c : Char) : Bool := c == ' ' || c == '\n' || c == '\t' || c == '\r'

def takeWhile (p : Char → Bool) : Reading (List Char) := do
  let cursor ← get
  let taken := cursor.rest.takeWhile p
  set (⟨cursor.rest.dropWhile p, cursor.position.advance taken⟩ : Cursor)
  return taken

def next : Reading (Option Char) := do
  let _ ← takeWhile isBlank
  peek

def word : List Char → Reading Unit
  | [] => pure ()
  | expected :: rest => do
      match ← peek with
      | none => fail .endOfValue
      | some c =>
          if c = expected then
            skip
            word rest
          else failNext .expectedWord

def colon : Reading Unit := do
  match ← next with
  | some ':' => skip
  | some _ => failNext .expectedColon
  | none => failNext .endOfObject

def moreItems (first : Bool) : Reading Bool := do
  match ← next with
  | none => failNext .endOfList
  | some ']' => return false
  | some c =>
      if first then return true
      else if c = ',' then
        skip
        match ← next with
        | none => failNext .endOfValue
        | some ']' => failNext .trailingComma
        | some _ => return true
      else failNext .expectedCommaOrBracket

/-- Whether another member follows in an object; a comma before it is consumed,
and the reading stands at the quote of its name. -/
def moreMembers (first : Bool) : Reading Bool := do
  match ← next with
  | none => failNext .endOfObject
  | some '\x7d' => return false
  | some c =>
      if first then
        if c = '"' then return true else failNext .keyNotString
      else if c = ',' then
        skip
        match ← next with
        | none => failNext .endOfValue
        | some '"' => return true
        | some '\x7d' => failNext .trailingComma
        | some _ => failNext .keyNotString
      else failNext .expectedCommaOrBrace

end Reading

end TypeGuard.Json
