import TypeGuard.Json.Lexeme

/-!
# Reading and skipping values

`value` reads a JSON value of bounded nesting; `skipValue` only passes over one.
A skipped value may nest at will and hold numbers of any size, and its strings
are not decoded.

The fuel bounds the number of steps; a text of `n` characters needs fewer than
`2n + 4`.
-/

namespace TypeGuard.Json

open Reading

def fuelFor (text : String) : Nat := 2 * text.toList.length + 4

def enter (depth : Nat) : Reading Nat :=
  if depth ≤ 1 then failNext .nestedTooDeep
  else do
    skip
    return depth - 1

def scalar (fuel : Nat) (first : Char) : Reading Json := do
  match first with
  | 'n' =>
      skip
      word ['u', 'l', 'l']
      return .null
  | 't' =>
      skip
      word ['r', 'u', 'e']
      return .bool true
  | 'f' =>
      skip
      word ['a', 'l', 's', 'e']
      return .bool false
  | '"' => return .string (← stringLiteral fuel)
  | '-' =>
      skip
      return .number (← numberLiteral true)
  | c =>
      if c.isDigit then return .number (← numberLiteral false)
      else failNext .expectedValue

mutual

def value : Nat → Nat → Reading Json
  | 0, _ => fail .endOfValue
  | fuel + 1, depth => do
      match ← next with
      | none => fail .endOfValue
      | some '[' => return .array (← items fuel (← enter depth) 0)
      | some '\x7b' => return .object (← members fuel (← enter depth) true)
      | some c => scalar fuel c

def items : Nat → Nat → Nat → Reading (List Json)
  | 0, _, _ => fail .endOfList
  | fuel + 1, depth, index => do
      if ← moreItems (index == 0) then
        let item ← within (.item index) (value fuel depth)
        return item :: (← items fuel depth (index + 1))
      else
        skip
        return []

def members : Nat → Nat → Bool → Reading (List (String × Json))
  | 0, _, _ => fail .endOfObject
  | fuel + 1, depth, first => do
      if ← within .between (moreMembers first) then
        let name ← within .between (stringLiteral fuel)
        colon
        let content ← within (.member name) (value fuel depth)
        return (name, content) :: (← members fuel depth false)
      else
        skip
        return []

end

/-! ## Skipping -/

def skipEscape : Reading Unit := do
  match ← peek with
  | none => fail .endOfString
  | some 'u' =>
      skip
      let _ ← hexUnit
      return
  | some c => if (simpleEscape? c).isSome then skip else failNext .invalidEscape

def skipRounds : Nat → Reading Unit
  | 0 => fail .endOfString
  | fuel + 1 => do
      let _ ← takeWhile isPlain
      match ← peek with
      | none => fail .endOfString
      | some '"' => skip
      | some '\\' =>
          skip
          skipEscape
          skipRounds fuel
      | some _ => fail .controlCharacter

def skipString (fuel : Nat) : Reading Unit := do
  skip
  skipRounds fuel

def skipScalar (fuel : Nat) (first : Char) : Reading Unit := do
  match first with
  | '"' => skipString fuel
  | '-' =>
      skip
      let _ ← numeral .invalidNumber
      return
  | c =>
      if c.isDigit then
        let _ ← numeral .invalidNumber
        return
      else
        let _ ← scalar fuel c
        return

mutual

def skipValue : Nat → Reading Unit
  | 0 => fail .endOfValue
  | fuel + 1 => do
      match ← next with
      | none => fail .endOfValue
      | some '[' =>
          skip
          skipItems fuel true
      | some '\x7b' =>
          skip
          skipMembers fuel true
      | some c => skipScalar fuel c

def skipItems : Nat → Bool → Reading Unit
  | 0, _ => fail .endOfList
  | fuel + 1, first => do
      match ← next with
      | none => fail .endOfList
      | some ']' => skip
      | some c =>
          if first then skipValue fuel
          else if c = ',' then
            skip
            skipValue fuel
          else failNext .expectedCommaOrBracket
          skipItems fuel false

def skipMembers : Nat → Bool → Reading Unit
  | 0, _ => fail .endOfObject
  | fuel + 1, first => do
      match ← next with
      | none => fail .endOfObject
      | some '\x7d' => skip
      | some c =>
          if !first then
            if c = ',' then skip else failNext .expectedCommaOrBrace
          match ← next with
          | none => fail .endOfObject
          | some '"' => skipString fuel
          | some _ => failNext .keyNotString
          colon
          skipValue fuel
          skipMembers fuel false

end

/-- The first value of a text; what follows it is not looked at. -/
def read (depth : Nat) (text : String) : Except Failure Json :=
  (value (fuelFor text) depth (Cursor.ofText text)).map (·.1)

end TypeGuard.Json
