import TypeGuard.Json.Value
import TypeGuard.Number.Notation

/-!
# Writing JSON

`Json.compact` writes no space outside strings; `Json.pretty` puts each item on
a line of its own, two spaces deeper than its container.
-/

namespace TypeGuard.Json

/-! ## Strings -/

def hexDigit (n : Nat) : Char := Nat.digitChar (n % 16)

def escapeChar : Char → List Char
  | '"' => ['\\', '"']
  | '\\' => ['\\', '\\']
  | '\n' => ['\\', 'n']
  | '\r' => ['\\', 'r']
  | '\t' => ['\\', 't']
  | c =>
      if c = Char.ofNat 8 then ['\\', 'b']
      else if c = Char.ofNat 12 then ['\\', 'f']
      else if c.toNat < 32 then
        ['\\', 'u', '0', '0', hexDigit (c.toNat / 16), hexDigit c.toNat]
      else [c]

def quote (text : String) : String :=
  String.ofList ('"' :: text.toList.flatMap escapeChar ++ ['"'])

/-! ## Numbers -/

/-- A double without a decimal text is written as `null`. -/
def Number.text : Number → String
  | .integer i => toString i
  | .double x => x.documentText?.getD "null"

/-! ## Values -/

def separated (opening closing : String) (items : List String) : String :=
  opening ++ ",".intercalate items ++ closing

mutual

def compact : Json → String
  | .null => "null"
  | .bool b => if b then "true" else "false"
  | .number n => n.text
  | .string s => quote s
  | .array items => separated "[" "]" (compactItems items)
  | .object members => separated "\x7b" "\x7d" (compactMembers members)

def compactItems : List Json → List String
  | [] => []
  | item :: rest => compact item :: compactItems rest

def compactMembers : List (String × Json) → List String
  | [] => []
  | (name, value) :: rest => (quote name ++ ":" ++ compact value) :: compactMembers rest

end

def stacked (depth : Nat) (opening closing : String) (items : List String) : String :=
  let line (depth : Nat) := "\n" ++ String.ofList (List.replicate (2 * depth) ' ')
  if items.isEmpty then opening ++ closing
  else
    opening ++ line (depth + 1) ++ ("," ++ line (depth + 1)).intercalate items ++
      line depth ++ closing

mutual

def prettyAt (depth : Nat) : Json → String
  | .null => "null"
  | .bool b => if b then "true" else "false"
  | .number n => n.text
  | .string s => quote s
  | .array items => stacked depth "[" "]" (prettyItems (depth + 1) items)
  | .object members => stacked depth "\x7b" "\x7d" (prettyMembers (depth + 1) members)

def prettyItems (depth : Nat) : List Json → List String
  | [] => []
  | item :: rest => prettyAt depth item :: prettyItems depth rest

def prettyMembers (depth : Nat) : List (String × Json) → List String
  | [] => []
  | (name, value) :: rest =>
      (quote name ++ ": " ++ prettyAt depth value) :: prettyMembers depth rest

end

def pretty (value : Json) : String := prettyAt 0 value

end TypeGuard.Json
