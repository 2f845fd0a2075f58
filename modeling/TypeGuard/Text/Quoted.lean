import TypeGuard.Text.Hidden

/-!
# Quoted text

The double-quoted spelling of a text inside a message: backslash escapes for
the quote, the backslash and the common controls, and the code point in hex
for every other character that shows no shape of its own.
-/

namespace TypeGuard.Text

def codePoint (c : Char) : List Char :=
  ['\\', 'u', '\x7b'] ++ Nat.toDigits 16 c.toNat ++ ['\x7d']

def spellChar : Char → List Char
  | '"' => ['\\', '"']
  | '\\' => ['\\', '\\']
  | '\n' => ['\\', 'n']
  | '\r' => ['\\', 'r']
  | '\t' => ['\\', 't']
  | c =>
      if c.toNat = 0 then ['\\', '0']
      else if isHidden c then codePoint c
      else [c]

def quoted (text : String) : String :=
  String.ofList ('"' :: text.toList.flatMap spellChar ++ ['"'])

end TypeGuard.Text
