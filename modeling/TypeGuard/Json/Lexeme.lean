import TypeGuard.Json.Reading

/-!
# Strings and numbers of a JSON text

An integer of at most 64 bits keeps its value.  Any other number becomes a
double: its first digits that fit 64 bits, scaled by a power of ten, each step
rounded.  Digits left out before the point raise the power, digits left out
after it count for nothing.
-/

namespace TypeGuard.Json

open Reading

/-! ## Strings -/

def hexValue? (c : Char) : Option Nat :=
  if c.isDigit then some (c.toNat - '0'.toNat)
  else if 'a' ≤ c ∧ c ≤ 'f' then some (c.toNat - 'a'.toNat + 10)
  else if 'A' ≤ c ∧ c ≤ 'F' then some (c.toNat - 'A'.toNat + 10)
  else none

def hexNumber? : List Char → Option Nat
  | [] => some 0
  | digits => digits.foldlM (fun n c => (hexValue? c).map (16 * n + ·)) 0

def hexUnit : Reading Nat := do
  let cursor ← get
  match cursor.position.advanceBytes 4 cursor.rest with
  | none => failAt (cursor.position.advance cursor.rest) .endOfString
  | some position =>
      let digits := cursor.rest.take 4
      match hexNumber? digits with
      | some unit =>
          set (⟨cursor.rest.drop 4, position⟩ : Cursor)
          return unit
      | none => failAt position .invalidEscape

def isLeading (unit : Nat) : Bool := 0xD800 ≤ unit && unit ≤ 0xDBFF

def isTrailing (unit : Nat) : Bool := 0xDC00 ≤ unit && unit ≤ 0xDFFF

def expectInPair (expected : Char) : Reading Unit := do
  match ← peek with
  | none => fail .endOfString
  | some c => if c = expected then skip else failNext .unfinishedSurrogate

def hexEscape : Reading Char := do
  let unit ← hexUnit
  if isTrailing unit then fail .loneSurrogate
  else if isLeading unit then
    expectInPair '\\'
    expectInPair 'u'
    let second ← hexUnit
    if isTrailing second then
      return Char.ofNat (0x10000 + (unit - 0xD800) * 0x400 + (second - 0xDC00))
    else fail .loneSurrogate
  else return Char.ofNat unit

def simpleEscape? : Char → Option Char
  | '"' => some '"'
  | '\\' => some '\\'
  | '/' => some '/'
  | 'b' => some (Char.ofNat 8)
  | 'f' => some (Char.ofNat 12)
  | 'n' => some '\n'
  | 'r' => some '\r'
  | 't' => some '\t'
  | _ => none

def escape : Reading Char := do
  match ← peek with
  | none => fail .endOfString
  | some 'u' =>
      skip
      hexEscape
  | some c =>
      match simpleEscape? c with
      | some result =>
          skip
          return result
      | none => failNext .invalidEscape

def isPlain (c : Char) : Bool := c != '"' && c != '\\' && 32 ≤ c.toNat

def stringRounds : Nat → Reading (List Char)
  | 0 => fail .endOfString
  | fuel + 1 => do
      let run ← takeWhile isPlain
      match ← peek with
      | none => fail .endOfString
      | some '"' =>
          skip
          return run
      | some '\\' =>
          skip
          let c ← escape
          return run ++ c :: (← stringRounds fuel)
      | some _ => failNext .controlCharacter

def stringLiteral (fuel : Nat) : Reading String := do
  skip
  return String.ofList (← stringRounds fuel)

/-! ## Numbers -/

/-- The written parts of a number without its sign; an exponent is its sign and
digits. -/
structure Numeral where
  whole : List Char
  decimals : Option (List Char)
  exponent : Option (Bool × List Char)
  deriving DecidableEq, Repr

def wholeDigits (atEnd : Fault) : Reading (List Char) := do
  match ← peek with
  | none => fail atEnd
  | some '0' =>
      skip
      match ← peek with
      | some c => if c.isDigit then failNext .invalidNumber else return ['0']
      | none => return ['0']
  | some c => if c.isDigit then takeWhile Char.isDigit else failNext .invalidNumber

def decimalDigits (atEnd : Fault) : Reading (Option (List Char)) := do
  if (← peek) != some '.' then return none
  skip
  let digits ← takeWhile Char.isDigit
  if digits.isEmpty then
    match ← peek with
    | none => fail atEnd
    | some _ => failNext .invalidNumber
  else return some digits

def exponentDigits (atEnd : Fault) : Reading (Option (Bool × List Char)) := do
  let mark ← peek
  if mark != some 'e' && mark != some 'E' then return none
  skip
  let sign ← peek
  if sign == some '+' || sign == some '-' then skip
  let digits ← takeWhile Char.isDigit
  if digits.isEmpty then
    match ← peek with
    | none => fail atEnd
    | some _ => failNext .invalidNumber
  else return some (sign == some '-', digits)

def numeral (atEnd : Fault) : Reading Numeral := do
  let whole ← wholeDigits atEnd
  let decimals ← decimalDigits atEnd
  let exponent ← exponentDigits atEnd
  return ⟨whole, decimals, exponent⟩

def digitValue (c : Char) : Nat := c.toNat - '0'.toNat

/-- Extend the significand by digits as long as it fits 64 bits; the rest of the
digits is returned. -/
def absorb (significand : Nat) : List Char → Nat × List Char
  | [] => (significand, [])
  | c :: rest =>
      let longer := 10 * significand + digitValue c
      if longer < UInt64.size then absorb longer rest else (significand, c :: rest)

/-- The value of an exponent's digits, or, if it does not fit 31 bits, the
digits not read when that shows. -/
def exponentValue (value : Nat) : List Char → Except (List Char) Nat
  | [] => .ok value
  | c :: rest =>
      let longer := 10 * value + digitValue c
      if longer < 2147483648 then exponentValue longer rest else .error rest

def powerOfTen (power : Nat) : Binary64 := Binary64.ofNat (Nat.pow 10 power)

def scaleDown (x : Binary64) : Nat → Nat → Binary64
  | 0, _ => x
  | fuel + 1, power =>
      if power ≤ 308 then x.div (powerOfTen power)
      else if x.isZero then x
      else scaleDown (x.div (powerOfTen 308)) fuel (power - 308)

def scaled? (significand : Nat) (power : Int) : Option Binary64 :=
  let x := Binary64.ofNat significand
  if power < 0 then some (scaleDown x 8 power.natAbs)
  else if power ≤ 308 then
    let product := x.mul (powerOfTen power.toNat)
    if product.isInfinite then none else some product
  else if x.isZero then some x
  else none

def withSign (negative : Bool) (x : Binary64) : Binary64 :=
  if negative then x.negate else x

/-- An integer of at most 64 bits; minus zero and what is below the least
integer become doubles. -/
def integerValue (negative : Bool) (magnitude : Nat) : Number :=
  if !negative then .integer magnitude
  else if magnitude = 0 ∨ 9223372036854775808 < magnitude then
    .double (Binary64.ofNat magnitude).negate
  else .integer (-(magnitude : Int))

/-- The number, or how many characters at its end were not read when it turned
out to be too large. -/
def Numeral.value (n : Numeral) (negative : Bool) : Except Nat Number :=
  let (whole, dropped) := absorb 0 n.whole
  let decimals := n.decimals.getD []
  let (significand, ignored) := absorb whole decimals
  let power : Int := dropped.length - (decimals.length - ignored.length : Nat)
  let double (power : Int) : Except Nat Number :=
    match scaled? significand power with
    | some x => .ok (.double (withSign negative x))
    | none => .error 0
  match n.decimals, n.exponent with
  | none, none =>
      if dropped.isEmpty then .ok (integerValue negative whole) else double power
  | _, none => double power
  | _, some (below, digits) =>
      match exponentValue 0 digits with
      | .ok exponent => double (if below then power - exponent else power + exponent)
      | .error unread =>
          if significand = 0 ∨ below then .ok (.double (Binary64.zero negative))
          else .error unread.length

def numberLiteral (negative : Bool) : Reading Number := do
  let n ← numeral .endOfValue
  match n.value negative with
  | .ok value => return value
  | .error unread =>
      let position := (← get).position
      failAt { position with column := position.column - unread } .numberOutOfRange

end TypeGuard.Json
