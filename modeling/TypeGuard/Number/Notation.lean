import TypeGuard.Number.Shortest

/-!
# Written numbers

Two notations.  In a document a double always shows that it is one: positional
with at least one decimal place, or, outside `10^-5 ≤ |x| < 10^16`, with a signed
exponent.  In running text it is positional at any size, and integers have no
point.
-/

namespace TypeGuard.Binary64

def zeros (count : Nat) : List Char := List.replicate count '0'

def positional (whole : List Char) (d : Decimal) : List Char :=
  let length : Int := d.digits.length
  if d.point ≤ 0 then '0' :: '.' :: zeros (-d.point).toNat ++ d.digits
  else if length ≤ d.point then d.digits ++ zeros (d.point - length).toNat ++ whole
  else d.digits.take d.point.toNat ++ '.' :: d.digits.drop d.point.toNat

def scientific (d : Decimal) : List Char :=
  let exponent := d.point - 1
  let mantissa :=
    match d.digits with
    | first :: second :: rest => first :: '.' :: second :: rest
    | digits => digits
  let sign := if exponent < 0 then '-' else '+'
  mantissa ++ 'e' :: sign :: Decimal.digitChars exponent.natAbs

def signed (negative : Bool) (digits : List Char) : String :=
  String.ofList (if negative then '-' :: digits else digits)

/-- The text of a finite double in a document; the others have none. -/
def documentText? : Binary64 → Option String
  | .finite negative mantissa exponent _ =>
      if mantissa = 0 then some (signed negative ['0', '.', '0'])
      else
        let d := Decimal.shortest .toEven mantissa exponent
        some (signed negative
          (if -5 < d.point ∧ d.point ≤ 16 then positional ['.', '0'] d else scientific d))
  | .infinite _ | .nan => none

def plainText : Binary64 → String
  | .finite negative mantissa exponent _ =>
      if mantissa = 0 then signed negative ['0']
      else signed negative (positional [] (Decimal.shortest .up mantissa exponent))
  | .infinite negative => signed negative ['i', 'n', 'f']
  | .nan => "NaN"

end TypeGuard.Binary64
