import TypeGuard.Number.Binary64

/-!
# Shortest decimals

The decimal of a double is the one with the fewest digits among those that
round back to it, and of these the nearest to its value.  For each count of
digits the two neighbours of the value on the decimal grid of that count are
compared with the band of reals that round to the double, in exact arithmetic.
-/

namespace TypeGuard

/-- The value `0.d₁d₂…dₙ · 10^point`, with no zero at either end. -/
structure Decimal where
  digits : List Char
  point : Int
  deriving DecidableEq, Repr

inductive Decimal.Tie where
  | toEven
  | up
  deriving DecidableEq, Repr

namespace Decimal

/-- A positive double with the band of reals that round to it, as naturals over
one denominator.  The ends belong to the band when the mantissa is even. -/
structure Band where
  low : Nat
  value : Nat
  high : Nat
  denominator : Nat
  closed : Bool
  deriving DecidableEq, Repr

def bandOf (mantissa : Nat) (exponent : Int) : Band :=
  let below := if mantissa = 4503599627370496 ∧ -1074 < exponent then 1 else 2
  let unit := if 2 ≤ exponent then Nat.pow 2 (exponent - 2).toNat else 1
  let denominator := if 2 ≤ exponent then 1 else Nat.pow 2 (2 - exponent).toNat
  { low := (4 * mantissa - below) * unit
    value := 4 * mantissa * unit
    high := (4 * mantissa + 2) * unit
    denominator
    closed := mantissa % 2 = 0 }

def Band.holds (band : Band) (x : Nat) : Bool :=
  if band.closed then band.low ≤ x && x ≤ band.high
  else band.low < x && x < band.high

def digitChars (n : Nat) : List Char := Nat.toDigits 10 n

def pointOf (band : Band) : Int :=
  let guess := ((digitChars band.value).length : Int) - (digitChars band.denominator).length
  let (n, d) :=
    if 0 ≤ guess then (band.value, band.denominator * Nat.pow 10 guess.toNat)
    else (band.value * Nat.pow 10 (-guess).toNat, band.denominator)
  if d ≤ n then guess + 1 else guess

def onGrid? (tie : Tie) (band : Band) (shift : Int) : Option Nat :=
  let factor := Nat.pow 10 (-shift).toNat
  let step := band.denominator * Nat.pow 10 shift.toNat
  let scaled : Band :=
    { band with low := band.low * factor, value := band.value * factor, high := band.high * factor }
  let floor := scaled.value / step
  let below := scaled.value - floor * step
  let above := (floor + 1) * step - scaled.value
  match scaled.holds (floor * step), scaled.holds ((floor + 1) * step) with
  | false, false => none
  | true, false => some floor
  | false, true => some (floor + 1)
  | true, true =>
      if below < above then some floor
      else if above < below then some (floor + 1)
      else match tie with
        | .toEven => some (floor + floor % 2)
        | .up => some (floor + 1)

def search (tie : Tie) (band : Band) (point : Int) : Nat → Nat → Option (Nat × Int)
  | 0, _ => none
  | fuel + 1, count =>
      match onGrid? tie band (point - count) with
      | some digits => some (digits, point - count)
      | none => search tie band point fuel (count + 1)

def trimZeros (digits : List Char) : List Char :=
  (digits.reverse.dropWhile (· == '0')).reverse

/-- Seventeen digits tell any two doubles apart. -/
def shortest (tie : Tie) (mantissa : Nat) (exponent : Int) : Decimal :=
  let band := bandOf mantissa exponent
  let point := pointOf band
  match search tie band point 17 1 with
  | some (n, shift) =>
      let digits := digitChars n
      ⟨trimZeros digits, digits.length + shift⟩
  | none => ⟨[], point⟩

end Decimal

end TypeGuard
