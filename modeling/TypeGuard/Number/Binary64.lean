/-!
# Double-precision numbers

A finite double is `± mantissa · 2^exponent` in its one canonical form, so two
finite doubles of one sign are equal as values only if they are equal as data.
Zero keeps its sign; all not-a-number patterns are one value.

Results are rounded to the nearest double, ties to the even mantissa, with
exact arithmetic on naturals.
-/

namespace TypeGuard

/-- Mantissa and exponent of a finite double, with the exponent as small as it
can be: a mantissa below `2^53`, and not below `2^52` unless the exponent is the
least one. -/
def Binary64.Canonical (mantissa : Nat) (exponent : Int) : Prop :=
  mantissa < 9007199254740992 ∧ -1074 ≤ exponent ∧ exponent ≤ 971 ∧
    (4503599627370496 ≤ mantissa ∨ exponent = -1074)

instance (mantissa : Nat) (exponent : Int) :
    Decidable (Binary64.Canonical mantissa exponent) := by
  unfold Binary64.Canonical
  infer_instance

inductive Binary64 where
  | finite (negative : Bool) (mantissa : Nat) (exponent : Int)
      (canonical : Binary64.Canonical mantissa exponent)
  | infinite (negative : Bool)
  | nan
  deriving DecidableEq

namespace Binary64

def zero (negative : Bool) : Binary64 := .finite negative 0 (-1074) (by decide)

/-! ## Rounding -/

def divideToEven (numerator denominator : Nat) : Nat :=
  let quotient := numerator / denominator
  let twice := 2 * (numerator % denominator)
  if twice < denominator then quotient
  else if denominator < twice then quotient + 1
  else quotient + quotient % 2

def rescale (numerator denominator : Nat) (exponent : Int) : Nat × Nat :=
  if 0 ≤ exponent then (numerator, denominator * Nat.pow 2 exponent.toNat)
  else (numerator * Nat.pow 2 (-exponent).toNat, denominator)

/-- The exponent at which the fraction has a mantissa of 53 bits, or the least
exponent if that is larger. -/
def exponentOf (numerator denominator : Nat) : Int :=
  let low := (numerator.log2 : Int) - denominator.log2 - 53
  let (n, d) := rescale numerator denominator low
  let exact := if n / d < 9007199254740992 then low else low + 1
  if exact < -1074 then -1074 else exact

/-- The double with these parts; beyond the largest exponent it is infinite. -/
def ofParts (negative : Bool) (mantissa : Nat) (exponent : Int) : Binary64 :=
  if h : Canonical mantissa exponent then .finite negative mantissa exponent h
  else .infinite negative

def ofFraction (negative : Bool) (numerator denominator : Nat) : Binary64 :=
  if numerator = 0 then zero negative
  else
    let exponent := exponentOf numerator denominator
    let (n, d) := rescale numerator denominator exponent
    let mantissa := divideToEven n d
    if mantissa = 9007199254740992 then ofParts negative 4503599627370496 (exponent + 1)
    else ofParts negative mantissa exponent

def ofNat (n : Nat) : Binary64 := ofFraction false n 1

def ofInt (i : Int) : Binary64 := ofFraction (i < 0) i.natAbs 1

/-! ## Arithmetic -/

def isZero : Binary64 → Bool
  | .finite _ mantissa _ _ => mantissa == 0
  | _ => false

def isInfinite : Binary64 → Bool
  | .infinite _ => true
  | _ => false

def isNaN : Binary64 → Bool
  | .nan => true
  | _ => false

def isNegative : Binary64 → Bool
  | .finite negative _ _ _ | .infinite negative => negative
  | .nan => false

def negate : Binary64 → Binary64
  | .finite negative mantissa exponent h => .finite (!negative) mantissa exponent h
  | .infinite negative => .infinite (!negative)
  | .nan => .nan

def ofScaled (negative : Bool) (numerator denominator : Nat) (exponent : Int) : Binary64 :=
  let (n, d) := rescale numerator denominator (-exponent)
  ofFraction negative n d

def mul : Binary64 → Binary64 → Binary64
  | .finite s m e _, .finite s' m' e' _ => ofScaled (s != s') (m * m') 1 (e + e')
  | .nan, _ | _, .nan => .nan
  | x, y => if x.isZero || y.isZero then .nan else .infinite (x.isNegative != y.isNegative)

def div : Binary64 → Binary64 → Binary64
  | .finite s m e _, .finite s' m' e' _ =>
      if m' = 0 then if m = 0 then .nan else .infinite (s != s')
      else ofScaled (s != s') m m' (e - e')
  | .finite s _ _ _, .infinite s' => zero (s != s')
  | .infinite s, .finite s' _ _ _ => .infinite (s != s')
  | .infinite _, .infinite _ | .nan, _ | _, .nan => .nan

/-! ## Comparison and value -/

/-- Numeric equality: zeros of either sign are equal, not-a-number equals
nothing. -/
def numericEq : Binary64 → Binary64 → Bool
  | .finite s m e _, .finite s' m' e' _ =>
      (m == 0 && m' == 0) || (s == s' && m == m' && e == e')
  | .infinite s, .infinite s' => s == s'
  | _, _ => false

def sameValue (x y : Binary64) : Bool := numericEq x y || (x.isNaN && y.isNaN)

def toInt? : Binary64 → Option Int
  | .finite negative mantissa exponent _ =>
      let scale := Nat.pow 2 exponent.natAbs
      let size? :=
        if 0 ≤ exponent then some (mantissa * scale)
        else if mantissa % scale = 0 then some (mantissa / scale)
        else none
      size?.map fun size => if negative then -(size : Int) else size
  | .infinite _ | .nan => none

def unitsOf (low : Int) (negative : Bool) (mantissa : Nat) (exponent : Int) : Int :=
  let size := mantissa * Nat.pow 2 (exponent - low).toNat
  if negative then -(size : Int) else size

/-- Numeric order: not-a-number is neither below nor above anything. -/
def le : Binary64 → Binary64 → Bool
  | .finite s m e _, .finite s' m' e' _ =>
      unitsOf (min e e') s m e ≤ unitsOf (min e e') s' m' e'
  | .finite .., .infinite s' => !s'
  | .infinite s, .finite .. => s
  | .infinite s, .infinite s' => s || !s'
  | .nan, _ | _, .nan => false

/-- Between the limits of 64-bit integers, each rounded to a double. -/
def withinInt64 (x : Binary64) : Bool :=
  (ofInt Int64.minValue.toInt).le x && x.le (ofInt Int64.maxValue.toInt)

def saturate (i : Int) : Int := max Int64.minValue.toInt (min Int64.maxValue.toInt i)

/-- The cast to a 64-bit integer: toward zero, saturating, and zero for not-a-number. -/
def toInt64 : Binary64 → Int
  | .finite negative mantissa exponent _ =>
      let scale := Nat.pow 2 exponent.natAbs
      let size := if 0 ≤ exponent then mantissa * scale else mantissa / scale
      saturate (if negative then -(size : Int) else size)
  | .infinite negative => if negative then Int64.minValue.toInt else Int64.maxValue.toInt
  | .nan => 0

@[simp] theorem sameValue_refl (x : Binary64) : sameValue x x = true := by
  cases x <;> simp [sameValue, numericEq, isNaN]

theorem sameValue_comm (x y : Binary64) : sameValue x y = sameValue y x := by
  cases x <;> cases y <;> simp [sameValue, numericEq, isNaN, Bool.and_comm, BEq.comm]

end Binary64

end TypeGuard
