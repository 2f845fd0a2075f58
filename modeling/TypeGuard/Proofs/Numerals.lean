import TypeGuard.Json.Lexeme
import TypeGuard.Proofs.Exactness

/-!
# The numbers that a text writes

A number without decimals and exponent writes an integer.  From `-2^63` to below `2^64` it is
read as that integer, except that minus zero is read as the double; outside it is read as some
finite double.
-/

namespace TypeGuard

namespace Binary64

/-! ## Finite doubles -/

theorem isSome_value?_iff {x : Binary64} :
    x.value?.isSome ↔ x.isInfinite = false ∧ x.isNaN = false := by
  cases x <;> simp [value?, isInfinite, isNaN]

@[simp] theorem isNaN_ofFraction (negative : Bool) (numerator denominator : Nat) :
    (ofFraction negative numerator denominator).isNaN = false := by
  have hparts : ∀ mantissa exponent, (ofParts negative mantissa exponent).isNaN = false := by
    intro mantissa exponent
    unfold ofParts
    split <;> rfl
  unfold ofFraction
  split
  · rfl
  · dsimp only
    split <;> exact hparts _ _

theorem divideToEven_bounds {low high numerator denominator : Nat} (h : 0 < denominator)
    (hlow : low * denominator ≤ numerator) (hhigh : numerator < high * denominator) :
    low ≤ divideToEven numerator denominator ∧ divideToEven numerator denominator ≤ high := by
  have hquotient : low ≤ numerator / denominator := (Nat.le_div_iff_mul_le h).mpr hlow
  have hnext : numerator / denominator < high := (Nat.div_lt_iff_lt_mul h).mpr hhigh
  have hround : numerator / denominator ≤ divideToEven numerator denominator ∧
      divideToEven numerator denominator ≤ numerator / denominator + 1 := by
    simp only [divideToEven]
    split
    · omega
    · split <;> omega
  omega

theorem isSome_value?_ofNat {n : Nat} (h : n.log2 < 1023) : (ofNat n).value?.isSome := by
  rcases Nat.eq_zero_or_pos n with rfl | hpos
  · rfl
  have hbounds := rescale_bounds hpos.ne' (by omega : (n.log2 : Int) = n.log2 - 52 + (52 : Nat))
  have hmantissa := divideToEven_bounds (rescale_pos n (n.log2 - 52)) hbounds.1 hbounds.2
  have hparts : ∀ mantissa exponent, Canonical mantissa exponent →
      (ofParts false mantissa exponent).value?.isSome := by
    intro mantissa exponent hcanonical
    rw [ofParts, dif_pos hcanonical]
    rfl
  rw [ofNat, ofFraction, if_neg hpos.ne', exponentOf_natural hpos.ne']
  dsimp only
  split
  · exact hparts _ _ ⟨by omega, by omega, by omega, by omega⟩
  · exact hparts _ _ ⟨by omega, by omega, by omega, by omega⟩

theorem log2_lt_of_lt_size {n : Nat} (h : n < UInt64.size) : n.log2 < 1023 := by
  rcases Nat.eq_zero_or_pos n with rfl | hpos
  · decide
  · exact lt_trans ((Nat.log2_lt hpos.ne').mpr (show n < 2 ^ 64 from h)) (by decide)

@[simp] theorem isSome_value?_negate {x : Binary64} : x.negate.value?.isSome = x.value?.isSome := by
  cases x <;> rfl

end Binary64

namespace Json

/-! ## Digits -/

/-- The number that digits write, given the number that the digits before them write. -/
def digitsValue (start : Nat) (digits : List Char) : Nat :=
  digits.foldl (fun n c => 10 * n + digitValue c) start

theorem le_digitsValue (start : Nat) (digits : List Char) : start ≤ digitsValue start digits := by
  induction digits generalizing start with
  | nil => exact le_rfl
  | cons c rest ih => exact le_trans (by omega) (ih (10 * start + digitValue c))

@[simp] theorem absorb_of_lt {start : Nat} {digits : List Char}
    (h : digitsValue start digits < UInt64.size) :
    absorb start digits = (digitsValue start digits, []) := by
  induction digits generalizing start with
  | nil => rfl
  | cons c rest ih =>
      have hstep : 10 * start + digitValue c < UInt64.size :=
        lt_of_le_of_lt (le_digitsValue _ rest) h
      rw [absorb]
      simp only [if_pos hstep]
      exact ih h

theorem absorb_lt {start : Nat} (h : start < UInt64.size) (digits : List Char) :
    (absorb start digits).1 < UInt64.size := by
  induction digits generalizing start with
  | nil => exact h
  | cons c rest ih =>
      rw [absorb]
      split
      next hstep => exact ih hstep
      next => exact h

theorem absorb_drops {start : Nat} {digits : List Char} (hstart : start < UInt64.size)
    (h : UInt64.size ≤ digitsValue start digits) : (absorb start digits).2 ≠ [] := by
  induction digits generalizing start with
  | nil => exact absurd hstart (not_lt.mpr h)
  | cons c rest ih =>
      rw [absorb]
      split
      next hstep => exact ih hstep h
      next => exact List.cons_ne_nil _ _

/-! ## Scaling -/

theorem isSome_value?_powerOfTen {power : Nat} (h : power ≤ 308) :
    (powerOfTen power).value?.isSome := by
  rcases h.lt_or_eq with hlt | rfl
  · refine Binary64.isSome_value?_ofNat ((Nat.log2_lt (Nat.pow_pos (by decide)).ne').mpr ?_)
    calc 10 ^ power ≤ 10 ^ 307 := Nat.pow_le_pow_right (by decide) (by omega)
      _ < 2 ^ 1023 := (Nat.log2_lt (Nat.pow_pos (by decide)).ne').mp (by decide +kernel)
  · decide +kernel

theorem isSome_value?_of_scaled {significand power : Nat} {x : Binary64}
    (hsignificand : significand < UInt64.size)
    (h : scaled? significand power = some x) : x.value?.isSome := by
  have hfirst : (Binary64.ofNat significand).value?.isSome :=
    Binary64.isSome_value?_ofNat (Binary64.log2_lt_of_lt_size hsignificand)
  rw [scaled?] at h
  simp only [if_neg (not_lt.mpr (Int.natCast_nonneg power))] at h
  split at h
  next hpower =>
      split at h
      next => cases h
      next hfinite =>
          obtain rfl := Option.some.inj h
          refine Binary64.isSome_value?_iff.mpr ⟨eq_false_of_ne_true hfinite, ?_⟩
          have hsecond := isSome_value?_powerOfTen (by omega : (power : Int).toNat ≤ 308)
          revert hfirst hsecond
          generalize Binary64.ofNat significand = first
          generalize powerOfTen (power : Int).toNat = second
          cases first <;> cases second <;>
            simp [Binary64.value?, Binary64.mul, Binary64.ofScaled]
  next =>
      split at h
      next =>
          obtain rfl := Option.some.inj h
          exact hfirst
      next => cases h

theorem isSome_value?_withSign {negative : Bool} {x : Binary64} (h : x.value?.isSome) :
    (withSign negative x).value?.isSome := by
  cases negative with
  | false => exact h
  | true => exact Binary64.isSome_value?_negate.trans h

/-! ## Integers -/

namespace Numeral

def IsInteger (n : Numeral) : Prop := n.decimals = none ∧ n.exponent = none

def integer (n : Numeral) (negative : Bool) : Int :=
  if negative then -(digitsValue 0 n.whole : Int) else digitsValue 0 n.whole

def Fits (i : Int) : Prop := -2 ^ 63 ≤ i ∧ i < 2 ^ 64

instance (i : Int) : Decidable (Fits i) :=
  inferInstanceAs (Decidable (-2 ^ 63 ≤ i ∧ i < 2 ^ 64))

variable {n : Numeral} {negative : Bool} {number : Number}

theorem value_of_lt (h : n.IsInteger) (hlt : digitsValue 0 n.whole < UInt64.size) :
    n.value negative = .ok (integerValue negative (digitsValue 0 n.whole)) := by
  obtain ⟨hdecimals, hexponent⟩ := h
  rw [value, absorb_of_lt hlt, hdecimals, hexponent]
  rfl

theorem double_of_value (h : n.IsInteger) (hsize : UInt64.size ≤ digitsValue 0 n.whole)
    (hvalue : n.value negative = .ok number) :
    ∃ x, number = .double x ∧ x.value?.isSome := by
  obtain ⟨hdecimals, hexponent⟩ := h
  have hdropped := absorb_drops (by decide) hsize
  have hlt := absorb_lt (by decide : 0 < UInt64.size) n.whole
  rw [value, hdecimals, hexponent] at hvalue
  generalize absorb 0 n.whole = parts at hdropped hlt hvalue
  obtain ⟨significand, dropped⟩ := parts
  simp only [Option.getD_none, absorb, List.length_nil, Nat.sub_zero, Nat.cast_zero, Int.sub_zero,
    List.isEmpty_iff, if_neg hdropped] at hvalue
  split at hvalue
  next x hscaled =>
      cases hvalue
      exact ⟨_, rfl, isSome_value?_withSign (isSome_value?_of_scaled hlt hscaled)⟩
  next => cases hvalue

/-- A number that writes a 64-bit integer is read as that integer, or as minus zero; one that
writes another integer is read as a finite double. -/
theorem value_integer (h : n.IsInteger) (hvalue : n.value negative = .ok number) :
    (Fits (n.integer negative) → number = .integer (n.integer negative) ∨
      n.integer negative = 0 ∧ number = .double (Binary64.zero true)) ∧
    (¬ Fits (n.integer negative) → ∃ x, number = .double x ∧ x.value?.isSome) := by
  rcases lt_or_ge (digitsValue 0 n.whole) UInt64.size with hlt | hsize
  · rw [value_of_lt h hlt] at hvalue
    cases hvalue
    have hlt' : digitsValue 0 n.whole < 2 ^ 64 := hlt
    cases negative with
    | false =>
        refine ⟨fun _ => .inl rfl, fun hfits => absurd ?_ hfits⟩
        simp only [Fits, integer, Bool.false_eq_true, if_false]
        omega
    | true =>
        simp only [Fits, integer, integerValue, Bool.not_true, Bool.false_eq_true, if_false,
          if_true]
        split
        next hor =>
            refine ⟨fun hfits => .inr ?_, fun _ => ⟨_, rfl, ?_⟩⟩
            · have hzero : digitsValue 0 n.whole = 0 := by omega
              rw [hzero]
              exact ⟨rfl, rfl⟩
            · simpa using Binary64.isSome_value?_ofNat (Binary64.log2_lt_of_lt_size hlt)
        next hor => exact ⟨fun _ => .inl rfl, fun hfits => absurd (by omega) hfits⟩
  · refine ⟨fun hfits => absurd hfits ?_, fun _ => double_of_value h hsize hvalue⟩
    have hsize' : 2 ^ 64 ≤ digitsValue 0 n.whole := hsize
    rw [Fits, integer]
    split <;> omega

end Numeral

end Json

end TypeGuard
