import Mathlib.Algebra.Order.Field.Power
import Mathlib.Tactic.Positivity
import Mathlib.Tactic.Ring
import TypeGuard.Number.Binary64

/-!
# Exact integers among the doubles

The value of a finite double is a rational number.  A double whose value is an integer is
what rounding that integer gives, up to the sign of zero; so an integer is the value of some
double exactly if it is the value of the double nearest to it.
-/

namespace TypeGuard.Binary64

def value? : Binary64 → Option ℚ
  | .finite negative mantissa exponent _ =>
      let size : ℚ := mantissa * 2 ^ exponent
      some (if negative then -size else size)
  | .infinite _ | .nan => none

def Representable (i : Int) : Prop := ∃ x : Binary64, x.value? = some (i : ℚ)

/-! ## Integer values -/

def size? (mantissa : Nat) (exponent : Int) : Option Nat :=
  let scale := 2 ^ exponent.natAbs
  if 0 ≤ exponent then some (mantissa * scale)
  else if mantissa % scale = 0 then some (mantissa / scale)
  else none

@[simp] theorem size?_eq_some_iff {mantissa n : Nat} {exponent : Int} :
    size? mantissa exponent = some n ↔ (mantissa : ℚ) * 2 ^ exponent = n := by
  rcases le_or_gt 0 exponent with h | h
  · obtain ⟨k, rfl⟩ := Int.eq_ofNat_of_zero_le h
    rw [size?, if_pos h, Option.some.injEq, Int.natAbs_natCast, zpow_natCast]
    exact_mod_cast Iff.rfl
  · obtain ⟨k, rfl⟩ := Int.exists_eq_neg_ofNat h.le
    have hscale : 0 < 2 ^ k := Nat.two_pow_pos k
    rw [size?, if_neg (not_le.mpr h), Int.natAbs_neg, Int.natAbs_natCast, zpow_neg, zpow_natCast,
      mul_inv_eq_iff_eq_mul₀ (by positivity)]
    have hcast : (mantissa : ℚ) = n * 2 ^ k ↔ mantissa = n * 2 ^ k := by exact_mod_cast Iff.rfl
    rw [hcast]
    constructor
    · intro hsome
      split at hsome
      next hdvd =>
          obtain rfl := Option.some.inj hsome
          exact (Nat.div_mul_cancel (Nat.dvd_of_mod_eq_zero hdvd)).symm
      next => cases hsome
    · rintro rfl
      simp

theorem toInt?_finite (negative : Bool) {mantissa : Nat} {exponent : Int}
    (canonical : Canonical mantissa exponent) :
    (finite negative mantissa exponent canonical).toInt? =
      (size? mantissa exponent).map fun (n : Nat) => if negative then -(n : Int) else n := by
  have hmap : ∀ part : Option Nat, ((do return (← part) : Option Int)).map
      (fun n => if negative then -n else n) =
        part.map fun (n : Nat) => if negative then -(n : Int) else n := by
    intro part
    cases part <;> rfl
  exact hmap (size? mantissa exponent)

@[simp] theorem toInt?_eq_some_iff {x : Binary64} {i : Int} :
    x.toInt? = some i ↔ x.value? = some (i : ℚ) := by
  cases x with
  | finite negative mantissa exponent canonical =>
      rw [toInt?_finite, value?, Option.map_eq_some_iff, Option.some.injEq]
      have hsize : (0 : ℚ) ≤ mantissa * 2 ^ exponent := by positivity
      constructor
      · rintro ⟨n, hn, rfl⟩
        rw [size?_eq_some_iff.mp hn]
        cases negative <;> simp
      · intro h
        refine ⟨i.natAbs, size?_eq_some_iff.mpr ?_, ?_⟩
        · rw [Nat.cast_natAbs, Int.cast_abs, ← h]
          cases negative <;> simp [abs_of_nonneg hsize]
        · have hsign : (0 : ℚ) ≤ if negative then -(i : ℚ) else i := by
            rw [← h]
            cases negative <;> simpa using hsize
          cases negative
          · have hi : 0 ≤ i := by exact_mod_cast hsign
            simp [abs_of_nonneg hi]
          · have hi : i ≤ 0 := by simpa using hsign
            simp [abs_of_nonpos hi]
  | _ => simp [toInt?, value?]

/-! ## Order and casts -/

theorem unitsOf_value (negative : Bool) (mantissa : Nat) {low exponent : Int}
    (h : low ≤ exponent) :
    (unitsOf low negative mantissa exponent : ℚ) * 2 ^ low =
      if negative then -(mantissa * 2 ^ exponent : ℚ) else mantissa * 2 ^ exponent := by
  obtain ⟨shift, rfl⟩ := Int.le.dest h
  have hsize : ((mantissa * Nat.pow 2 shift : Nat) : ℚ) * 2 ^ low =
      mantissa * 2 ^ (low + shift) := by
    rw [zpow_add₀ two_ne_zero, zpow_natCast, Nat.pow_eq]
    push_cast
    ring
  cases negative <;> simp [unitsOf, ← hsize]

theorem le_iff {x y : Binary64} {v w : ℚ} (hx : x.value? = some v) (hy : y.value? = some w) :
    x.le y = true ↔ v ≤ w := by
  cases x with
  | finite s m e _ =>
      cases y with
      | finite s' m' e' _ =>
          obtain rfl := Option.some.inj hx
          obtain rfl := Option.some.inj hy
          have hunit : (0 : ℚ) < 2 ^ min e e' := by positivity
          rw [le, decide_eq_true_eq, ← unitsOf_value s m (min_le_left e e'),
            ← unitsOf_value s' m' (min_le_right e e'), mul_le_mul_iff_left₀ hunit, Int.cast_le]
      | _ => simp [value?] at hy
  | _ => simp [value?] at hx

theorem toInt64_of_integer {x : Binary64} {i : Int} (h : x.value? = some (i : ℚ)) :
    x.toInt64 = saturate i := by
  rw [← toInt?_eq_some_iff] at h
  cases x with
  | finite negative mantissa exponent _ =>
      rw [toInt?_finite, Option.map_eq_some_iff] at h
      obtain ⟨n, hn, rfl⟩ := h
      have hsize : (if 0 ≤ exponent then mantissa * 2 ^ exponent.natAbs
          else mantissa / 2 ^ exponent.natAbs) = n := by
        simp only [size?] at hn
        grind
      rw [← hsize]
      rfl
  | _ => simp [toInt?] at h

theorem saturate_eq (i : Int) : saturate i = max (-2 ^ 63) (min (2 ^ 63 - 1) i) :=
  rfl

@[simp] theorem value?_ofInt_minValue : (ofInt Int64.minValue.toInt).value? = some (-2 ^ 63) := by
  have hlimit : ofInt Int64.minValue.toInt = .finite true 4503599627370496 11 (by decide) := by
    decide +kernel
  rw [hlimit]
  norm_num [value?]

@[simp] theorem value?_ofInt_maxValue : (ofInt Int64.maxValue.toInt).value? = some (2 ^ 63) := by
  have hlimit : ofInt Int64.maxValue.toInt = .finite false 4503599627370496 11 (by decide) := by
    decide +kernel
  rw [hlimit]
  norm_num [value?]

theorem withinInt64_iff {x : Binary64} {value : ℚ} (h : x.value? = some value) :
    x.withinInt64 = true ↔ -2 ^ 63 ≤ value ∧ value ≤ 2 ^ 63 := by
  rw [withinInt64, Bool.and_eq_true, le_iff value?_ofInt_minValue h, le_iff h value?_ofInt_maxValue]

/-! ## Rounding what needs no rounding -/

theorem divideToEven_mul (quotient : Nat) {denominator : Nat} (h : 0 < denominator) :
    divideToEven (quotient * denominator) denominator = quotient := by
  simp [divideToEven, h]

theorem rescale_pos (n : Nat) (exponent : Int) : 0 < (rescale n 1 exponent).2 := by
  unfold rescale
  split
  · exact Nat.mul_pos Nat.one_pos (Nat.two_pow_pos _)
  · exact Nat.one_pos

theorem rescale_value (n : Nat) (exponent : Int) :
    ((rescale n 1 exponent).1 : ℚ) * 2 ^ exponent = n * (rescale n 1 exponent).2 := by
  rcases le_or_gt 0 exponent with he | he
  · obtain ⟨k, rfl⟩ := Int.eq_ofNat_of_zero_le he
    simp [rescale]
  · obtain ⟨k, rfl⟩ := Int.exists_eq_neg_ofNat he.le
    rw [rescale, if_neg (not_le.mpr he)]
    simp

theorem rescale_exact {quotient n : Nat} {exponent : Int}
    (h : (quotient : ℚ) * 2 ^ exponent = n) :
    (rescale n 1 exponent).1 = quotient * (rescale n 1 exponent).2 := by
  have hpow : (2 : ℚ) ^ exponent ≠ 0 := zpow_ne_zero _ (by norm_num)
  have hvalue := rescale_value n exponent
  rw [← h, mul_right_comm] at hvalue
  exact_mod_cast mul_right_cancel₀ hpow hvalue

theorem rescale_bounds {n width : Nat} {exponent : Int} (hn : n ≠ 0)
    (hwidth : (n.log2 : Int) = exponent + width) :
    2 ^ width * (rescale n 1 exponent).2 ≤ (rescale n 1 exponent).1 ∧
      (rescale n 1 exponent).1 < 2 ^ (width + 1) * (rescale n 1 exponent).2 := by
  have hpow : (0 : ℚ) < 2 ^ exponent := by positivity
  have hdenominator : (0 : ℚ) < (rescale n 1 exponent).2 := by
    exact_mod_cast rescale_pos n exponent
  have hlog : ((2 ^ n.log2 : Nat) : ℚ) = 2 ^ exponent * 2 ^ width := by
    rw [Nat.cast_pow, ← zpow_natCast, hwidth, zpow_add₀ (by norm_num), zpow_natCast]
    norm_num
  have hlow : ((2 ^ n.log2 : Nat) : ℚ) ≤ n := by exact_mod_cast Nat.log2_self_le hn
  have hhigh : (n : ℚ) < 2 * (2 ^ n.log2 : Nat) := by
    have hlt : n < 2 * 2 ^ n.log2 := by
      have := Nat.lt_log2_self (n := n)
      omega
    exact_mod_cast hlt
  rw [hlog] at hlow hhigh
  have hvalue := rescale_value n exponent
  constructor
  · refine Nat.cast_le (α := ℚ) |>.mp (le_of_mul_le_mul_right ?_ hpow)
    calc ((2 ^ width * (rescale n 1 exponent).2 : Nat) : ℚ) * 2 ^ exponent
        = 2 ^ exponent * 2 ^ width * (rescale n 1 exponent).2 := by push_cast; ring
      _ ≤ n * (rescale n 1 exponent).2 := mul_le_mul_of_nonneg_right hlow hdenominator.le
      _ = (rescale n 1 exponent).1 * 2 ^ exponent := hvalue.symm
  · refine Nat.cast_lt (α := ℚ) |>.mp (lt_of_mul_lt_mul_right ?_ hpow.le)
    calc ((rescale n 1 exponent).1 : ℚ) * 2 ^ exponent
        = n * (rescale n 1 exponent).2 := hvalue
      _ < 2 * (2 ^ exponent * 2 ^ width) * (rescale n 1 exponent).2 :=
          mul_lt_mul_of_pos_right hhigh hdenominator
      _ = ((2 ^ (width + 1) * (rescale n 1 exponent).2 : Nat) : ℚ) * 2 ^ exponent := by
          push_cast; ring

theorem exponentOf_natural {n : Nat} (hn : n ≠ 0) : exponentOf n 1 = n.log2 - 52 := by
  have hlow : (n.log2 : Int) - Nat.log2 1 - 53 = n.log2 - 53 := by
    have hone : Nat.log2 1 = 0 := by decide
    rw [hone]
    omega
  have hwide := (rescale_bounds hn (by omega : (n.log2 : Int) = n.log2 - 53 + (53 : Nat))).1
  have hexact : ¬ (rescale n 1 (n.log2 - 53)).1 / (rescale n 1 (n.log2 - 53)).2 <
      9007199254740992 := by
    rw [Nat.div_lt_iff_lt_mul (rescale_pos _ _)]
    omega
  have hleast : ¬ (n.log2 : Int) - 53 + 1 < -1074 := by omega
  rw [exponentOf, hlow]
  simp only [if_neg hexact, if_neg hleast]
  omega

section

variable {mantissa n : Nat} {exponent : Int}

theorem mantissa_full (h : Canonical mantissa exponent) (hn : n ≠ 0)
    (hsize : (mantissa : ℚ) * 2 ^ exponent = n) : 2 ^ 52 ≤ mantissa := by
  refine h.2.2.2.resolve_right fun hleast => ?_
  obtain ⟨k, rfl⟩ := Int.exists_eq_neg_ofNat (by omega : exponent ≤ 0)
  rw [zpow_neg, zpow_natCast, mul_inv_eq_iff_eq_mul₀ (by positivity)] at hsize
  have hmul : mantissa = n * 2 ^ k := by exact_mod_cast hsize
  refine absurd h.1 (not_lt.mpr ?_)
  calc 9007199254740992 ≤ 2 ^ k := Nat.pow_le_pow_right Nat.two_pos (by omega : 53 ≤ k)
    _ ≤ n * 2 ^ k := Nat.le_mul_of_pos_left _ (Nat.pos_of_ne_zero hn)
    _ = mantissa := hmul.symm

theorem log2_eq (h : Canonical mantissa exponent) (hn : n ≠ 0)
    (hsize : (mantissa : ℚ) * 2 ^ exponent = n) : (n.log2 : Int) = exponent + 52 := by
  have hfull := mantissa_full h hn hsize
  have hlt : mantissa < 2 ^ 53 := h.1
  rcases le_or_gt 0 exponent with he | he
  · obtain ⟨k, rfl⟩ := Int.eq_ofNat_of_zero_le he
    have hmul : n = mantissa * 2 ^ k := by exact_mod_cast hsize.symm
    have hlow : 2 ^ (52 + k) ≤ n := by
      rw [hmul, pow_add]
      exact Nat.mul_le_mul_right _ hfull
    have hhigh : n < 2 ^ (53 + k) := by
      rw [hmul, pow_add]
      exact Nat.mul_lt_mul_of_pos_right hlt (Nat.two_pow_pos k)
    have hlog := (Nat.le_log2 hn).mpr hlow
    have hnext := (Nat.log2_lt hn).mpr hhigh
    omega
  · obtain ⟨k, rfl⟩ := Int.exists_eq_neg_ofNat he.le
    rw [zpow_neg, zpow_natCast, mul_inv_eq_iff_eq_mul₀ (by positivity)] at hsize
    have hmul : mantissa = n * 2 ^ k := by exact_mod_cast hsize
    -- The value is at least one, so the mantissa is shifted by less than its length.
    have hk : k < 53 := by
      refine (Nat.pow_lt_pow_iff_right (by decide : 1 < 2)).mp (lt_of_le_of_lt ?_ hlt)
      rw [hmul]
      exact Nat.le_mul_of_pos_left _ (Nat.pos_of_ne_zero hn)
    have hlow : 2 ^ (52 - k) ≤ n := by
      refine Nat.le_of_mul_le_mul_right ?_ (Nat.two_pow_pos k)
      rw [← hmul, ← pow_add, Nat.sub_add_cancel (by omega)]
      exact hfull
    have hhigh : n < 2 ^ (53 - k) := by
      refine Nat.lt_of_mul_lt_mul_right ?_ (a := 2 ^ k)
      rw [← hmul, ← pow_add, Nat.sub_add_cancel (by omega)]
      exact hlt
    have hlog := (Nat.le_log2 hn).mpr hlow
    have hnext := (Nat.log2_lt hn).mpr hhigh
    omega

theorem ofFraction_exact (negative : Bool) (h : Canonical mantissa exponent) (hn : n ≠ 0)
    (hsize : (mantissa : ℚ) * 2 ^ exponent = n) :
    ofFraction negative n 1 = .finite negative mantissa exponent h := by
  have hexponent : exponentOf n 1 = exponent := by
    rw [exponentOf_natural hn, log2_eq h hn hsize]
    omega
  rw [ofFraction, if_neg hn]
  simp only [hexponent, rescale_exact hsize, divideToEven_mul _ (rescale_pos n exponent)]
  rw [if_neg h.1.ne, ofParts, dif_pos h]

end

theorem value?_congr {x y : Binary64} (h : x.sameValue y = true) : x.value? = y.value? := by
  cases x with
  | finite s m e hc =>
      cases y with
      | finite s' m' e' hc' =>
          simp only [sameValue, numericEq, isNaN, Bool.and_false, Bool.or_false, Bool.or_eq_true,
            Bool.and_eq_true, beq_iff_eq] at h
          rcases h with ⟨rfl, rfl⟩ | ⟨⟨rfl, rfl⟩, rfl⟩
          · simp [value?]
          · rfl
      | _ => simp [sameValue, numericEq, isNaN] at h
  | _ =>
      cases y with
      | finite s' m' e' hc' => simp [sameValue, numericEq, isNaN] at h
      | _ => rfl

/-- Rounding an integer that is the value of a double gives that double, but for the sign of
zero. -/
theorem ofInt_sameValue {x : Binary64} {i : Int} (h : x.value? = some (i : ℚ)) :
    (ofInt i).sameValue x = true := by
  cases x with
  | finite negative mantissa exponent canonical =>
      rw [← toInt?_eq_some_iff, toInt?_finite, Option.map_eq_some_iff] at h
      obtain ⟨n, hn, rfl⟩ := h
      rw [size?_eq_some_iff] at hn
      rcases Nat.eq_zero_or_pos n with rfl | hpos
      · have hmantissa : mantissa = 0 := by
          have hpow : (2 : ℚ) ^ exponent ≠ 0 := zpow_ne_zero _ (by norm_num)
          simpa [hpow] using hn
        simp [ofInt, ofFraction, zero, sameValue, numericEq, hmantissa]
      · have hsign : decide ((if negative then -(n : Int) else n) < 0) = negative := by
          cases negative <;> simp
          omega
        have habs : (if negative then -(n : Int) else n).natAbs = n := by
          cases negative <;> simp
        rw [ofInt, hsign, habs, ofFraction_exact negative canonical hpos.ne' hn, sameValue_refl]
  | _ => simp [value?] at h

theorem representable_iff {i : Int} : Representable i ↔ (ofInt i).value? = some (i : ℚ) := by
  refine ⟨?_, fun h => ⟨_, h⟩⟩
  rintro ⟨x, hx⟩
  rw [value?_congr (ofInt_sameValue hx), hx]

instance (i : Int) : Decidable (Representable i) :=
  decidable_of_iff ((ofInt i).toInt? = some i) (toInt?_eq_some_iff.trans representable_iff.symm)

end TypeGuard.Binary64
