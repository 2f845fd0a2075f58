import Mathlib.Tactic.NormNum
import TypeGuard.Fixture.Sample
import TypeGuard.Proofs.Exactness

/-!
# Samples and their JSON, place by place

The JSON of a sample has the shape of the sample, so what stands at a place of the sample is
rendered at that place.  A number is rendered as a number of the same value, with one
exception: `2^63` is no 64-bit integer, and is clamped to the one below it.
-/

namespace TypeGuard

def Json.Number.value? : Json.Number → Option ℚ
  | .integer i => some i
  | .double x => x.value?

/-- What stands at a place, which is the index of an item or a member at each level. -/
def Json.at? : List Nat → Json → Option Json
  | [], value => some value
  | index :: place, .array items => items[index]?.bind (at? place)
  | index :: place, .object members => members[index]?.bind fun member => at? place member.2
  | _ :: _, _ => none

namespace Sample

def at? : List Nat → Sample → Option Sample
  | [], sample => some sample
  | index :: place, .array items => items[index]?.bind (at? place)
  | index :: place, .object fields => fields[index]?.bind fun field => at? place field.2
  | _ :: _, _ => none

/-! ## Places -/

@[simp] theorem itemsJson_eq_map (items : List Sample) : itemsJson items = items.map toJson := by
  induction items with
  | nil => rfl
  | cons item rest ih => simp [itemsJson, ih]

@[simp] theorem fieldsJson_eq_mapValues (fields : Fields Sample) :
    fieldsJson fields = Fields.mapValues toJson fields := by
  induction fields with
  | nil => rfl
  | cons field rest ih => simp [fieldsJson, ih]

theorem at?_toJson {place : List Nat} {sample part : Sample} (h : sample.at? place = some part) :
    sample.toJson.at? place = some part.toJson := by
  induction place generalizing sample with
  | nil =>
      cases h
      rfl
  | cons index place ih =>
      cases sample with
      | array items =>
          rw [at?, Option.bind_eq_some_iff] at h
          obtain ⟨item, hitem, h⟩ := h
          rw [toJson, itemsJson_eq_map, Json.at?, List.getElem?_map, hitem]
          exact ih h
      | object fields =>
          rw [at?, Option.bind_eq_some_iff] at h
          obtain ⟨field, hfield, h⟩ := h
          rw [toJson, fieldsJson_eq_mapValues, Json.at?, Fields.mapValues, List.getElem?_map,
            hfield]
          exact ih h
      | _ => cases h

/-! ## Numbers -/

theorem numberJson_of_integer {x : Binary64} {i : Int} (h : x.value? = some (i : ℚ))
    (hlow : -2 ^ 63 ≤ i) (hhigh : i ≤ 2 ^ 63) :
    numberJson x = .number (.integer (min i (2 ^ 63 - 1))) := by
  have hint : x.toInt? = some i := Binary64.toInt?_eq_some_iff.mpr h
  have hwithin : x.withinInt64 = true := by
    rw [Binary64.withinInt64_iff h]
    constructor <;> exact_mod_cast ‹_›
  have hcast : x.toInt64 = min i (2 ^ 63 - 1) := by
    rw [Binary64.toInt64_of_integer h, Binary64.saturate_eq]
    omega
  simp [numberJson, hint, hwithin, hcast, Json.int]

theorem numberJson_of_other {x : Binary64} {value : ℚ} (h : x.value? = some value)
    (hother : ∀ i : Int, value = i → i < -2 ^ 63 ∨ 2 ^ 63 < i) :
    numberJson x = .number (.double x) := by
  have hfinite : (x.isInfinite || x.isNaN) = false := by
    cases x <;> simp_all [Binary64.value?, Binary64.isInfinite, Binary64.isNaN]
  have hout : (x.toInt?.isSome && x.withinInt64) = false := by
    cases hint : x.toInt? with
    | none => rfl
    | some i =>
        rw [Binary64.toInt?_eq_some_iff, h, Option.some.injEq] at hint
        refine eq_false_of_ne_true fun hwithin => ?_
        obtain ⟨hlow, hhigh⟩ := (Binary64.withinInt64_iff h).mp hwithin
        rw [hint] at hlow hhigh
        have hlow : -2 ^ 63 ≤ i := by exact_mod_cast hlow
        have hhigh : i ≤ 2 ^ 63 := by exact_mod_cast hhigh
        have := hother i hint
        omega
  simp [numberJson, hout, hfinite, Json.double]

theorem integer_or_other (value : ℚ) :
    (∃ i : Int, value = i ∧ -2 ^ 63 ≤ i ∧ i ≤ 2 ^ 63) ∨
      ∀ i : Int, value = i → i < -2 ^ 63 ∨ 2 ^ 63 < i := by
  by_contra h
  push Not at h
  obtain ⟨i, hi, hlow, hhigh⟩ := h.2
  exact absurd hhigh (not_le.mpr (h.1 i hi hlow))

/-- A number at a place of a sample is rendered at that place, as a 64-bit integer if it is an
integer from `-2^63` to `2^63`, and by its value exactly if it is not `2^63`. -/
theorem toJson_number {sample : Sample} {place : List Nat} {x : Binary64} {value : ℚ}
    (hat : sample.at? place = some (.number x)) (hvalue : x.value? = some value) :
    ∃ n, sample.toJson.at? place = some (.number n) ∧
      (n.value? = some value ↔ value ≠ 2 ^ 63) ∧
      ((∃ i : Int, value = i ∧ -2 ^ 63 ≤ i ∧ i ≤ 2 ^ 63 ∧ n = .integer (min i (2 ^ 63 - 1))) ∨
        (∀ i : Int, value = i → i < -2 ^ 63 ∨ 2 ^ 63 < i) ∧ n = .double x) := by
  rw [at?_toJson hat, toJson]
  rcases integer_or_other value with ⟨i, rfl, hlow, hhigh⟩ | hother
  · refine ⟨_, congrArg some (numberJson_of_integer hvalue hlow hhigh), ?_,
      .inl ⟨i, rfl, hlow, hhigh, rfl⟩⟩
    rw [Json.Number.value?, Option.some.injEq, Int.cast_inj]
    have hlimit : (i : ℚ) = 2 ^ 63 ↔ i = 2 ^ 63 := by exact_mod_cast Iff.rfl
    rw [ne_eq, hlimit]
    omega
  · refine ⟨_, congrArg some (numberJson_of_other hvalue hother), ?_, .inr ⟨hother, rfl⟩⟩
    rw [Json.Number.value?, hvalue]
    refine iff_of_true rfl ?_
    rintro rfl
    have := hother (2 ^ 63) (by norm_num)
    omega

def limit : Binary64 := .finite false 4503599627370496 11 (by decide)

def half : Binary64 := .finite true 6755399441055744 (-52) (by decide)

def limitSample : Sample :=
  .object [("ends", .array [.number limit, .number (.zero true)]), ("half", .number half)]

theorem toJson_number_limitSample :
    (∃ n, limitSample.toJson.at? [0, 0] = some (.number n) ∧ n.value? ≠ some (2 ^ 63)) ∧
      (∃ n, limitSample.toJson.at? [0, 1] = some (.number n) ∧ n.value? = some 0) ∧
      ∃ n, limitSample.toJson.at? [1] = some (.number n) ∧ n.value? = some (-3 / 2) := by
  have hlimit : limit.value? = some (2 ^ 63) := by
    norm_num [limit, Binary64.value?]
  have hzero : (Binary64.zero true).value? = some 0 := by
    norm_num [Binary64.zero, Binary64.value?]
  have hhalf : half.value? = some (-3 / 2) := by
    norm_num [half, Binary64.value?]
  obtain ⟨top, htop, htopValue, -⟩ := @toJson_number limitSample [0, 0] _ _ rfl hlimit
  obtain ⟨zero, hzeroAt, hzeroValue, -⟩ := @toJson_number limitSample [0, 1] _ _ rfl hzero
  obtain ⟨n, hn, hnValue, -⟩ := @toJson_number limitSample [1] _ _ rfl hhalf
  exact ⟨⟨top, htop, fun h => htopValue.mp h rfl⟩,
    ⟨zero, hzeroAt, hzeroValue.mpr (by norm_num)⟩, n, hn, hnValue.mpr (by norm_num)⟩

end Sample

end TypeGuard
