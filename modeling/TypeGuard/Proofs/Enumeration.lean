import Mathlib.Algebra.BigOperators.Group.List.Basic
import Mathlib.Algebra.GroupWithZero.Nat
import TypeGuard.Proofs.Drawing

/-!
# The list of valid samples

`Sampler.valid` lists the full draws of a sampler: every one of them up to
sameness, none of them twice, each where it was first drawn.  The drawn sequence
goes through the members of a union one after the other, and through the rows of
an object in the lexicographic order of the positions at which its attributes are
drawn, so its length is a sum or a product of the lengths of the parts.
-/

namespace TypeGuard.Sampler

/-! ## How many samples are drawn -/

theorem memberDraws_eq_flatMap (members : List Sampler) :
    memberDraws members = members.flatMap draws := by
  induction members with
  | nil => rfl
  | cons member rest ih => simp [memberDraws, ih]

@[simp] theorem length_rowDraws (attributes : List (String × Sampler)) :
    (rowDraws attributes).length = (attributes.map fun attr => attr.2.draws.length).prod := by
  induction attributes with
  | nil => rfl
  | cons attr rest ih => simp [rowDraws, rows, List.length_flatMap, ih]

def drawCount : Sampler → Nat
  | .value _ | .primitive _ => 1
  | .union members => (members.map fun member => member.draws.length).sum
  | .array element => element.draws.length
  | .object attributes => (attributes.map fun attr => attr.2.draws.length).prod

@[simp] theorem length_draws (sampler : Sampler) : sampler.draws.length = sampler.drawCount := by
  cases sampler with
  | value | primitive => rfl
  | union members => rw [draws, memberDraws_eq_flatMap, List.length_flatMap, drawCount]
  | array element => simp [draws, drawCount]
  | object attributes => simp [draws, drawCount]

/-! ## The order of rows -/

def rowAt : List (String × Sampler) → List Nat → Fields Sample
  | (name, attr) :: rest, position :: positions =>
      (name, attr.draws.getD position .undefined) :: rowAt rest positions
  | _, _ => []

/-- One position for each attribute, in every way, the first attribute varying
slowest. -/
def choices : List (String × Sampler) → List (List Nat)
  | [] => [[]]
  | (_, attr) :: rest =>
      (List.range attr.draws.length).flatMap fun position =>
        (choices rest).map fun positions => position :: positions

theorem mem_choices_iff {attributes : List (String × Sampler)} {positions : List Nat} :
    positions ∈ choices attributes ↔
      List.Forall₂ (fun attr position => position < attr.2.draws.length) attributes positions := by
  induction attributes generalizing positions with
  | nil => simp [choices]
  | cons attr rest ih =>
      rw [choices, List.forall₂_cons_left_iff]
      simp only [List.mem_flatMap, List.mem_range, List.mem_map, ih]
      constructor
      · rintro ⟨first, hfirst, others, hothers, rfl⟩
        exact ⟨first, others, hfirst, hothers, rfl⟩
      · rintro ⟨first, others, hfirst, hothers, rfl⟩
        exact ⟨first, hfirst, others, hothers, rfl⟩

theorem pairwise_choices (attributes : List (String × Sampler)) :
    (choices attributes).Pairwise (List.Lex (· < ·)) := by
  induction attributes with
  | nil => exact List.pairwise_singleton _ _
  | cons attr rest ih =>
      rw [choices, List.pairwise_flatMap]
      constructor
      · intro position _
        exact List.pairwise_map.mpr (ih.imp List.Lex.cons)
      · -- Rows with different heads are ordered by them.
        refine List.pairwise_lt_range.imp fun hlt first hfirst second hsecond => ?_
        obtain ⟨_, -, rfl⟩ := List.mem_map.mp hfirst
        obtain ⟨_, -, rfl⟩ := List.mem_map.mp hsecond
        exact .rel hlt

theorem map_getD_range (samples : List Sample) :
    (List.range samples.length).map (fun position => samples.getD position .undefined) =
      samples := by
  refine List.ext_getElem (by simp) fun position hposition hlt => ?_
  simp [hlt]

theorem rowDraws_eq_map {attributes : List (String × Sampler)}
    (hnodup : (Fields.names attributes).Nodup) :
    rowDraws attributes = (choices attributes).map (rowAt attributes) := by
  induction attributes with
  | nil => rfl
  | cons attr rest ih =>
      obtain ⟨name, sampler⟩ := attr
      rw [rowDraws_cons hnodup, ih (List.nodup_cons.mp hnodup).2, choices, List.map_flatMap]
      conv_lhs => rw [← map_getD_range sampler.draws]
      simp [List.flatMap_map, rowAt, Function.comp_def]

/-- The order of the drawn sequence.  The rows of an object are given by one
position for each attribute; the positions of all rows are ordered
lexicographically, the first attribute first. -/
def DrawsInOrder : Sampler → Prop
  | .value sample => (value sample).draws = [sample]
  | .primitive kind => (primitive kind).draws = [standard kind]
  | .union members => (union members).draws = members.flatMap draws
  | .array element => (array element).draws = element.draws.map fun sample => .array [sample]
  | .object attributes =>
      ∃ order : List (List Nat), order.Pairwise (List.Lex (· < ·)) ∧
        (∀ positions, positions ∈ order ↔
          List.Forall₂ (fun attr position => position < attr.2.draws.length)
            attributes positions) ∧
        (object attributes).draws = order.map fun positions => .object (rowAt attributes positions)

theorem Drawable.drawsInOrder {sampler : Sampler} (h : sampler.Drawable) :
    sampler.DrawsInOrder := by
  cases h with
  | value | primitive | array => rfl
  | union => exact memberDraws_eq_flatMap _
  | @object attributes hnodup _ =>
      refine ⟨choices attributes, pairwise_choices attributes, fun _ => mem_choices_iff, ?_⟩
      simp [draws, rowDraws_eq_map hnodup]

/-! ## The list of valid samples -/

theorem valid_enumerates {sampler : Sampler} (h : sampler.Drawable) :
    (∀ sample : Sample, sample.Distinct →
      (sample.isAmong sampler.valid = true ↔
        ∃ draw, Draw sampler draw ∧ draw.same sample = true)) ∧
    (∀ sample ∈ sampler.valid, Draw sampler sample ∧ sampler.accepts sample = true) ∧
    sampler.valid.Pairwise (fun earlier later => earlier.same later = false) ∧
    sampler.valid = Sample.firstOccurrences sampler.draws ∧
    (∀ sample, sample ∈ sampler.draws ↔ Draw sampler sample) ∧
    sampler.DrawsInOrder ∧
    sampler.draws.length = sampler.drawCount := by
  have hdraws : ∀ sample, sample ∈ sampler.draws ↔ Draw sampler sample :=
    fun sample => mem_draws_iff h
  have hdistinct : ∀ sample ∈ sampler.draws, sample.Distinct :=
    fun sample hsample => ((hdraws sample).mp hsample).distinct h
  refine ⟨fun sample hsample => ?_, fun sample hsample => ?_, Sample.pairwise_distinct _,
    Sample.distinct_eq_firstOccurrences hdistinct, hdraws, h.drawsInOrder, length_draws sampler⟩
  · rw [valid, Sample.isAmong_distinct hdistinct hsample, Sample.isAmong_iff]
    simp only [hdraws]
  · have hdraw := (hdraws sample).mp (Sample.mem_of_mem_distinct hsample)
    exact ⟨hdraw, accepts_of_draw hdraw h⟩

def zeroPairs : Sampler :=
  .object
    [("x", .union [.value (.number (Binary64.zero false)), .value (.number (Binary64.zero true))]),
      ("y", .union [.primitive .string, .value (.array [.null, .sentinel])])]

/-- Four rows are drawn and two of them kept.  The second one is found in another order
of the fields and with the other zero. -/
theorem valid_enumerates_zeroPairs :
    zeroPairs.Drawable ∧ zeroPairs.draws.length = 4 ∧ zeroPairs.valid.length = 2 ∧
      (∀ sample ∈ zeroPairs.valid, zeroPairs.accepts sample = true) ∧
      ∃ draw, Draw zeroPairs draw ∧
        draw.same (.object [("y", .array [.null, .sentinel]),
          ("x", .number (Binary64.zero true))]) = true := by
  have hdrawable : zeroPairs.Drawable := by
    refine .object (by decide) ?_
    have hitems : (Sample.array [.null, .sentinel]).Distinct :=
      .array (by simpa using ⟨.null, .sentinel⟩)
    have hx : ∀ member ∈ [Sampler.value (.number (Binary64.zero false)),
        .value (.number (Binary64.zero true))], member.Drawable := by
      simpa using ⟨.value ⟨.number, by simp⟩, .value ⟨.number, by simp⟩⟩
    have hy : ∀ member ∈ [Sampler.primitive .string, .value (.array [.null, .sentinel])],
        member.Drawable := by
      simpa using ⟨.primitive, .value ⟨hitems, by simp⟩⟩
    simpa using ⟨.union (Nat.zero_le _) hx, .union (Nat.zero_le _) hy⟩
  obtain ⟨hamong, hvalid, -, -, -, -, hlength⟩ := valid_enumerates hdrawable
  have hsample : (Sample.object [("y", .array [.null, .sentinel]),
      ("x", .number (Binary64.zero true))]).Distinct :=
    .object (by decide) (by simpa using ⟨.array (by simpa using ⟨.null, .sentinel⟩), .number⟩)
  exact ⟨hdrawable, hlength.trans (by decide +kernel), by decide +kernel,
    fun sample h => (hvalid sample h).2, (hamong _ hsample).mp (by decide +kernel)⟩

end TypeGuard.Sampler
