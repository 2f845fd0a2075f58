import TypeGuard.Fixture.Sampler

/-!
# The canonical sample

The canonical sample is found without drawing the others: a union tries its members in
order, and an object writes the canonical samples of its attributes into one row, from the
first to the last.  Rows are drawn the other way, each attribute put in front of the rows of
those after it.

Both come to the same where an attribute is named twice, since the last sample written
stands at the first place in either case.  So the canonical sample is the first one drawn,
and there is none exactly where an empty union leaves nothing to draw.
-/

namespace TypeGuard.Sampler

theorem names_nodup_of_mem_rowDraws {attributes : List (String × Sampler)} {row : Fields Sample}
    (h : row ∈ rowDraws attributes) : (Fields.names row).Nodup := by
  cases attributes with
  | nil =>
      rw [rowDraws, List.mem_singleton] at h
      rw [h]
      exact List.nodup_nil
  | cons attr rest =>
      obtain ⟨head, -, h⟩ := List.mem_flatMap.mp h
      obtain ⟨tail, -, rfl⟩ := List.mem_map.mp h
      exact Fields.names_nodup_extend (Fields.names_nodup_singleton attr.1 head) tail

theorem extend_nil_of_mem_rowDraws {attributes : List (String × Sampler)} {row : Fields Sample}
    (h : row ∈ rowDraws attributes) : Fields.extend [] row = row :=
  Fields.extend_eq_append (names_nodup_of_mem_rowDraws h)

theorem head?_rows (name : String) (heads : List Sample) (tails : List (Fields Sample)) :
    (rows name heads tails).head? =
      heads.head?.bind fun head => tails.head?.map (Fields.extend [(name, head)]) := by
  cases tails with
  | nil =>
      have hnone : rows name heads [] = [] := List.flatMap_eq_nil_iff.mpr fun _ _ => rfl
      rw [hnone]
      cases heads <;> rfl
  | cons tail tails => cases heads <;> rfl

mutual

theorem canonical?_eq_head?_draws (sampler : Sampler) :
    sampler.canonical? = sampler.draws.head? := by
  match sampler with
  | .value _ | .primitive _ => rfl
  | .union members => rw [canonical?, draws, firstCanonical?_eq_head? members]
  | .array element => rw [canonical?, draws, List.head?_map, canonical?_eq_head?_draws element]
  | .object attributes =>
      rw [canonical?, draws, List.head?_map, canonicalRow?_eq_head? attributes []]
      cases hrow : (rowDraws attributes).head? with
      | none => rfl
      | some row =>
          simp [extend_nil_of_mem_rowDraws (List.mem_of_head? hrow)]

theorem firstCanonical?_eq_head? (members : List Sampler) :
    firstCanonical? members = (memberDraws members).head? := by
  match members with
  | [] => rfl
  | member :: rest =>
      rw [firstCanonical?, memberDraws, List.head?_append, canonical?_eq_head?_draws member,
        firstCanonical?_eq_head? rest]
      cases member.draws.head? <;> rfl

theorem canonicalRow?_eq_head? (attributes : List (String × Sampler)) (row : Fields Sample) :
    canonicalRow? attributes row = (rowDraws attributes).head?.map (Fields.extend row) := by
  match attributes with
  | [] => rfl
  | (name, attr) :: rest =>
      rw [canonicalRow?, rowDraws, head?_rows, canonical?_eq_head?_draws attr]
      cases attr.draws.head? with
      | none => rfl
      | some head =>
          simp only [Option.bind_some, Option.map_map]
          rw [canonicalRow?_eq_head? rest]
          refine Option.map_congr fun tail _ => Eq.symm ?_
          exact Fields.extend_extend (Fields.names_nodup_singleton name head) row tail

end

/-! ## The first of the drawn samples -/

/-- There is a canonical sample unless nothing is drawn, and it is the first one drawn,
with its fields in the same order. -/
theorem canonical?_eq_first_draw (sampler : Sampler) :
    sampler.canonical? = sampler.draws.head? ∧
      (sampler.canonical? = none ↔ sampler.draws = []) := by
  have hfirst := canonical?_eq_head?_draws sampler
  exact ⟨hfirst, by rw [hfirst, List.head?_eq_none_iff]⟩

example : (object [("a", .value .null), ("b", .union [.union [], .primitive .string]),
    ("a", .primitive .boolean)]).canonical? =
      some (.object [("a", .boolean true), ("b", .string "text")]) := rfl

end TypeGuard.Sampler
