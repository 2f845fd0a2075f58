import Mathlib.Data.List.Induction
import Mathlib.Data.List.Perm.Subperm
import Mathlib.Tactic.Tauto
import TypeGuard.Fixture.Sample
import TypeGuard.Proofs.Results

/-!
# Samples that are the same

Sameness looks for the fields of an object by name, so it is an equivalence where
no object names a field twice.  Objects are the same if every name finds the same
field, or none, in both; this is the form in which symmetry is seen.

A list that keeps a sample only if it is not there yet lists the first occurrences
and loses nothing up to sameness.
-/

namespace TypeGuard

theorem Binary64.sameValue_trans {x y z : Binary64} (hxy : x.sameValue y = true)
    (hyz : y.sameValue z = true) : x.sameValue z = true := by
  cases x <;> cases y <;> cases z <;> simp [sameValue, numericEq, isNaN] at hxy hyz ⊢ <;> grind

namespace Sample

inductive Distinct : Sample → Prop
  | undefined : Distinct .undefined
  | null : Distinct .null
  | boolean {value : Bool} : Distinct (.boolean value)
  | number {value : Binary64} : Distinct (.number value)
  | string {text : String} : Distinct (.string text)
  | array {items : List Sample} :
      (∀ item ∈ items, Distinct item) → Distinct (.array items)
  | object {fields : List (String × Sample)} :
      (Fields.names fields).Nodup → (∀ field ∈ fields, Distinct field.2) →
      Distinct (.object fields)
  | sentinel : Distinct .sentinel

/-! ## Arrays and objects -/

@[simp] theorem same_array_iff {xs ys : List Sample} :
    (array xs).same (.array ys) = true ↔
      List.Forall₂ (fun x y => x.same y = true) xs ys := by
  rw [same]
  induction xs generalizing ys with
  | nil => cases ys <;> simp [sameItems]
  | cons x xs ih => cases ys <;> simp [sameItems, ih]

theorem same_object_iff {xs ys : Fields Sample} (hys : (Fields.names ys).Nodup) :
    (object xs).same (.object ys) = true ↔ xs.length = ys.length ∧
      ∀ x ∈ xs, ∃ y, Fields.find? x.1 ys = some y ∧ x.2.same y = true := by
  rw [same, sameFields_of_suffix hys List.suffix_rfl]
  simp [Option.any_eq_true]

/-- Where names do not repeat, sameness is the same field, or none, under every
name. -/
theorem same_object_iff_find? {xs ys : Fields Sample} (hxs : (Fields.names xs).Nodup)
    (hys : (Fields.names ys).Nodup) :
    (object xs).same (.object ys) = true ↔ ∀ name,
      Option.Rel (fun x y => x.same y = true) (Fields.find? name xs) (Fields.find? name ys) := by
  rw [same_object_iff hys]
  constructor
  · rintro ⟨hlength, hfields⟩ name
    have hsubset : Fields.names xs ⊆ Fields.names ys := by
      intro other hother
      obtain ⟨x, hx⟩ := Fields.mem_names.mp hother
      obtain ⟨y, hy, -⟩ := hfields _ (Fields.mem_of_find? hx)
      exact Fields.mem_names.mpr ⟨y, hy⟩
    -- As many names on both sides, so none is on the right only.
    have hperm : (Fields.names xs).Perm (Fields.names ys) :=
      (List.subperm_of_subset hxs hsubset).perm_of_length_le (by simp [hlength])
    cases hx : Fields.find? name xs with
    | some x =>
        obtain ⟨y, hy, hsame⟩ := hfields _ (Fields.mem_of_find? hx)
        rw [hy]
        exact .some hsame
    | none =>
        cases hy : Fields.find? name ys with
        | none => exact .none
        | some y =>
            have hname := hperm.mem_iff.mpr (Fields.mem_names.mpr ⟨y, hy⟩)
            obtain ⟨x, hfound⟩ := Fields.mem_names.mp hname
            cases hx.symm.trans hfound
  · intro h
    have hnames : ∀ name, name ∈ Fields.names xs ↔ name ∈ Fields.names ys := by
      intro name
      have hrel := h name
      rw [Fields.mem_names, Fields.mem_names]
      cases hx : Fields.find? name xs <;> cases hy : Fields.find? name ys <;> simp_all
    have hperm := (List.perm_ext_iff_of_nodup hxs hys).mpr hnames
    refine ⟨by simpa using hperm.length_eq, fun x hx => ?_⟩
    have hrel := h x.1
    rw [Fields.find?_of_mem hxs hx] at hrel
    cases hy : Fields.find? x.1 ys with
    | none => simp [hy] at hrel
    | some y => exact ⟨y, rfl, by simpa [hy] using hrel⟩

/-! ## An equivalence -/

@[simp] theorem same_refl {x : Sample} (h : x.Distinct) : x.same x = true := by
  induction h with
  | array _ ih => exact same_array_iff.mpr (List.forall₂_same.mpr ih)
  | object hnodup _ ih =>
      refine (same_object_iff hnodup).mpr ⟨rfl, fun field hfield => ?_⟩
      exact ⟨field.2, Fields.find?_of_mem hnodup hfield, ih field hfield⟩
  | number => simp [same]
  | _ => simp [same]

theorem same_symm {x y : Sample} (hx : x.Distinct) (hy : y.Distinct) (h : x.same y = true) :
    y.same x = true := by
  induction hx generalizing y with
  | @array xs _ ih =>
      cases hy with
      | @array ys hys =>
          rw [same_array_iff] at h ⊢
          exact forall₂_flip_of_mem h fun x hx y hy hsame => ih x hx (hys y hy) hsame
      | _ => simp [same] at h
  | @object xs hxs _ ih =>
      cases hy with
      | @object ys hys hdistinct =>
          rw [same_object_iff_find? hxs hys] at h
          rw [same_object_iff_find? hys hxs]
          intro name
          have hrel := h name
          cases hx : Fields.find? name xs with
          | none => cases hy : Fields.find? name ys <;> simp_all
          | some x =>
              cases hy : Fields.find? name ys with
              | none => simp_all
              | some y =>
                  rw [hx, hy, Option.rel_some_some] at hrel
                  exact .some (ih _ (Fields.mem_of_find? hx)
                    (hdistinct _ (Fields.mem_of_find? hy)) hrel)
      | _ => simp [same] at h
  | number =>
      cases hy with
      | number =>
          rw [same] at h ⊢
          rwa [Binary64.sameValue_comm]
      | _ => simp [same] at h
  | _ => cases hy <;> simp_all [same]

theorem same_trans {x y z : Sample} (hy : y.Distinct) (hz : z.Distinct) (hxy : x.same y = true)
    (hyz : y.same z = true) : x.same z = true := by
  induction hy generalizing x z with
  | @array ys _ ih =>
      cases x with
      | array xs =>
          cases hz with
          | @array zs hzs =>
              rw [same_array_iff] at hxy hyz ⊢
              exact forall₂_trans_of_mem hxy hyz fun x y hy z hz => ih y hy (hzs z hz)
          | _ => simp [same] at hyz
      | _ => simp [same] at hxy
  | @object ys hys hdistinct ih =>
      cases x with
      | object xs =>
          cases hz with
          | @object zs hzs hinner =>
              rw [same_object_iff hys] at hxy
              rw [same_object_iff hzs] at hyz ⊢
              refine ⟨hxy.1.trans hyz.1, fun x hx => ?_⟩
              obtain ⟨y, hy, hsame⟩ := hxy.2 x hx
              have hmem := Fields.mem_of_find? hy
              obtain ⟨z, hz, hnext⟩ := hyz.2 _ hmem
              exact ⟨z, hz, ih _ hmem (hinner _ (Fields.mem_of_find? hz)) hsame hnext⟩
          | _ => simp [same] at hyz
      | _ => simp [same] at hxy
  | number =>
      cases x with
      | number =>
          cases hz with
          | number =>
              rw [same] at hxy hyz ⊢
              exact Binary64.sameValue_trans hxy hyz
          | _ => simp [same] at hyz
      | _ => simp [same] at hxy
  | _ => cases x <;> simp_all [same]

/-! ## Fields of objects that are the same -/

theorem same_field {xs ys : Fields Sample} (hxs : (Fields.names xs).Nodup)
    (hys : (Fields.names ys).Nodup) (h : (object xs).same (.object ys) = true) (name : String) :
    (field name xs).same (field name ys) = true := by
  have hrel := (same_object_iff_find? hxs hys).mp h name
  rw [field, field]
  cases hx : Fields.find? name xs <;> cases hy : Fields.find? name ys <;> simp_all [same]

theorem same_insert {row : Fields Sample} (hrow : (object row).Distinct) (name : String)
    {x y : Sample} (h : x.same y = true) :
    (object (Fields.insert name x row)).same (.object (Fields.insert name y row)) = true := by
  cases hrow with
  | object hnodup hdistinct =>
      rw [same_object_iff_find? (Fields.names_nodup_insert hnodup _ _)
        (Fields.names_nodup_insert hnodup _ _)]
      intro other
      by_cases hother : other = name
      · subst hother
        rw [Fields.find?_insert_self, Fields.find?_insert_self]
        exact .some h
      · rw [Fields.find?_insert_of_ne hother, Fields.find?_insert_of_ne hother]
        cases hfound : Fields.find? other row with
        | none => exact .none
        | some value => exact .some (same_refl (hdistinct _ (Fields.mem_of_find? hfound)))

theorem Distinct.names_nodup {fields : Fields Sample} (h : (Sample.object fields).Distinct) :
    (Fields.names fields).Nodup := by
  cases h with
  | object hnodup _ => exact hnodup

theorem Distinct.field {fields : Fields Sample} (h : (Sample.object fields).Distinct)
    (name : String) : (field name fields).Distinct := by
  cases h with
  | object _ hdistinct =>
      rw [Sample.field]
      cases hfound : Fields.find? name fields with
      | none => exact .undefined
      | some value => exact hdistinct _ (Fields.mem_of_find? hfound)

theorem Distinct.insert {row : Fields Sample} (hrow : (Sample.object row).Distinct) (name : String)
    {value : Sample} (hvalue : value.Distinct) :
    (Sample.object (Fields.insert name value row)).Distinct := by
  cases hrow with
  | object hnodup hdistinct =>
      refine .object (Fields.names_nodup_insert hnodup _ _) fun entry hentry => ?_
      rcases Fields.mem_insert hentry with rfl | hold
      · exact hvalue
      · exact hdistinct entry hold

/-! ## Samples without repetition -/

@[simp] theorem isAmong_iff {sample : Sample} {samples : List Sample} :
    sample.isAmong samples = true ↔ ∃ other ∈ samples, other.same sample = true := by
  simp [isAmong]

theorem appendNew_cons (samples : List Sample) (first : Sample) (rest : List Sample) :
    appendNew samples (first :: rest) =
      appendNew (if first.isAmong samples then samples else samples ++ [first]) rest := rfl

theorem mem_appendNew {sample : Sample} {samples more : List Sample}
    (h : sample ∈ appendNew samples more) : sample ∈ samples ∨ sample ∈ more := by
  induction more generalizing samples with
  | nil => exact .inl h
  | cons first rest ih =>
      rw [appendNew, List.foldl_cons] at h
      rcases ih h with hmem | hmem
      · split at hmem
        next => exact .inl hmem
        next =>
            rcases List.mem_append.mp hmem with hold | hfirst
            · exact .inl hold
            · exact .inr (List.mem_singleton.mp hfirst ▸ List.mem_cons_self)
      · exact .inr (List.mem_cons_of_mem _ hmem)

theorem mem_appendNew_of_mem {sample : Sample} {samples : List Sample} (h : sample ∈ samples)
    (more : List Sample) : sample ∈ appendNew samples more := by
  induction more generalizing samples with
  | nil => exact h
  | cons first rest ih =>
      rw [appendNew_cons]
      split
      · exact ih h
      · exact ih (List.mem_append_left _ h)

theorem mem_of_mem_distinct {sample : Sample} {samples : List Sample}
    (h : sample ∈ distinct samples) : sample ∈ samples :=
  (mem_appendNew h).resolve_left (List.not_mem_nil)

theorem isAmong_appendNew {samples more : List Sample}
    (hmore : ∀ other ∈ more, other.Distinct) {sample : Sample} (hsample : sample.Distinct) :
    sample.isAmong (appendNew samples more) = true ↔
      sample.isAmong samples = true ∨ sample.isAmong more = true := by
  induction more generalizing samples with
  | nil => simp [appendNew, isAmong]
  | cons first rest ih =>
      rw [List.forall_mem_cons] at hmore
      rw [appendNew_cons, ih hmore.2]
      split
      next hold =>
          -- What is the same as `first` is the same as something that was there before.
          have hfirst : first.same sample = true → sample.isAmong samples = true := by
            intro hsame
            obtain ⟨other, hother, hagain⟩ := isAmong_iff.mp hold
            exact isAmong_iff.mpr ⟨other, hother, same_trans hmore.1 hsample hagain hsame⟩
          simp only [isAmong, List.any_cons, Bool.or_eq_true] at hfirst ⊢
          tauto
      next => simp [isAmong, or_assoc]

theorem isAmong_distinct {samples : List Sample} (h : ∀ other ∈ samples, other.Distinct)
    {sample : Sample} (hsample : sample.Distinct) :
    sample.isAmong (distinct samples) = true ↔ sample.isAmong samples = true := by
  rw [distinct, isAmong_appendNew h hsample]
  simp [isAmong]

theorem pairwise_appendNew {samples : List Sample}
    (h : samples.Pairwise fun earlier later => earlier.same later = false) (more : List Sample) :
    (appendNew samples more).Pairwise fun earlier later => earlier.same later = false := by
  induction more generalizing samples with
  | nil => exact h
  | cons first rest ih =>
      rw [appendNew_cons]
      split
      next => exact ih h
      next hnew =>
          refine ih (List.pairwise_append.mpr ⟨h, List.pairwise_singleton _ _, ?_⟩)
          intro earlier hearlier later hlater
          cases List.mem_singleton.mp hlater
          rw [Bool.not_eq_true, isAmong, List.any_eq_false] at hnew
          exact Bool.eq_false_iff.mpr (hnew earlier hearlier)

theorem pairwise_distinct (samples : List Sample) :
    (distinct samples).Pairwise fun earlier later => earlier.same later = false :=
  pairwise_appendNew List.Pairwise.nil samples

/-- The samples that are the same as none in front of them. -/
def firstOccurrences (samples : List Sample) : List Sample :=
  (samples.zipIdx.filter fun (sample, index) => !sample.isAmong (samples.take index)).map (·.1)

theorem firstOccurrences_append (samples : List Sample) (last : Sample) :
    firstOccurrences (samples ++ [last]) =
      if last.isAmong samples then firstOccurrences samples
      else firstOccurrences samples ++ [last] := by
  have hfront : samples.zipIdx.filter (fun entry =>
        !entry.1.isAmong ((samples ++ [last]).take entry.2)) =
      samples.zipIdx.filter fun entry => !entry.1.isAmong (samples.take entry.2) := by
    refine List.filter_congr fun entry hentry => ?_
    have hindex := List.snd_lt_of_mem_zipIdx hentry
    rw [List.take_append_of_le_length (by simpa using Nat.le_of_lt hindex)]
  rw [firstOccurrences, List.zipIdx_append, List.filter_append, hfront, List.map_append]
  by_cases hlast : last.isAmong samples <;> simp [hlast, firstOccurrences]

theorem distinct_eq_firstOccurrences {samples : List Sample}
    (h : ∀ sample ∈ samples, sample.Distinct) : distinct samples = firstOccurrences samples := by
  induction samples using List.reverseRecOn with
  | nil => rfl
  | append_singleton front last ih =>
      rw [List.forall_mem_append] at h
      have happend : distinct (front ++ [last]) =
          if last.isAmong (distinct front) then distinct front else distinct front ++ [last] := by
        simp [distinct, appendNew]
      rw [happend, firstOccurrences_append, ih h.1]
      have hamong := isAmong_distinct h.1 (h.2 last (List.mem_singleton_self last))
      rw [ih h.1] at hamong
      by_cases hlast : last.isAmong front <;> simp [hlast, hamong]

end Sample

end TypeGuard
