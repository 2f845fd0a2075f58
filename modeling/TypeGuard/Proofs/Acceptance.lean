import TypeGuard.Fixture.Expansion
import TypeGuard.Proofs.Meaning
import TypeGuard.Proofs.Results

/-!
# What samplers accept and what guards accept

A guard tells objects by `typeof`, which arrays pass too; a sampler accepts only
objects where it describes objects.  `Sampler.misreads` says when this matters:
an array stands for an object all of whose attributes may be absent.

That is the whole difference.  The verdict of a type is that the sampler it
expands to accepts the sample or misreads it, and no expansion is so deep that
the verdict runs out of levels.
-/

namespace TypeGuard

namespace Sampler

/-! ## Acceptance by cases -/

@[simp] theorem anyAccepts_eq_any (members : List Sampler) (sample : Sample) :
    anyAccepts members sample = members.any fun member => member.accepts sample := by
  induction members with
  | nil => rfl
  | cons member rest ih => simp [anyAccepts, ih]

@[simp] theorem allAccept_eq_all (attributes : List (String × Sampler)) (fields : Fields Sample) :
    allAccept attributes fields =
      attributes.all fun attr => attr.2.accepts (Sample.field attr.1 fields) := by
  induction attributes with
  | nil => rfl
  | cons attr rest ih => simp [allAccept, ih]

@[simp] theorem accepts_sentinel (sampler : Sampler) : sampler.accepts .sentinel = false := by
  cases sampler <;> rfl

@[simp] theorem accepts_union (members : List Sampler) (sample : Sample) :
    (union members).accepts sample = members.any fun member => member.accepts sample := by
  rw [← anyAccepts_eq_any]
  cases sample with
  | sentinel => simp
  | _ => rfl

@[simp] theorem accepts_array (element : Sampler) (items : List Sample) :
    (array element).accepts (.array items) = items.all element.accepts :=
  rfl

@[simp] theorem accepts_object (attributes : List (String × Sampler)) (fields : Fields Sample) :
    (object attributes).accepts (.object fields) =
      attributes.all fun attr => attr.2.accepts (Sample.field attr.1 fields) :=
  allAccept_eq_all attributes fields

/-! ## Arrays taken for objects -/

mutual

/-- Whether the sampler does not accept the sample but a guard of its shape does,
as it reads some array as an object without fields. -/
def misreads : Sampler → Sample → Bool
  | .union members, sample => !anyAccepts members sample && anyMisreads members sample
  | .array element, .array items =>
      !items.all (accepts element) &&
        items.all fun item => accepts element item || misreads element item
  | .object attributes, .array _ => allAccept attributes []
  | .object attributes, .object fields =>
      !allAccept attributes fields && allTaken attributes fields
  | _, _ => false

def anyMisreads : List Sampler → Sample → Bool
  | [], _ => false
  | member :: rest, sample => misreads member sample || anyMisreads rest sample

def allTaken : List (String × Sampler) → Fields Sample → Bool
  | [], _ => true
  | (name, attr) :: rest, fields =>
      (accepts attr (Sample.field name fields) || misreads attr (Sample.field name fields)) &&
        allTaken rest fields

end

def takes (sampler : Sampler) (sample : Sample) : Bool :=
  sampler.accepts sample || sampler.misreads sample

@[simp] theorem anyMisreads_eq_any (members : List Sampler) (sample : Sample) :
    anyMisreads members sample = members.any fun member => member.misreads sample := by
  induction members with
  | nil => rfl
  | cons member rest ih => simp [anyMisreads, ih]

@[simp] theorem allTaken_eq_all (attributes : List (String × Sampler)) (fields : Fields Sample) :
    allTaken attributes fields =
      attributes.all fun attr => attr.2.takes (Sample.field attr.1 fields) := by
  induction attributes with
  | nil => rfl
  | cons attr rest ih => simp [allTaken, takes, ih]

@[simp] theorem misreads_value (fixed sample : Sample) : (value fixed).misreads sample = false :=
  rfl

@[simp] theorem misreads_primitive (kind : Primitive) (sample : Sample) :
    (primitive kind).misreads sample = false :=
  rfl

@[simp] theorem misreads_union (members : List Sampler) (sample : Sample) :
    (union members).misreads sample =
      (!(union members).accepts sample && members.any fun member => member.misreads sample) := by
  simp [misreads]

@[simp] theorem misreads_array (element : Sampler) (items : List Sample) :
    (array element).misreads (.array items) =
      (!(array element).accepts (.array items) && items.all element.takes) :=
  rfl

@[simp] theorem misreads_object (attributes : List (String × Sampler)) (fields : Fields Sample) :
    (object attributes).misreads (.object fields) =
      (!(object attributes).accepts (.object fields) &&
        attributes.all fun attr => attr.2.takes (Sample.field attr.1 fields)) := by
  simp [misreads]

theorem accepts_eq_false_of_misreads {sampler : Sampler} {sample : Sample}
    (h : sampler.misreads sample = true) : sampler.accepts sample = false := by
  cases sampler with
  | value | primitive => simp at h
  | union members => simp_all
  | array element =>
      cases sample with
      | array items => simp_all
      | _ => cases h
  | object attributes =>
      cases sample with
      | array items => rfl
      | object fields => simp_all
      | _ => cases h

@[simp] theorem misreads_undefined (sampler : Sampler) : sampler.misreads .undefined = false := by
  match sampler with
  | .union members =>
      have hmembers : ∀ member ∈ members, member.misreads .undefined = false :=
        fun member _ => misreads_undefined member
      simpa using fun _ => hmembers
  | .value _ | .primitive _ | .array _ | .object _ => rfl

/-! ## What guards take, by cases -/

theorem or_not_and_of_imp {first second : Bool} (h : first = true → second = true) :
    (first || (!first && second)) = second := by
  cases first with
  | true => rw [h rfl]; rfl
  | false => rfl

@[simp] theorem takes_of_accepts {sampler : Sampler} {sample : Sample}
    (h : sampler.accepts sample = true) : sampler.takes sample = true := by
  simp [takes, h]

theorem takes_literal {value : Literal} (h : ∀ x, value = .number x → x.isNaN = false)
    (sample : Sample) : (Sampler.value (.ofLiteral value)).takes sample = value.holds sample := by
  rw [takes, misreads_value, Bool.or_false]
  cases value with
  | number x =>
      cases sample with
      | number y => simp [accepts, Sample.ofLiteral, Sample.same, Binary64.sameValue, h x rfl,
          Literal.holds]
      | _ => simp [accepts, Sample.ofLiteral, Sample.same, Literal.holds]
  | _ => cases sample <;> simp [accepts, Sample.ofLiteral, Sample.same, Literal.holds]

@[simp] theorem takes_primitive (kind : Primitive) (sample : Sample) :
    (Sampler.primitive kind).takes sample = isOfKind kind sample := by
  cases kind <;> cases sample <;> rfl

@[simp] theorem takes_union (members : List Sampler) (sample : Sample) :
    (union members).takes sample = members.any fun member => member.takes sample := by
  rw [takes, misreads_union, accepts_union]
  induction members with
  | nil => rfl
  | cons member rest ih =>
      simp only [List.any_cons, takes] at ih ⊢
      rw [← ih]
      cases member.accepts sample <;> cases member.misreads sample <;> simp

@[simp] theorem takes_array (element : Sampler) (items : List Sample) :
    (array element).takes (.array items) = items.all element.takes := by
  rw [takes, misreads_array, accepts_array]
  refine or_not_and_of_imp fun h => ?_
  rw [List.all_eq_true] at h ⊢
  exact fun item hitem => takes_of_accepts (h item hitem)

theorem takes_array_of_notArray (element : Sampler) {sample : Sample}
    (h : ∀ items, sample ≠ .array items) : (array element).takes sample = false := by
  cases sample with
  | array items => exact absurd rfl (h items)
  | _ => rfl

@[simp] theorem takes_object (attributes : List (String × Sampler)) (sample : Sample) :
    (object attributes).takes sample = (sample.isObjectOrArray &&
      attributes.all fun attr => attr.2.takes (Sample.field attr.1 sample.fields)) := by
  cases sample with
  | array items =>
      have hmisreads : (object attributes).misreads (.array items) = allAccept attributes [] := rfl
      simp [takes, accepts, hmisreads, Sample.isObjectOrArray, Sample.fields]
  | object fields =>
      rw [takes, misreads_object, accepts_object]
      refine or_not_and_of_imp fun h => ?_
      rw [List.all_eq_true] at h ⊢
      exact fun attr hattr => takes_of_accepts (h attr hattr)
  | _ => rfl

end Sampler

/-! ## Types without not-a-number -/

namespace TypeTree

mutual

/-- Whether some literal of the type is not-a-number, which the sampler of the
literal accepts and its guard does not. -/
def hasNaN : TypeTree → Bool
  | .literal _ (.number x) => x.isNaN
  | .literal .. | .primitive .. | .reference .. => false
  | .array _ element => hasNaN element
  | .union _ members => anyHasNaN members
  | .object _ attributes _ => anyAttributeHasNaN attributes

def anyHasNaN : List TypeTree → Bool
  | [] => false
  | member :: rest => hasNaN member || anyHasNaN rest

def anyAttributeHasNaN : List (String × TypeTree) → Bool
  | [] => false
  | (_, attr) :: rest => hasNaN attr || anyAttributeHasNaN rest

end

theorem hasNaN_of_mem_members {members : List TypeTree} (h : anyHasNaN members = false) :
    ∀ member ∈ members, member.hasNaN = false := by
  induction members with
  | nil => simp
  | cons member rest ih =>
      rw [anyHasNaN, Bool.or_eq_false_iff] at h
      exact List.forall_mem_cons.mpr ⟨h.1, ih h.2⟩

theorem hasNaN_of_mem_attributes {attributes : List (String × TypeTree)}
    (h : anyAttributeHasNaN attributes = false) : ∀ attr ∈ attributes, attr.2.hasNaN = false := by
  induction attributes with
  | nil => simp
  | cons attr rest ih =>
      rw [anyAttributeHasNaN, Bool.or_eq_false_iff] at h
      exact List.forall_mem_cons.mpr ⟨h.1, ih h.2⟩

end TypeTree

/-! ## Expansions -/

namespace Expansion

inductive Level (roots : Fields TypeTree) (below : TypeTree → Sampler → Prop) :
    TypeTree → Sampler → Prop
  | literal {label : Label} {value : Literal} :
      Level roots below (.literal label value) (.value (.ofLiteral value))
  | primitive {label : Label} {kind : Primitive} :
      Level roots below (.primitive label kind) (.primitive kind)
  | array {label : Label} {element : TypeTree} {sampler : Sampler} :
      below element sampler → Level roots below (.array label element) (.array sampler)
  | union {label : Label} {members : List TypeTree} {samplers : List Sampler} :
      List.Forall₂ below members samplers →
      Level roots below (.union label members) (.union samplers)
  | object {label : Label} {attributes : List (String × TypeTree)}
      {optionalNames : List String} {samplers : List (String × Sampler)} :
      List.Forall₂ (fun attr part => part.1 = attr.1 ∧ below attr.2 part.2)
        attributes samplers →
      Level roots below (.object label attributes optionalNames) (.object samplers)
  | reference {label : Label} {name : String} {root : TypeTree} {sampler : Sampler} :
      Fields.find? name roots = some root → below root sampler →
      Level roots below (.reference label name) sampler

/-- The sampler that a type expands to within a number of levels. -/
def Yields (expansion : Expansion) (budget : Nat) (tree : TypeTree) (sampler : Sampler) : Prop :=
  ∃ path enclosing, expansion.expand budget path enclosing tree = .ok sampler

theorem Yields.level {expansion : Expansion} {budget : Nat} {tree : TypeTree}
    {sampler : Sampler} (h : expansion.Yields (budget + 1) tree sampler) :
    Level expansion.roots (expansion.Yields budget) tree sampler := by
  obtain ⟨path, enclosing, h⟩ := h
  cases tree with
  | literal label value =>
      cases h
      exact .literal
  | primitive label kind =>
      cases h
      exact .primitive
  | array label element =>
      obtain ⟨inner, hinner, h⟩ := bind_eq_ok.mp h
      cases h
      exact .array ⟨_, _, hinner⟩
  | union label members =>
      obtain ⟨_, -, h⟩ := bind_eq_ok.mp h
      obtain ⟨samplers, hmembers, h⟩ := bind_eq_ok.mp h
      cases h
      exact .union ((forall₂_of_mapM hmembers).imp fun _ _ hmember => ⟨_, _, hmember⟩)
  | object label attributes optionalNames =>
      obtain ⟨samplers, hattributes, h⟩ := bind_eq_ok.mp h
      cases h
      refine .object ((forall₂_of_mapM hattributes).imp fun attr part hattr => ?_)
      obtain ⟨inner, hinner, hattr⟩ := bind_eq_ok.mp hattr
      cases hattr
      exact ⟨rfl, _, _, hinner⟩
  | reference label name =>
      simp only [expand] at h
      split at h
      next => cases h
      split at h
      next => cases h
      next root hroot => exact .reference hroot ⟨_, _, h⟩

/-! ## Verdicts of expanded types -/

section

variable {levels : Nat} {below : TypeTree → Sample → Except EvalError Bool}
  {roots : Fields TypeTree}

theorem ofItems_eq_all {item : Sample → Except EvalError Bool} {passes : Sample → Bool}
    (h : ∀ sample, item sample = .ok (passes sample)) (items : List Sample) :
    Verdict.ofItems item items = .ok (items.all passes) := by
  induction items with
  | nil => rfl
  | cons first rest ih =>
      rw [Verdict.ofItems, h, ih, List.all_cons]
      cases passes first <;> rfl

theorem checkSome_eq_any {members : List TypeTree} {samplers : List Sampler} {sample : Sample}
    (h : List.Forall₂ (fun member sampler =>
      Verdict.check levels below roots member sample = .ok (sampler.takes sample))
      members samplers) :
    Verdict.checkSome levels below roots members sample =
      .ok (samplers.any fun sampler => sampler.takes sample) := by
  induction h with
  | nil => rfl
  | @cons member sampler members samplers hfirst _ ih =>
      rw [Verdict.checkSome, hfirst, ih, List.any_cons]
      cases sampler.takes sample <;> rfl

theorem checkEvery_eq_all {attributes : List (String × TypeTree)}
    {samplers : List (String × Sampler)} {fields : Fields Sample}
    (h : List.Forall₂ (fun attr part => part.1 = attr.1 ∧ ∀ sample,
      Verdict.check levels below roots attr.2 sample = .ok (part.2.takes sample))
      attributes samplers) :
    Verdict.checkEvery levels below roots attributes fields =
      .ok (samplers.all fun part => part.2.takes (Sample.field part.1 fields)) := by
  induction h with
  | nil => rfl
  | @cons attr part attributes samplers hfirst _ ih =>
      rw [Verdict.checkEvery, hfirst.2, ih, List.all_cons, hfirst.1]
      cases part.2.takes (Sample.field attr.1 fields) <;> rfl

end

theorem Yields.pos {expansion : Expansion} {budget : Nat} {tree : TypeTree} {sampler : Sampler}
    (h : expansion.Yields budget tree sampler) : 0 < budget := by
  obtain ⟨path, enclosing, h⟩ := h
  cases budget with
  | zero => cases h
  | succ budget => exact Nat.succ_pos budget

/-- The verdict of a type that expands within the levels of calls left is what
its sampler takes.  A union's members and an object's attributes are checked in
the call that checks the type, so calls never nest deeper than the expansion. -/
theorem Yields.verdict_eq {expansion : Expansion}
    (hroots : ∀ entry ∈ expansion.roots, entry.2.hasNaN = false) {budget levels : Nat}
    (hlevels : budget ≤ levels) {tree : TypeTree} {sampler : Sampler}
    (h : expansion.Yields budget tree sampler) (hnan : tree.hasNaN = false) (sample : Sample) :
    verdict expansion.roots levels tree sample = .ok (sampler.takes sample) := by
  induction budget generalizing levels tree sampler sample with
  | zero => exact absurd h.pos (Nat.lt_irrefl 0)
  | succ budget ih =>
      obtain ⟨levels, rfl⟩ : ∃ fewer, levels = fewer + 1 := ⟨levels - 1, by omega⟩
      -- Parts that are checked in the same call have the same levels left.
      have hhere : ∀ part inner, part.hasNaN = false → expansion.Yields budget part inner →
          ∀ sample, Verdict.check levels (verdict expansion.roots levels) expansion.roots part
            sample = .ok (inner.takes sample) :=
        fun _ _ hpart hinner => ih (Nat.le_of_succ_le hlevels) hinner hpart
      rw [verdict]
      cases h.level with
      | literal =>
          refine congrArg Except.ok (Sampler.takes_literal (fun x hx => ?_) sample).symm
          subst hx
          exact hnan
      | primitive => exact congrArg Except.ok (Sampler.takes_primitive _ sample).symm
      | @array label element inner hinner =>
          -- The element has an expansion of its own, so a level is left for `isArray`.
          have hpositive : levels ≠ 0 := by
            have := hinner.pos
            omega
          rw [Verdict.check]
          unfold Verdict.ofArray
          rw [if_neg hpositive]
          split
          next items =>
              simpa using ofItems_eq_all (ih (by omega) hinner hnan) items
          next hother => rw [Sampler.takes_array_of_notArray inner hother]
      | union hmembers =>
          have hnans := TypeTree.hasNaN_of_mem_members hnan
          rw [Verdict.check, Sampler.takes_union]
          exact checkSome_eq_any (((List.forall₂_and_left _ _).mpr ⟨hnans, hmembers⟩).imp
            fun member inner hmember => hhere member inner hmember.1 hmember.2 sample)
      | object hattributes =>
          have hnans := TypeTree.hasNaN_of_mem_attributes hnan
          rw [Verdict.check, Sampler.takes_object, checkEvery_eq_all
            (((List.forall₂_and_left _ _).mpr ⟨hnans, hattributes⟩).imp fun attr part hattr =>
              ⟨hattr.2.1, hhere attr.2 part.2 hattr.1 hattr.2.2⟩)]
          cases sample.isObjectOrArray <;> rfl
      | reference hroot hinner =>
          rw [Verdict.check, hroot]
          exact ih (by omega) hinner (hroots _ (Fields.mem_of_find? hroot)) sample

end Expansion

end TypeGuard
