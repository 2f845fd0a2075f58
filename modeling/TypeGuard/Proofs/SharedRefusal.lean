import TypeGuard.Proofs.Limits
import TypeGuard.Proofs.Refusal

/-!
# Types that are refused for guards and for samplers alike

A type that mentions no alias is walked through twice, once for its guard and once for its
sampler.  Both walks meet its nodes in one order, allow it the same depth and ask the same
of its unions.  So both go through, or both stop at one node and for one reason.  Only the
paths differ: that of a guard tells the array members of a union apart.
-/

namespace TypeGuard

/-- A problem without the place of the type at fault. -/
def Problem.unplaced : Problem → Problem
  | .unknownAlias name _ known => .unknownAlias name [] known
  | .objectInUnion _ members => .objectInUnion [] members
  | .emptyUnion _ => .emptyUnion []
  | .unknownPrimitive kind _ => .unknownPrimitive kind []
  | .unsupportedLiteral _ text => .unsupportedLiteral [] text
  | .repeatedAttribute _ name => .repeatedAttribute [] name
  | .nestedUnion _ => .nestedUnion []
  | .shortUnion _ count => .shortUnion [] count
  | .nestedTooDeep limit _ => .nestedTooDeep limit []
  | .unnamedRoot shown => .unnamedRoot shown
  | .repeatedRoot name => .repeatedRoot name
  | .aliasCycle cycle => .aliasCycle cycle
  | .namesExhausted proposed attempts => .namesExhausted proposed attempts

/-! ## Results that fail -/

section

variable {ε α β : Type}

def failure? : Except ε α → Option ε
  | .ok _ => none
  | .error problem => some problem

@[simp] theorem failure?_eq_some_iff {result : Except ε α} {problem : ε} :
    failure? result = some problem ↔ result = .error problem := by
  cases result <;> simp [failure?]

@[simp] theorem failure?_eq_none_iff {result : Except ε α} :
    failure? result = none ↔ Succeeds result := by
  cases result <;> simp [failure?, Succeeds]

@[simp] theorem failure?_map (result : Except ε α) (f : α → β) :
    failure? (do let value ← result; return f value) = failure? result := by
  cases result <;> rfl

@[simp] theorem failure?_then (result : Except ε α) (next : Except ε β) :
    failure? (result >>= fun _ => next) = (failure? result).or (failure? next) := by
  cases result <;> rfl

@[simp] theorem failure?_mapM_cons (f : α → Except ε β) (item : α) (rest : List α) :
    failure? ((item :: rest).mapM f) = (failure? (f item)).or (failure? (rest.mapM f)) := by
  rw [List.mapM_cons]
  cases f item with
  | error problem => rfl
  | ok value => exact failure?_map _ _

end

namespace TypeTree

variable {limit depth : Nat} {path place : Path}

/-! ## Offences without their places -/

theorem unionOffence?_unplaced (path place : Path) (members : List TypeTree) :
    (unionOffence? path members).map Problem.unplaced =
      (unionOffence? place members).map Problem.unplaced := by
  match members with
  | [] => rfl
  | [_] => rfl
  | first :: second :: rest =>
      have hlength : 2 ≤ (first :: second :: rest).length := by simp
      rw [unionOffence?, unionOffence?, checkUnion_eq_of_two_le hlength,
        checkUnion_eq_of_two_le hlength]
      cases (first :: second :: rest).any isUnion with
      | true => rfl
      | false => cases (first :: second :: rest).filter isObject <;> rfl

section

variable {α : Type}

theorem failure?_members {f : TypeTree → Except Problem α} {members : List TypeTree}
    (h : ∀ member ∈ members, ∀ place, (failure? (f member)).map Problem.unplaced =
      (member.offence? limit depth place).map Problem.unplaced) (index : Nat) :
    (failure? (members.mapM f)).map Problem.unplaced =
      (membersOffence? limit depth place index members).map Problem.unplaced := by
  induction members generalizing index with
  | nil => rfl
  | cons member rest ih =>
      rw [List.forall_mem_cons] at h
      rw [failure?_mapM_cons, membersOffence?, Option.map_or, Option.map_or, ih h.2 (index + 1),
        h.1]

theorem failure?_attributes {f : String × TypeTree → Except Problem α}
    {attributes : List (String × TypeTree)}
    (h : ∀ attr ∈ attributes, ∀ place, (failure? (f attr)).map Problem.unplaced =
      (attr.2.offence? limit depth place).map Problem.unplaced) :
    (failure? (attributes.mapM f)).map Problem.unplaced =
      (attributesOffence? limit depth place attributes).map Problem.unplaced := by
  induction attributes with
  | nil => rfl
  | cons attr rest ih =>
      rw [List.forall_mem_cons] at h
      rw [failure?_mapM_cons, attributesOffence?, Option.map_or, Option.map_or, ih h.2, h.1]

end

end TypeTree

/-! ## Expanding a type -/

/-- The expansion of a type without references fails with the type's first offence at the
depth where this number of levels is left, whatever the paths. -/
theorem Expansion.failure?_expand (expansion : Expansion) {depth budget : Nat}
    (hdepth : depth + budget = expansion.maxDepth + 1) {tree : TypeTree}
    (hmentions : tree.mentions = []) (path place : Path) (enclosing : List String) :
    (failure? (expansion.expand budget path enclosing tree)).map Problem.unplaced =
      (tree.offence? expansion.maxDepth depth place).map Problem.unplaced := by
  induction budget generalizing depth path place tree with
  | zero =>
      rw [TypeTree.offence?_of_lt (by omega)]
      rfl
  | succ budget ih =>
      have hbelow : depth + 1 + budget = expansion.maxDepth + 1 := by omega
      have hlevel : depth ≤ expansion.maxDepth := by omega
      have hlegal := TypeTree.depthOffence?_of_le hlevel place
      cases tree with
      | literal label value =>
          rw [TypeTree.offence?, hlegal]
          rfl
      | primitive label kind =>
          rw [TypeTree.offence?, hlegal]
          rfl
      | reference label name => cases hmentions
      | array label element =>
          have helement : element.mentions = [] := hmentions
          rw [TypeTree.offence?, hlegal, Option.none_or, expand, failure?_map]
          exact ih hbelow helement _ _
      | union label members =>
          have hmembers : ∀ member ∈ members, member.mentions = [] := fun member hmember =>
            List.eq_nil_iff_forall_not_mem.mpr fun name hname =>
              List.eq_nil_iff_forall_not_mem.mp hmentions name
                (TypeTree.mem_memberMentions.mpr ⟨member, hmember, hname⟩)
          have hcheck : failure? (TypeTree.checkUnion path members) =
              TypeTree.unionOffence? path members := by
            rw [TypeTree.unionOffence?]
            cases TypeTree.checkUnion path members <;> rfl
          rw [TypeTree.offence?, hlegal, Option.none_or, expand, failure?_then, failure?_map,
            Option.map_or, Option.map_or, hcheck, TypeTree.unionOffence?_unplaced path place]
          congr 1
          exact TypeTree.failure?_members (fun member hmember place =>
            ih hbelow (hmembers member hmember) path place) 0
      | object label attributes optionalNames =>
          have hattributes : ∀ attr ∈ attributes, attr.2.mentions = [] := fun attr hattr =>
            List.eq_nil_iff_forall_not_mem.mpr fun name hname =>
              List.eq_nil_iff_forall_not_mem.mp hmentions name
                (TypeTree.mem_attributeMentions.mpr ⟨attr, hattr, hname⟩)
          rw [TypeTree.offence?, hlegal, Option.none_or, expand, failure?_map]
          refine TypeTree.failure?_attributes fun attr hattr place => ?_
          rw [failure?_map]
          exact ih hbelow (hattributes attr hattr) _ place

namespace Registry

variable {registry : Registry} {aliasName : String} {tree : TypeTree}

/-! ## Registering and expanding -/

theorem failure?_register (halias : tree.aliasName = some aliasName) (hne : aliasName ≠ "")
    (hdistinct : tree.Distinct) (hmentions : tree.mentions = [])
    (hnames : ∀ problem, registry.register tree = .error problem → problem.isExhaustion = false) :
    failure? (registry.register tree) = tree.offence? registry.settings.maxDepth 0 [aliasName] := by
  cases hregister : registry.register tree with
  | ok later =>
      obtain ⟨hlegal, -⟩ := admits_of_register_ok halias hregister
      exact (TypeTree.legal_iff_offence?.mp hlegal).symm
  | error problem =>
      rcases register_eq_error halias hne hdistinct hregister with
        hexhausted | hoffence | ⟨-, reference, hunknown, -⟩
      · rw [hnames problem hregister] at hexhausted
        cases hexhausted
      · exact hoffence.symm
      · have hmem := List.mem_map_of_mem (f := (·.name)) (List.mem_of_find?_eq_some hunknown)
        rw [TypeTree.map_name_references, hmentions] at hmem
        cases hmem

/-- A type that mentions no alias is registered if and only if it has a sampler, whatever
else the registry holds and whatever the roots are.  If it is neither, both problems are the
same but for the place.  Only a want of names can come between them. -/
theorem register_agrees_sampler (registry : Registry) (roots : Fields TypeTree)
    (halias : tree.aliasName = some aliasName) (hne : aliasName ≠ "") (hdistinct : tree.Distinct)
    (hmentions : tree.mentions = [])
    (hnames : ∀ problem, registry.register tree = .error problem →
      problem.isExhaustion = false) :
    (Succeeds (registry.register tree) ↔
      Succeeds ((Expansion.mk roots registry.settings.maxDepth).sampler tree)) ∧
    ∀ problem other, registry.register tree = .error problem →
      (Expansion.mk roots registry.settings.maxDepth).sampler tree = .error other →
      problem.unplaced = other.unplaced := by
  have hregister := failure?_register halias hne hdistinct hmentions hnames
  have hsampler := (Expansion.mk roots registry.settings.maxDepth).failure?_expand (Nat.zero_add _)
    hmentions [tree.aliasName.getD "root"] [aliasName] tree.aliasName.toList
  rw [← hregister, ← Expansion.sampler] at hsampler
  constructor
  · rw [← failure?_eq_none_iff, ← failure?_eq_none_iff, ← Option.map_eq_none_iff, ← hsampler,
      Option.map_eq_none_iff]
  · intro problem other hproblem hother
    rw [hproblem, hother] at hsampler
    exact (Option.some.inj hsampler).symm

def hollowTree : TypeTree :=
  .union ⟨false, some "Odd"⟩ [.array .bare (.union .bare []), .primitive .bare .string]

theorem register_agrees_sampler_hollowTree :
    (empty .standard).register hollowTree = .error (.emptyUnion ["Odd", "alt0", "element"]) ∧
      (Expansion.mk [] 100).sampler hollowTree = .error (.emptyUnion ["Odd", "element"]) ∧
      (Problem.emptyUnion ["Odd", "alt0", "element"]).unplaced =
        (Problem.emptyUnion ["Odd", "element"]).unplaced := by
  have hproblem : failure? ((empty .standard).register hollowTree) =
      some (.emptyUnion ["Odd", "alt0", "element"]) := by decide +kernel
  have hother : failure? ((Expansion.mk [] 100).sampler hollowTree) =
      some (.emptyUnion ["Odd", "element"]) := by decide +kernel
  rw [failure?_eq_some_iff] at hproblem hother
  have hdistinct : hollowTree.Distinct := by
    refine .union ?_
    simpa using ⟨.array (.union (by simp)), .primitive⟩
  refine ⟨hproblem, hother, ?_⟩
  refine (register_agrees_sampler (empty .standard) [] rfl (by decide) hdistinct rfl
    fun problem h => ?_).2 _ _ hproblem hother
  cases hproblem.symm.trans h
  rfl

end Registry

end TypeGuard
