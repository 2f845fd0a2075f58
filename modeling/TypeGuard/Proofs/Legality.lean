import Mathlib.Tactic.Tauto
import TypeGuard.Guard.Assertions

/-!
# Legal types

A type is legal if no node lies too deep and every union has two members or more,
none of them a union or an object.  `offence?` walks through a type from the root
downwards, parts in order, and stops at the first node that is not legal with the
problem of that node.  The legal types are those without an offence.
-/

namespace TypeGuard.TypeTree

/-! ## Unions -/

theorem checkUnion_eq_of_two_le {path : Path} {members : List TypeTree}
    (hlength : 2 ≤ members.length) :
    checkUnion path members =
      if members.any isUnion then .error (.nestedUnion path)
      else match members.filter isObject with
        | [] => .ok ()
        | objects => .error (.objectInUnion path (objects.map text)) := by
  match members with
  | first :: second :: rest =>
      refine (checkUnion.eq_3 _ _ (by simp) (by simp)).trans ?_
      cases (first :: second :: rest).any isUnion <;> rfl

@[simp] theorem checkUnion_eq_ok_iff {place : Path} {members : List TypeTree} :
    checkUnion place members = .ok () ↔
      2 ≤ members.length ∧
        ∀ member ∈ members, member.isUnion = false ∧ member.isObject = false := by
  match members with
  | [] => simp [checkUnion]
  | [_] => simp [checkUnion]
  | first :: second :: rest =>
      have hlength : 2 ≤ (first :: second :: rest).length := by simp
      rw [checkUnion_eq_of_two_le hlength]
      generalize first :: second :: rest = members at hlength ⊢
      cases hunion : members.any isUnion with
      | true =>
          obtain ⟨member, hmember, htrue⟩ := List.any_eq_true.mp hunion
          simp only [if_true, reduceCtorEq, false_iff, not_and]
          intro _ hall
          simp [(hall member hmember).1] at htrue
      | false =>
          have hmembers : ∀ member ∈ members, member.isUnion = false := by
            simpa using hunion
          cases hobjects : members.filter isObject with
          | nil =>
              have hnone : ∀ member ∈ members, member.isObject = false := by
                simpa using hobjects
              simpa using ⟨hlength, fun member h => ⟨hmembers member h, hnone member h⟩⟩
          | cons object others =>
              have hobject : object ∈ members.filter isObject := by simp [hobjects]
              rw [List.mem_filter] at hobject
              simp only [Bool.false_eq_true, if_false, reduceCtorEq, false_iff, not_and]
              intro _ hall
              simp [(hall object hobject.1).2] at hobject

/-! ## Legal types -/

mutual

/-- The depth of the deepest node; the root has depth zero, and every attribute,
element or member lies one deeper than the type that it is part of. -/
def depth : TypeTree → Nat
  | .literal .. | .primitive .. | .reference .. => 0
  | .array _ element => depth element + 1
  | .union _ members => membersDepth members
  | .object _ attributes _ => attributesDepth attributes

def membersDepth : List TypeTree → Nat
  | [] => 0
  | member :: rest => max (depth member + 1) (membersDepth rest)

def attributesDepth : List (String × TypeTree) → Nat
  | [] => 0
  | (_, attr) :: rest => max (depth attr + 1) (attributesDepth rest)

end

inductive LegalUnions : TypeTree → Prop
  | literal {label : Label} {value : Literal} : LegalUnions (.literal label value)
  | primitive {label : Label} {kind : Primitive} : LegalUnions (.primitive label kind)
  | reference {label : Label} {name : String} : LegalUnions (.reference label name)
  | array {label : Label} {element : TypeTree} :
      LegalUnions element → LegalUnions (.array label element)
  | union {label : Label} {members : List TypeTree} :
      2 ≤ members.length →
      (∀ member ∈ members, member.isUnion = false ∧ member.isObject = false) →
      (∀ member ∈ members, LegalUnions member) → LegalUnions (.union label members)
  | object {label : Label} {attributes : List (String × TypeTree)}
      {optionalNames : List String} :
      (∀ attr ∈ attributes, LegalUnions attr.2) →
      LegalUnions (.object label attributes optionalNames)

/-- No node lies deeper than `limit`, and every union has two members or more, none
of them a union or an object. -/
structure Legal (limit : Nat) (tree : TypeTree) : Prop where
  depth_le : tree.depth ≤ limit
  unions : tree.LegalUnions

/-! ## Mentioned aliases -/

mutual

def mentions : TypeTree → List String
  | .literal .. | .primitive .. => []
  | .reference _ name => [name]
  | .array _ element => mentions element
  | .union _ members => memberMentions members
  | .object _ attributes _ => attributeMentions attributes

def memberMentions : List TypeTree → List String
  | [] => []
  | member :: rest => mentions member ++ memberMentions rest

def attributeMentions : List (String × TypeTree) → List String
  | [] => []
  | (_, attr) :: rest => mentions attr ++ attributeMentions rest

end

@[simp] theorem mem_memberMentions {name : String} {members : List TypeTree} :
    name ∈ memberMentions members ↔ ∃ member ∈ members, name ∈ member.mentions := by
  induction members with
  | nil => simp [memberMentions]
  | cons member rest ih => simp [memberMentions, ih]

@[simp] theorem mem_attributeMentions {name : String} {attributes : List (String × TypeTree)} :
    name ∈ attributeMentions attributes ↔ ∃ attr ∈ attributes, name ∈ attr.2.mentions := by
  induction attributes with
  | nil => simp [attributeMentions]
  | cons attr rest ih => simp [attributeMentions, ih]

/-! ## The first offence -/

def depthOffence? (limit depth : Nat) (path : Path) : Option Problem :=
  if limit < depth then some (.nestedTooDeep limit path) else none

def unionOffence? (path : Path) (members : List TypeTree) : Option Problem :=
  match checkUnion path members with
  | .ok () => none
  | .error problem => some problem

mutual

def offence? (limit : Nat) : Nat → Path → TypeTree → Option Problem
  | depth, path, .literal .. | depth, path, .primitive .. | depth, path, .reference .. =>
      depthOffence? limit depth path
  | depth, path, .array _ element =>
      (depthOffence? limit depth path).or
        (offence? limit (depth + 1) (path ++ ["element"]) element)
  | depth, path, .union _ members =>
      (depthOffence? limit depth path).or
        ((unionOffence? path members).or (membersOffence? limit (depth + 1) path 0 members))
  | depth, path, .object _ attributes _ =>
      (depthOffence? limit depth path).or (attributesOffence? limit (depth + 1) path attributes)

def membersOffence? (limit : Nat) : Nat → Path → Nat → List TypeTree → Option Problem
  | _, _, _, [] => none
  | depth, path, index, member :: rest =>
      (offence? limit depth (Writing.memberPath path index member) member).or
        (membersOffence? limit depth path (index + 1) rest)

def attributesOffence? (limit : Nat) :
    Nat → Path → List (String × TypeTree) → Option Problem
  | _, _, [] => none
  | depth, path, (name, attr) :: rest =>
      (offence? limit depth (path ++ [name]) attr).or
        (attributesOffence? limit depth path rest)

end

@[simp] theorem depthOffence?_eq_none_iff {limit depth : Nat} {path : Path} :
    depthOffence? limit depth path = none ↔ depth ≤ limit := by
  simp [depthOffence?]

@[simp] theorem depthOffence?_of_le {limit depth : Nat} (h : depth ≤ limit) (path : Path) :
    depthOffence? limit depth path = none :=
  depthOffence?_eq_none_iff.mpr h

@[simp] theorem depthOffence?_of_lt {limit depth : Nat} (h : limit < depth) (path : Path) :
    depthOffence? limit depth path = some (.nestedTooDeep limit path) :=
  if_pos h

theorem offence?_of_lt {limit depth : Nat} (h : limit < depth) (path : Path) (tree : TypeTree) :
    tree.offence? limit depth path = some (.nestedTooDeep limit path) := by
  cases tree <;> simp [offence?, h]

@[simp] theorem unionOffence?_eq_none_iff {path : Path} {members : List TypeTree} :
    unionOffence? path members = none ↔ 2 ≤ members.length ∧
      ∀ member ∈ members, member.isUnion = false ∧ member.isObject = false := by
  have hcheck : checkUnion path members = .ok () ↔ _ := checkUnion_eq_ok_iff
  rw [← hcheck, unionOffence?]
  cases checkUnion path members <;> simp

mutual

@[simp] theorem offence?_eq_none_iff {limit depth : Nat} {path : Path} (tree : TypeTree) :
    tree.offence? limit depth path = none ↔ depth + tree.depth ≤ limit ∧ tree.LegalUnions := by
  match tree with
  | .literal _ _ => simp [offence?, TypeTree.depth, LegalUnions.literal]
  | .primitive _ _ =>
      simp [offence?, TypeTree.depth, LegalUnions.primitive]
  | .reference _ _ =>
      simp [offence?, TypeTree.depth, LegalUnions.reference]
  | .array _ element =>
      rw [offence?, Option.or_eq_none_iff, depthOffence?_eq_none_iff,
        offence?_eq_none_iff element, TypeTree.depth]
      constructor
      · rintro ⟨_, hdepth, hunions⟩
        exact ⟨by omega, .array hunions⟩
      · rintro ⟨hdepth, hunions⟩
        cases hunions with
        | array helement => exact ⟨by omega, by omega, helement⟩
  | .union _ members =>
      rw [offence?, Option.or_eq_none_iff, Option.or_eq_none_iff, depthOffence?_eq_none_iff,
        unionOffence?_eq_none_iff, TypeTree.depth]
      constructor
      · rintro ⟨hroot, hunion, hmembers⟩
        rw [membersOffence?_eq_none_iff hroot members] at hmembers
        exact ⟨hmembers.1, .union hunion.1 hunion.2 hmembers.2⟩
      · rintro ⟨hdepth, hunions⟩
        have hroot : depth ≤ limit := by omega
        cases hunions with
        | union hlength hflat hlegal =>
            rw [membersOffence?_eq_none_iff hroot members]
            exact ⟨hroot, ⟨hlength, hflat⟩, hdepth, hlegal⟩
  | .object _ attributes _ =>
      rw [offence?, Option.or_eq_none_iff, depthOffence?_eq_none_iff, TypeTree.depth]
      constructor
      · rintro ⟨hroot, hattributes⟩
        rw [attributesOffence?_eq_none_iff hroot attributes] at hattributes
        exact ⟨hattributes.1, .object hattributes.2⟩
      · rintro ⟨hdepth, hunions⟩
        have hroot : depth ≤ limit := by omega
        cases hunions with
        | object hlegal =>
            rw [attributesOffence?_eq_none_iff hroot attributes]
            exact ⟨hroot, hdepth, hlegal⟩

theorem membersOffence?_eq_none_iff {limit depth index : Nat} {path : Path}
    (hroot : depth ≤ limit) (members : List TypeTree) :
    membersOffence? limit (depth + 1) path index members = none ↔
      depth + membersDepth members ≤ limit ∧ ∀ member ∈ members, member.LegalUnions := by
  match members with
  | [] => simpa [membersOffence?, membersDepth] using hroot
  | member :: rest =>
      rw [membersOffence?, Option.or_eq_none_iff, offence?_eq_none_iff member,
        membersOffence?_eq_none_iff hroot rest, membersDepth, List.forall_mem_cons]
      have hmax : depth + max (member.depth + 1) (membersDepth rest) ≤ limit ↔
          depth + 1 + member.depth ≤ limit ∧ depth + membersDepth rest ≤ limit := by omega
      rw [hmax]
      tauto

theorem attributesOffence?_eq_none_iff {limit depth : Nat} {path : Path}
    (hroot : depth ≤ limit) (attributes : List (String × TypeTree)) :
    attributesOffence? limit (depth + 1) path attributes = none ↔
      depth + attributesDepth attributes ≤ limit ∧ ∀ attr ∈ attributes, attr.2.LegalUnions := by
  match attributes with
  | [] => simpa [attributesOffence?, attributesDepth] using hroot
  | (name, attr) :: rest =>
      rw [attributesOffence?, Option.or_eq_none_iff, offence?_eq_none_iff attr,
        attributesOffence?_eq_none_iff hroot rest, attributesDepth, List.forall_mem_cons]
      have hmax : depth + max (attr.depth + 1) (attributesDepth rest) ≤ limit ↔
          depth + 1 + attr.depth ≤ limit ∧ depth + attributesDepth rest ≤ limit := by omega
      rw [hmax]
      tauto

end

def IsOffence (limit : Nat) (problem : Problem) : Prop :=
  (∃ place, problem = .nestedTooDeep limit place) ∨
    ∃ place members, checkUnion place members = .error problem

theorem isOffence_of_depthOffence? {limit depth : Nat} {path : Path} {problem : Problem}
    (h : depthOffence? limit depth path = some problem) : IsOffence limit problem := by
  rw [depthOffence?, Option.ite_none_right_eq_some] at h
  exact .inl ⟨path, (Option.some.inj h.2).symm⟩

theorem isOffence_of_unionOffence? {limit : Nat} {path : Path} {members : List TypeTree}
    {problem : Problem} (h : unionOffence? path members = some problem) :
    IsOffence limit problem := by
  unfold unionOffence? at h
  split at h
  next => cases h
  next hcheck =>
      cases h
      exact .inr ⟨path, members, hcheck⟩

mutual

theorem isOffence_of_offence? {limit depth : Nat} {path : Path} {problem : Problem}
    (tree : TypeTree) (h : tree.offence? limit depth path = some problem) :
    IsOffence limit problem := by
  match tree with
  | .literal _ _ | .primitive _ _ | .reference _ _ =>
      rw [offence?] at h
      exact isOffence_of_depthOffence? h
  | .array _ element =>
      rw [offence?, Option.or_eq_some_iff] at h
      rcases h with h | ⟨-, h⟩
      · exact isOffence_of_depthOffence? h
      · exact isOffence_of_offence? element h
  | .union _ members =>
      rw [offence?, Option.or_eq_some_iff, Option.or_eq_some_iff] at h
      rcases h with h | ⟨-, h | ⟨-, h⟩⟩
      · exact isOffence_of_depthOffence? h
      · exact isOffence_of_unionOffence? h
      · exact isOffence_of_membersOffence? members h
  | .object _ attributes _ =>
      rw [offence?, Option.or_eq_some_iff] at h
      rcases h with h | ⟨-, h⟩
      · exact isOffence_of_depthOffence? h
      · exact isOffence_of_attributesOffence? attributes h

theorem isOffence_of_membersOffence? {limit depth index : Nat} {path : Path} {problem : Problem}
    (members : List TypeTree)
    (h : membersOffence? limit depth path index members = some problem) :
    IsOffence limit problem := by
  match members with
  | [] => cases h
  | member :: rest =>
      rw [membersOffence?, Option.or_eq_some_iff] at h
      rcases h with h | ⟨-, h⟩
      · exact isOffence_of_offence? member h
      · exact isOffence_of_membersOffence? rest h

theorem isOffence_of_attributesOffence? {limit depth : Nat} {path : Path} {problem : Problem}
    (attributes : List (String × TypeTree))
    (h : attributesOffence? limit depth path attributes = some problem) :
    IsOffence limit problem := by
  match attributes with
  | [] => cases h
  | (_, attr) :: rest =>
      rw [attributesOffence?, Option.or_eq_some_iff] at h
      rcases h with h | ⟨-, h⟩
      · exact isOffence_of_offence? attr h
      · exact isOffence_of_attributesOffence? rest h

end

theorem legal_iff_offence? {limit : Nat} {path : Path} {tree : TypeTree} :
    tree.Legal limit ↔ tree.offence? limit 0 path = none := by
  rw [offence?_eq_none_iff, Nat.zero_add]
  exact ⟨fun h => ⟨h.depth_le, h.unions⟩, fun h => ⟨h.1, h.2⟩⟩

end TypeGuard.TypeTree
