import TypeGuard.Proofs.Legality

/-!
# The nodes of a type in order

A type is walked through from the root downwards, each node before its parts and the
parts in order.  The first offence of a type is that of the first node in this order that
may not stand where it does, and the references of a type are its reference nodes in this
order.
-/

namespace TypeGuard.TypeTree

structure Node where
  depth : Nat
  path : Path
  tree : TypeTree

mutual

def nodes : Nat → Path → TypeTree → List Node
  | depth, path, .literal label value => [⟨depth, path, .literal label value⟩]
  | depth, path, .primitive label kind => [⟨depth, path, .primitive label kind⟩]
  | depth, path, .reference label name => [⟨depth, path, .reference label name⟩]
  | depth, path, .array label element =>
      ⟨depth, path, .array label element⟩ :: nodes (depth + 1) (path ++ ["element"]) element
  | depth, path, .union label members =>
      ⟨depth, path, .union label members⟩ :: memberNodes (depth + 1) path 0 members
  | depth, path, .object label attributes optionalNames =>
      ⟨depth, path, .object label attributes optionalNames⟩ ::
        attributeNodes (depth + 1) path attributes

def memberNodes : Nat → Path → Nat → List TypeTree → List Node
  | _, _, _, [] => []
  | depth, path, index, member :: rest =>
      nodes depth (Writing.memberPath path index member) member ++
        memberNodes depth path (index + 1) rest

def attributeNodes : Nat → Path → List (String × TypeTree) → List Node
  | _, _, [] => []
  | depth, path, (name, attr) :: rest =>
      nodes depth (path ++ [name]) attr ++ attributeNodes depth path rest

end

/-! ## Offending nodes -/

namespace Node

/-- A node that may not stand where it does, and the problem it is reported with.  A union
that lies too deep is not looked at further, and its members are looked at for unions
before they are for objects. -/
inductive Offends (limit : Nat) : Node → Problem → Prop
  | deep {depth : Nat} {path : Path} {tree : TypeTree} :
      limit < depth → Offends limit ⟨depth, path, tree⟩ (.nestedTooDeep limit path)
  | empty {depth : Nat} {path : Path} {label : Label} :
      depth ≤ limit → Offends limit ⟨depth, path, .union label []⟩ (.emptyUnion path)
  | short {depth : Nat} {path : Path} {label : Label} {member : TypeTree} :
      depth ≤ limit → Offends limit ⟨depth, path, .union label [member]⟩ (.shortUnion path 1)
  | nested {depth : Nat} {path : Path} {label : Label} {members : List TypeTree} :
      depth ≤ limit → 2 ≤ members.length → (∃ member ∈ members, member.isUnion = true) →
      Offends limit ⟨depth, path, .union label members⟩ (.nestedUnion path)
  | objects {depth : Nat} {path : Path} {label : Label} {members : List TypeTree} :
      depth ≤ limit → 2 ≤ members.length → (∀ member ∈ members, member.isUnion = false) →
      (∃ member ∈ members, member.isObject = true) →
      Offends limit ⟨depth, path, .union label members⟩
        (.objectInUnion path ((members.filter isObject).map text))

def offence? (limit : Nat) (node : Node) : Option Problem :=
  (depthOffence? limit node.depth node.path).or
    (match node.tree with
      | .union _ members => unionOffence? node.path members
      | _ => none)

end Node

theorem offends_of_checkUnion {limit depth : Nat} {path : Path} {label : Label}
    {members : List TypeTree} {problem : Problem} (hdepth : depth ≤ limit)
    (h : checkUnion path members = .error problem) :
    Node.Offends limit ⟨depth, path, .union label members⟩ problem := by
  match members with
  | [] =>
      cases h
      exact .empty hdepth
  | [_] =>
      cases h
      exact .short hdepth
  | first :: second :: rest =>
      have hlength : 2 ≤ (first :: second :: rest).length := by simp
      rw [checkUnion_eq_of_two_le hlength] at h
      generalize first :: second :: rest = members at hlength h ⊢
      split at h
      next hunion =>
          cases h
          exact .nested hdepth hlength (List.any_eq_true.mp hunion)
      next hflat =>
          split at h
          next => cases h
          next hobjects =>
              cases h
              obtain ⟨object, hobject⟩ := List.exists_mem_of_ne_nil _ hobjects
              refine .objects hdepth hlength (by simpa using hflat) ?_
              exact ⟨object, List.mem_filter.mp hobject⟩

theorem checkUnion_of_offends {limit depth : Nat} {path : Path} {label : Label}
    {members : List TypeTree} {problem : Problem} (hdepth : depth ≤ limit)
    (h : Node.Offends limit ⟨depth, path, .union label members⟩ problem) :
    checkUnion path members = .error problem := by
  cases h with
  | deep hdeep => omega
  | empty => rfl
  | short => rfl
  | nested _ hlength hunion =>
      rw [checkUnion_eq_of_two_le hlength, if_pos (List.any_eq_true.mpr hunion)]
  | objects _ hlength hflat hobject =>
      have hnone : members.any isUnion = false := by simpa using hflat
      obtain ⟨object, hmem, hobject⟩ := hobject
      have hsome : members.filter isObject ≠ [] :=
        List.ne_nil_of_mem (List.mem_filter.mpr ⟨hmem, hobject⟩)
      rw [checkUnion_eq_of_two_le hlength, if_neg (by simp [hnone])]
      split
      next hempty => exact absurd hempty hsome
      next => rfl

@[simp] theorem Node.offence?_eq_some_iff {limit : Nat} {node : Node} {problem : Problem} :
    node.offence? limit = some problem ↔ node.Offends limit problem := by
  obtain ⟨depth, path, tree⟩ := node
  by_cases hdeep : limit < depth
  · have hoffence : Node.offence? limit ⟨depth, path, tree⟩ =
        some (.nestedTooDeep limit path) := by
      simp [Node.offence?, hdeep]
    rw [hoffence, Option.some.injEq]
    constructor
    · rintro rfl
      exact .deep hdeep
    · intro h
      cases h with
      | deep => rfl
      | _ => omega
  · have hdepth : depth ≤ limit := Nat.le_of_not_lt hdeep
    rw [Node.offence?, depthOffence?_of_le hdepth, Option.none_or]
    cases tree with
    | union label members =>
        simp only [unionOffence?]
        constructor
        · intro h
          split at h
          next => cases h
          next hcheck =>
              cases h
              exact offends_of_checkUnion hdepth hcheck
        · intro h
          rw [checkUnion_of_offends hdepth h]
    | _ =>
        constructor
        · intro h
          cases h
        · intro h
          cases h
          omega

def FirstOffence (limit : Nat) (nodes : List Node) (problem : Problem) : Prop :=
  ∃ earlier node later, nodes = earlier ++ node :: later ∧ node.Offends limit problem ∧
    ∀ other ∈ earlier, ∀ otherProblem, ¬ other.Offends limit otherProblem

theorem findSome?_cons_eq_or {α β : Type} (f : α → Option β) (first : α) (rest : List α) :
    (first :: rest).findSome? f = (f first).or (rest.findSome? f) := by
  rw [List.findSome?_cons]
  cases f first <;> rfl

mutual

theorem offence?_eq_findSome? {limit depth : Nat} {path : Path} (tree : TypeTree) :
    tree.offence? limit depth path = (tree.nodes depth path).findSome? (Node.offence? limit) := by
  match tree with
  | .literal _ _ | .primitive _ _ | .reference _ _ =>
      simp [offence?, nodes, Node.offence?]
  | .array _ element =>
      rw [offence?, nodes, findSome?_cons_eq_or, offence?_eq_findSome? element, Node.offence?,
        Option.or_none]
  | .union _ members =>
      rw [offence?, nodes, findSome?_cons_eq_or, membersOffence?_eq_findSome? members,
        Node.offence?, Option.or_assoc]
  | .object _ attributes _ =>
      rw [offence?, nodes, findSome?_cons_eq_or, attributesOffence?_eq_findSome? attributes,
        Node.offence?, Option.or_none]

theorem membersOffence?_eq_findSome? {limit depth index : Nat} {path : Path}
    (members : List TypeTree) :
    membersOffence? limit depth path index members =
      (memberNodes depth path index members).findSome? (Node.offence? limit) := by
  match members with
  | [] => rfl
  | member :: rest =>
      rw [membersOffence?, memberNodes, List.findSome?_append, offence?_eq_findSome? member,
        membersOffence?_eq_findSome? rest]

theorem attributesOffence?_eq_findSome? {limit depth : Nat} {path : Path}
    (attributes : List (String × TypeTree)) :
    attributesOffence? limit depth path attributes =
      (attributeNodes depth path attributes).findSome? (Node.offence? limit) := by
  match attributes with
  | [] => rfl
  | (_, attr) :: rest =>
      rw [attributesOffence?, attributeNodes, List.findSome?_append, offence?_eq_findSome? attr,
        attributesOffence?_eq_findSome? rest]

end

/-- The problem that a type is refused with is that of its first offending node. -/
theorem offence?_eq_some_iff {limit depth : Nat} {path : Path} {tree : TypeTree}
    {problem : Problem} :
    tree.offence? limit depth path = some problem ↔
      FirstOffence limit (tree.nodes depth path) problem := by
  rw [offence?_eq_findSome?, List.findSome?_eq_some_iff]
  simp only [Node.offence?_eq_some_iff, Option.eq_none_iff_forall_not_mem, Option.mem_def]
  rfl

/-! ## References -/

def Node.reference? : Node → Option Reference
  | ⟨_, path, .reference _ name⟩ => some ⟨name, path⟩
  | _ => none

def references (tree : TypeTree) (path : Path) : List Reference :=
  (tree.nodes 0 path).filterMap Node.reference?

mutual

theorem mentions_eq_map {depth : Nat} {path : Path} (tree : TypeTree) :
    tree.mentions = ((tree.nodes depth path).filterMap Node.reference?).map (·.name) := by
  match tree with
  | .literal _ _ | .primitive _ _ | .reference _ _ => rfl
  | .array _ element => exact mentions_eq_map element
  | .union _ members => exact memberMentions_eq_map members
  | .object _ attributes _ => exact attributeMentions_eq_map attributes

theorem memberMentions_eq_map {depth index : Nat} {path : Path} (members : List TypeTree) :
    memberMentions members =
      ((memberNodes depth path index members).filterMap Node.reference?).map (·.name) := by
  match members with
  | [] => rfl
  | member :: rest =>
      rw [memberMentions, memberNodes, List.filterMap_append, List.map_append,
        ← mentions_eq_map member, ← memberMentions_eq_map rest]

theorem attributeMentions_eq_map {depth : Nat} {path : Path}
    (attributes : List (String × TypeTree)) :
    attributeMentions attributes =
      ((attributeNodes depth path attributes).filterMap Node.reference?).map (·.name) := by
  match attributes with
  | [] => rfl
  | (_, attr) :: rest =>
      rw [attributeMentions, attributeNodes, List.filterMap_append, List.map_append,
        ← mentions_eq_map attr, ← attributeMentions_eq_map rest]

end

@[simp] theorem map_name_references (tree : TypeTree) (path : Path) :
    (tree.references path).map (·.name) = tree.mentions :=
  (mentions_eq_map tree).symm

end TypeGuard.TypeTree
