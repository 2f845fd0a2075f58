import TypeGuard.Proofs.Congruence
import TypeGuard.Proofs.Limits

/-!
# Writing the guard of an unlabelled type

The label of a type and the list of optional names of an object are seen where the type is
spelled out on the right of a type alias, and where a problem shows a type as text.  Nothing
else that is written depends on them.

A type is written twice, side by side, with its labels and without them.  The two runs
take the same names all along.
-/

namespace TypeGuard

/-! ## Two runs side by side -/

/-- Both come to values that are related, or both fail and the failures are related. -/
inductive Parallel {ε α β : Type} (failing : ε → ε → Prop) (related : α → β → Prop) :
    Except ε α → Except ε β → Prop
  | ok {value : α} {other : β} :
      related value other → Parallel failing related (.ok value) (.ok other)
  | error {failure other : ε} :
      failing failure other → Parallel failing related (.error failure) (.error other)

/-- From related states, both go on to related values and states, or both fail alike. -/
def InStep {ε σ α β : Type} (failing : ε → ε → Prop) (states : σ → σ → Prop)
    (related : α → β → Prop) (action : StateT σ (Except ε) α) (other : StateT σ (Except ε) β) :
    Prop :=
  ∀ before start, states before start → Parallel failing
    (fun reached left => related reached.1 left.1 ∧ states reached.2 left.2)
    (action.run before) (other.run start)

section

variable {ε σ α β γ δ : Type} {failing : ε → ε → Prop} {states : σ → σ → Prop}
  {related : α → β → Prop} {later : γ → δ → Prop}

theorem Parallel.mono {first : Except ε α} {second : Except ε β}
    (h : Parallel failing related first second) {wider : α → β → Prop}
    (hwider : ∀ value partner, related value partner → wider value partner) :
    Parallel failing wider first second := by
  cases h with
  | ok hrelated => exact .ok (hwider _ _ hrelated)
  | error hfailing => exact .error hfailing

theorem Parallel.bind {first : Except ε α} {second : Except ε β}
    (h : Parallel failing related first second) {next : α → Except ε γ} {other : β → Except ε δ}
    (hnext : ∀ value partner, related value partner →
      Parallel failing later (next value) (other partner)) :
    Parallel failing later (first >>= next) (second >>= other) := by
  cases h with
  | ok hrelated => exact hnext _ _ hrelated
  | error hfailing => exact .error hfailing

theorem Parallel.join {middle : Except ε α} {first second : Except ε β}
    (hfirst : Parallel failing related middle first)
    (hsecond : Parallel failing related middle second) {joined : β → β → Prop}
    (hfailing : ∀ failure one other, failing failure one → failing failure other →
      failing one other)
    (hjoined : ∀ value one other, related value one → related value other → joined one other) :
    Parallel failing joined first second := by
  cases hfirst with
  | ok hone =>
      cases hsecond with
      | ok hother => exact .ok (hjoined _ _ _ hone hother)
  | error hone =>
      cases hsecond with
      | error hother => exact .error (hfailing _ _ _ hone hother)

theorem Parallel.inv {first : Except ε α} {second : Except ε β}
    (h : Parallel failing related first second) :
    (∃ value partner, first = .ok value ∧ second = .ok partner ∧ related value partner) ∨
      ∃ failure other, first = .error failure ∧ second = .error other ∧ failing failure other := by
  cases h with
  | ok hrelated => exact .inl ⟨_, _, rfl, rfl, hrelated⟩
  | error hfailing => exact .inr ⟨_, _, rfl, rfl, hfailing⟩

theorem Parallel.succeeds_iff {first : Except ε α} {second : Except ε β}
    (h : Parallel failing related first second) : Succeeds first ↔ Succeeds second := by
  cases h <;> simp [Succeeds]

theorem Parallel.of_mapError {change : ε → δ} {first second : Except ε α}
    (h : first.mapError change = second.mapError change) :
    Parallel (fun failure other => change failure = change other) Eq first second := by
  match first, second, h with
  | .ok _, .ok _, h => exact .ok (Except.ok.inj h)
  | .error _, .error _, h => exact .error (Except.error.inj h)

namespace InStep

variable {action : StateT σ (Except ε) α} {other : StateT σ (Except ε) β}

theorem pure {value : α} {partner : β} (h : related value partner) :
    InStep failing states related (pure value) (pure partner) :=
  fun _ _ hstates => .ok ⟨h, hstates⟩

theorem throw {failure partner : ε} (h : failing failure partner) :
    InStep failing states related (throw failure) (throw partner) :=
  fun _ _ _ => .error h

theorem bind (h : InStep failing states related action other)
    {next : α → StateT σ (Except ε) γ} {following : β → StateT σ (Except ε) δ}
    (hnext : ∀ value partner, related value partner →
      InStep failing states later (next value) (following partner)) :
    InStep failing states later (action >>= next) (other >>= following) := by
  intro before start hstates
  rw [StateT.run_bind, StateT.run_bind]
  refine (h before start hstates).bind ?_
  rintro ⟨value, middle⟩ ⟨partner, reached⟩ ⟨hvalue, hmiddle⟩
  exact hnext value partner hvalue middle reached hmiddle

theorem map (h : InStep failing states related action other) {f : α → γ} {g : β → δ}
    (hmap : ∀ value partner, related value partner → later (f value) (g partner)) :
    InStep failing states later (do return f (← action)) (do return g (← other)) :=
  h.bind fun value partner hvalue => .pure (hmap value partner hvalue)

theorem mono (h : InStep failing states related action other) {wider : α → β → Prop}
    (hwider : ∀ value partner, related value partner → wider value partner) :
    InStep failing states wider action other := by
  intro before start hstates
  exact (h before start hstates).mono fun _ _ hreached => ⟨hwider _ _ hreached.1, hreached.2⟩

end InStep

end

/-! ## Types without labels -/

namespace TypeTree

mutual

def unlabelled : TypeTree → TypeTree
  | .literal _ value => .literal .bare value
  | .primitive _ kind => .primitive .bare kind
  | .reference _ name => .reference .bare name
  | .array _ element => .array .bare (unlabelled element)
  | .union _ members => .union .bare (unlabelledMembers members)
  | .object _ attributes _ => .object .bare (unlabelledAttributes attributes) []

def unlabelledMembers : List TypeTree → List TypeTree
  | [] => []
  | member :: rest => unlabelled member :: unlabelledMembers rest

def unlabelledAttributes : List (String × TypeTree) → List (String × TypeTree)
  | [] => []
  | (name, attr) :: rest => (name, unlabelled attr) :: unlabelledAttributes rest

end

structure SameRoot (tree other : TypeTree) : Prop where
  aliasName : tree.aliasName = other.aliasName
  unlabelled : tree.unlabelled = other.unlabelled

@[simp] theorem unlabelled_union (label : Label) (members : List TypeTree) :
    (union label members).unlabelled = .union .bare (members.map unlabelled) := by
  rw [unlabelled]
  congr 1
  induction members with
  | nil => rfl
  | cons member rest ih => simp [unlabelledMembers, ih]

@[simp] theorem unlabelled_object (label : Label) (attributes : List (String × TypeTree))
    (optionalNames : List String) :
    (object label attributes optionalNames).unlabelled =
      .object .bare (Fields.mapValues unlabelled attributes) [] := by
  rw [unlabelled]
  congr 1
  induction attributes with
  | nil => rfl
  | cons attr rest ih =>
      rw [unlabelledAttributes, ih]
      rfl

@[simp] theorem isUnion_unlabelled (tree : TypeTree) : tree.unlabelled.isUnion = tree.isUnion := by
  cases tree <;> rfl

@[simp] theorem isObject_unlabelled (tree : TypeTree) :
    tree.unlabelled.isObject = tree.isObject := by
  cases tree <;> rfl

@[simp] theorem memberPath_unlabelled (path : Path) (index : Nat) (tree : TypeTree) :
    Writing.memberPath path index tree.unlabelled = Writing.memberPath path index tree := by
  cases tree <;> rfl

end TypeTree

/-! ## Problems without the types they show -/

def Problem.unshown : Problem → Problem
  | .unnamedRoot _ => .unnamedRoot ""
  | .objectInUnion place members => .objectInUnion place (members.map fun _ => "")
  | problem => problem

abbrev Problem.Like (problem other : Problem) : Prop := problem.unshown = other.unshown

def RootProblem.unshown (failure : RootProblem) : RootProblem :=
  ⟨failure.root, failure.problem.unshown⟩

abbrev RootProblem.Like (failure other : RootProblem) : Prop :=
  failure.unshown = other.unshown

theorem TypeTree.checkUnion_unlabelled (place : Path) (members : List TypeTree) :
    (checkUnion place (members.map unlabelled)).mapError Problem.unshown =
      (checkUnion place members).mapError Problem.unshown := by
  match members with
  | [] => rfl
  | [_] => rfl
  | first :: second :: rest =>
      have hlength : 2 ≤ (first :: second :: rest).length := by simp
      generalize first :: second :: rest = members at hlength
      have hunlabelled : 2 ≤ (members.map unlabelled).length := by rwa [List.length_map]
      have hunions : (members.map unlabelled).any isUnion = members.any isUnion := by
        simp [Function.comp_def]
      have hobjects : (members.map unlabelled).filter isObject =
          (members.filter isObject).map unlabelled := by
        simp [List.filter_map, Function.comp_def]
      rw [checkUnion_eq_of_two_le hunlabelled, checkUnion_eq_of_two_le hlength, hunions, hobjects]
      cases members.any isUnion with
      | true => rfl
      | false =>
          cases members.filter isObject with
          | nil => rfl
          | cons object others => simp [Except.mapError, Problem.unshown, Function.comp_def]

/-! ## Code without type aliases -/

mutual

/-- The statement without what its type aliases stand for.  All other annotations stay. -/
def Stmt.unaliased : Stmt → Stmt
  | .typeAlias name params _ => .typeAlias name params .unknown
  | .function name exported param paramType returns body =>
      .function name exported param paramType returns (unaliasedIn body)
  | .branch test body => .branch test (unaliasedIn body)
  | stmt => stmt

def unaliasedIn : List Stmt → List Stmt
  | [] => []
  | stmt :: rest => stmt.unaliased :: unaliasedIn rest

end

@[simp] theorem unaliasedIn_eq_map (body : List Stmt) :
    unaliasedIn body = body.map Stmt.unaliased := by
  induction body with
  | nil => rfl
  | cons stmt rest ih => simp [unaliasedIn, ih]

@[simp] theorem unaliasedIn_append (first second : List Stmt) :
    unaliasedIn (first ++ second) = unaliasedIn first ++ unaliasedIn second := by
  simp only [unaliasedIn_eq_map, List.map_append]

def Function.unaliased (f : Function) : Function := { f with body := unaliasedIn f.body }

def GuardFile.unaliased (file : GuardFile) : GuardFile := ⟨unaliasedIn file.statements⟩

def Assertions.unaliased (assertions : Assertions) : Assertions :=
  ⟨unaliasedIn assertions.hoisted, unaliasedIn assertions.body⟩

def Condition.unaliased (condition : Condition) : Condition :=
  ⟨unaliasedIn condition.hoisted, condition.test⟩

@[simp] theorem Function.unaliased_toStmt (f : Function) :
    f.toStmt.unaliased = f.unaliased.toStmt := by
  rw [toStmt, Stmt.unaliased]
  rfl

@[simp] theorem Assertions.unaliased_append (first second : Assertions) :
    (first.append second).unaliased = first.unaliased.append second.unaliased := by
  simp only [unaliased, append, unaliasedIn_append]

theorem unaliasedIn_flatMap (conditions : List Condition) :
    unaliasedIn (conditions.flatMap (·.hoisted)) =
      (conditions.map Condition.unaliased).flatMap (·.hoisted) := by
  rw [unaliasedIn_eq_map, List.map_flatMap, List.flatMap_map]
  simp only [Condition.unaliased, unaliasedIn_eq_map]

namespace Writing

/-! ## Writing side by side -/

abbrev Twin {α β : Type} (view : α → β) (action other : Writing α) : Prop :=
  InStep Problem.Like Eq (fun value partner => view value = view partner) action other

theorem same {α : Type} (action : Writing α) : InStep Problem.Like Eq Eq action action := by
  rintro before _ rfl
  cases action.run before with
  | ok reached => exact .ok ⟨rfl, rfl⟩
  | error problem => exact .error rfl

theorem Twin.refl {α β : Type} (view : α → β) (action : Writing α) : Twin view action action :=
  (same action).mono fun _ _ h => congrArg view h

def WriterTwin (write : Writer) : Prop :=
  ∀ path target type tree, Twin Assertions.unaliased (write path target type tree.unlabelled)
    (write path target type tree)

section

variable {settings : Settings} {write : Writer} {path : Path} {target : String}

theorem guardFunction_twin (hw : WriterTwin write) (name : String) (type : TypeExpr)
    (param : String) (path : Path) (exported : Bool) (tree : TypeTree) :
    Twin Function.unaliased (guardFunction write name type param path exported tree.unlabelled)
      (guardFunction write name type param path exported tree) := by
  refine (same (reserveLocal param)).bind fun _ _ _ => ?_
  refine (hw path param type tree).map fun assertions others h => ?_
  obtain ⟨hhoisted, hbody⟩ := Assertions.mk.inj h
  simp only [Function.unaliased, unaliasedIn_append, hhoisted, hbody]

theorem arrayCondition_twin (hw : WriterTwin write) (path : Path) (target : String)
    (element : TypeTree) :
    Twin Condition.unaliased (arrayCondition write path target element.unlabelled)
      (arrayCondition write path target element) := by
  refine (same (freshType path _)).bind ?_
  rintro typeName _ rfl
  refine (same (freshFunction path _)).bind ?_
  rintro functionName _ rfl
  refine (same (freshLocal path rootParam)).bind ?_
  rintro param _ rfl
  refine (guardFunction_twin hw functionName _ param _ false element).map fun nested other h => ?_
  -- Only here the type itself is spelled out, as that of an alias.
  simp only [Condition.unaliased, unaliasedIn, Stmt.unaliased, Function.unaliased_toStmt, h]

theorem condition_twin (hw : WriterTwin write) (path : Path) (target : String)
    (tree : TypeTree) :
    Twin Condition.unaliased (condition settings write path target tree.unlabelled)
      (condition settings write path target tree) := by
  cases tree with
  | reference label name => exact .refl _ _
  | primitive label kind => exact .refl _ _
  | literal label value => exact .refl _ _
  | array label element => exact arrayCondition_twin hw path target element
  | union label members => exact .throw rfl
  | object label attributes optionalNames => exact .throw rfl

theorem memberConditions_twin {write : Path → TypeTree → Writing Condition}
    (hw : ∀ path tree, Twin Condition.unaliased (write path tree.unlabelled) (write path tree))
    (path : Path) (index : Nat) (members : List TypeTree) :
    Twin (List.map Condition.unaliased)
      (memberConditions write path index (members.map TypeTree.unlabelled))
      (memberConditions write path index members) := by
  induction members generalizing index with
  | nil => exact .pure rfl
  | cons member rest ih =>
      simp only [List.map_cons, memberConditions, TypeTree.memberPath_unlabelled]
      refine (hw _ member).bind fun first other hfirst => ?_
      refine (ih (index + 1)).map fun conditions others hrest => ?_
      simp only [List.map_cons, hfirst, hrest]

theorem unionCondition_twin {write : Path → TypeTree → Writing Condition}
    (hw : ∀ path tree, Twin Condition.unaliased (write path tree.unlabelled) (write path tree))
    (path : Path) (members : List TypeTree) :
    Twin Condition.unaliased (unionCondition write path (members.map TypeTree.unlabelled))
      (unionCondition write path members) := by
  unfold unionCondition
  rcases (Parallel.of_mapError (TypeTree.checkUnion_unlabelled path members)).inv with
    ⟨_, _, hcheck, hchecked, -⟩ | ⟨_, _, hcheck, hchecked, hproblem⟩
  · rw [hcheck, hchecked]
    refine (memberConditions_twin hw path 0 members).map fun conditions others h => ?_
    have htests : conditions.map (·.test) = others.map (·.test) := by
      simpa [Condition.unaliased, Function.comp_def] using congrArg (List.map (·.test)) h
    simp only [Condition.unaliased, unaliasedIn_flatMap, h, htests]
  · rw [hcheck, hchecked]
    exact .throw hproblem

theorem attributeAssertions_twin (hw : WriterTwin write) (path : Path) (type : TypeExpr)
    (bindings : List Binding) (trees : List TypeTree) :
    Twin Assertions.unaliased
      (attributeAssertions write path type (bindings.zip (trees.map TypeTree.unlabelled)))
      (attributeAssertions write path type (bindings.zip trees)) := by
  induction bindings generalizing trees with
  | nil => exact .refl _ _
  | cons binding rest ih =>
      cases trees with
      | nil => exact .refl _ _
      | cons tree trees =>
          refine (hw _ _ _ tree).bind fun first other hfirst => ?_
          refine (ih trees).map fun assertions others hrest => ?_
          simp [hfirst, hrest]

theorem objectAssertions_twin (hw : WriterTwin write) (path : Path) (target : String)
    (type : TypeExpr) (attributes : List (String × TypeTree)) :
    Twin Assertions.unaliased
      (objectAssertions settings write path target type
        (Fields.mapValues TypeTree.unlabelled attributes))
      (objectAssertions settings write path target type attributes) := by
  have htrees : (Fields.mapValues TypeTree.unlabelled attributes).map (·.2) =
      (attributes.map (·.2)).map TypeTree.unlabelled := by
    simp [Fields.mapValues]
  unfold objectAssertions
  rw [htrees, Fields.names_mapValues]
  refine (same (bindAttributes path _)).bind ?_
  rintro bindings _ rfl
  refine (attributeAssertions_twin hw path type bindings _).bind fun inner other h => ?_
  refine (same (selfCheck settings path type bindings)).map ?_
  rintro check _ rfl
  obtain ⟨hhoisted, hbody⟩ := Assertions.mk.inj h
  simp only [Assertions.unaliased, unaliasedIn_append, unaliasedIn, List.cons_append, hhoisted,
    hbody]

end

theorem unaliased_ofCondition (first second : Condition)
    (h : first.unaliased = second.unaliased) :
    (Assertions.mk first.hoisted [.guard first.test]).unaliased =
      (Assertions.mk second.hoisted [.guard second.test]).unaliased := by
  obtain ⟨hhoisted, htest⟩ := Condition.mk.inj h
  simp only [Assertions.unaliased, hhoisted, htest]

theorem assertions_twin (settings : Settings) (budget : Nat) :
    WriterTwin (assertions settings budget) := by
  -- Like the writer itself, the induction reaches back two levels for a union.
  induction budget using Nat.strongRecOn with
  | ind budget ih =>
      intro path target type tree
      cases budget with
      | zero => exact .throw rfl
      | succ budget =>
          have hbelow := ih budget (Nat.lt_succ_self budget)
          cases tree with
          | object label attributes optionalNames =>
              rw [TypeTree.unlabelled_object]
              exact objectAssertions_twin hbelow path target type attributes
          | union label members =>
              rw [TypeTree.unlabelled_union]
              cases budget with
              | zero =>
                  exact (unionCondition_twin (fun path _ => .refl _ (tooDeep settings path)) path
                    members).map unaliased_ofCondition
              | succ inner =>
                  have hinner := ih inner (by omega)
                  exact (unionCondition_twin
                    (fun path tree => condition_twin hinner path target tree) path
                    members).map unaliased_ofCondition
          | _ => exact (condition_twin hbelow path target _).map unaliased_ofCondition

end Writing

end TypeGuard
