import TypeGuard.Proofs.Calls
import TypeGuard.Proofs.Identifiers

/-!
# The annotations of written code

Nothing runs the annotations of a guard.  A destructuring is annotated with the properties
of a type, and the constant of a self-check with the type itself; both spell it as a path
from the alias of the root, or from the alias that was hoisted for the element of an array.
Followed through the aliases, each path leads to the type of the very object that is being
checked, although it is threaded through the writer apart from the local that holds the
object's value.
-/

namespace TypeGuard

/-! ## What annotations stand for -/

namespace TypeExpr

def property? (name : String) : TypeExpr → Option TypeExpr
  | .object properties => (Fields.find? name properties).map (·.2)
  | _ => none

def propertyNames : TypeExpr → List String
  | .object properties => Fields.names properties
  | _ => []

def resolve? (aliases : Fields TypeExpr) : TypeExpr → Option TypeExpr
  | .ref name => Fields.find? name aliases
  | .index target name => (resolve? aliases target).bind (property? name)
  | type => some type

end TypeExpr

mutual

def Stmt.aliases : Stmt → Fields TypeExpr
  | .imports .. | .ret _ | .destructure .. | .const .. => []
  | .typeAlias name _ type => [(name, type)]
  | .function _ _ _ _ _ body => aliasesIn body
  | .branch _ body => aliasesIn body

def aliasesIn : List Stmt → Fields TypeExpr
  | [] => []
  | stmt :: rest => stmt.aliases ++ aliasesIn rest

end

mutual

def Stmt.bindings : Stmt → List Stmt
  | .imports .. | .ret _ | .typeAlias .. => []
  | .destructure bindings type source => [.destructure bindings type source]
  | .const name type value => [.const name type value]
  | .function _ _ _ _ _ body => bindingsIn body
  | .branch _ body => bindingsIn body

def bindingsIn : List Stmt → List Stmt
  | [] => []
  | stmt :: rest => stmt.bindings ++ bindingsIn rest

end

def partsIn (body : List Stmt) : List Expr := (exprsIn body).flatMap Expr.parts

@[simp] theorem aliasesIn_append (first second : List Stmt) :
    aliasesIn (first ++ second) = aliasesIn first ++ aliasesIn second := by
  induction first with
  | nil => rfl
  | cons stmt rest ih => simp [aliasesIn, ih]

@[simp] theorem bindingsIn_append (first second : List Stmt) :
    bindingsIn (first ++ second) = bindingsIn first ++ bindingsIn second := by
  induction first with
  | nil => rfl
  | cons stmt rest ih => simp [bindingsIn, ih]

@[simp] theorem bindingsIn_nil : bindingsIn [] = [] := rfl

@[simp] theorem bindingsIn_guard (test : Expr) (rest : List Stmt) :
    bindingsIn (.guard test :: rest) = bindingsIn rest := rfl

mutual

theorem Stmt.names_aliases_sublist (stmt : Stmt) :
    (Fields.names stmt.aliases).Sublist stmt.typed := by
  match stmt with
  | .imports .. | .ret _ | .destructure .. | .const .. | .typeAlias .. => exact .refl _
  | .function name _ _ _ _ body => exact (names_aliasesIn_sublist body).cons name
  | .branch _ body => exact names_aliasesIn_sublist body

theorem names_aliasesIn_sublist (body : List Stmt) :
    (Fields.names (aliasesIn body)).Sublist (typedIn body) := by
  match body with
  | [] => exact .refl _
  | stmt :: rest =>
      rw [aliasesIn, Fields.names, List.map_append]
      exact (Stmt.names_aliases_sublist stmt).append (names_aliasesIn_sublist rest)

end

/-! ## Annotated objects -/

/-- The statements for one object of this type: its attributes are taken from the target, and
a constant spells out what they were bound to, in order.  Both annotations lead to the type.
An object without attributes has only the constant. -/
inductive Spelled (aliases : Fields TypeExpr) (body : List Stmt) (target : String)
    (type : TypeExpr) : List Binding → List Stmt → Prop
  | hollow {name : String} {spelling : TypeExpr} :
      type.propertyNames = [] →
      .const name (some spelling) (.object []) ∈ body →
      spelling.resolve? aliases = some type →
      Spelled aliases body target type [] [.const name (some spelling) (.object [])]
  | filled {bindings : List Binding} {name : String} {source spelling : TypeExpr} :
      bindings ≠ [] → bindings.map (·.property) = type.propertyNames →
      .destructure bindings (some (.generic Writing.shallowTypeName [source])) (.ident target) ∈
        body →
      source.resolve? aliases = some type →
      .const name (some spelling) (.object (Writing.checkedEntries bindings)) ∈ body →
      spelling.resolve? aliases = some type →
      Spelled aliases body target type bindings
        [.destructure bindings (some (.generic Writing.shallowTypeName [source])) (.ident target),
          .const name (some spelling) (.object (Writing.checkedEntries bindings))]

inductive Narrows (aliases : Fields TypeExpr) (f : Function) (tree : TypeTree) : Prop
  | intro {spelling : TypeExpr} : f.returns = .narrows f.param spelling →
      spelling.resolve? aliases = some tree.toTypeExpr → Narrows aliases f tree

section

variable (aliases : Fields TypeExpr)

mutual

/-- A body that checks a target against a type, with the statements for the objects in that
type.  The attributes of an object are checked in the same body, each under the local that
it is bound to, and so are the members of a union.  The items of an array are checked by
a nested function that `every` is called with. -/
inductive Annotated : List Stmt → String → TypeTree → List Stmt → Prop
  | literal {body : List Stmt} {target : String} {label : Label} {value : Literal} :
      Annotated body target (.literal label value) []
  | primitive {body : List Stmt} {target : String} {label : Label} {kind : Primitive} :
      Annotated body target (.primitive label kind) []
  | reference {body : List Stmt} {target name : String} {label : Label} :
      Annotated body target (.reference label name) []
  | array {body : List Stmt} {target : String} {label : Label} {element : TypeTree}
      {nested : Function} {statements : List Stmt} :
      nested.toStmt ∈ body →
      .call (.member (.ident target) "every") [.ident nested.name] ∈ partsIn body →
      Narrows aliases nested element →
      Annotated nested.body nested.param element statements →
      Annotated body target (.array label element) statements
  | union {body : List Stmt} {target : String} {label : Label} {members : List TypeTree}
      {statements : List Stmt} :
      AnnotatedMembers body target members statements →
      Annotated body target (.union label members) statements
  | object {body : List Stmt} {target : String} {label : Label}
      {attributes : List (String × TypeTree)} {optionalNames : List String}
      {bindings : List Binding} {own statements : List Stmt} :
      Spelled aliases body target (TypeTree.object label attributes optionalNames).toTypeExpr
        bindings own →
      AnnotatedAttributes body (bindings.zip (attributes.map (·.2))) statements →
      Annotated body target (.object label attributes optionalNames) (own ++ statements)

inductive AnnotatedMembers : List Stmt → String → List TypeTree → List Stmt → Prop
  | nil {body : List Stmt} {target : String} : AnnotatedMembers body target [] []
  | cons {body : List Stmt} {target : String} {member : TypeTree} {rest : List TypeTree}
      {first others : List Stmt} :
      Annotated body target member first → AnnotatedMembers body target rest others →
      AnnotatedMembers body target (member :: rest) (first ++ others)

inductive AnnotatedAttributes : List Stmt → List (Binding × TypeTree) → List Stmt → Prop
  | nil {body : List Stmt} : AnnotatedAttributes body [] []
  | cons {body : List Stmt} {binding : Binding} {tree : TypeTree}
      {rest : List (Binding × TypeTree)} {first others : List Stmt} :
      Annotated body binding.localName tree first → AnnotatedAttributes body rest others →
      AnnotatedAttributes body ((binding, tree) :: rest) (first ++ others)

end

end

/-! ## Types of objects -/

namespace TypeTree

@[simp] theorem propertyTypes_eq_map (optionalNames : List String)
    (attributes : List (String × TypeTree)) :
    propertyTypes optionalNames attributes = attributes.map fun attr =>
      (attr.1, attr.2.label.optional || optionalNames.contains attr.1, attr.2.toTypeExpr) := by
  induction attributes with
  | nil => rfl
  | cons attr rest ih => simp [propertyTypes, ih]

@[simp] theorem propertyNames_object (label : Label) (attributes : List (String × TypeTree))
    (optionalNames : List String) :
    (object label attributes optionalNames).toTypeExpr.propertyNames = Fields.names attributes := by
  simp [toTypeExpr, TypeExpr.propertyNames, Fields.names]

theorem property?_object (label : Label) {attributes : List (String × TypeTree)}
    {optionalNames : List String} (hnodup : (Fields.names attributes).Nodup) {name : String}
    {attr : TypeTree} (hmem : (name, attr) ∈ attributes) :
    (object label attributes optionalNames).toTypeExpr.property? name = some attr.toTypeExpr := by
  have hnames : (Fields.names (propertyTypes optionalNames attributes)).Nodup := by
    rw [← propertyNames_object label attributes optionalNames] at hnodup
    exact hnodup
  have hproperty : (name, attr.label.optional || optionalNames.contains name, attr.toTypeExpr) ∈
      propertyTypes optionalNames attributes := by
    rw [propertyTypes_eq_map]
    exact List.mem_map_of_mem hmem
  rw [toTypeExpr, TypeExpr.property?, Fields.find?_of_mem hnames hproperty, Option.map_some]

end TypeTree

/-! ## Tests in a body -/

theorem Expr.parts_subset_anyOf (tests : List Expr) :
    ∀ test ∈ tests, test.parts ⊆ (Writing.anyOf tests).parts := by
  have hfold : ∀ (rest : List Expr) (first : Expr), first.parts ⊆ (rest.foldl Expr.or first).parts ∧
      ∀ test ∈ rest, test.parts ⊆ (rest.foldl Expr.or first).parts := by
    intro rest
    induction rest with
    | nil => simp
    | cons second others ih =>
        intro first
        obtain ⟨hor, hothers⟩ := ih (.or first second)
        rw [parts, List.cons_subset, List.append_subset] at hor
        exact ⟨hor.2.1, List.forall_mem_cons.mpr ⟨hor.2.2, hothers⟩⟩
  cases tests with
  | nil => simp
  | cons first rest => exact List.forall_mem_cons.mpr (hfold rest first)

theorem exprs_subset_exprsIn {body : List Stmt} : ∀ stmt ∈ body, stmt.exprs ⊆ exprsIn body := by
  induction body with
  | nil => simp
  | cons first rest ih =>
      exact List.forall_mem_cons.mpr ⟨List.subset_append_left _ _, fun stmt hstmt =>
        List.subset_append_of_subset_right _ (ih stmt hstmt)⟩

theorem parts_subset_partsIn {body : List Stmt} {test : Expr} (h : Stmt.guard test ∈ body) :
    test.parts ⊆ partsIn body := by
  intro part hpart
  have hnot : Expr.not test ∈ exprsIn body := exprs_subset_exprsIn _ h List.mem_cons_self
  exact List.mem_flatMap.mpr ⟨_, hnot, List.mem_cons_of_mem _ hpart⟩

namespace Writing

variable {settings : Settings} {aliases : Fields TypeExpr}

/-! ## Written code is annotated -/

def Knows (aliases : Fields TypeExpr) (body : List Stmt) : Prop :=
  ∀ entry ∈ aliasesIn body, Fields.find? entry.1 aliases = some entry.2

@[simp] theorem knows_append {first second : List Stmt} :
    Knows aliases (first ++ second) ↔ Knows aliases first ∧ Knows aliases second := by
  simp only [Knows, aliasesIn_append, List.forall_mem_append]

theorem perm_around {α : Type} {first last inside before after : List α}
    (h : inside.Perm (before ++ after)) :
    (first ++ last ++ inside).Perm (before ++ (first ++ after ++ last)) := by
  classical
  refine (h.append_left _).trans (List.perm_iff_count.mpr fun item => ?_)
  simp only [List.count_append]
  omega

theorem SelfCheckWritten.spelled {body : List Stmt} {path : Path} {target : String}
    {type spelled : TypeExpr} {bindings : List Binding} {check : List Stmt}
    {before after : Draft}
    (h : SelfCheckWritten settings path type bindings before check after)
    (hchecks : settings.selfChecks = true)
    (hnames : bindings.map (·.property) = spelled.propertyNames)
    (htype : type.resolve? aliases = some spelled)
    (hdestructuring : destructuring type target bindings ⊆ body) (hcheck : check ⊆ body) :
    Spelled aliases body target spelled bindings
      (destructuring type target bindings ++ check) := by
  cases h with
  | off hoff =>
      rw [hchecks] at hoff
      cases hoff
  | on _ _ =>
      have hconstant := hcheck List.mem_cons_self
      cases bindings with
      | nil => exact .hollow hnames.symm hconstant htype
      | cons binding rest =>
          have hsource := hdestructuring List.mem_cons_self
          exact .filled (List.cons_ne_nil _ _) hnames hsource htype hconstant htype

@[simp] theorem bindingsIn_destructuring (type : TypeExpr) (target : String)
    (bindings : List Binding) :
    bindingsIn (destructuring type target bindings) = destructuring type target bindings := by
  cases bindings <;> rfl

theorem SelfCheckWritten.bindings {path : Path} {type : TypeExpr} {bindings : List Binding}
    {check : List Stmt} {before after : Draft}
    (h : SelfCheckWritten settings path type bindings before check after) :
    bindingsIn check = check := by
  cases h <;> rfl

mutual

theorem GuardWritten.annotated {name param : String} {type : TypeExpr} {path : Path}
    {exported : Bool} {tree : TypeTree} {guard : Function} {before after : Draft}
    (h : GuardWritten settings name type param path exported tree before guard after)
    (hchecks : settings.selfChecks = true) (hknows : Knows aliases guard.body)
    (htype : type.resolve? aliases = some tree.toTypeExpr) :
    Narrows aliases guard tree ∧ ∃ statements, statements.Perm (bindingsIn guard.body) ∧
      Annotated aliases guard.body guard.param tree statements := by
  match h with
  | @GuardWritten.intro _ _ _ _ _ _ _ assertions _ _ hwritten =>
      rw [knows_append, knows_append] at hknows
      have hhoisted : assertions.hoisted ⊆ assertions.hoisted ++ assertions.body ++
          [.ret (Expr.bool true)] :=
        List.subset_append_of_subset_left _ (List.subset_append_left _ _)
      have hbody : assertions.body ⊆ assertions.hoisted ++ assertions.body ++
          [.ret (Expr.bool true)] :=
        List.subset_append_of_subset_left _ (List.subset_append_right _ _)
      obtain ⟨statements, hperm, hannotated⟩ :=
        hwritten.annotated hchecks hknows.1.1 htype hhoisted hbody
      refine ⟨.intro rfl htype, statements, ?_, hannotated⟩
      simpa [bindingsIn, Stmt.bindings] using hperm

theorem AssertionsWritten.annotated {body : List Stmt} {path : Path} {target : String}
    {type : TypeExpr} {tree : TypeTree} {assertions : Assertions} {before after : Draft}
    (h : AssertionsWritten settings path target type tree before assertions after)
    (hchecks : settings.selfChecks = true) (hknows : Knows aliases assertions.hoisted)
    (htype : type.resolve? aliases = some tree.toTypeExpr)
    (hhoisted : assertions.hoisted ⊆ body) (hbody : assertions.body ⊆ body) :
    ∃ statements,
      statements.Perm (bindingsIn assertions.hoisted ++ bindingsIn assertions.body) ∧
        Annotated aliases body target tree statements := by
  match h with
  | @AssertionsWritten.object _ _ _ _ label attributes _ bindings inner check _ _ _ _ hbound hinner
      hcheck =>
      have hproperties := hbound.properties
      -- The path to an attribute leads to the attribute that is bound under its name.
      have htypes : ∀ attr ∈ bindings.zip (attributes.map (·.2)),
          (TypeExpr.index type attr.1.property).resolve? aliases = some attr.2.toTypeExpr := by
        intro attr hattr
        rw [TypeExpr.resolve?, htype]
        refine TypeTree.property?_object label hbound.names_nodup.1 ?_
        rw [← map_zip_properties hproperties]
        exact List.mem_map_of_mem (f := fun attr => (attr.1.property, attr.2)) hattr
      simp only [List.cons_append, List.cons_subset, List.append_subset] at hbody
      obtain ⟨-, ⟨hdestructuring, hinside⟩, hconstant⟩ := hbody
      obtain ⟨statements, hperm, hannotated⟩ :=
        hinner.annotated hchecks hknows htypes hhoisted hinside
      refine ⟨destructuring type target bindings ++ check ++ statements, ?_,
        .object (hcheck.spelled hchecks ?_ htype hdestructuring hconstant) hannotated⟩
      · simp only [List.cons_append, bindingsIn_guard, bindingsIn_append,
          bindingsIn_destructuring, hcheck.bindings]
        exact perm_around hperm
      · simp [hproperties]
  | .union _ hmembers =>
      rw [List.cons_subset] at hbody
      have htests := parts_subset_partsIn hbody.1
      obtain ⟨statements, hperm, hannotated⟩ :=
        hmembers.annotated hchecks hknows hhoisted fun condition hcondition =>
          List.Subset.trans (Expr.parts_subset_anyOf _ _ (List.mem_map_of_mem hcondition)) htests
      exact ⟨statements, by simpa using hperm, .union hannotated⟩
  | .single hcondition =>
      rw [List.cons_subset] at hbody
      obtain ⟨statements, hperm, hannotated⟩ :=
        hcondition.annotated hchecks hknows hhoisted (parts_subset_partsIn hbody.1)
      exact ⟨statements, by simpa using hperm, hannotated⟩

theorem ConditionWritten.annotated {body : List Stmt} {path : Path} {target : String}
    {tree : TypeTree} {condition : Condition} {before after : Draft}
    (h : ConditionWritten settings path target tree before condition after)
    (hchecks : settings.selfChecks = true) (hknows : Knows aliases condition.hoisted)
    (hhoisted : condition.hoisted ⊆ body) (htest : condition.test.parts ⊆ partsIn body) :
    ∃ statements, statements.Perm (bindingsIn condition.hoisted) ∧
      Annotated aliases body target tree statements := by
  match h with
  | .reference => exact ⟨[], .refl _, .reference⟩
  | .primitive => exact ⟨[], .refl _, .primitive⟩
  | .literal => exact ⟨[], .refl _, .literal⟩
  | .array _ _ _ hnested =>
      rw [Knows, aliasesIn, Stmt.aliases, List.singleton_append, List.forall_mem_cons] at hknows
      obtain ⟨halias, hknows⟩ := hknows
      rw [aliasesIn, aliasesIn, List.append_nil] at hknows
      obtain ⟨hnarrows, statements, hperm, hannotated⟩ := hnested.annotated hchecks hknows halias
      rw [List.cons_subset, List.cons_subset] at hhoisted
      refine ⟨statements, ?_, .array hhoisted.2.1 (htest ?_) hnarrows hannotated⟩
      · simpa [bindingsIn, Stmt.bindings, Function.toStmt] using hperm
      · rw [hnested.name]
        simp [Expr.parts]

theorem MembersWritten.annotated {body : List Stmt} {path : Path} {target : String}
    {index : Nat} {members : List TypeTree} {conditions : List Condition} {before after : Draft}
    (h : MembersWritten settings path target index members before conditions after)
    (hchecks : settings.selfChecks = true) (hknows : Knows aliases (conditions.flatMap (·.hoisted)))
    (hhoisted : conditions.flatMap (·.hoisted) ⊆ body)
    (htests : ∀ condition ∈ conditions, condition.test.parts ⊆ partsIn body) :
    ∃ statements, statements.Perm (bindingsIn (conditions.flatMap (·.hoisted))) ∧
      AnnotatedMembers aliases body target members statements := by
  match h with
  | .nil => exact ⟨[], .refl _, .nil⟩
  | .cons hfirst hrest =>
      rw [List.flatMap_cons, knows_append] at hknows
      rw [List.flatMap_cons, List.append_subset] at hhoisted
      rw [List.forall_mem_cons] at htests
      obtain ⟨first, hperm, hannotated⟩ := hfirst.annotated hchecks hknows.1 hhoisted.1 htests.1
      obtain ⟨others, hothers, hmembers⟩ := hrest.annotated hchecks hknows.2 hhoisted.2 htests.2
      refine ⟨first ++ others, ?_, .cons hannotated hmembers⟩
      simpa using hperm.append hothers

theorem AttributesWritten.annotated {body : List Stmt} {path : Path} {type : TypeExpr}
    {attributes : List (Binding × TypeTree)} {assertions : Assertions} {before after : Draft}
    (h : AttributesWritten settings path type attributes before assertions after)
    (hchecks : settings.selfChecks = true) (hknows : Knows aliases assertions.hoisted)
    (htypes : ∀ attr ∈ attributes,
      (TypeExpr.index type attr.1.property).resolve? aliases = some attr.2.toTypeExpr)
    (hhoisted : assertions.hoisted ⊆ body) (hbody : assertions.body ⊆ body) :
    ∃ statements,
      statements.Perm (bindingsIn assertions.hoisted ++ bindingsIn assertions.body) ∧
        AnnotatedAttributes aliases body attributes statements := by
  match h with
  | .nil => exact ⟨[], .refl _, .nil⟩
  | .cons hfirst hrest =>
      rw [List.forall_mem_cons] at htypes
      rw [Assertions.append, knows_append] at hknows
      rw [Assertions.append, List.append_subset] at hhoisted hbody
      obtain ⟨first, hperm, hannotated⟩ :=
        hfirst.annotated hchecks hknows.1 htypes.1 hhoisted.1 hbody.1
      obtain ⟨others, hothers, hmembers⟩ :=
        hrest.annotated hchecks hknows.2 htypes.2 hhoisted.2 hbody.2
      refine ⟨first ++ others, ?_, .cons hannotated hmembers⟩
      rw [Assertions.append, bindingsIn_append, bindingsIn_append]
      exact (hperm.append hothers).trans (append_perm_interleave _ _ _ _)

end

end Writing

namespace Registry

open Writing

variable {registry later : Registry} {tree : TypeTree}

/-! ## Annotations of registered guards -/

def aliasesOf (aliasName : String) (tree : TypeTree) (guard : Function) : Fields TypeExpr :=
  (aliasName, tree.toTypeExpr) :: aliasesIn guard.body

theorem Hygienic.names_aliasesOf_nodup {aliasName : String} {guard : Function}
    (h : registry.Hygienic aliasName guard) (tree : TypeTree) :
    (Fields.names (aliasesOf aliasName tree guard)).Nodup := by
  have hsublist := names_aliasesIn_sublist guard.body
  refine List.nodup_cons.mpr ⟨fun hmem => ?_, h.typed_nodup.sublist hsublist⟩
  exact h.aliases aliasName (admits_iff.mpr (.inl rfl)) (hsublist.subset hmem)

/-- With self-checks on, the annotations of a registered guard lead to the types of the
objects that they stand at.  Each alias is defined once, and each destructuring and each
constant of the guard is that of one object. -/
theorem register_annotated (registry later : Registry) (tree : TypeTree)
    (hchecks : registry.settings.selfChecks = true) (h : registry.register tree = .ok later) :
    ∃ aliasName guard statements, tree.aliasName = some aliasName ∧
      Fields.find? aliasName later.guards = some guard ∧
      (Fields.names (aliasesOf aliasName tree guard)).Nodup ∧
      Narrows (aliasesOf aliasName tree guard) guard tree ∧
      statements.Perm (bindingsIn guard.body) ∧
      Annotated (aliasesOf aliasName tree guard) guard.body guard.param tree statements := by
  obtain ⟨aliasName, _, _, halias, -⟩ := register_ok h
  obtain ⟨guard, references, hwrite, -, rfl⟩ := register_eq_ok halias h
  have hnodup := (hygienic_of_write hwrite).names_aliasesOf_nodup tree
  obtain ⟨after, hwritten, -⟩ := write_ok hwrite
  have hroot : (TypeExpr.ref aliasName).resolve? (aliasesOf aliasName tree guard) =
      some tree.toTypeExpr :=
    Fields.find?_of_mem hnodup List.mem_cons_self
  obtain ⟨hnarrows, statements, hperm, hannotated⟩ := hwritten.annotated hchecks
    (fun entry hentry => Fields.find?_of_mem hnodup (List.mem_cons_of_mem _ hentry)) hroot
  exact ⟨aliasName, guard, statements, halias, Fields.find?_insert_self .., hnodup, hnarrows, hperm,
    hannotated⟩

def nestedTree : TypeTree :=
  .object ⟨false, some "Order"⟩
    [("items", .array .bare (.object .bare
        [("tag", .object .bare [("id", .primitive .bare .number)] []),
          ("sizes", .union .bare
            [.array .bare (.object .bare [("width", .primitive .bare .number)] []),
              .array .bare (.primitive .bare .string)])] [])),
      ("note", .object .bare [] [])] ["note"]

theorem register_annotated_nestedTree :
    ∃ later guard statements, (empty .standard).register nestedTree = .ok later ∧
      Fields.find? "Order" later.guards = some guard ∧ statements.length = 9 ∧
      Annotated (aliasesOf "Order" nestedTree guard) guard.body guard.param nestedTree
        statements := by
  have hsome : (((empty .standard).register nestedTree).toOption.bind fun later =>
      (Fields.find? "Order" later.guards).map fun guard => (bindingsIn guard.body).length) =
        some 9 := by decide +kernel
  obtain ⟨later, hlater, hsome⟩ := Option.bind_eq_some_iff.mp hsome
  obtain ⟨found, hfound, hlength⟩ := Option.map_eq_some_iff.mp hsome
  have hregister := eq_ok_of_toOption hlater
  obtain ⟨aliasName, guard, statements, halias, hguard, -, -, hperm, hannotated⟩ :=
    register_annotated (empty .standard) later nestedTree rfl hregister
  cases halias
  cases hfound.symm.trans hguard
  exact ⟨later, found, statements, hregister, hguard, hperm.length_eq.trans hlength, hannotated⟩

end Registry

end TypeGuard
