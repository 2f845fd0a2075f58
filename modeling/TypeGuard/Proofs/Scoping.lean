import TypeGuard.Proofs.Calls
import TypeGuard.Proofs.Declarations

/-!
# What the names in written code refer to

A body sees the functions and the types that it declares itself, wherever it declares them,
and those of the bodies around it.  It sees the parameter of its own function, and the
locals that were bound before.  Code is closed if it uses no other name than these and the
built-in `Array`.

Written code is closed where the guards of all aliases that the type mentions can be seen:
an attribute is tested after its object was taken apart, and what is hoisted is declared in
the body that uses it.
-/

namespace TypeGuard

/-! ## Names in types -/

mutual

def TypeExpr.names : TypeExpr → List String
  | .unknown | .keyword _ | .literal _ => []
  | .ref name => [name]
  | .array element => element.names
  | .union members => memberTypeNames members
  | .object properties => propertyTypeNames properties
  | .index target _ => target.names
  | .generic name arguments => name :: memberTypeNames arguments
  | .mappedOptional _ source => source.names

def memberTypeNames : List TypeExpr → List String
  | [] => []
  | member :: rest => member.names ++ memberTypeNames rest

def propertyTypeNames : List (String × Bool × TypeExpr) → List String
  | [] => []
  | (_, _, type) :: rest => type.names ++ propertyTypeNames rest

end

namespace TypeTree

mutual

@[simp] theorem names_toTypeExpr (tree : TypeTree) : tree.toTypeExpr.names = tree.mentions := by
  match tree with
  | .literal _ _ | .primitive _ _ | .reference _ _ => rfl
  | .array _ element => exact names_toTypeExpr element
  | .union _ members => exact names_memberTypes members
  | .object _ attributes optionalNames => exact names_propertyTypes optionalNames attributes

@[simp] theorem names_memberTypes (members : List TypeTree) :
    memberTypeNames (memberTypes members) = memberMentions members := by
  match members with
  | [] => rfl
  | member :: rest =>
      rw [memberTypes, memberTypeNames, memberMentions, names_toTypeExpr member,
        names_memberTypes rest]

@[simp] theorem names_propertyTypes (optionalNames : List String)
    (attributes : List (String × TypeTree)) :
    propertyTypeNames (propertyTypes optionalNames attributes) = attributeMentions attributes := by
  match attributes with
  | [] => rfl
  | (_, attr) :: rest =>
      rw [propertyTypes, propertyTypeNames, attributeMentions, names_toTypeExpr attr,
        names_propertyTypes optionalNames rest]

end

end TypeTree

/-! ## Names in sight -/

def functionNamesIn (body : List Stmt) : List String :=
  (body.filterMap Stmt.function?).map (·.name)

def typeNamesIn (body : List Stmt) : List String :=
  body.flatMap Stmt.imported ++ body.filterMap Stmt.typeName?

def Stmt.bound : Stmt → List String
  | .destructure bindings _ _ => bindings.map (·.localName)
  | .const name _ _ => [name]
  | _ => []

structure Visible where
  functions : List String
  types : List String

namespace Visible

def inside (visible : Visible) (body : List Stmt) : Visible where
  functions := visible.functions ++ functionNamesIn body
  types := visible.types ++ typeNamesIn body

/-- The expression uses locals, visible functions and `Array` only. -/
def Evaluates (visible : Visible) (locals : List String) (expr : Expr) : Prop :=
  ∀ name ∈ expr.idents, name ∈ locals ∨ name ∈ visible.functions ∨ name = "Array"

def Spells (visible : Visible) (type : TypeExpr) : Prop :=
  type.names ⊆ visible.types

end Visible

def Returns.Closed (visible : Visible) (param : String) : Returns → Prop
  | .boolean => True
  | .narrows narrowed type => narrowed = param ∧ visible.Spells type

mutual

/-- The statement uses only names that it can see.  A function sees no locals but its
own. -/
def Stmt.Closed (visible : Visible) (locals : List String) : Stmt → Prop
  | .imports .. => True
  | .typeAlias _ params type => type.names ⊆ visible.types ++ params
  | .function _ _ param paramType returns body =>
      visible.Spells paramType ∧ returns.Closed visible param ∧
        ClosedIn (visible.inside body) [param] body
  | .branch test body =>
      visible.Evaluates locals test ∧ ClosedIn (visible.inside body) locals body
  | .ret value => visible.Evaluates locals value
  | .destructure _ type source =>
      (∀ written ∈ type, visible.Spells written) ∧ visible.Evaluates locals source
  | .const _ type value =>
      (∀ written ∈ type, visible.Spells written) ∧ visible.Evaluates locals value

def ClosedIn (visible : Visible) (locals : List String) : List Stmt → Prop
  | [] => True
  | stmt :: rest =>
      stmt.Closed visible locals ∧ ClosedIn visible (locals ++ stmt.bound) rest

end

/-- Nothing in the file uses a name that is declared nowhere. -/
def GuardFile.Closed (file : GuardFile) : Prop :=
  ClosedIn (Visible.inside ⟨[], []⟩ file.statements) [] file.statements

/-! ## Bodies -/

def boundIn (body : List Stmt) : List String := body.flatMap Stmt.bound

section

variable {visible : Visible} {locals : List String} {body first second : List Stmt}

@[simp] theorem functionNamesIn_append (first second : List Stmt) :
    functionNamesIn (first ++ second) = functionNamesIn first ++ functionNamesIn second := by
  simp [functionNamesIn]

@[simp] theorem mem_typeNamesIn_append {name : String} :
    name ∈ typeNamesIn (first ++ second) ↔
      name ∈ typeNamesIn first ∨ name ∈ typeNamesIn second := by
  simp only [typeNamesIn, List.flatMap_append, List.filterMap_append, List.mem_append]
  exact or_or_or_comm

@[simp] theorem closedIn_append :
    ClosedIn visible locals (first ++ second) ↔
      ClosedIn visible locals first ∧ ClosedIn visible (locals ++ boundIn first) second := by
  induction first generalizing locals with
  | nil => simp [ClosedIn, boundIn]
  | cons stmt rest ih =>
      rw [List.cons_append, ClosedIn, ClosedIn, ih, boundIn, boundIn, List.flatMap_cons,
        List.append_assoc, and_assoc]

@[simp] theorem closedIn_cons {stmt : Stmt} :
    ClosedIn visible locals (stmt :: body) ↔
      stmt.Closed visible locals ∧ ClosedIn visible (locals ++ stmt.bound) body := by
  rw [ClosedIn]

theorem closedIn_of_forall (h : ∀ stmt ∈ body, ∀ locals, stmt.Closed visible locals)
    (locals : List String) : ClosedIn visible locals body := by
  induction body generalizing locals with
  | nil => exact trivial
  | cons stmt rest ih =>
      rw [List.forall_mem_cons] at h
      exact ⟨h.1 locals, ih h.2 _⟩

theorem closed_of_mem (h : ClosedIn visible locals body) {stmt : Stmt} (hmem : stmt ∈ body) :
    ∃ before, stmt.Closed visible (locals ++ before) := by
  induction body generalizing locals with
  | nil => cases hmem
  | cons other rest ih =>
      rcases List.mem_cons.mp hmem with rfl | hrest
      · exact ⟨[], (List.append_nil locals).symm ▸ h.1⟩
      · obtain ⟨before, hclosed⟩ := ih h.2 hrest
        exact ⟨other.bound ++ before, List.append_assoc .. ▸ hclosed⟩

theorem closed_guard {condition : Expr} (h : visible.Evaluates locals condition) :
    (Stmt.guard condition).Closed visible locals :=
  ⟨h, by simp [ClosedIn, Stmt.Closed, Visible.Evaluates, Expr.bool, Expr.idents, Expr.parts,
    Expr.ident?]⟩

end

/-! ## What closed code calls -/

theorem bound_subset_declared (stmt : Stmt) : stmt.bound ⊆ stmt.declared := by
  cases stmt with
  | destructure | const => exact List.Subset.refl _
  | _ => exact List.nil_subset _

theorem Visible.Evaluates.calls {visible : Visible} {locals declared : List String}
    {expr : Expr} (h : visible.Evaluates locals expr) : ∀ name ∈ expr.calls,
      name ∈ locals ∨ name ∈ visible.functions ∨ name = "Array" ∨ name ∈ declared :=
  fun name hname => (h name (expr.calls_subset_idents hname)).imp_right (·.imp_right .inl)

mutual

/-- What closed code calls is in sight from outside, or is declared in the code. -/
theorem Stmt.Closed.calls {visible : Visible} {locals : List String} (stmt : Stmt)
    (h : stmt.Closed visible locals) : ∀ name ∈ stmt.exprs.flatMap Expr.calls,
      name ∈ locals ∨ name ∈ visible.functions ∨ name = "Array" ∨ name ∈ stmt.declared := by
  intro name hname
  match stmt, h with
  | .imports .., _ | .typeAlias .., _ => cases hname
  | .function inner _ param _ _ body, ⟨_, _, hbody⟩ =>
      have hinside := hbody.calls body name hname
      rw [Visible.inside, List.mem_append, List.mem_singleton] at hinside
      rcases hinside with hparam | (hfunction | hnested) | harray | hdeclared
      · exact .inr (.inr (.inr (by simp [Stmt.declared, hparam])))
      · exact .inr (.inl hfunction)
      · have hdeclared := (names_sublist_declaredIn body).subset hnested
        exact .inr (.inr (.inr (by simp [Stmt.declared, hdeclared])))
      · exact .inr (.inr (.inl harray))
      · exact .inr (.inr (.inr (by simp [Stmt.declared, hdeclared])))
  | .branch test body, ⟨htest, hbody⟩ =>
      rcases List.mem_append.mp hname with hcall | hcall
      · exact htest.calls name hcall
      · have hinside := hbody.calls body name hcall
        rw [Visible.inside, List.mem_append] at hinside
        rcases hinside with hlocal | (hfunction | hnested) | houter
        · exact .inl hlocal
        · exact .inr (.inl hfunction)
        · exact .inr (.inr (.inr ((names_sublist_declaredIn body).subset hnested)))
        · exact .inr (.inr houter)
  | .ret value, hvalue | .destructure _ _ value, ⟨_, hvalue⟩ | .const _ _ value, ⟨_, hvalue⟩ =>
      rw [Stmt.exprs, List.flatMap_singleton] at hname
      exact Visible.Evaluates.calls hvalue name hname

theorem ClosedIn.calls {visible : Visible} {locals : List String} (body : List Stmt)
    (h : ClosedIn visible locals body) : ∀ name ∈ calledIn body,
      name ∈ locals ∨ name ∈ visible.functions ∨ name = "Array" ∨ name ∈ declaredIn body := by
  intro name hname
  match body, h with
  | [], _ => cases hname
  | stmt :: rest, ⟨hfirst, hrest⟩ =>
      rw [calledIn, exprsIn, List.flatMap_append, List.mem_append] at hname
      rw [declaredIn_cons, List.mem_append]
      rcases hname with hcall | hcall
      · rcases hfirst.calls stmt name hcall with hlocal | hfunction | harray | hdeclared
        · exact .inl hlocal
        · exact .inr (.inl hfunction)
        · exact .inr (.inr (.inl harray))
        · exact .inr (.inr (.inr (.inl hdeclared)))
      · rcases hrest.calls rest name hcall with hlocal | hfunction | harray | hdeclared
        · rcases List.mem_append.mp hlocal with hold | hbound
          · exact .inl hold
          · exact .inr (.inr (.inr (.inl (bound_subset_declared stmt hbound))))
        · exact .inr (.inl hfunction)
        · exact .inr (.inr (.inl harray))
        · exact .inr (.inr (.inr (.inr hdeclared)))

end

/-! ## Written code -/

structure Visible.Offers (visible : Visible) (settings : Settings) (aliases : List String) :
    Prop where
  array : Writing.arrayGuardName ∈ visible.functions
  shallow : Writing.shallowTypeName ∈ visible.types
  guards : ∀ aliasName ∈ aliases, settings.guardName aliasName ∈ visible.functions
  types : aliases ⊆ visible.types

structure Visible.Shows (visible : Visible) (hoisted : List Stmt) : Prop where
  functions : functionNamesIn hoisted ⊆ visible.functions
  types : typeNamesIn hoisted ⊆ visible.types

namespace Visible

variable {visible : Visible} {settings : Settings} {aliases : List String}
  {first second : List Stmt}

theorem Offers.inside (h : visible.Offers settings aliases) (body : List Stmt) :
    (visible.inside body).Offers settings aliases where
  array := List.mem_append_left _ h.array
  shallow := List.mem_append_left _ h.shallow
  guards aliasName hmem := List.mem_append_left _ (h.guards aliasName hmem)
  types := List.subset_append_of_subset_left _ h.types

theorem Spells.inside {type : TypeExpr} (h : visible.Spells type) (body : List Stmt) :
    (visible.inside body).Spells type :=
  List.subset_append_of_subset_left _ h

@[simp] theorem shows_append : visible.Shows (first ++ second) ↔
    visible.Shows first ∧ visible.Shows second := by
  constructor
  · rintro ⟨hfunctions, htypes⟩
    rw [functionNamesIn_append, List.append_subset] at hfunctions
    exact ⟨⟨hfunctions.1, fun name hname => htypes (mem_typeNamesIn_append.mpr (.inl hname))⟩,
      ⟨hfunctions.2, fun name hname => htypes (mem_typeNamesIn_append.mpr (.inr hname))⟩⟩
  · rintro ⟨hfirst, hsecond⟩
    refine ⟨?_, fun name hname => ?_⟩
    · simpa using List.append_subset.mpr ⟨hfirst.functions, hsecond.functions⟩
    · rcases mem_typeNamesIn_append.mp hname with h | h
      · exact hfirst.types h
      · exact hsecond.types h

theorem inside_shows (visible : Visible) (body : List Stmt) : (visible.inside body).Shows body :=
  ⟨List.subset_append_right _ _, List.subset_append_right _ _⟩

end Visible

structure Assertions.Closed (visible : Visible) (targets : List String)
    (assertions : Assertions) : Prop where
  hoisted : ∀ stmt ∈ assertions.hoisted, ∀ locals, stmt.Closed visible locals
  body : ∀ locals, targets ⊆ locals → ClosedIn visible locals assertions.body

structure Condition.Closed (visible : Visible) (target : String) (condition : Condition) :
    Prop where
  hoisted : ∀ stmt ∈ condition.hoisted, ∀ locals, stmt.Closed visible locals
  test : ∀ locals, target ∈ locals → visible.Evaluates locals condition.test

namespace Writing

variable {settings : Settings} {visible : Visible} {aliases : List String}

theorem evaluates_of_target {target : String} {expr : Expr}
    (hidents : ∀ name ∈ expr.idents, name = target) {locals : List String}
    (h : target ∈ locals) : visible.Evaluates locals expr :=
  fun name hname => .inl (hidents name hname ▸ h)

theorem idents_objectTest (target : String) :
    ∀ name ∈ (objectTest target).idents, name = target := by
  have hidents : (objectTest target).idents = [target, target] := rfl
  simp [hidents]

theorem idents_hasTag (target tag : String) :
    ∀ name ∈ (Expr.hasTag target tag).idents, name = target := by
  have hidents : (Expr.hasTag target tag).idents = [target] := rfl
  simp [hidents]

theorem idents_literalTest (target : String) (value : Literal) :
    ∀ name ∈ (literalTest target value).idents, name = target := by
  have hidents : (literalTest target value).idents = [target] := by cases value <;> rfl
  simp [hidents]

@[simp] theorem idents_checkedEntries (bindings : List Binding) :
    (Expr.object (checkedEntries bindings)).idents = bindings.map (·.localName) := by
  have hentries : (Expr.entryParts (checkedEntries bindings)).filterMap Expr.ident? =
      bindings.map (·.localName) := by
    induction bindings with
    | nil => rfl
    | cons binding rest ih => exact congrArg (binding.localName :: ·) ih
  exact hentries

@[simp] theorem boundIn_destructuring (type : TypeExpr) (target : String)
    (bindings : List Binding) :
    boundIn (destructuring type target bindings) = bindings.map (·.localName) := by
  cases bindings with
  | nil => rfl
  | cons binding rest => simp [destructuring, boundIn, Stmt.bound]

theorem closed_destructuring (hoffers : visible.Offers settings aliases) {type : TypeExpr}
    (htype : visible.Spells type) {target : String} (bindings : List Binding)
    {locals : List String} (h : target ∈ locals) :
    ClosedIn visible locals (destructuring type target bindings) := by
  have hspells : visible.Spells (.generic shallowTypeName [type]) := by
    simpa [Visible.Spells, TypeExpr.names, memberTypeNames] using ⟨hoffers.shallow, htype⟩
  have hsource : visible.Evaluates locals (.ident target) :=
    evaluates_of_target (fun _ => List.mem_singleton.mp) h
  unfold destructuring
  split
  next => exact trivial
  next => exact ⟨⟨by simpa using hspells, hsource⟩, trivial⟩

theorem SelfCheckWritten.closed {path : Path} {type : TypeExpr} {bindings : List Binding}
    {check : List Stmt} {before after : Draft}
    (h : SelfCheckWritten settings path type bindings before check after)
    (htype : visible.Spells type) {locals : List String}
    (hbound : bindings.map (·.localName) ⊆ locals) : ClosedIn visible locals check := by
  cases h with
  | off => exact trivial
  | on =>
      refine ⟨⟨by simpa using htype, fun name hname => .inl (hbound ?_)⟩, trivial⟩
      rwa [idents_checkedEntries] at hname

mutual

theorem GuardWritten.closed {visible : Visible} {name param : String} {type : TypeExpr}
    {path : Path} {exported : Bool} {tree : TypeTree} {guard : Function} {before after : Draft}
    (h : GuardWritten settings name type param path exported tree before guard after)
    (hoffers : visible.Offers settings aliases) (hmentions : tree.mentions ⊆ aliases)
    (htype : visible.Spells type) (locals : List String) : guard.toStmt.Closed visible locals := by
  match h with
  | @GuardWritten.intro _ _ _ _ _ _ _ assertions _ _ hbody =>
      let body := assertions.hoisted ++ assertions.body ++ [.ret (Expr.bool true)]
      have hshows := (Visible.shows_append.mp
        (Visible.shows_append.mp (visible.inside_shows body)).1).1
      have hassertions := hbody.closed (hoffers.inside body) hmentions (htype.inside body) hshows
      refine ⟨List.nil_subset _, ⟨rfl, htype⟩, ?_⟩
      refine closedIn_append.mpr ⟨closedIn_append.mpr
        ⟨closedIn_of_forall hassertions.hoisted _, hassertions.body _ ?_⟩, ?_⟩
      · exact List.subset_append_left _ _
      · refine ⟨fun name hname => ?_, trivial⟩
        cases hname

theorem AssertionsWritten.closed {visible : Visible} {path : Path} {target : String}
    {type : TypeExpr} {tree : TypeTree} {assertions : Assertions} {before after : Draft}
    (h : AssertionsWritten settings path target type tree before assertions after)
    (hoffers : visible.Offers settings aliases) (hmentions : tree.mentions ⊆ aliases)
    (htype : visible.Spells type) (hshows : visible.Shows assertions.hoisted) :
    assertions.Closed visible [target] := by
  match h with
  | @AssertionsWritten.object _ _ _ _ _ attributes _ bindings _ _ _ _ _ _ _ hinner hcheck =>
      have hparts : ∀ attr ∈ bindings.zip (attributes.map (·.2)),
          attr.2.mentions ⊆ aliases := by
        intro attr hattr name hname
        obtain ⟨entry, hentry, hsame⟩ := List.mem_map.mp (List.of_mem_zip hattr).2
        exact hmentions (TypeTree.mem_attributeMentions.mpr ⟨entry, hentry, hsame ▸ hname⟩)
      have hnames : (bindings.zip (attributes.map (·.2))).map (·.1.localName) ⊆
          bindings.map (·.localName) := by
        intro name hname
        obtain ⟨attr, hattr, rfl⟩ := List.mem_map.mp hname
        exact List.mem_map_of_mem (List.of_mem_zip hattr).1
      have hinside := hinner.closed hoffers hparts htype hshows
      refine ⟨hinside.hoisted, fun locals htarget => ?_⟩
      have hmem : target ∈ locals := htarget List.mem_cons_self
      simp only [List.cons_append, List.append_assoc, closedIn_cons, closedIn_append]
      refine ⟨closed_guard (evaluates_of_target (idents_objectTest target) hmem),
        closed_destructuring hoffers htype bindings (List.mem_append_left _ hmem),
        hinside.body _ ?_, hcheck.closed htype ?_⟩
      · rw [boundIn_destructuring]
        exact List.subset_append_of_subset_right _ hnames
      · rw [boundIn_destructuring]
        intro name hname
        simp only [List.mem_append]
        exact .inr (.inr (.inl hname))
  | .union _ hmembers =>
      have hconditions := hmembers.closed hoffers hmentions hshows
      refine ⟨fun stmt hstmt => ?_, fun locals htarget =>
        ⟨closed_guard fun name hname => ?_, trivial⟩⟩
      · obtain ⟨condition, hcondition, hmem⟩ := List.mem_flatMap.mp hstmt
        exact (hconditions condition hcondition).hoisted stmt hmem
      · rw [Expr.idents_anyOf, List.flatMap_map] at hname
        obtain ⟨condition, hcondition, hmem⟩ := List.mem_flatMap.mp hname
        exact (hconditions condition hcondition).test locals (htarget List.mem_cons_self) name hmem
  | .single hcondition =>
      have hclosed := hcondition.closed hoffers hmentions hshows
      exact ⟨hclosed.hoisted, fun locals htarget =>
        ⟨closed_guard (hclosed.test locals (htarget List.mem_cons_self)), trivial⟩⟩

theorem ConditionWritten.closed {visible : Visible} {path : Path} {target : String}
    {tree : TypeTree} {condition : Condition} {before after : Draft}
    (h : ConditionWritten settings path target tree before condition after)
    (hoffers : visible.Offers settings aliases) (hmentions : tree.mentions ⊆ aliases)
    (hshows : visible.Shows condition.hoisted) : condition.Closed visible target := by
  match h with
  | @ConditionWritten.reference _ _ _ name _ _ =>
      refine ⟨by simp, fun locals htarget other hother => ?_⟩
      rcases List.mem_cons.mp hother with rfl | hother
      · exact .inr (.inl (hoffers.guards name (hmentions List.mem_cons_self)))
      · exact .inl (List.mem_singleton.mp hother ▸ htarget)
  | .primitive => exact ⟨by simp, fun _ => evaluates_of_target (idents_hasTag _ _)⟩
  | .literal => exact ⟨by simp, fun _ => evaluates_of_target (idents_literalTest _ _)⟩
  | @ConditionWritten.array _ _ _ typeName functionName _ _ _ nested _ _ _ _ _ _ _ _ hnested =>
      have hfunction : functionName ∈ visible.functions :=
        hnested.name ▸ hshows.functions List.mem_cons_self
      have htype : visible.Spells (.ref typeName) :=
        List.cons_subset.mpr ⟨hshows.types List.mem_cons_self, List.nil_subset _⟩
      refine ⟨?_, fun locals htarget other hother => ?_⟩
      · simp only [List.forall_mem_cons, List.not_mem_nil, false_imp_iff, implies_true, and_true]
        refine ⟨fun _ => ?_, hnested.closed hoffers hmentions htype⟩
        rw [Stmt.Closed, TypeTree.names_toTypeExpr]
        exact List.subset_append_of_subset_left _
          (List.Subset.trans hmentions hoffers.types)
      · -- The array guard, the target, the target again, and the hoisted guard.
        have hidents : other ∈ [arrayGuardName, target, target, functionName] := hother
        simp only [List.mem_cons, List.not_mem_nil, or_false] at hidents
        rcases hidents with rfl | rfl | rfl | rfl
        · exact .inr (.inl hoffers.array)
        · exact .inl htarget
        · exact .inl htarget
        · exact .inr (.inl hfunction)

theorem MembersWritten.closed {visible : Visible} {path : Path} {target : String} {index : Nat}
    {members : List TypeTree} {conditions : List Condition} {before after : Draft}
    (h : MembersWritten settings path target index members before conditions after)
    (hoffers : visible.Offers settings aliases)
    (hmentions : TypeTree.memberMentions members ⊆ aliases)
    (hshows : visible.Shows (conditions.flatMap (·.hoisted))) :
    ∀ condition ∈ conditions, condition.Closed visible target := by
  match h with
  | .nil => simp
  | .cons hfirst hrest =>
      rw [List.flatMap_cons, Visible.shows_append] at hshows
      rw [TypeTree.memberMentions, List.append_subset] at hmentions
      exact List.forall_mem_cons.mpr ⟨hfirst.closed hoffers hmentions.1 hshows.1,
        hrest.closed hoffers hmentions.2 hshows.2⟩

theorem AttributesWritten.closed {visible : Visible} {path : Path} {type : TypeExpr}
    {attributes : List (Binding × TypeTree)} {assertions : Assertions} {before after : Draft}
    (h : AttributesWritten settings path type attributes before assertions after)
    (hoffers : visible.Offers settings aliases)
    (hmentions : ∀ attr ∈ attributes, attr.2.mentions ⊆ aliases)
    (htype : visible.Spells type) (hshows : visible.Shows assertions.hoisted) :
    assertions.Closed visible (attributes.map (·.1.localName)) := by
  match h with
  | .nil => exact ⟨by simp [Assertions.none], fun _ _ => trivial⟩
  | .cons hfirst hrest =>
      rw [List.forall_mem_cons] at hmentions
      rw [Assertions.append, Visible.shows_append] at hshows
      have hone := hfirst.closed hoffers hmentions.1 htype hshows.1
      have hothers := hrest.closed hoffers hmentions.2 htype hshows.2
      refine ⟨List.forall_mem_append.mpr ⟨hone.hoisted, hothers.hoisted⟩, fun locals hlocals => ?_⟩
      rw [List.map_cons, List.cons_subset] at hlocals
      refine closedIn_append.mpr ⟨hone.body locals ?_, hothers.body _ ?_⟩
      · exact List.cons_subset.mpr ⟨hlocals.1, List.nil_subset _⟩
      · exact List.subset_append_of_subset_left _ hlocals.2

end

end Writing

end TypeGuard
