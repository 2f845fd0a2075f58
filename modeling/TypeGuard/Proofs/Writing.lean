import TypeGuard.Guard.Assertions
import TypeGuard.Proofs.Results

/-!
# What a finished piece of writing is

`AssertionsWritten` and its companions relate a type, the draft before, the code
written for it and the draft after.  They say everything that writing does when
it succeeds, one rule for each kind of type, so that a fact about written code
is proved by induction on how it was written and never opens the writer.

`assertionsWritten_of_run` is the link: what the writer returns was written by
the rules.
-/

namespace TypeGuard

namespace Draft

def withNames (draft : Draft) (names : Names) : Draft := { draft with names }

def refer (draft : Draft) (name : String) (place : Path) : Draft :=
  { draft with references := draft.references ++ [⟨name, place⟩] }

@[simp] theorem names_withNames (draft : Draft) (names : Names) :
    (draft.withNames names).names = names := rfl

@[simp] theorem references_withNames (draft : Draft) (names : Names) :
    (draft.withNames names).references = draft.references := rfl

@[simp] theorem names_refer (draft : Draft) (name : String) (place : Path) :
    (draft.refer name place).names = draft.names := rfl

@[simp] theorem references_refer (draft : Draft) (name : String) (place : Path) :
    (draft.refer name place).references = draft.references ++ [⟨name, place⟩] := rfl

end Draft

namespace Writing

/-! ## The rules -/

inductive AttributesBound (path : Path) : List String → Draft → List Binding → Draft → Prop
  | nil {draft : Draft} : AttributesBound path [] draft [] draft
  | cons {name localName : String} {rest : List String} {names : Names}
      {bindings : List Binding} {before after : Draft} :
      before.names.bindAttribute path name = (.ok localName, names) →
      AttributesBound path rest (before.withNames names) bindings after →
      AttributesBound path (name :: rest) before (⟨name, localName⟩ :: bindings) after

def checkedEntries (bindings : List Binding) : List (String × Expr) :=
  bindings.map fun binding => (binding.property, Expr.ident binding.localName)

inductive SelfCheckWritten (settings : Settings) (path : Path) (type : TypeExpr)
    (bindings : List Binding) : Draft → List Stmt → Draft → Prop
  | off {draft : Draft} : settings.selfChecks = false →
      SelfCheckWritten settings path type bindings draft [] draft
  | on {name : String} {names : Names} {before : Draft} : settings.selfChecks = true →
      before.names.freshLocal path "checked" = .ok (name, names) →
      SelfCheckWritten settings path type bindings before
        [.const name (some type) (.object (checkedEntries bindings))] (before.withNames names)

section

variable (settings : Settings)

mutual

inductive GuardWritten : String → TypeExpr → String → Path → Bool → TypeTree →
    Draft → Function → Draft → Prop
  | intro {name param : String} {type : TypeExpr} {path : Path} {exported : Bool}
      {tree : TypeTree} {assertions : Assertions} {before after : Draft} :
      AssertionsWritten path param type tree
        (before.withNames (before.names.reserveLocal param)) assertions after →
      GuardWritten name type param path exported tree before
        { name
          exported
          param
          paramType := .unknown
          returns := .narrows param type
          body := assertions.hoisted ++ assertions.body ++ [.ret (Expr.bool true)] }
        after

inductive AssertionsWritten : Path → String → TypeExpr → TypeTree →
    Draft → Assertions → Draft → Prop
  | object {path : Path} {target : String} {type : TypeExpr} {label : Label}
      {attributes : List (String × TypeTree)} {optionalNames : List String}
      {bindings : List Binding} {inner : Assertions} {check : List Stmt}
      {before bound written after : Draft} :
      AttributesBound path (Fields.names attributes) before bindings bound →
      AttributesWritten path type (bindings.zip (attributes.map (·.2))) bound inner written →
      SelfCheckWritten settings path type bindings written check after →
      AssertionsWritten path target type (.object label attributes optionalNames) before
        { hoisted := inner.hoisted
          body := .guard (objectTest target) :: destructuring type target bindings ++
            inner.body ++ check }
        after
  | union {path : Path} {target : String} {type : TypeExpr} {label : Label}
      {members : List TypeTree} {conditions : List Condition} {before after : Draft} :
      TypeTree.checkUnion path members = .ok () →
      MembersWritten path target 0 members before conditions after →
      AssertionsWritten path target type (.union label members) before
        ⟨conditions.flatMap (·.hoisted), [.guard (anyOf (conditions.map (·.test)))]⟩ after
  | single {path : Path} {target : String} {type : TypeExpr} {tree : TypeTree}
      {condition : Condition} {before after : Draft} :
      ConditionWritten path target tree before condition after →
      AssertionsWritten path target type tree before
        ⟨condition.hoisted, [.guard condition.test]⟩ after

inductive ConditionWritten : Path → String → TypeTree → Draft → Condition → Draft → Prop
  | reference {path : Path} {target name : String} {label : Label} {draft : Draft} :
      ConditionWritten path target (.reference label name) draft
        ⟨[], .call (.ident (settings.guardName name)) [.ident target]⟩ (draft.refer name path)
  | primitive {path : Path} {target : String} {label : Label} {kind : Primitive}
      {draft : Draft} :
      ConditionWritten path target (.primitive label kind) draft
        ⟨[], Expr.hasTag target kind.tag⟩ draft
  | literal {path : Path} {target : String} {label : Label} {value : Literal}
      {draft : Draft} :
      ConditionWritten path target (.literal label value) draft
        ⟨[], literalTest target value⟩ draft
  | array {path : Path} {target typeName functionName param : String} {label : Label}
      {element : TypeTree} {nested : Function} {typed named bound : Names}
      {before after : Draft} :
      before.names.freshType path (path.getLastD "" ++ "_element") = .ok (typeName, typed) →
      typed.freshFunction path ("is_" ++ path.getLastD "" ++ "_element") =
        .ok (functionName, named) →
      named.freshLocal path rootParam = .ok (param, bound) →
      GuardWritten functionName (.ref typeName) param (path ++ ["element"]) false element
        (before.withNames bound) nested after →
      ConditionWritten path target (.array label element) before
        { hoisted := [.typeAlias typeName [] element.toTypeExpr, nested.toStmt]
          test := .and
            (.call (.ident arrayGuardName) [.ident target])
            (.call (.member (.ident target) "every") [.ident functionName]) }
        after

inductive MembersWritten : Path → String → Nat → List TypeTree →
    Draft → List Condition → Draft → Prop
  | nil {path : Path} {target : String} {index : Nat} {draft : Draft} :
      MembersWritten path target index [] draft [] draft
  | cons {path : Path} {target : String} {index : Nat} {member : TypeTree}
      {rest : List TypeTree} {first : Condition} {others : List Condition}
      {before middle after : Draft} :
      ConditionWritten (memberPath path index member) target member before first middle →
      MembersWritten path target (index + 1) rest middle others after →
      MembersWritten path target index (member :: rest) before (first :: others) after

inductive AttributesWritten : Path → TypeExpr → List (Binding × TypeTree) →
    Draft → Assertions → Draft → Prop
  | nil {path : Path} {type : TypeExpr} {draft : Draft} :
      AttributesWritten path type [] draft Assertions.none draft
  | cons {path : Path} {type : TypeExpr} {binding : Binding} {tree : TypeTree}
      {rest : List (Binding × TypeTree)} {first others : Assertions}
      {before middle after : Draft} :
      AssertionsWritten (path ++ [binding.property]) binding.localName
        (.index type binding.property) tree before first middle →
      AttributesWritten path type rest middle others after →
      AttributesWritten path type ((binding, tree) :: rest) before (first.append others) after

end

end

/-! ## The writer follows the rules -/

variable {settings : Settings} {before after : Draft}

theorem run_takeName {fresh : Names → Except Problem (String × Names)} {name : String}
    (h : (takeName fresh).run before = .ok (name, after)) :
    ∃ names, fresh before.names = .ok (name, names) ∧ after = before.withNames names := by
  unfold takeName at h
  obtain ⟨draft, middle, hget, h⟩ := run_bind_eq_ok.mp h
  cases hget
  split at h
  next chosen names hfresh =>
      cases h
      exact ⟨names, hfresh, rfl⟩
  next => cases h

theorem run_bindAttribute {path : Path} {name : String} {binding : Binding}
    (h : (bindAttribute path name).run before = .ok (binding, after)) :
    ∃ localName names, before.names.bindAttribute path name = (.ok localName, names) ∧
      binding = ⟨name, localName⟩ ∧ after = before.withNames names := by
  unfold bindAttribute at h
  obtain ⟨draft, middle, hget, h⟩ := run_bind_eq_ok.mp h
  cases hget
  split at h
  next localName names hbind =>
      cases h
      exact ⟨localName, names, hbind, rfl, rfl⟩
  next => cases h

theorem attributesBound_of_run {path : Path} {names : List String} {bindings : List Binding}
    (h : (bindAttributes path names).run before = .ok (bindings, after)) :
    AttributesBound path names before bindings after := by
  induction names generalizing before bindings with
  | nil =>
      cases h
      exact .nil
  | cons name rest ih =>
      obtain ⟨binding, middle, hfirst, h⟩ := run_bind_eq_ok.mp h
      obtain ⟨others, last, hrest, h⟩ := run_bind_eq_ok.mp h
      cases h
      obtain ⟨localName, taken, hbind, rfl, rfl⟩ := run_bindAttribute hfirst
      exact .cons hbind (ih hrest)

theorem selfCheckWritten_of_run {path : Path} {type : TypeExpr} {bindings : List Binding}
    {check : List Stmt}
    (h : (selfCheck settings path type bindings).run before = .ok (check, after)) :
    SelfCheckWritten settings path type bindings before check after := by
  unfold selfCheck at h
  split at h
  next hon =>
      obtain ⟨name, middle, hname, h⟩ := run_bind_eq_ok.mp h
      obtain ⟨names, hfresh, rfl⟩ := run_takeName hname
      cases h
      exact .on hon hfresh
  next hoff =>
      cases h
      exact .off (Bool.eq_false_iff.mpr hoff)

def Follows (settings : Settings) (write : Writer) : Prop :=
  ∀ {path target type tree before assertions after},
    (write path target type tree).run before = .ok (assertions, after) →
    AssertionsWritten settings path target type tree before assertions after

theorem guardWritten_of_run {write : Writer} (hw : Follows settings write) {name param : String}
    {type : TypeExpr} {path : Path} {exported : Bool} {tree : TypeTree} {guard : Function}
    (h : (guardFunction write name type param path exported tree).run before =
      .ok (guard, after)) :
    GuardWritten settings name type param path exported tree before guard after := by
  obtain ⟨_, middle, hreserve, h⟩ := run_bind_eq_ok.mp h
  cases hreserve
  obtain ⟨assertions, last, hwrite, h⟩ := run_bind_eq_ok.mp h
  cases h
  exact .intro (hw hwrite)

theorem conditionWritten_of_array {write : Writer} (hw : Follows settings write) {path : Path}
    {target : String} {label : Label} {element : TypeTree} {condition : Condition}
    (h : (arrayCondition write path target element).run before = .ok (condition, after)) :
    ConditionWritten settings path target (.array label element) before condition after := by
  obtain ⟨typeName, _, hfirst, h⟩ := run_bind_eq_ok.mp h
  obtain ⟨typed, htype, rfl⟩ := run_takeName hfirst
  obtain ⟨functionName, _, hsecond, h⟩ := run_bind_eq_ok.mp h
  obtain ⟨named, hfunction, rfl⟩ := run_takeName hsecond
  obtain ⟨param, _, hthird, h⟩ := run_bind_eq_ok.mp h
  obtain ⟨bound, hparam, rfl⟩ := run_takeName hthird
  obtain ⟨nested, _, hnested, h⟩ := run_bind_eq_ok.mp h
  cases h
  exact .array htype hfunction hparam (guardWritten_of_run hw hnested)

theorem conditionWritten_of_run {write : Writer} (hw : Follows settings write) {path : Path}
    {target : String} {tree : TypeTree} {condition : Condition}
    (h : (Writing.condition settings write path target tree).run before =
      .ok (condition, after)) :
    ConditionWritten settings path target tree before condition after := by
  cases tree with
  | reference label name =>
      cases h
      exact .reference
  | primitive label kind =>
      cases h
      exact .primitive
  | literal label value =>
      cases h
      exact .literal
  | array label element => exact conditionWritten_of_array hw h
  | union label members => cases h
  | object label attributes optionalNames => cases h

theorem membersWritten_of_run {write : Path → TypeTree → Writing Condition} {path : Path}
    {target : String}
    (hw : ∀ {place member before condition after},
      (write place member).run before = .ok (condition, after) →
      ConditionWritten settings place target member before condition after)
    {index : Nat} {members : List TypeTree} {conditions : List Condition}
    (h : (memberConditions write path index members).run before = .ok (conditions, after)) :
    MembersWritten settings path target index members before conditions after := by
  induction members generalizing index before conditions with
  | nil =>
      cases h
      exact .nil
  | cons member rest ih =>
      obtain ⟨first, middle, hfirst, h⟩ := run_bind_eq_ok.mp h
      obtain ⟨others, last, hrest, h⟩ := run_bind_eq_ok.mp h
      cases h
      exact .cons (hw hfirst) (ih hrest)

theorem attributesWritten_of_run {write : Writer} (hw : Follows settings write) {path : Path}
    {type : TypeExpr} {attributes : List (Binding × TypeTree)} {assertions : Assertions}
    (h : (attributeAssertions write path type attributes).run before = .ok (assertions, after)) :
    AttributesWritten settings path type attributes before assertions after := by
  induction attributes generalizing before assertions with
  | nil =>
      cases h
      exact .nil
  | cons entry rest ih =>
      obtain ⟨binding, tree⟩ := entry
      obtain ⟨first, middle, hfirst, h⟩ := run_bind_eq_ok.mp h
      obtain ⟨others, last, hrest, h⟩ := run_bind_eq_ok.mp h
      cases h
      exact .cons (hw hfirst) (ih hrest)

theorem assertionsWritten_of_object {write : Writer} (hw : Follows settings write)
    {path : Path} {target : String} {type : TypeExpr} {label : Label}
    {attributes : List (String × TypeTree)} {optionalNames : List String}
    {assertions : Assertions}
    (h : (objectAssertions settings write path target type attributes).run before =
      .ok (assertions, after)) :
    AssertionsWritten settings path target type (.object label attributes optionalNames) before
      assertions after := by
  obtain ⟨bindings, bound, hbind, h⟩ := run_bind_eq_ok.mp h
  obtain ⟨inner, written, hinner, h⟩ := run_bind_eq_ok.mp h
  obtain ⟨check, last, hcheck, h⟩ := run_bind_eq_ok.mp h
  cases h
  exact .object (attributesBound_of_run hbind) (attributesWritten_of_run hw hinner)
    (selfCheckWritten_of_run hcheck)

theorem assertionsWritten_of_union {write : Path → TypeTree → Writing Condition} {path : Path}
    {target : String} {type : TypeExpr} {label : Label} {members : List TypeTree}
    (hw : ∀ {place member before condition after},
      (write place member).run before = .ok (condition, after) →
      ConditionWritten settings place target member before condition after)
    {union : Condition}
    (h : (unionCondition write path members).run before = .ok (union, after)) :
    AssertionsWritten settings path target type (.union label members) before
      ⟨union.hoisted, [.guard union.test]⟩ after := by
  unfold unionCondition at h
  split at h
  next => cases h
  next hcheck =>
      obtain ⟨conditions, middle, hmembers, h⟩ := run_bind_eq_ok.mp h
      cases h
      exact .union hcheck (membersWritten_of_run hw hmembers)

/-- A union's members are written two levels further in, so the induction
reaches back by more than one. -/
theorem assertionsWritten_of_run (budget : Nat) :
    Follows settings (assertions settings budget) := by
  induction budget using Nat.strongRecOn with
  | ind budget ih =>
      intro path target type tree before written after h
      cases budget with
      | zero => cases h
      | succ budget =>
          have hw : Follows settings (assertions settings budget) :=
            ih budget (Nat.lt_succ_self budget)
          cases tree with
          | object label attributes optionalNames => exact assertionsWritten_of_object hw h
          | union label members =>
              cases budget with
              | zero =>
                  obtain ⟨union, middle, hunion, h⟩ := run_bind_eq_ok.mp h
                  cases h
                  refine assertionsWritten_of_union (fun hmember => ?_) hunion
                  cases hmember
              | succ inner =>
                  obtain ⟨union, middle, hunion, h⟩ := run_bind_eq_ok.mp h
                  cases h
                  exact assertionsWritten_of_union
                    (fun hmember => conditionWritten_of_run (ih inner (by omega)) hmember) hunion
          | literal label value =>
              obtain ⟨condition, middle, hcondition, h⟩ := run_bind_eq_ok.mp h
              cases h
              exact .single (conditionWritten_of_run hw hcondition)
          | primitive label kind =>
              obtain ⟨condition, middle, hcondition, h⟩ := run_bind_eq_ok.mp h
              cases h
              exact .single (conditionWritten_of_run hw hcondition)
          | array label element =>
              obtain ⟨condition, middle, hcondition, h⟩ := run_bind_eq_ok.mp h
              cases h
              exact .single (conditionWritten_of_run hw hcondition)
          | reference label name =>
              obtain ⟨condition, middle, hcondition, h⟩ := run_bind_eq_ok.mp h
              cases h
              exact .single (conditionWritten_of_run hw hcondition)

end Writing

end TypeGuard
