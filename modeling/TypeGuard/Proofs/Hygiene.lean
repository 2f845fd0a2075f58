import TypeGuard.Proofs.Freshness
import TypeGuard.Proofs.Writing

/-!
# Hygiene of written code

Every identifier that written code declares was free before it was written and
is taken afterwards, so no identifier is declared twice in one guard, whatever
the depth.  Two pieces written one after the other declare different names
because the first one's are taken when the second begins.

Values and types are two kinds of names.  The name of a nested function is of both.
-/

namespace TypeGuard

/-! ## Declared identifiers -/

mutual

def Stmt.declared : Stmt → List String
  | .imports .. | .typeAlias .. | .ret _ => []
  | .function name _ param _ _ body => name :: param :: declaredIn body
  | .branch _ body => declaredIn body
  | .destructure bindings _ _ => bindings.map (·.localName)
  | .const name _ _ => [name]

def declaredIn : List Stmt → List String
  | [] => []
  | stmt :: rest => stmt.declared ++ declaredIn rest

end

mutual

def Stmt.typed : Stmt → List String
  | .imports .. | .ret _ | .destructure .. | .const .. => []
  | .typeAlias name _ _ => [name]
  | .function name _ _ _ _ body => name :: typedIn body
  | .branch _ body => typedIn body

def typedIn : List Stmt → List String
  | [] => []
  | stmt :: rest => stmt.typed ++ typedIn rest

end

@[simp] theorem declaredIn_nil : declaredIn [] = [] := rfl

@[simp] theorem declaredIn_cons (stmt : Stmt) (rest : List Stmt) :
    declaredIn (stmt :: rest) = stmt.declared ++ declaredIn rest := rfl

@[simp] theorem declaredIn_append (first second : List Stmt) :
    declaredIn (first ++ second) = declaredIn first ++ declaredIn second := by
  induction first with
  | nil => rfl
  | cons stmt rest ih => simp [ih]

@[simp] theorem typedIn_nil : typedIn [] = [] := rfl

@[simp] theorem typedIn_cons (stmt : Stmt) (rest : List Stmt) :
    typedIn (stmt :: rest) = stmt.typed ++ typedIn rest := rfl

@[simp] theorem typedIn_append (first second : List Stmt) :
    typedIn (first ++ second) = typedIn first ++ typedIn second := by
  induction first with
  | nil => rfl
  | cons stmt rest ih => simp [ih]

@[simp] theorem declared_guard (condition : Expr) : (Stmt.guard condition).declared = [] := rfl

@[simp] theorem typed_guard (condition : Expr) : (Stmt.guard condition).typed = [] := rfl

@[simp] theorem declared_toStmt (f : Function) :
    f.toStmt.declared = f.name :: f.param :: declaredIn f.body := rfl

@[simp] theorem typed_toStmt (f : Function) : f.toStmt.typed = f.name :: typedIn f.body := rfl

theorem names_sublist_declaredIn (body : List Stmt) :
    ((body.filterMap Stmt.function?).map (·.name)).Sublist (declaredIn body) := by
  induction body with
  | nil => exact .refl _
  | cons stmt rest ih =>
      cases stmt with
      | function name exported param paramType returns inner =>
          simp only [List.filterMap_cons, Stmt.function?, List.map_cons, declaredIn_cons,
            Stmt.declared, List.cons_append]
          exact (ih.trans ((List.sublist_append_right _ _).cons _)).cons_cons _
      | _ => exact ih.trans (List.sublist_append_right _ _)

def Stmt.isDeclaration : Stmt → Bool
  | .typeAlias .. | .function .. => true
  | _ => false

/-! ## Extending a draft -/

/-- Names of one kind that were free before and are taken afterwards. -/
structure NameSet.Takes (before : NameSet) (declared : List String) (after : NameSet) :
    Prop where
  grows : ∀ name ∈ before, name ∈ after
  fresh : ∀ name ∈ declared, name ∉ before
  taken : ∀ name ∈ declared, name ∈ after
  nodup : declared.Nodup
  valid : ∀ name ∈ declared, Identifier.isValid name = true

namespace NameSet.Takes

variable {before middle after : NameSet} {declared others : List String}

theorem of_grows (h : ∀ name ∈ before, name ∈ after) : Takes before [] after where
  grows := h
  fresh := by simp
  taken := by simp
  nodup := List.nodup_nil
  valid := by simp

theorem refl (taken : NameSet) : Takes taken [] taken := of_grows fun _ h => h

theorem insert {name : String} (hfree : name ∉ before)
    (hvalid : Identifier.isValid name = true) : Takes before [name] (before.insert name) where
  grows other h := Names.mem_insert.mpr (.inr h)
  fresh other h := by rwa [List.mem_singleton.mp h]
  taken other h := Names.mem_insert.mpr (.inl (List.mem_singleton.mp h))
  nodup := by simp
  valid other h := by rwa [List.mem_singleton.mp h]

theorem trans (first : Takes before declared middle) (second : Takes middle others after) :
    Takes before (declared ++ others) after where
  grows name h := second.grows name (first.grows name h)
  fresh name h := by
    rcases List.mem_append.mp h with h | h
    · exact first.fresh name h
    · exact fun htaken => second.fresh name h (first.grows name htaken)
  taken name h := by
    rcases List.mem_append.mp h with h | h
    · exact second.grows name (first.taken name h)
    · exact second.taken name h
  nodup := by
    refine List.nodup_append.mpr ⟨first.nodup, second.nodup, ?_⟩
    rintro name h _ hother rfl
    exact second.fresh name hother (first.taken name h)
  valid := List.forall_mem_append.mpr ⟨first.valid, second.valid⟩

theorem perm (h : Takes before declared after) (hp : declared.Perm others) :
    Takes before others after where
  grows := h.grows
  fresh name hname := h.fresh name (hp.mem_iff.mpr hname)
  taken name hname := h.taken name (hp.mem_iff.mpr hname)
  nodup := hp.nodup_iff.mp h.nodup
  valid name hname := h.valid name (hp.mem_iff.mpr hname)

end NameSet.Takes

namespace Draft

/-- What writing a piece of code does to a draft: `declared` are the values that the piece
declares, `typed` its type aliases and functions. -/
structure Extends (before : Draft) (declared typed : List String) (after : Draft) : Prop
    extends NameSet.Takes before.names.locals declared after.names.locals where
  types : NameSet.Takes before.names.types typed after.names.types
  references : before.references ⊆ after.references

namespace Extends

variable {before middle after : Draft} {declared others typed moreTyped : List String}

theorem refl (draft : Draft) : Extends draft [] [] draft :=
  ⟨.refl _, .refl _, List.Subset.refl _⟩

theorem trans (first : Extends before declared typed middle)
    (second : Extends middle others moreTyped after) :
    Extends before (declared ++ others) (typed ++ moreTyped) after :=
  ⟨first.toTakes.trans second.toTakes, first.types.trans second.types,
    List.Subset.trans first.references second.references⟩

theorem perm (h : Extends before declared typed after) (hp : declared.Perm others)
    (htyped : typed.Perm moreTyped) : Extends before others moreTyped after :=
  ⟨h.toTakes.perm hp, h.types.perm htyped, h.references⟩

theorem of_freshLocal {names : Names} {path : Path} {proposed name : String}
    (h : before.names.freshLocal path proposed = .ok (name, names)) :
    Extends before [name] [] (before.withNames names) := by
  have hvalid := Names.isValid_of_fresh h
  obtain ⟨hfree, rfl⟩ := Names.freshLocal_ok h
  exact ⟨.insert hfree hvalid, .refl _, List.Subset.refl _⟩

theorem of_freshType {names : Names} {path : Path} {proposed name : String}
    (h : before.names.freshType path proposed = .ok (name, names)) :
    Extends before [] [name] (before.withNames names) := by
  have hvalid := Names.isValid_of_fresh h
  obtain ⟨hfree, rfl⟩ := Names.freshType_ok h
  exact ⟨.refl _, .insert hfree hvalid, List.Subset.refl _⟩

theorem of_freshFunction {names : Names} {path : Path} {proposed name : String}
    (h : before.names.freshFunction path proposed = .ok (name, names)) :
    Extends before [name] [name] (before.withNames names) := by
  have hvalid := Names.isValid_of_fresh h
  obtain ⟨htype, hfree, rfl⟩ := Names.freshFunction_ok h
  exact ⟨.insert hfree hvalid, .insert htype hvalid, List.Subset.refl _⟩

theorem of_bindAttribute {names : Names} {path : Path} {name chosen : String}
    (h : before.names.bindAttribute path name = (.ok chosen, names)) :
    Extends before [chosen] [] (before.withNames names) := by
  obtain ⟨-, hfree, hvalid, rfl⟩ := Names.bindAttribute_ok h
  exact ⟨.insert hfree hvalid, .refl _, List.Subset.refl _⟩

theorem reserveLocal (draft : Draft) (name : String) :
    Extends draft [] [] (draft.withNames (draft.names.reserveLocal name)) :=
  ⟨.of_grows fun _ h => Names.mem_locals_reserveLocal.mpr (.inr h), .refl _, List.Subset.refl _⟩

theorem refer (draft : Draft) (name : String) (place : Path) :
    Extends draft [] [] (draft.refer name place) :=
  ⟨.refl _, .refl _, List.subset_append_left _ _⟩

end Extends

end Draft

namespace Writing

variable {settings : Settings} {before after : Draft}

theorem AttributesBound.extends {path : Path} {names : List String} {bindings : List Binding}
    (h : AttributesBound path names before bindings after) :
    before.Extends (bindings.map (·.localName)) [] after := by
  induction h with
  | nil => exact .refl _
  | cons hbind _ ih => exact (Draft.Extends.of_bindAttribute hbind).trans ih

theorem AttributesBound.properties {path : Path} {names : List String}
    {bindings : List Binding} (h : AttributesBound path names before bindings after) :
    bindings.map (·.property) = names := by
  induction h with
  | nil => rfl
  | cons _ _ ih => simp [ih]

theorem map_zip_properties {bindings : List Binding} {attributes : List (String × TypeTree)}
    (h : bindings.map (·.property) = Fields.names attributes) :
    (bindings.zip (attributes.map (·.2))).map (fun attr => (attr.1.property, attr.2)) =
      attributes := by
  induction bindings generalizing attributes with
  | nil =>
      cases attributes with
      | nil => rfl
      | cons attr rest => cases h
  | cons binding others ih =>
      cases attributes with
      | nil => cases h
      | cons attr rest =>
          simp only [List.map_cons, Fields.names_cons, List.cons.injEq] at h
          simp only [List.map_cons, List.zip_cons_cons, h.1, ih h.2]

@[simp] theorem declaredIn_destructuring (type : TypeExpr) (target : String)
    (bindings : List Binding) :
    declaredIn (destructuring type target bindings) = bindings.map (·.localName) := by
  cases bindings with
  | nil => rfl
  | cons binding rest => simp [destructuring, Stmt.declared]

@[simp] theorem typedIn_destructuring (type : TypeExpr) (target : String)
    (bindings : List Binding) :
    typedIn (destructuring type target bindings) = [] := by
  cases bindings <;> rfl

theorem SelfCheckWritten.extends {path : Path} {type : TypeExpr} {bindings : List Binding}
    {check : List Stmt} (h : SelfCheckWritten settings path type bindings before check after) :
    before.Extends (declaredIn check) (typedIn check) after := by
  cases h with
  | off => exact .refl _
  | on _ hfresh => exact .of_freshLocal hfresh

theorem GuardWritten.name {name param : String} {type : TypeExpr} {path : Path}
    {exported : Bool} {tree : TypeTree} {guard : Function}
    (h : GuardWritten settings name type param path exported tree before guard after) :
    guard.name = name := by
  cases h
  rfl

theorem GuardWritten.param {name param : String} {type : TypeExpr} {path : Path}
    {exported : Bool} {tree : TypeTree} {guard : Function}
    (h : GuardWritten settings name type param path exported tree before guard after) :
    guard.param = param := by
  cases h
  rfl

mutual

theorem GuardWritten.extends {name param : String} {type : TypeExpr} {path : Path}
    {exported : Bool} {tree : TypeTree} {guard : Function} {before after : Draft}
    (h : GuardWritten settings name type param path exported tree before guard after) :
    (before.withNames (before.names.reserveLocal param)).Extends (declaredIn guard.body)
      (typedIn guard.body) after := by
  match h with
  | .intro hbody => simpa [Stmt.declared, Stmt.typed] using hbody.extends

theorem AssertionsWritten.extends {path : Path} {target : String} {type : TypeExpr}
    {tree : TypeTree} {assertions : Assertions} {before after : Draft}
    (h : AssertionsWritten settings path target type tree before assertions after) :
    before.Extends (declaredIn assertions.hoisted ++ declaredIn assertions.body)
      (typedIn assertions.hoisted ++ typedIn assertions.body) after := by
  match h with
  | .object hbound hinner hcheck =>
      refine (hbound.extends.trans (hinner.extends.trans hcheck.extends)).perm ?_ ?_
      · simp only [declaredIn_cons, declared_guard, List.nil_append, List.cons_append,
          declaredIn_append, declaredIn_destructuring, List.append_assoc]
        exact List.perm_append_comm_assoc _ _ _
      · simp
  | .union _ hmembers => simpa using hmembers.extends
  | .single hcondition => simpa using hcondition.extends

theorem ConditionWritten.extends {path : Path} {target : String} {tree : TypeTree}
    {condition : Condition} {before after : Draft}
    (h : ConditionWritten settings path target tree before condition after) :
    before.Extends (declaredIn condition.hoisted) (typedIn condition.hoisted) after := by
  match h with
  | .reference => exact .refer _ _ _
  | .primitive => exact .refl _
  | .literal => exact .refl _
  | .array htype hfunction hparam hnested =>
      have typed := Draft.Extends.of_freshType htype
      have named := typed.trans (.of_freshFunction hfunction)
      have bound := named.trans (.of_freshLocal hparam)
      have inner := bound.trans ((Draft.Extends.reserveLocal _ _).trans hnested.extends)
      simpa [Stmt.declared, Stmt.typed, hnested.name, hnested.param] using inner

theorem MembersWritten.extends {path : Path} {target : String} {index : Nat}
    {members : List TypeTree} {conditions : List Condition} {before after : Draft}
    (h : MembersWritten settings path target index members before conditions after) :
    before.Extends (declaredIn (conditions.flatMap (·.hoisted)))
      (typedIn (conditions.flatMap (·.hoisted))) after := by
  match h with
  | .nil => exact .refl _
  | .cons hfirst hrest => simpa using hfirst.extends.trans hrest.extends

theorem AttributesWritten.extends {path : Path} {type : TypeExpr}
    {attributes : List (Binding × TypeTree)} {assertions : Assertions} {before after : Draft}
    (h : AttributesWritten settings path type attributes before assertions after) :
    before.Extends (declaredIn assertions.hoisted ++ declaredIn assertions.body)
      (typedIn assertions.hoisted ++ typedIn assertions.body) after := by
  match h with
  | .nil => exact .refl _
  | .cons hfirst hrest =>
      refine (hfirst.extends.trans hrest.extends).perm ?_ ?_
      · simp only [Assertions.append, declaredIn_append]
        grind
      · simp only [Assertions.append, typedIn_append]
        grind

end

/-! ## Hoisted code -/

theorem ConditionWritten.hoists {path : Path} {target : String} {tree : TypeTree}
    {condition : Condition} {before after : Draft}
    (h : ConditionWritten settings path target tree before condition after) :
    ∀ stmt ∈ condition.hoisted, stmt.isDeclaration = true := by
  cases h with
  | array => simp [Stmt.isDeclaration, Function.toStmt]
  | _ => simp

theorem MembersWritten.hoists {path : Path} {target : String} {index : Nat}
    {members : List TypeTree} {conditions : List Condition} {before after : Draft}
    (h : MembersWritten settings path target index members before conditions after) :
    ∀ stmt ∈ conditions.flatMap (·.hoisted), stmt.isDeclaration = true := by
  match h with
  | .nil => simp
  | .cons hfirst hrest =>
      rw [List.flatMap_cons, List.forall_mem_append]
      exact ⟨hfirst.hoists, hrest.hoists⟩

mutual

theorem AssertionsWritten.hoists {path : Path} {target : String} {type : TypeExpr}
    {tree : TypeTree} {assertions : Assertions} {before after : Draft}
    (h : AssertionsWritten settings path target type tree before assertions after) :
    ∀ stmt ∈ assertions.hoisted, stmt.isDeclaration = true := by
  match h with
  | .object _ hinner _ => exact hinner.hoists
  | .union _ hmembers => exact hmembers.hoists
  | .single hcondition => exact hcondition.hoists

theorem AttributesWritten.hoists {path : Path} {type : TypeExpr}
    {attributes : List (Binding × TypeTree)} {assertions : Assertions} {before after : Draft}
    (h : AttributesWritten settings path type attributes before assertions after) :
    ∀ stmt ∈ assertions.hoisted, stmt.isDeclaration = true := by
  match h with
  | .nil => simp [Assertions.none]
  | .cons hfirst hrest =>
      rw [Assertions.append, List.forall_mem_append]
      exact ⟨hfirst.hoists, hrest.hoists⟩

end

/-! ## Attributes -/

theorem AttributesBound.names_nodup {path : Path} {names : List String}
    {bindings : List Binding} (h : AttributesBound path names before bindings after) :
    names.Nodup ∧ ∀ name ∈ names, (path, name) ∉ before.names.attributes := by
  induction h with
  | nil => simp
  | @cons name localName rest taken bindings before after hbind _ ih =>
      obtain ⟨hnew, -, -, rfl⟩ := Names.bindAttribute_ok hbind
      obtain ⟨hnodup, hrest⟩ := ih
      simp only [Draft.names_withNames, List.mem_cons, not_or, Prod.mk.injEq, true_and] at hrest
      refine ⟨List.nodup_cons.mpr ⟨fun hmem => (hrest name hmem).1 rfl, hnodup⟩, ?_⟩
      exact List.forall_mem_cons.mpr ⟨hnew, fun other hother => (hrest other hother).2⟩

end Writing

inductive TypeTree.Distinct : TypeTree → Prop
  | literal {label : Label} {value : Literal} : Distinct (.literal label value)
  | primitive {label : Label} {kind : Primitive} : Distinct (.primitive label kind)
  | array {label : Label} {element : TypeTree} :
      Distinct element → Distinct (.array label element)
  | union {label : Label} {members : List TypeTree} :
      (∀ member ∈ members, Distinct member) → Distinct (.union label members)
  | object {label : Label} {attributes : List (String × TypeTree)}
      {optionalNames : List String} :
      (Fields.names attributes).Nodup → (∀ attr ∈ attributes, Distinct attr.2) →
      Distinct (.object label attributes optionalNames)
  | reference {label : Label} {name : String} : Distinct (.reference label name)

namespace Writing

variable {settings : Settings}

theorem exists_mem_zip {α β : Type} {first : List α} {second : List β} {b : β}
    (h : first.length = second.length) (hmem : b ∈ second) : ∃ a, (a, b) ∈ first.zip second := by
  rw [← List.map_snd_zip (Nat.le_of_eq h.symm)] at hmem
  obtain ⟨pair, hpair, rfl⟩ := List.mem_map.mp hmem
  exact ⟨pair.1, hpair⟩

mutual

theorem GuardWritten.distinct {name param : String} {type : TypeExpr} {path : Path}
    {exported : Bool} {tree : TypeTree} {guard : Function} {before after : Draft}
    (h : GuardWritten settings name type param path exported tree before guard after) :
    tree.Distinct := by
  match h with
  | .intro hbody => exact hbody.distinct

theorem AssertionsWritten.distinct {path : Path} {target : String} {type : TypeExpr}
    {tree : TypeTree} {assertions : Assertions} {before after : Draft}
    (h : AssertionsWritten settings path target type tree before assertions after) :
    tree.Distinct := by
  match h with
  | .object hbound hinner _ =>
      refine .object hbound.names_nodup.1 fun attr hattr => ?_
      have hlength := congrArg List.length hbound.properties
      obtain ⟨binding, hmem⟩ := exists_mem_zip (by simpa using hlength)
        (List.mem_map_of_mem hattr)
      exact hinner.distinct _ hmem
  | .union _ hmembers => exact .union hmembers.distinct
  | .single hcondition => exact hcondition.distinct

theorem ConditionWritten.distinct {path : Path} {target : String} {tree : TypeTree}
    {condition : Condition} {before after : Draft}
    (h : ConditionWritten settings path target tree before condition after) :
    tree.Distinct := by
  match h with
  | .reference => exact .reference
  | .primitive => exact .primitive
  | .literal => exact .literal
  | .array _ _ _ hnested => exact .array hnested.distinct

theorem MembersWritten.distinct {path : Path} {target : String} {index : Nat}
    {members : List TypeTree} {conditions : List Condition} {before after : Draft}
    (h : MembersWritten settings path target index members before conditions after) :
    ∀ member ∈ members, member.Distinct := by
  match h with
  | .nil => simp
  | .cons hfirst hrest => exact List.forall_mem_cons.mpr ⟨hfirst.distinct, hrest.distinct⟩

theorem AttributesWritten.distinct {path : Path} {type : TypeExpr}
    {attributes : List (Binding × TypeTree)} {assertions : Assertions} {before after : Draft}
    (h : AttributesWritten settings path type attributes before assertions after) :
    ∀ attr ∈ attributes, attr.2.Distinct := by
  match h with
  | .nil => simp
  | .cons hfirst hrest => exact List.forall_mem_cons.mpr ⟨hfirst.distinct, hrest.distinct⟩

end

end Writing

end TypeGuard
