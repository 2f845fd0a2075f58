import TypeGuard.Proofs.Admission

/-!
# What the writing of a guard depends on

The names taken before decide which names are chosen, but only by being taken: it does
not matter in which order, or how the sets hold them.  So two registries with the same
settings that know the same aliases write the same guard for a type, or fail with the same
problem.

The two runs go in step.  They choose the same names, so the same names are taken at every
point of both.
-/

namespace TypeGuard

/-- Both fail with one problem, or both give one value and leave related states. -/
inductive SameEnd {α σ : Type} (related : σ → σ → Prop) :
    Except Problem (α × σ) → Except Problem (α × σ) → Prop
  | ok {value : α} {after later : σ} :
      related after later → SameEnd related (.ok (value, after)) (.ok (value, later))
  | error {problem : Problem} : SameEnd related (.error problem) (.error problem)

section

variable {α β σ τ : Type} {related : σ → σ → Prop} {first second : Except Problem (α × σ)}

theorem SameEnd.bind (h : SameEnd related first second) {later : τ → τ → Prop}
    {next other : α × σ → Except Problem (β × τ)}
    (hnext : ∀ value before after, related before after →
      SameEnd later (next (value, before)) (other (value, after))) :
    SameEnd later (first >>= next) (second >>= other) := by
  cases h with
  | ok hrelated => exact hnext _ _ _ hrelated
  | error => exact .error

theorem SameEnd.map_eq (h : SameEnd related first second) {f : α × σ → β}
    (hf : ∀ value before after, related before after → f (value, before) = f (value, after)) :
    first.map f = second.map f := by
  cases h with
  | ok hrelated => exact congrArg Except.ok (hf _ _ _ hrelated)
  | error => rfl

end

namespace Names

/-! ## Taken names -/

structure Alike (names other : Names) : Prop where
  locals : ∀ name, name ∈ names.locals ↔ name ∈ other.locals
  types : ∀ name, name ∈ names.types ↔ name ∈ other.types
  attributes : names.attributes = other.attributes

variable {names other : Names} {path : Path} {proposed : String}

theorem contains_congr {taken others : NameSet} (h : ∀ name, name ∈ taken ↔ name ∈ others) :
    taken.contains = others.contains := by
  funext name
  rw [Bool.eq_iff_iff, ← Std.TreeSet.mem_iff_contains, ← Std.TreeSet.mem_iff_contains]
  exact h name

theorem Alike.reserveLocal (h : names.Alike other) (name : String) :
    (names.reserveLocal name).Alike (other.reserveLocal name) where
  locals taken := by simp only [mem_locals_reserveLocal, h.locals]
  types := h.types
  attributes := h.attributes

theorem Alike.reserveType (h : names.Alike other) (name : String) :
    (names.reserveType name).Alike (other.reserveType name) where
  locals := h.locals
  types taken := by simp only [mem_types_reserveType, h.types]
  attributes := h.attributes

theorem sameEnd_choose {free : String → Bool} {taken others : String → Names}
    (h : ∀ name, (taken name).Alike (others name)) :
    SameEnd Alike (do let name ← choose free path proposed; return (name, taken name))
      (do let name ← choose free path proposed; return (name, others name)) := by
  cases choose free path proposed with
  | error problem => exact .error
  | ok name => exact .ok (h name)

theorem Alike.freshLocal (h : names.Alike other) :
    SameEnd Alike (names.freshLocal path proposed) (other.freshLocal path proposed) := by
  unfold Names.freshLocal
  rw [contains_congr h.locals]
  exact sameEnd_choose h.reserveLocal

theorem Alike.freshType (h : names.Alike other) :
    SameEnd Alike (names.freshType path proposed) (other.freshType path proposed) := by
  unfold Names.freshType
  rw [contains_congr h.types]
  exact sameEnd_choose h.reserveType

theorem Alike.freshFunction (h : names.Alike other) :
    SameEnd Alike (names.freshFunction path proposed) (other.freshFunction path proposed) := by
  unfold Names.freshFunction
  rw [contains_congr h.locals, contains_congr h.types]
  exact sameEnd_choose fun name => (h.reserveType name).reserveLocal name

end Names

structure Draft.Alike (draft other : Draft) : Prop where
  names : draft.names.Alike other.names
  references : draft.references = other.references

namespace Writing

/-! ## Writing in step -/

def Steady {α : Type} (action : Writing α) : Prop :=
  ∀ before other : Draft, before.Alike other →
    SameEnd Draft.Alike (action.run before) (action.run other)

section

variable {α β : Type} {action : Writing α} {next : α → Writing β}

theorem Steady.pure (value : α) : Steady (pure value : Writing α) :=
  fun _ _ h => .ok h

theorem Steady.throw (problem : Problem) : Steady (throw problem : Writing α) :=
  fun _ _ _ => .error

theorem Steady.modify {change : Draft → Draft}
    (h : ∀ before other : Draft, before.Alike other → (change before).Alike (change other)) :
    Steady (modify change : Writing PUnit) :=
  fun before other halike => .ok (h before other halike)

theorem Steady.bind (hfirst : Steady action) (hnext : ∀ value, Steady (next value)) :
    Steady (action >>= next) := by
  intro before other h
  rw [StateT.run_bind, StateT.run_bind]
  exact (hfirst before other h).bind fun value after later halike =>
    hnext value after later halike

theorem Steady.map (hfirst : Steady action) (f : α → β) :
    Steady (do return f (← action)) :=
  hfirst.bind fun value => .pure (f value)

end

/-! ## Names and attributes -/

theorem takeName_steady {fresh : Names → Except Problem (String × Names)}
    (hfresh : ∀ names other : Names, names.Alike other →
      SameEnd Names.Alike (fresh names) (fresh other)) : Steady (takeName fresh) := by
  intro before other h
  have hrun : ∀ draft : Draft, (takeName fresh).run draft =
      fresh draft.names >>= fun taken => .ok (taken.1, { draft with names := taken.2 }) := by
    intro draft
    rw [takeName, StateT.run_bind, StateT.run_get, pure_bind]
    cases fresh draft.names <;> rfl
  rw [hrun, hrun]
  exact (hfresh _ _ h.names).bind fun _ _ _ halike => .ok ⟨halike, h.references⟩

theorem freshLocal_steady (path : Path) (proposed : String) :
    Steady (freshLocal path proposed) :=
  takeName_steady fun _ _ h => h.freshLocal

theorem freshType_steady (path : Path) (proposed : String) : Steady (freshType path proposed) :=
  takeName_steady fun _ _ h => h.freshType

theorem freshFunction_steady (path : Path) (proposed : String) :
    Steady (freshFunction path proposed) :=
  takeName_steady fun _ _ h => h.freshFunction

theorem reserveLocal_steady (name : String) : Steady (reserveLocal name) :=
  .modify fun _ _ h => ⟨h.names.reserveLocal name, h.references⟩

theorem refer_steady (name : String) (place : Path) : Steady (refer name place) :=
  .modify fun _ _ h => ⟨h.names, by rw [h.references]⟩

theorem bindAttribute_steady (path : Path) (name : String) :
    Steady (bindAttribute path name) := by
  intro before other h
  -- A new attribute is bound to a local that is taken with the attribute on record.
  have hrun : ∀ draft : Draft, (bindAttribute path name).run draft =
      if (path, name) ∈ draft.names.attributes then .error (.repeatedAttribute path name)
      else { draft.names with attributes := (path, name) :: draft.names.attributes }.freshLocal
        path name >>= fun taken => .ok (⟨name, taken.1⟩, { draft with names := taken.2 }) := by
    intro draft
    rw [bindAttribute, StateT.run_bind, StateT.run_get, pure_bind]
    unfold Names.bindAttribute
    by_cases hbound : (path, name) ∈ draft.names.attributes
    · simp only [if_pos hbound]
      rfl
    · simp only [if_neg hbound]
      cases Names.freshLocal _ path name <;> rfl
  rw [hrun, hrun, h.names.attributes]
  split
  next => exact .error
  next =>
      have hnames : Names.Alike
          { before.names with attributes := (path, name) :: other.names.attributes }
          { other.names with attributes := (path, name) :: other.names.attributes } :=
        ⟨h.names.locals, h.names.types, rfl⟩
      exact hnames.freshLocal.bind fun _ _ _ halike => .ok ⟨halike, h.references⟩

theorem bindAttributes_steady (path : Path) (names : List String) :
    Steady (bindAttributes path names) := by
  induction names with
  | nil => exact .pure []
  | cons name rest ih => exact (bindAttribute_steady path name).bind fun binding => ih.map _

/-! ## Pieces of a type -/

def WriterSteady (write : Writer) : Prop :=
  ∀ path target type tree, Steady (write path target type tree)

section

variable {settings : Settings} {write : Writer} {path : Path} {target : String}

theorem guardFunction_steady (hw : WriterSteady write) (name : String) (type : TypeExpr)
    (param : String) (path : Path) (exported : Bool) (tree : TypeTree) :
    Steady (guardFunction write name type param path exported tree) :=
  (reserveLocal_steady param).bind fun _ => (hw path param type tree).map _

theorem arrayCondition_steady (hw : WriterSteady write) (path : Path) (target : String)
    (element : TypeTree) : Steady (arrayCondition write path target element) := by
  refine (freshType_steady path _).bind fun typeName => ?_
  refine (freshFunction_steady path _).bind fun functionName => ?_
  refine (freshLocal_steady path rootParam).bind fun param => ?_
  exact (guardFunction_steady hw functionName _ param _ false element).map _

theorem condition_steady (hw : WriterSteady write) (path : Path) (target : String)
    (tree : TypeTree) : Steady (condition settings write path target tree) := by
  cases tree with
  | reference label name => exact (refer_steady name path).bind fun _ => .pure _
  | primitive label kind => exact .pure _
  | literal label value => exact .pure _
  | array label element => exact arrayCondition_steady hw path target element
  | union label members => exact .throw _
  | object label attributes optionalNames => exact .throw _

theorem memberConditions_steady {write : Path → TypeTree → Writing Condition}
    (hw : ∀ path tree, Steady (write path tree)) (path : Path) (index : Nat)
    (members : List TypeTree) : Steady (memberConditions write path index members) := by
  induction members generalizing index with
  | nil => exact .pure []
  | cons member rest ih => exact (hw _ member).bind fun first => (ih (index + 1)).map _

theorem unionCondition_steady {write : Path → TypeTree → Writing Condition}
    (hw : ∀ path tree, Steady (write path tree)) (path : Path) (members : List TypeTree) :
    Steady (unionCondition write path members) := by
  unfold unionCondition
  cases TypeTree.checkUnion path members with
  | error problem => exact .throw problem
  | ok _ => exact (memberConditions_steady hw path 0 members).map _

theorem attributeAssertions_steady (hw : WriterSteady write) (path : Path) (type : TypeExpr)
    (attributes : List (Binding × TypeTree)) :
    Steady (attributeAssertions write path type attributes) := by
  induction attributes with
  | nil => exact .pure _
  | cons attr rest ih => exact (hw _ _ _ attr.2).bind fun first => ih.map _

theorem selfCheck_steady (settings : Settings) (path : Path) (type : TypeExpr)
    (bindings : List Binding) : Steady (selfCheck settings path type bindings) := by
  unfold selfCheck
  split
  · exact (freshLocal_steady path "checked").map _
  · exact .pure []

theorem objectAssertions_steady (hw : WriterSteady write) (path : Path) (target : String)
    (type : TypeExpr) (attributes : List (String × TypeTree)) :
    Steady (objectAssertions settings write path target type attributes) := by
  refine (bindAttributes_steady path _).bind fun bindings => ?_
  refine (attributeAssertions_steady hw path type _).bind fun inner => ?_
  exact (selfCheck_steady settings path type bindings).map _

end

theorem assertions_steady (settings : Settings) (budget : Nat) :
    WriterSteady (assertions settings budget) := by
  -- Like the writer itself, the induction reaches back two levels for a union.
  induction budget using Nat.strongRecOn with
  | ind budget ih =>
      intro path target type tree
      cases budget with
      | zero => exact .throw _
      | succ budget =>
          have hbelow := ih budget (Nat.lt_succ_self budget)
          cases tree with
          | object label attributes optionalNames =>
              exact objectAssertions_steady hbelow path target type attributes
          | union label members =>
              cases budget with
              | zero => exact (unionCondition_steady (fun _ _ => .throw _) path members).map _
              | succ inner =>
                  have hinner := ih inner (by omega)
                  exact (unionCondition_steady
                    (fun path tree => condition_steady hinner path target tree) path members).map _
          | _ => exact (condition_steady hbelow path target _).map _

end Writing

namespace Registry

open Writing

variable {registry other : Registry}

/-! ## Registries that know the same aliases -/

theorem reservedNames_alike (hsettings : registry.settings = other.settings)
    (hknows : ∀ name, registry.knows name = other.knows name) (root : String) :
    (registry.reservedNames root).Alike (other.reservedNames root) := by
  have haliases : ∀ name, name ∈ root :: registry.announced.toList ++ Fields.names registry.guards ↔
      name ∈ root :: other.announced.toList ++ Fields.names other.guards := by
    intro name
    rw [mem_reservedAliases, mem_reservedAliases, hknows]
  constructor
  case locals =>
      intro name
      simp only [reservedNames, mem_locals_reserveAliases, haliases, hsettings]
  case types =>
      intro name
      simp only [reservedNames, mem_types_reserveAliases, haliases]
  case attributes =>
      simp only [reservedNames, attributes_reserveAliases]

/-- What is written for a root depends on the settings and on the known aliases only. -/
theorem write_congr (hsettings : registry.settings = other.settings)
    (hknows : ∀ name, registry.knows name = other.knows name) (aliasName : String)
    (tree : TypeTree) : registry.write aliasName tree = other.write aliasName tree := by
  have hends := guardFunction_steady (assertions_steady registry.settings
    (registry.settings.maxDepth + 1)) (registry.settings.guardName aliasName) (.ref aliasName)
    rootParam [aliasName] true tree ⟨registry.reservedNames aliasName, []⟩
    ⟨other.reservedNames aliasName, []⟩ ⟨reservedNames_alike hsettings hknows aliasName, rfl⟩
  have hmap := hends.map_eq (f := fun written => (written.1, written.2.references))
    fun guard before after halike => by rw [halike.references]
  unfold write
  rw [← hsettings]
  exact hmap

end Registry

end TypeGuard
