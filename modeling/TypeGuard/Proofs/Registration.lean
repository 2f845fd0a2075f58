import TypeGuard.Guard.Registry
import TypeGuard.Proofs.Hygiene

/-!
# Registries and the types they were filled with

`Registry.Sound registry trees` says that the registry holds, for every alias of
`trees` and for no other, the guard written for its tree and the references that
this guard makes.  Registering replaces one entry, so the invariant is kept by
looking at that entry alone.
-/

namespace TypeGuard

namespace Registry

open Writing

variable {settings : Settings} {registry later : Registry}

/-! ## Names of guards -/

theorem guardName_injective (settings : Settings) : settings.guardName.Injective := by
  intro first second h
  have := congrArg String.toList h
  simp only [Settings.guardName, String.toList_append, List.append_cancel_left_eq] at this
  exact String.ext this

theorem guardName_eq_arrayGuardName (hstem : settings.stem = "is") {aliasName : String} :
    settings.guardName aliasName = arrayGuardName ↔ aliasName = "Array" := by
  have harray : settings.guardName "Array" = arrayGuardName := by
    rw [Settings.guardName, hstem]
    rfl
  rw [← harray]
  exact (guardName_injective settings).eq_iff

theorem guardName_ne_rootParam (hstem : settings.stem = "is") (name : String) :
    settings.guardName name ≠ rootParam := by
  intro heq
  have hletters := Settings.toList_guardName hstem name
  simp [heq, rootParam] at hletters

/-! ## Reserved names -/

@[simp] theorem mem_locals_reserveAlias {names : Names} {aliasName other : String} :
    other ∈ (reserveAlias settings names aliasName).locals ↔
      other = settings.guardName aliasName ∨ other ∈ names.locals := by
  simp [reserveAlias]

@[simp] theorem mem_locals_reserveAliases {names : Names} {aliases : List String} {other : String} :
    other ∈ (aliases.foldl (reserveAlias settings) names).locals ↔
      (∃ aliasName ∈ aliases, other = settings.guardName aliasName) ∨ other ∈ names.locals := by
  induction aliases generalizing names with
  | nil => simp
  | cons aliasName rest ih =>
      rw [List.foldl_cons, ih, mem_locals_reserveAlias]
      simp only [List.mem_cons, exists_eq_or_imp, or_assoc, or_left_comm]

@[simp] theorem mem_types_reserveAliases {names : Names} {aliases : List String} {other : String} :
    other ∈ (aliases.foldl (reserveAlias settings) names).types ↔
      other ∈ aliases ∨ other ∈ names.types := by
  induction aliases generalizing names with
  | nil => simp
  | cons aliasName rest ih =>
      rw [List.foldl_cons, ih, reserveAlias, Names.types_reserveLocal,
        Names.mem_types_reserveType, List.mem_cons, or_left_comm, or_assoc]

theorem mem_reservedAliases {root name : String} :
    name ∈ root :: registry.announced.toList ++ Fields.names registry.guards ↔
      name = root ∨ registry.knows name = true := by
  rw [List.cons_append, List.mem_cons, List.mem_append, Std.TreeSet.mem_toList, knows,
    Bool.or_eq_true, Fields.contains_iff, Std.TreeSet.mem_iff_contains]

theorem arrayGuardName_mem_reservedNames (registry : Registry) (root : String) :
    arrayGuardName ∈ (registry.reservedNames root).locals :=
  mem_locals_reserveAliases.mpr (.inr (Names.mem_locals_reserveLocal.mpr (.inl rfl)))

theorem shallowTypeName_mem_reservedNames (registry : Registry) (root : String) :
    shallowTypeName ∈ (registry.reservedNames root).types :=
  mem_types_reserveAliases.mpr (.inr (Names.mem_types_reserveType.mpr (.inl rfl)))

theorem guardName_mem_reservedNames {root name : String}
    (h : name = root ∨ registry.knows name = true) :
    registry.settings.guardName name ∈ (registry.reservedNames root).locals :=
  mem_locals_reserveAliases.mpr (.inl ⟨name, mem_reservedAliases.mpr h, rfl⟩)

theorem aliasName_mem_reservedNames {root name : String}
    (h : name = root ∨ registry.knows name = true) :
    name ∈ (registry.reservedNames root).types :=
  mem_types_reserveAliases.mpr (.inl (mem_reservedAliases.mpr h))

/-! ## Entries -/

inductive WrittenFor (settings : Settings) (aliasName : String) (tree : TypeTree) :
    Function → List Reference → Prop
  | intro {before after : Draft} {guard : Function} :
      GuardWritten settings (settings.guardName aliasName) (.ref aliasName) rootParam [aliasName]
        true tree before guard after →
      arrayGuardName ∈ before.names.locals →
      (∀ r ∈ after.references, settings.guardName r.name ∈ before.names.locals) →
      WrittenFor settings aliasName tree guard after.references

theorem WrittenFor.name {aliasName : String} {tree : TypeTree} {guard : Function}
    {references : List Reference} (h : WrittenFor settings aliasName tree guard references) :
    guard.name = settings.guardName aliasName := by
  cases h with
  | intro hwritten => exact hwritten.name

theorem WrittenFor.param {aliasName : String} {tree : TypeTree} {guard : Function}
    {references : List Reference} (h : WrittenFor settings aliasName tree guard references) :
    guard.param = rootParam := by
  cases h with
  | intro hwritten => exact hwritten.param

theorem write_ok {aliasName : String} {tree : TypeTree} {guard : Function}
    {references : List Reference}
    (h : registry.write aliasName tree = .ok (guard, references)) :
    ∃ after, GuardWritten registry.settings (registry.settings.guardName aliasName)
        (.ref aliasName) rootParam [aliasName] true tree
        ⟨registry.reservedNames aliasName, []⟩ guard after ∧
      references = after.references := by
  obtain ⟨⟨written, after⟩, hrun, h⟩ := bind_eq_ok.mp h
  cases h
  exact ⟨after, guardWritten_of_run (assertionsWritten_of_run _) hrun, rfl⟩

theorem register_ok {tree : TypeTree} (h : registry.register tree = .ok later) :
    ∃ aliasName guard references, tree.aliasName = some aliasName ∧
      WrittenFor registry.settings aliasName tree guard references ∧
      later = { registry with
        guards := Fields.insert aliasName guard registry.guards
        references := Fields.insert aliasName references registry.references } := by
  unfold register at h
  split at h
  next => cases h
  next => cases h
  next aliasName hname halias =>
      obtain ⟨⟨guard, references⟩, hwrite, h⟩ := bind_eq_ok.mp h
      obtain ⟨after, hwritten, rfl⟩ := write_ok hwrite
      simp only at h
      split at h
      next => cases h
      next hknown =>
          cases h
          refine ⟨aliasName, guard, _, halias, .intro hwritten
            (arrayGuardName_mem_reservedNames registry aliasName) fun r hr => ?_, rfl⟩
          have hgood := List.find?_eq_none.mp hknown r hr
          simp only [Bool.not_eq_true', Bool.not_eq_false, Bool.or_eq_true, beq_iff_eq] at hgood
          exact guardName_mem_reservedNames hgood

/-! ## The invariant -/

structure Sound (registry : Registry) (trees : Fields TypeTree) : Prop where
  guards : Fields.names registry.guards = Fields.names trees
  references : Fields.names registry.references = Fields.names trees
  nodup : (Fields.names trees).Nodup
  written : ∀ aliasName tree, Fields.find? aliasName trees = some tree →
    ∃ guard references, Fields.find? aliasName registry.guards = some guard ∧
      Fields.find? aliasName registry.references = some references ∧
      WrittenFor registry.settings aliasName tree guard references

theorem Sound.empty (settings : Settings) : Sound (empty settings) [] where
  guards := rfl
  references := rfl
  nodup := List.nodup_nil
  written _ _ h := by cases h

variable {trees : Fields TypeTree}

theorem Sound.announce (h : Sound registry trees) (names : List String) :
    Sound (registry.announce names) trees :=
  ⟨h.guards, h.references, h.nodup, h.written⟩

theorem Sound.register (h : Sound registry trees) {tree : TypeTree} {aliasName : String}
    (halias : tree.aliasName = some aliasName) (hregister : registry.register tree = .ok later) :
    Sound later (Fields.insert aliasName tree trees) := by
  obtain ⟨name, guard, references, hname, hwritten, rfl⟩ := register_ok hregister
  cases halias.symm.trans hname
  refine ⟨?_, ?_, Fields.names_nodup_insert h.nodup _ _, fun other root hroot => ?_⟩
  · simp only [Fields.names_insert, h.guards]
  · simp only [Fields.names_insert, h.references]
  · by_cases heq : other = aliasName
    · subst heq
      rw [Fields.find?_insert_self] at hroot
      cases hroot
      exact ⟨guard, references, Fields.find?_insert_self .., Fields.find?_insert_self .., hwritten⟩
    · simp only [Fields.find?_insert_of_ne heq] at hroot ⊢
      exact h.written other root hroot

/-! ## Assembled files -/

/-- The file of all that is registered, whether or not what it refers to is. -/
def draftFile (registry : Registry) : GuardFile :=
  ⟨arrayGuard.toStmt :: shallowType :: registry.importStatements ++
    registry.guards.map fun entry => entry.2.toStmt⟩

theorem eq_draftFile_of_assemble {file : GuardFile} (h : registry.assemble = .ok file) :
    file = registry.draftFile := by
  unfold assemble at h
  simp only at h
  split at h
  next => cases h
  next =>
      cases h
      rfl

@[simp] theorem functions_draftFile (registry : Registry) :
    registry.draftFile.functions = arrayGuard :: registry.guards.map (·.2) := by
  have himports : registry.importStatements.filterMap Stmt.function? = [] := by
    unfold importStatements
    split <;> rfl
  have hguards : (registry.guards.map fun entry => entry.2.toStmt).filterMap
      Stmt.function? = registry.guards.map (·.2) := by
    rw [List.filterMap_map, ← List.filterMap_eq_map]
    rfl
  change arrayGuard :: (registry.importStatements ++ _).filterMap Stmt.function? = _
  rw [List.filterMap_append, himports, List.nil_append, hguards]

theorem references_of_assemble {file : GuardFile} (h : registry.assemble = .ok file) :
    ∀ entry ∈ registry.references, ∀ r ∈ entry.2, r.name ∈ Fields.names registry.guards := by
  unfold assemble at h
  simp only at h
  split at h
  next => cases h
  next hknown =>
      intro entry hentry r hr
      have hgood := List.find?_eq_none.mp hknown r (List.mem_flatMap.mpr ⟨entry, hentry, hr⟩)
      simp only [Bool.not_eq_true', Bool.not_eq_false] at hgood
      exact Fields.contains_iff.mp hgood

theorem assemble_ok {file : GuardFile} (h : registry.assemble = .ok file) :
    (∀ entry ∈ registry.references, ∀ r ∈ entry.2, r.name ∈ Fields.names registry.guards) ∧
      file.functions = arrayGuard :: registry.guards.map (·.2) := by
  rw [eq_draftFile_of_assemble h]
  exact ⟨references_of_assemble h, registry.functions_draftFile⟩

theorem exists_assemble
    (h : ∀ entry ∈ registry.references, ∀ r ∈ entry.2, r.name ∈ Fields.names registry.guards) :
    ∃ file, registry.assemble = .ok file := by
  unfold assemble
  simp only
  split
  next reference hunknown =>
      obtain ⟨entry, hentry, hmem⟩ := List.mem_flatMap.mp (List.mem_of_find?_eq_some hunknown)
      have hknown := Fields.contains_iff.mpr (h entry hentry reference hmem)
      have hfound := List.find?_some hunknown
      simp [hknown] at hfound
  next => exact ⟨_, rfl⟩

end Registry

end TypeGuard
