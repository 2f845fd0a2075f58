import TypeGuard.Proofs.Session

/-!
# The top level of an assembled file

A file declares the array guard, the shallow type and one guard for each alias, and it
imports the aliases.  The names of guards come from the aliases as they are, so the two
helpers are declared beside names that nothing keeps away from them.

Two kinds of lookup find a top-level function: the file gives the first declaration of a
name, running code the last one.  They agree on every name exactly if no alias is `Array`,
whose guard has the name of the array guard.
-/

namespace TypeGuard

open Evaluation Writing

/-! ## Imports, types and functions of a file -/

def Stmt.imported : Stmt → List String
  | .imports names _ => names
  | _ => []

def Stmt.typeName? : Stmt → Option String
  | .typeAlias name _ _ => some name
  | _ => none

namespace GuardFile

def imported (file : GuardFile) : List String := file.statements.flatMap Stmt.imported

def typeNames (file : GuardFile) : List String := file.statements.filterMap Stmt.typeName?

def functionNames (file : GuardFile) : List String := file.functions.map (·.name)

/-- The function that a call from the top level reaches. -/
def called? (file : GuardFile) (name : String) : Option Function :=
  (file.scope.find? name).map (·.function)

theorem called?_eq (file : GuardFile) (name : String) :
    file.called? name = file.functions.reverse.find? fun f => f.name == name := by
  have hframe : file.called? name = ((Frame.ofBody [] file.statements).find? name).map (·.2) := by
    unfold called? scope Scope.find?
    cases (Frame.ofBody [] file.statements).find? name <;> rfl
  rw [hframe, functions, ← Frame.functions_ofBody [] file.statements, ← List.map_reverse,
    List.find?_map]
  rfl

end GuardFile

namespace Registry

variable {registry : Registry} {trees : Fields TypeTree} {file : GuardFile}

/-! ## Imported names -/

@[simp] theorem mem_addNames {listed names : List String} {name : String} :
    name ∈ addNames listed names ↔ name ∈ listed ∨ name ∈ names := by
  induction names generalizing listed with
  | nil => simp [addNames]
  | cons first rest ih =>
      rw [addNames, List.foldl_cons]
      refine ih.trans ?_
      split
      next hlisted =>
          have hfirst := List.contains_iff_mem.mp hlisted
          constructor
          · exact fun h => h.imp_right (List.mem_cons_of_mem _)
          · rintro (hold | hnew)
            · exact .inl hold
            · rcases List.mem_cons.mp hnew with rfl | hrest
              · exact .inl hfirst
              · exact .inr hrest
      next => rw [List.mem_append, List.mem_singleton, List.mem_cons, or_assoc]

theorem mem_importedNames {name : String} :
    name ∈ registry.importedNames ↔
      ∃ entry ∈ registry.references, name = entry.1 ∨ ∃ r ∈ entry.2, r.name = name := by
  have hfold : ∀ (listed : List String) (entries : Fields (List Reference)),
      name ∈ entries.foldl
          (fun acc entry => addNames acc (entry.1 :: entry.2.map (·.name))) listed ↔
        name ∈ listed ∨ ∃ entry ∈ entries, name = entry.1 ∨ ∃ r ∈ entry.2, r.name = name := by
    intro listed entries
    induction entries generalizing listed with
    | nil => simp
    | cons entry rest ih =>
        rw [List.foldl_cons, ih, mem_addNames, List.mem_cons, List.mem_map, or_assoc]
        simp only [List.mem_cons, exists_eq_or_imp]
  exact (hfold [] registry.references).trans (by simp)

theorem mem_importedNames_iff (hnames : Fields.names registry.references =
    Fields.names registry.guards)
    (hregistered : ∀ entry ∈ registry.references, ∀ r ∈ entry.2,
      r.name ∈ Fields.names registry.guards) {name : String} :
    name ∈ registry.importedNames ↔ name ∈ Fields.names registry.guards := by
  rw [mem_importedNames]
  constructor
  · rintro ⟨entry, hentry, rfl | ⟨r, hr, rfl⟩⟩
    · exact hnames ▸ List.mem_map_of_mem hentry
    · exact hregistered entry hentry r hr
  · intro hname
    obtain ⟨entry, hentry, rfl⟩ := List.mem_map.mp (hnames ▸ hname)
    exact ⟨entry, hentry, .inl rfl⟩

theorem Sound.mem_importedNames (h : Sound registry trees)
    (hfile : registry.assemble = .ok file) {name : String} :
    name ∈ registry.importedNames ↔ name ∈ Fields.names registry.guards :=
  mem_importedNames_iff (h.references.trans h.guards.symm) (references_of_assemble hfile)

theorem addNames_nodup {listed names : List String} (h : listed.Nodup) :
    (addNames listed names).Nodup := by
  induction names generalizing listed with
  | nil => exact h
  | cons first rest ih =>
      rw [addNames, List.foldl_cons]
      refine ih ?_
      split
      next => exact h
      next hnew =>
          rw [List.contains_iff_mem] at hnew
          exact List.nodup_append.mpr ⟨h, List.nodup_singleton first, by
            rintro name hname _ hfirst rfl
            exact hnew (List.mem_singleton.mp hfirst ▸ hname)⟩

theorem importedNames_nodup (registry : Registry) : registry.importedNames.Nodup := by
  have hfold : ∀ (listed : List String) (entries : Fields (List Reference)), listed.Nodup →
      (entries.foldl (fun acc entry => addNames acc (entry.1 :: entry.2.map (·.name)))
        listed).Nodup := by
    intro listed entries h
    induction entries generalizing listed with
    | nil => exact h
    | cons entry rest ih => exact ih _ (addNames_nodup h)
  exact hfold [] registry.references List.nodup_nil

@[simp] theorem imported_draftFile (registry : Registry) :
    registry.draftFile.imported = registry.importedNames := by
  have himports : registry.importStatements.flatMap Stmt.imported = registry.importedNames := by
    unfold importStatements
    split
    next hempty => rw [List.isEmpty_iff.mp hempty, List.flatMap_nil]
    next => simp [Stmt.imported]
  have hguards : (registry.guards.map fun entry => entry.2.toStmt).flatMap Stmt.imported = [] := by
    rw [List.flatMap_map]
    exact List.flatMap_eq_nil_iff.mpr fun _ _ => rfl
  change (registry.importStatements ++ _).flatMap Stmt.imported = _
  simp [himports, hguards]

theorem imported_of_assemble (h : registry.assemble = .ok file) :
    file.imported = registry.importedNames := by
  simp [eq_draftFile_of_assemble h]

@[simp] theorem typeNames_draftFile (registry : Registry) :
    registry.draftFile.typeNames = [shallowTypeName] := by
  have himports : registry.importStatements.filterMap Stmt.typeName? = [] := by
    unfold importStatements
    split <;> rfl
  have hguards : (registry.guards.map fun entry => entry.2.toStmt).filterMap
      Stmt.typeName? = [] := by
    rw [List.filterMap_map]
    exact List.filterMap_eq_nil_iff.mpr fun _ _ => rfl
  change shallowTypeName :: (registry.importStatements ++ _).filterMap Stmt.typeName? = _
  simp [himports, hguards]

theorem typeNames_of_assemble (h : registry.assemble = .ok file) :
    file.typeNames = [shallowTypeName] := by
  simp [eq_draftFile_of_assemble h]

/-! ## Functions -/

theorem arrayGuardName_mem_map {settings : Settings} (hstem : settings.stem = "is")
    {aliases : List String} :
    arrayGuardName ∈ aliases.map settings.guardName ↔ "Array" ∈ aliases := by
  simp only [List.mem_map, guardName_eq_arrayGuardName hstem, exists_eq_right]

theorem find?_reverse_name {functions : List Function} (h : (functions.map (·.name)).Nodup)
    (name : String) :
    (functions.reverse.find? fun f => f.name == name) =
      functions.find? fun f => f.name == name := by
  induction functions with
  | nil => rfl
  | cons f rest ih =>
      obtain ⟨hfresh, hrest⟩ := List.nodup_cons.mp h
      rw [List.reverse_cons, List.find?_append, ih hrest]
      by_cases hname : f.name = name
      · have hnone : (rest.find? fun g => g.name == name) = none := by
          refine List.find?_eq_none.mpr fun g hg heq => hfresh ?_
          exact List.mem_map.mpr ⟨g, hg, (beq_iff_eq.mp heq).trans hname.symm⟩
        simp [hname, hnone]
      · simp [hname]

theorem Sound.guards_nodup (h : Sound registry trees) :
    ((registry.guards.map (·.2)).map (·.name)).Nodup := by
  rw [List.map_map]
  refine h.guard_name ▸ List.Nodup.map (guardName_injective _) ?_
  exact h.guards ▸ h.nodup

theorem Sound.find?_guards (h : Sound registry trees) (aliasName : String) :
    ((registry.guards.map (·.2)).find? fun f => f.name == registry.settings.guardName aliasName) =
      Fields.find? aliasName registry.guards := by
  have hnodup : (Fields.names registry.guards).Nodup := h.guards ▸ h.nodup
  cases hfound : (registry.guards.map (·.2)).find?
      fun f => f.name == registry.settings.guardName aliasName with
  | some f =>
      obtain ⟨entry, hentry, rfl⟩ := List.mem_map.mp (List.mem_of_find?_eq_some hfound)
      have hname : entry.2.name = registry.settings.guardName aliasName := by
        simpa using List.find?_some hfound
      rw [← guardName_injective _ ((h.name_of_mem hentry).symm.trans hname)]
      exact (Fields.find?_of_mem hnodup hentry).symm
  | none =>
      cases hguard : Fields.find? aliasName registry.guards with
      | none => rfl
      | some guard =>
          have hentry := Fields.mem_of_find? hguard
          have hnot := List.find?_eq_none.mp hfound guard (List.mem_map_of_mem hentry)
          rw [h.name_of_mem hentry, beq_self_eq_true] at hnot
          exact absurd rfl hnot

theorem function?_of_assemble (hfile : registry.assemble = .ok file) (name : String) :
    file.function? name = if arrayGuardName = name then some arrayGuard
      else (registry.guards.map (·.2)).find? fun f => f.name == name := by
  rw [GuardFile.function?, (assemble_ok hfile).2, List.find?_cons]
  by_cases hname : arrayGuardName = name
  · simp [arrayGuard, hname]
  · rw [if_neg hname, beq_eq_false_iff_ne.mpr (show arrayGuard.name ≠ name from hname)]

theorem Sound.called?_of_assemble (h : Sound registry trees)
    (hfile : registry.assemble = .ok file) (name : String) :
    file.called? name = ((registry.guards.map (·.2)).find? fun f => f.name == name).or
      (if arrayGuardName = name then some arrayGuard else none) := by
  rw [GuardFile.called?_eq, (assemble_ok hfile).2, List.reverse_cons, List.find?_append,
    find?_reverse_name h.guards_nodup, List.find?_singleton]
  by_cases hname : arrayGuardName = name <;> simp [arrayGuard, hname]

theorem Sound.find?_ne_arrayGuard (h : Sound registry trees) (aliasName : String) :
    Fields.find? aliasName registry.guards ≠ some arrayGuard := by
  intro hguard
  obtain ⟨tree, references, hwritten⟩ := h.written_of_mem (Fields.mem_of_find? hguard)
  -- The parameter of a guard is called otherwise.
  have hparam : arrayGuard.param = rootParam := hwritten.param
  exact absurd hparam (by decide)

/-! ## The top level -/

/-- What the top level of a file declares, and what its names stand for. -/
structure TopLevel (registry : Registry) (file : GuardFile) : Prop where
  functions : file.functionNames.Nodup ↔ "Array" ∉ Fields.names registry.guards
  imports : (∀ name ∈ file.imported, name ∉ file.typeNames) ↔
    shallowTypeName ∉ Fields.names registry.guards
  lookups : "Array" ∉ Fields.names registry.guards →
    ∀ name, file.called? name = file.function? name
  array : file.function? arrayGuardName = some arrayGuard
  arrayReached : file.called? arrayGuardName = some arrayGuard ↔
    "Array" ∉ Fields.names registry.guards
  arrayOnce : file.functionNames.count arrayGuardName = 1 ↔
    "Array" ∉ Fields.names registry.guards
  /-- Running code reaches the guard of every alias. -/
  guards : ∀ aliasName ∈ Fields.names registry.guards,
    file.called? (registry.settings.guardName aliasName) =
      Fields.find? aliasName registry.guards
  /-- The file shows the guard of every alias but `Array`, and declares it once. -/
  guardsOnce : ∀ aliasName ∈ Fields.names registry.guards, aliasName ≠ "Array" →
    file.function? (registry.settings.guardName aliasName) =
        Fields.find? aliasName registry.guards ∧
      file.functionNames.count (registry.settings.guardName aliasName) = 1

theorem Sound.topLevel (h : Sound registry trees) (hstem : registry.settings.stem = "is")
    (hfile : registry.assemble = .ok file) : TopLevel registry file := by
  have hnames : file.functionNames =
      arrayGuardName :: (Fields.names registry.guards).map registry.settings.guardName :=
    h.function_names hfile
  have hguards : ((Fields.names registry.guards).map registry.settings.guardName).Nodup :=
    List.Nodup.map (guardName_injective _) (h.guards ▸ h.nodup)
  have harray : registry.settings.guardName "Array" = arrayGuardName :=
    (guardName_eq_arrayGuardName hstem).mpr rfl
  have hcalled : ∀ aliasName, file.called? (registry.settings.guardName aliasName) =
      (Fields.find? aliasName registry.guards).or
        (if aliasName = "Array" then some arrayGuard else none) := by
    intro aliasName
    rw [h.called?_of_assemble hfile, h.find?_guards]
    simp only [eq_comm (a := arrayGuardName), guardName_eq_arrayGuardName hstem]
  constructor
  case functions =>
      rw [hnames, List.nodup_cons, arrayGuardName_mem_map hstem]
      exact and_iff_left hguards
  case imports =>
      rw [imported_of_assemble hfile, typeNames_of_assemble hfile]
      simp only [h.mem_importedNames hfile, List.mem_singleton]
      exact ⟨fun hne hmem => hne _ hmem rfl, fun hmem name hname heq => hmem (heq ▸ hname)⟩
  case lookups =>
      intro hmem name
      rw [GuardFile.called?_eq, GuardFile.function?]
      refine find?_reverse_name ?_ name
      change file.functionNames.Nodup
      rw [hnames, List.nodup_cons, arrayGuardName_mem_map hstem]
      exact ⟨hmem, hguards⟩
  case array => rw [function?_of_assemble hfile, if_pos rfl]
  case arrayReached =>
      rw [← harray, hcalled, if_pos rfl, ← Fields.contains_iff, Fields.contains]
      cases hguard : Fields.find? "Array" registry.guards with
      | none => simp
      | some guard => simpa [hguard] using h.find?_ne_arrayGuard "Array"
  case arrayOnce =>
      rw [hnames, List.count_cons_self, Nat.add_eq_right, List.count_eq_zero,
        arrayGuardName_mem_map hstem]
  case guards =>
      intro aliasName hmem
      obtain ⟨guard, hguard⟩ := Fields.mem_names.mp hmem
      rw [hcalled, hguard, Option.some_or]
  case guardsOnce =>
      intro aliasName hmem hne
      have hother : arrayGuardName ≠ registry.settings.guardName aliasName :=
        fun heq => hne ((guardName_eq_arrayGuardName hstem).mp heq.symm)
      refine ⟨?_, ?_⟩
      · rw [function?_of_assemble hfile, if_neg hother, h.find?_guards]
      · rw [hnames, List.count_cons_of_ne hother]
        exact List.count_eq_one_of_mem hguards (List.mem_map_of_mem hmem)

end Registry

namespace Session

open Registry

/-- The names at the top level of a session's file clash for two aliases only: the guard of
`Array` has the name of the array guard, and `ShallowOptional` is imported beside the type
of that name.  Without the first, every name stands for one function, however it is looked
up. -/
theorem assemble_topLevel (settings : Settings) (steps : List Step) (file : GuardFile)
    (hstem : settings.stem = "is")
    (hfile : (run settings steps).registry.assemble = .ok file) :
    TopLevel (run settings steps).registry file := by
  obtain ⟨hsettings, hsound⟩ := run_sound settings steps
  exact hsound.topLevel ((congrArg Settings.stem hsettings).trans hstem) hfile

def arraySteps : List Step :=
  [.register (.primitive ⟨false, some "Array"⟩ .string),
    .register (.array ⟨false, some "List"⟩ (.primitive .bare .number))]

def listSample : Sample := .array [.number (Binary64.ofNat 42)]

theorem assemble_topLevel_arraySteps :
    ∃ file, (run .standard arraySteps).registry.assemble = .ok file ∧
      ¬ file.functionNames.Nodup ∧ file.called? "isArray" ≠ file.function? "isArray" ∧
      (∀ name ∈ file.imported, name ∉ file.typeNames) ∧
      file.accepts "isList" listSample = .ok false := by
  have hrun : ((run .standard arraySteps).registry.assemble.toOption.bind fun file =>
      (file.accepts "isList" listSample).toOption) = some false := by decide +kernel
  obtain ⟨file, hfile, hverdict⟩ := Option.bind_eq_some_iff.mp hrun
  have htop := assemble_topLevel .standard arraySteps file rfl (eq_ok_of_toOption hfile)
  have hmem : "Array" ∈ Fields.names (run .standard arraySteps).registry.guards := by
    decide +kernel
  refine ⟨file, eq_ok_of_toOption hfile, fun hnodup => htop.functions.mp hnodup hmem, ?_,
    htop.imports.mpr (by decide +kernel), eq_ok_of_toOption hverdict⟩
  intro heq
  exact htop.arrayReached.mp (heq.trans htop.array) hmem

end Session

end TypeGuard
