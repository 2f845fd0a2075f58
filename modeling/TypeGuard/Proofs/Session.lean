import TypeGuard.Proofs.Registration
import TypeGuard.Proofs.Simulation

/-!
# The meaning of an assembled file

A session is a registry in use: names are announced and types registered in any
order, and some registrations fail.  Beside the registry it keeps the type that
each alias was last registered with.

Every guard of the file assembled at the end gives the verdict of the type kept
under its alias.  The guards may refer to each other in circles, so the claim is
proved for all of them at once, by induction on the levels of calls left.
-/

namespace TypeGuard

open Evaluation Writing

namespace Registry

variable {registry : Registry} {trees : Fields TypeTree} {file : GuardFile}

/-- No guard has a name that guards use for something else: the array guard, the
built-in `Array`, or the parameter. -/
def NamesClear (registry : Registry) : Prop :=
  ∀ aliasName ∈ Fields.names registry.guards,
    registry.settings.guardName aliasName ∉ [arrayGuardName, "Array", rootParam]

instance (registry : Registry) : Decidable registry.NamesClear :=
  inferInstanceAs (Decidable (∀ aliasName ∈ Fields.names registry.guards, _))

theorem NamesClear.notMem (h : registry.NamesClear) {name : String}
    (hname : name ∈ [arrayGuardName, "Array", rootParam]) :
    name ∉ (Fields.names registry.guards).map registry.settings.guardName := by
  rintro hmem
  obtain ⟨aliasName, halias, rfl⟩ := List.mem_map.mp hmem
  exact h aliasName halias hname

/-- With the usual stem, only the alias `Array` makes a guard's name unclear. -/
theorem namesClear_of_stem (hstem : registry.settings.stem = "is")
    (harray : "Array" ∉ Fields.names registry.guards) : registry.NamesClear := by
  intro aliasName halias hmem
  have hletters := Settings.toList_guardName hstem aliasName
  simp only [List.mem_cons, List.not_mem_nil, or_false] at hmem
  rcases hmem with hname | hname | hname
  · exact harray ((guardName_eq_arrayGuardName hstem).mp hname ▸ halias)
  · simp [hname] at hletters
  · exact guardName_ne_rootParam hstem aliasName hname

/-! ## The scope of a file -/

theorem Sound.written_of_mem (h : Sound registry trees) {entry : String × Function}
    (hentry : entry ∈ registry.guards) :
    ∃ tree references, WrittenFor registry.settings entry.1 tree entry.2 references := by
  have hfound := Fields.find?_of_mem (h.guards ▸ h.nodup) hentry
  have hname : entry.1 ∈ Fields.names registry.guards := List.mem_map_of_mem hentry
  obtain ⟨tree, htree⟩ := Fields.mem_names.mp (h.guards ▸ hname)
  obtain ⟨guard, references, hguard, -, hwritten⟩ := h.written _ tree htree
  cases hfound.symm.trans hguard
  exact ⟨tree, references, hwritten⟩

theorem Sound.name_of_mem (h : Sound registry trees) {entry : String × Function}
    (hentry : entry ∈ registry.guards) :
    entry.2.name = registry.settings.guardName entry.1 := by
  obtain ⟨tree, references, hwritten⟩ := h.written_of_mem hentry
  exact hwritten.name

theorem Sound.guard_name (h : Sound registry trees) :
    registry.guards.map (·.2.name) =
      (Fields.names registry.guards).map registry.settings.guardName := by
  simpa [Fields.names] using List.map_congr_left fun entry hentry => h.name_of_mem hentry

theorem Sound.function_names (h : Sound registry trees) (hfile : registry.assemble = .ok file) :
    file.functions.map (·.name) =
      arrayGuardName :: (Fields.names registry.guards).map registry.settings.guardName := by
  rw [(assemble_ok hfile).2, List.map_cons, List.map_map, ← h.guard_name]
  rfl

theorem Sound.declares (h : Sound registry trees) (hclear : registry.NamesClear)
    (hfile : registry.assemble = .ok file) : Declares file.scope file.statements := by
  refine declares_ofBody [] [] ?_
  change (file.functions.map (·.name)).Nodup
  rw [h.function_names hfile, List.nodup_cons]
  refine ⟨hclear.notMem (by simp), List.Nodup.map (guardName_injective _) ?_⟩
  rw [h.guards]
  exact h.nodup

theorem invoke_arrayGuard {scope : Scope} (h : scope.find? "Array" = none) (address : List Nat)
    (levels : Nat) (sample : Sample) :
    invoke levels ⟨arrayGuard, address, scope⟩ sample =
      (arrayVerdict levels sample).map Value.boolean := by
  cases levels with
  | zero => rfl
  | succ levels =>
      have hscope : Scope.find? "Array" (Frame.ofBody address arrayGuard.body :: scope) = none := h
      have harray : identifier (Frame.ofBody address arrayGuard.body :: scope) [("value", sample)]
          "Array" = .ok .arrayConstructor := by
        simp [identifier, hscope]
      -- `value` is the parameter, so only `Array` is looked up outside.
      rw [invoke]
      simp only [arrayGuard, runBody, runStmt, eval, evalAll] at harray ⊢
      rw [harray]
      cases sample <;> rfl

/-! ## Linked guards -/

/-- Every guard of the file gives the verdict of its type, at every level. -/
theorem Sound.linked (h : Sound registry trees) (hclear : registry.NamesClear)
    (hfile : registry.assemble = .ok file) (levels : Nat) :
    Linked registry.settings trees file.scope levels := by
  obtain ⟨hreferences, hfunctions⟩ := assemble_ok hfile
  have hdeclares := h.declares hclear hfile
  -- A guard that refers to itself calls itself with fewer levels.
  induction levels using Nat.strongRecOn with
  | ind levels ih =>
      constructor
      case array =>
          obtain ⟨address, hfound⟩ := hdeclares arrayGuard
            (show arrayGuard ∈ file.functions by rw [hfunctions]; exact List.mem_cons_self)
          refine ⟨_, hfound, invoke_arrayGuard ?_ address levels⟩
          have hnone : "Array" ∉ file.functions.map (·.name) := by
            rw [h.function_names hfile, List.mem_cons, not_or]
            exact ⟨by decide, hclear.notMem (by simp)⟩
          rw [GuardFile.scope, Scope.find?, Frame.find?_ofBody_eq_none hnone]
          rfl
      case root =>
          intro aliasName tree htree
          obtain ⟨guard, references, hguard, hlisted, hwritten⟩ := h.written aliasName tree htree
          obtain ⟨address, hfound⟩ := hdeclares guard (show guard ∈ file.functions by
            rw [hfunctions]
            exact List.mem_cons_of_mem _ (List.mem_map_of_mem (Fields.mem_of_find? hguard)))
          refine ⟨_, hwritten.name ▸ hfound, fun sample => ?_⟩
          have hregistered := hreferences _ (Fields.mem_of_find? hlisted)
          cases hwritten with
          | @intro before after _ hguardWritten harray hreserved =>
              -- The guard takes from outside the array guard and the guards that it refers to.
              have hcovers : Covers registry.settings trees (fun name => name = arrayGuardName ∨
                  ∃ r ∈ after.references, name = registry.settings.guardName r.name) after :=
                ⟨.inl rfl, fun r hr =>
                  ⟨.inr ⟨r, hr, rfl⟩, Fields.mem_names.mp (h.guards ▸ hregistered r hr)⟩⟩
              refine hguardWritten.invoke_eq ih hcovers ?_ (fun _ _ => rfl) ?_ address sample
              · rintro name (rfl | ⟨r, hr, rfl⟩)
                · exact harray
                · exact hreserved r hr
              · rintro (hroot | ⟨r, hr, hroot⟩)
                · exact absurd hroot (by decide)
                · exact hclear r.name (hregistered r hr) (by rw [← hroot]; simp)

theorem accepts_of_invoke {name : String} {closure : Closure} {sample : Sample}
    {result : Except EvalError Bool} (hfound : file.scope.find? name = some closure)
    (hinvoke : invoke (maxCallDepth + 1) closure sample = result.map Value.boolean) :
    file.accepts name sample = result := by
  rw [GuardFile.accepts, hfound]
  simp only [invokeAt, Nat.sub_zero, hinvoke]
  cases result <;> rfl

theorem Sound.accepts_eq (h : Sound registry trees) (hclear : registry.NamesClear)
    (hfile : registry.assemble = .ok file) {aliasName : String} {tree : TypeTree}
    (htree : Fields.find? aliasName trees = some tree) (sample : Sample) :
    file.accepts (registry.settings.guardName aliasName) sample =
      verdict trees (maxCallDepth + 1) tree sample := by
  obtain ⟨closure, hfound, hinvoke⟩ :=
    (h.linked hclear hfile (maxCallDepth + 1)).root aliasName tree htree
  exact accepts_of_invoke hfound (hinvoke sample)

end Registry

/-! ## Sessions -/

structure Session where
  registry : Registry
  /-- The type that each alias was last registered with. -/
  trees : Fields TypeTree

namespace Session

inductive Step where
  | announce (names : List String)
  | register (tree : TypeTree)

def start (settings : Settings) : Session := ⟨Registry.empty settings, []⟩

/-- A registration that fails leaves the session as it was. -/
def step (session : Session) : Step → Session
  | .announce names => { session with registry := session.registry.announce names }
  | .register tree =>
      match session.registry.register tree with
      | .ok registry => ⟨registry, Fields.insert (tree.aliasName.getD "") tree session.trees⟩
      | .error _ => session

def run (settings : Settings) (steps : List Step) : Session :=
  steps.foldl step (start settings)

structure Sound (settings : Settings) (session : Session) : Prop where
  settings : session.registry.settings = settings
  registry : session.registry.Sound session.trees

theorem Sound.step {settings : Settings} {session : Session} (h : Sound settings session)
    (action : Step) : Sound settings (session.step action) := by
  cases action with
  | announce names => exact ⟨h.settings, h.registry.announce names⟩
  | register tree =>
      cases hregister : session.registry.register tree with
      | error problem =>
          rw [Session.step, hregister]
          exact h
      | ok later =>
          obtain ⟨aliasName, guard, references, halias, -, hlater⟩ :=
            Registry.register_ok hregister
          rw [Session.step, hregister, halias]
          refine ⟨?_, h.registry.register halias hregister⟩
          rw [hlater]
          exact h.settings

theorem run_sound (settings : Settings) (steps : List Step) :
    Sound settings (run settings steps) := by
  have hsteps : ∀ session, Sound settings session → Sound settings (steps.foldl step session) := by
    induction steps with
    | nil => exact fun _ h => h
    | cons action rest ih => exact fun session h => ih _ (h.step action)
  exact hsteps _ ⟨rfl, .empty settings⟩

/-- Every guard of a session's file gives the verdict of the type that its alias was
last registered with.  So it tells which samples the type holds of, or runs out of
levels, and never fails in another way. -/
theorem accepts_conforms (settings : Settings) (steps : List Step) (file : GuardFile)
    (hfile : (run settings steps).registry.assemble = .ok file)
    (hclear : (run settings steps).registry.NamesClear) (aliasName : String)
    (halias : aliasName ∈ Fields.names (run settings steps).registry.guards) (sample : Sample) :
    ∃ tree, Fields.find? aliasName (run settings steps).trees = some tree ∧
      file.accepts (settings.guardName aliasName) sample =
        verdict (run settings steps).trees (maxCallDepth + 1) tree sample ∧
      (file.accepts (settings.guardName aliasName) sample = .error .tooDeep ∨
        ∃ answer, file.accepts (settings.guardName aliasName) sample = .ok answer ∧
          (answer = true ↔ Conforms (run settings steps).trees tree sample)) := by
  obtain ⟨hsettings, hsound⟩ := run_sound settings steps
  obtain ⟨tree, htree⟩ := Fields.mem_names.mp (hsound.guards ▸ halias)
  have haccepts := hsound.accepts_eq hclear hfile htree sample
  rw [hsettings] at haccepts
  rw [haccepts]
  exact ⟨tree, htree, rfl, verdict_agrees _ _ tree sample⟩

def cyclicSteps : List Step :=
  [.announce ["Item"],
    .register (.object ⟨false, some "Node"⟩
      [("items", .array .bare (.reference .bare "Item"))] []),
    .register (.reference ⟨false, some "Item"⟩ "Missing"),
    .register (.union ⟨false, some "Item"⟩ [.literal .bare .null, .reference .bare "Node"])]

def cyclicSample : Sample :=
  .object [("items", .array [.null, .object [("items", .array [])]])]

theorem accepts_conforms_cyclicSteps :
    ∃ file tree, (run .standard cyclicSteps).registry.assemble = .ok file ∧
      Fields.find? "Node" (run .standard cyclicSteps).trees = some tree ∧
      file.accepts "isNode" cyclicSample = .ok true ∧
      Conforms (run .standard cyclicSteps).trees tree cyclicSample := by
  have hsome : (run .standard cyclicSteps).registry.assemble.toOption.isSome = true := by
    decide +kernel
  have hverdict : ((Fields.find? "Node" (run .standard cyclicSteps).trees).bind fun tree =>
      (verdict (run .standard cyclicSteps).trees (maxCallDepth + 1) tree cyclicSample).toOption) =
        some true := by decide +kernel
  obtain ⟨file, hfile⟩ := Option.isSome_iff_exists.mp hsome
  obtain ⟨tree, htree, haccepts, hanswer⟩ := accepts_conforms .standard cyclicSteps file
    (eq_ok_of_toOption hfile) (by decide +kernel) "Node" (by decide +kernel) cyclicSample
  rw [htree] at hverdict
  have hpasses := haccepts.trans (eq_ok_of_toOption hverdict)
  refine ⟨file, tree, eq_ok_of_toOption hfile, htree, hpasses, ?_⟩
  rw [hpasses] at hanswer
  obtain hfails | ⟨answer, hanswer, hmeaning⟩ := hanswer
  · cases hfails
  · exact hmeaning.mp (Except.ok.inj hanswer).symm

end Session

end TypeGuard
