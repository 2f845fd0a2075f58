import TypeGuard.Proofs.History
import TypeGuard.Proofs.Scoping

/-!
# The closure of an assembled file

A registry records which aliases each guard refers to.  These are the aliases whose guards
it calls, apart from one: an array is tested with the array guard, and the alias `Array` has
a guard of the same name, so the test of an array counts as a call of that guard although
nothing is recorded for it.

A file can be assembled if every alias that is referred to is registered.  Then it is
closed.  Where the guards that are referred to have clear names, it is closed only then.
-/

namespace TypeGuard

open Writing

/-! ## Calls and records -/

namespace TypeTree.Node

def isArray : Node → Bool
  | ⟨_, _, .array ..⟩ => true
  | _ => false

theorem callee?_eq_some_iff {settings : Settings} {node : Node} {name : String} :
    node.callee? settings = some name ↔
      (∃ r, node.reference? = some r ∧ settings.guardName r.name = name) ∨
        node.isArray = true ∧ arrayGuardName = name := by
  obtain ⟨depth, path, tree⟩ := node
  cases tree <;> simp [callee?, reference?, isArray]

end TypeTree.Node

def Registered.HasArray (entry : Registered) : Prop :=
  ∃ node ∈ entry.tree.nodes 0 [entry.aliasName], node.isArray = true

namespace Registry

variable {registry : Registry} {entry : Registered} {visible : Visible} {aliases : List String}

theorem Wrote.references_eq (h : registry.Wrote entry) :
    entry.references = entry.tree.references [entry.aliasName] :=
  (write_eq_ok h.written).2

theorem Wrote.mentions_eq (h : registry.Wrote entry) :
    entry.references.map (·.name) = entry.tree.mentions := by
  simp [h.references_eq]

theorem Wrote.name (h : registry.Wrote entry) :
    entry.guard.name = registry.settings.guardName entry.aliasName := by
  obtain ⟨after, hwritten, -⟩ := write_ok h.written
  exact hwritten.name

theorem Wrote.param (h : registry.Wrote entry) : entry.guard.param = rootParam := by
  obtain ⟨after, hwritten, -⟩ := write_ok h.written
  exact hwritten.param

theorem Wrote.mem_calls (h : registry.Wrote entry) {name : String} :
    name ∈ entry.guard.calls ↔
      (∃ r ∈ entry.references, registry.settings.guardName r.name = name) ∨
        entry.HasArray ∧ arrayGuardName = name := by
  obtain ⟨after, hwritten, -⟩ := write_ok h.written
  rw [(hwritten.called 0).mem_iff, List.mem_filterMap, h.references_eq, TypeTree.references]
  simp only [TypeTree.Node.callee?_eq_some_iff, List.mem_filterMap, Registered.HasArray]
  constructor
  · rintro ⟨node, hnode, ⟨r, hr, hname⟩ | ⟨harray, hname⟩⟩
    · exact .inl ⟨r, ⟨node, hnode, hr⟩, hname⟩
    · exact .inr ⟨⟨node, hnode, harray⟩, hname⟩
  · rintro (⟨r, ⟨node, hnode, hr⟩, hname⟩ | ⟨⟨node, hnode, harray⟩, hname⟩)
    · exact ⟨node, hnode, .inl ⟨r, hr, hname⟩⟩
    · exact ⟨node, hnode, .inr ⟨harray, hname⟩⟩

theorem Wrote.undeclared (h : registry.Wrote entry) : ∀ r ∈ entry.references,
    registry.settings.guardName r.name ∉ declaredIn entry.guard.body := by
  intro r hr hdeclared
  obtain ⟨after, hwritten, -⟩ := write_ok h.written
  have hadmits := h.admits r hr
  rw [Registry.admits, Bool.or_eq_true, beq_iff_eq] at hadmits
  have hreserved := guardName_mem_reservedNames hadmits
  exact hwritten.extends.fresh _ hdeclared (Names.mem_locals_reserveLocal.mpr (.inr hreserved))

theorem Wrote.closed (h : registry.Wrote entry)
    (hoffers : visible.Offers registry.settings aliases) (hself : entry.aliasName ∈ aliases)
    (hreferences : ∀ r ∈ entry.references, r.name ∈ aliases) (locals : List String) :
    entry.guard.toStmt.Closed visible locals := by
  obtain ⟨after, hwritten, -⟩ := write_ok h.written
  refine hwritten.closed hoffers ?_ ?_ locals
  · rw [← h.mentions_eq]
    exact List.forall_mem_map.mpr hreferences
  · exact List.cons_subset.mpr ⟨hoffers.types hself, List.nil_subset _⟩

def Calls (registry : Registry) (aliasName name : String) : Prop :=
  ∃ guard, Fields.find? aliasName registry.guards = some guard ∧
    registry.settings.guardName name ∈ guard.calls

def Records (registry : Registry) (aliasName name : String) : Prop :=
  ∃ references, Fields.find? aliasName registry.references = some references ∧
    ∃ r ∈ references, r.name = name

end Registry

/-! ## What a history leaves behind -/

namespace Session

variable {settings : Settings} {entries : List Registered} {registry : Registry}

theorem Logged.find?_guards (h : Logged (.empty settings) entries registry) (aliasName : String) :
    Fields.find? aliasName registry.guards = (last? entries aliasName).map (·.guard) := by
  rw [h.guards]
  exact Fields.find?_ofList_map ..

theorem Logged.find?_references (h : Logged (.empty settings) entries registry)
    (aliasName : String) :
    Fields.find? aliasName registry.references =
      (last? entries aliasName).map (·.references) := by
  rw [h.references]
  exact Fields.find?_ofList_map ..

theorem Logged.names_guards (h : Logged (.empty settings) entries registry) :
    Fields.names registry.guards = (entries.map (·.aliasName)).eraseDups := by
  rw [h.guards]
  exact Fields.names_ofList_map ..

theorem Logged.names_references (h : Logged (.empty settings) entries registry) :
    Fields.names registry.references = (entries.map (·.aliasName)).eraseDups := by
  rw [h.references]
  exact Fields.names_ofList_map ..

theorem last?_eq_some {aliasName : String} {entry : Registered}
    (h : last? entries aliasName = some entry) :
    entry ∈ entries ∧ entry.aliasName = aliasName :=
  ⟨List.mem_reverse.mp (List.mem_of_find?_eq_some h), by simpa using List.find?_some h⟩

theorem Logged.exists_writer (h : Logged (.empty settings) entries registry)
    {entry : Registered} (hlast : last? entries entry.aliasName = some entry) :
    ∃ writer : Registry, writer.settings = registry.settings ∧ writer.Wrote entry := by
  obtain ⟨writer, hsettings, hwrote⟩ := h.wrote entry (last?_eq_some hlast).1
  exact ⟨writer, hsettings.trans h.settings.symm, hwrote⟩

theorem Logged.exists_last (h : Logged (.empty settings) entries registry) {aliasName : String}
    (hmem : aliasName ∈ Fields.names registry.guards) :
    ∃ entry, entry.aliasName = aliasName ∧ last? entries entry.aliasName = some entry := by
  obtain ⟨guard, hguard⟩ := Fields.mem_names.mp hmem
  obtain ⟨entry, hlast, -⟩ := Option.map_eq_some_iff.mp (h.find?_guards aliasName ▸ hguard)
  obtain ⟨-, rfl⟩ := last?_eq_some hlast
  exact ⟨entry, rfl, hlast⟩

theorem Logged.nodup (h : Logged (.empty settings) entries registry) :
    (Fields.names registry.guards).Nodup := by
  rw [h.guards]
  exact Fields.names_nodup_ofList _

theorem Logged.names_eq (h : Logged (.empty settings) entries registry) :
    Fields.names registry.references = Fields.names registry.guards :=
  h.names_references.trans h.names_guards.symm

theorem Logged.calls_iff (h : Logged (.empty settings) entries registry)
    {aliasName name : String} : registry.Calls aliasName name ↔
      registry.Records aliasName name ∨ registry.settings.guardName name = arrayGuardName ∧
        ∃ entry, last? entries aliasName = some entry ∧ entry.HasArray := by
  unfold Registry.Calls Registry.Records
  rw [h.find?_guards, h.find?_references]
  cases hlast : last? entries aliasName with
  | none => simp
  | some entry =>
      obtain ⟨-, rfl⟩ := last?_eq_some hlast
      obtain ⟨writer, hsettings, hwrote⟩ := h.exists_writer hlast
      simp only [Option.map_some, Option.some.injEq, exists_eq_left', ← hsettings,
        hwrote.mem_calls, (Registry.guardName_injective writer.settings).eq_iff]
      rw [and_comm, eq_comm (a := arrayGuardName)]

theorem Logged.wrote_of_mem (h : Logged (.empty settings) entries registry)
    {entry : String × Function} (hentry : entry ∈ registry.guards) :
    ∃ registered writer, registered.aliasName = entry.1 ∧ registered.guard = entry.2 ∧
      writer.settings = registry.settings ∧ Registry.Wrote writer registered ∧
      Fields.find? entry.1 registry.references = some registered.references := by
  obtain ⟨registered, hname, hlast⟩ := h.exists_last (List.mem_map_of_mem hentry)
  obtain ⟨writer, hsettings, hwrote⟩ := h.exists_writer hlast
  rw [hname] at hlast
  have hguard := Fields.find?_of_mem h.nodup hentry
  rw [h.find?_guards, hlast] at hguard
  refine ⟨registered, writer, hname, Option.some.inj hguard, hsettings, hwrote, ?_⟩
  simp [h.find?_references, hlast]

theorem Logged.records_iff (h : Logged (.empty settings) entries registry)
    {aliasName name : String} : registry.Records aliasName name ↔
      ∃ entry ∈ registry.references, entry.1 = aliasName ∧ ∃ r ∈ entry.2, r.name = name := by
  have hnodup := h.names_eq ▸ h.nodup
  constructor
  · rintro ⟨references, hfound, hr⟩
    exact ⟨_, Fields.mem_of_find? hfound, rfl, hr⟩
  · rintro ⟨entry, hentry, rfl, hr⟩
    exact ⟨entry.2, Fields.find?_of_mem hnodup hentry, hr⟩

/-! ## The file of a registry -/

def visibleIn (registry : Registry) : Visible :=
  Visible.inside ⟨[], []⟩ registry.draftFile.statements

theorem Logged.functions_visibleIn (h : Logged (.empty settings) entries registry) :
    (visibleIn registry).functions =
      arrayGuardName :: (Fields.names registry.guards).map registry.settings.guardName := by
  have hfunctions := congrArg (List.map (·.name)) registry.functions_draftFile
  rw [List.map_cons, List.map_map] at hfunctions
  refine hfunctions.trans (congrArg (arrayGuardName :: ·) ?_)
  rw [Fields.names, List.map_map]
  refine List.map_congr_left fun entry hentry => ?_
  obtain ⟨registered, writer, hname, hguard, hsettings, hwrote, -⟩ := h.wrote_of_mem hentry
  rw [Function.comp_apply, Function.comp_apply, ← hguard, hwrote.name, hsettings, hname]

theorem Logged.offers (h : Logged (.empty settings) entries registry)
    (hregistered : ∀ aliasName name, registry.Records aliasName name →
      name ∈ Fields.names registry.guards) :
    (visibleIn registry).Offers registry.settings (Fields.names registry.guards) where
  array := h.functions_visibleIn ▸ List.mem_cons_self
  shallow := by
    refine List.mem_append_right _ (List.mem_append_right _ ?_)
    change Writing.shallowTypeName ∈ registry.draftFile.typeNames
    rw [Registry.typeNames_draftFile]
    exact List.mem_singleton_self _
  guards aliasName hmem :=
    h.functions_visibleIn ▸ List.mem_cons_of_mem _ (List.mem_map_of_mem hmem)
  types name hmem := by
    refine List.mem_append_right _ (List.mem_append_left _ ?_)
    change name ∈ registry.draftFile.imported
    rw [Registry.imported_draftFile]
    refine (Registry.mem_importedNames_iff h.names_eq fun entry hentry r hr => ?_).mpr hmem
    exact hregistered entry.1 r.name (h.records_iff.mpr ⟨entry, hentry, rfl, r, hr, rfl⟩)

theorem closed_arrayGuard (visible : Visible) (locals : List String) :
    Registry.arrayGuard.toStmt.Closed visible locals := by
  refine ⟨List.nil_subset _, ⟨rfl, List.nil_subset _⟩, fun name hname => ?_, trivial⟩
  have hidents : name ∈ ["Array", "value"] := hname
  rcases List.mem_cons.mp hidents with rfl | hvalue
  · exact .inr (.inr rfl)
  · exact .inl hvalue

theorem closed_shallowType (visible : Visible) (locals : List String) :
    Registry.shallowType.Closed visible locals :=
  List.subset_append_right _ _

theorem closed_importStatements (visible : Visible) :
    ∀ stmt ∈ registry.importStatements, ∀ locals, stmt.Closed visible locals := by
  unfold Registry.importStatements
  split
  next => simp
  next => simp [Stmt.Closed]

theorem Logged.closed (h : Logged (.empty settings) entries registry)
    (hregistered : ∀ aliasName name, registry.Records aliasName name →
      name ∈ Fields.names registry.guards) : registry.draftFile.Closed := by
  have hoffers := h.offers hregistered
  refine closedIn_of_forall (fun stmt hstmt locals => ?_) []
  change stmt.Closed (visibleIn registry) locals
  simp only [Registry.draftFile, List.cons_append, List.mem_cons, List.mem_append,
    List.mem_map] at hstmt
  rcases hstmt with rfl | rfl | himport | ⟨⟨aliasName, guard⟩, hentry, rfl⟩
  · exact closed_arrayGuard _ locals
  · exact closed_shallowType _ locals
  · exact closed_importStatements _ stmt himport locals
  · have hmem : aliasName ∈ Fields.names registry.guards := List.mem_map_of_mem hentry
    obtain ⟨entry, writer, rfl, rfl, hsettings, hwrote, hreferences⟩ := h.wrote_of_mem hentry
    refine hwrote.closed (hsettings ▸ hoffers) hmem (fun r hr => ?_) locals
    exact hregistered entry.aliasName r.name ⟨entry.references, hreferences, r, hr, rfl⟩

theorem Logged.registered_of_closed (h : Logged (.empty settings) entries registry)
    (hclosed : registry.draftFile.Closed) {aliasName name : String}
    (hclear : registry.settings.guardName name ∉ [arrayGuardName, "Array", rootParam])
    (hrecords : registry.Records aliasName name) : name ∈ Fields.names registry.guards := by
  obtain ⟨references, hrecorded, r, hr, rfl⟩ := hrecords
  obtain ⟨guard, hguard⟩ := Fields.mem_names.mp
    (h.names_eq ▸ Fields.mem_names.mpr ⟨references, hrecorded⟩)
  have hentry := Fields.mem_of_find? hguard
  obtain ⟨entry, writer, rfl, rfl, hsettings, hwrote, hreferences⟩ := h.wrote_of_mem hentry
  cases hreferences.symm.trans hrecorded
  have hstmt : entry.guard.toStmt ∈ registry.draftFile.statements :=
    List.mem_append_right _ (List.mem_map_of_mem hentry)
  obtain ⟨before, -, -, hbody⟩ := closed_of_mem hclosed hstmt
  have hcalled : registry.settings.guardName r.name ∈ entry.guard.calls :=
    hwrote.mem_calls.mpr (.inl ⟨r, hr, by rw [hsettings]⟩)
  have hundeclared := hwrote.undeclared r hr
  rw [hsettings] at hundeclared
  simp only [List.mem_cons, List.not_mem_nil, or_false, not_or] at hclear
  rcases hbody.calls _ _ hcalled with hparam | hvisible | harray | hdeclared
  · rw [hwrote.param] at hparam
    exact absurd (List.mem_singleton.mp hparam) hclear.2.2
  · rcases List.mem_append.mp hvisible with htop | hnested
    · have htop : registry.settings.guardName r.name ∈ (visibleIn registry).functions := htop
      rw [h.functions_visibleIn] at htop
      have hguards := (List.mem_cons.mp htop).resolve_left hclear.1
      exact (List.mem_map_of_injective (Registry.guardName_injective _)).mp hguards
    · exact absurd ((names_sublist_declaredIn _).subset hnested) hundeclared
  · exact absurd harray hclear.2.1
  · exact absurd hdeclared hundeclared

/-- What a registry and its file hold after the registrations of a history. -/
structure Closure (entries : List Registered) (registry : Registry) : Prop where
  guards : Fields.names registry.guards = (entries.map (·.aliasName)).eraseDups
  references : Fields.names registry.references = Fields.names registry.guards
  last : ∀ aliasName,
    Fields.find? aliasName registry.guards = (last? entries aliasName).map (·.guard) ∧
      Fields.find? aliasName registry.references = (last? entries aliasName).map (·.references)
  /-- The test of an array calls the guard of `Array` too, as far as names tell. -/
  calls : ∀ aliasName name, registry.Calls aliasName name ↔
    registry.Records aliasName name ∨ registry.settings.guardName name = arrayGuardName ∧
      ∃ entry, last? entries aliasName = some entry ∧ entry.HasArray
  assembles : (∃ file, registry.assemble = .ok file) ↔
    ∀ aliasName name, registry.Records aliasName name → name ∈ Fields.names registry.guards
  closed : ∀ file, registry.assemble = .ok file → file.Closed
  imports : ∀ file, registry.assemble = .ok file →
    file.imported.Nodup ∧ file.imported.Perm (Fields.names registry.guards)
  /-- A guard that is not there is missed, unless its name stands for something else. -/
  onlyThen : (∀ aliasName name, registry.Records aliasName name →
      registry.settings.guardName name ∉ [arrayGuardName, "Array", rootParam]) →
    registry.draftFile.Closed → ∃ file, registry.assemble = .ok file

theorem Logged.registered_iff (h : Logged (.empty settings) entries registry) :
    (∀ entry ∈ registry.references, ∀ r ∈ entry.2, r.name ∈ Fields.names registry.guards) ↔
      ∀ aliasName name, registry.Records aliasName name →
        name ∈ Fields.names registry.guards := by
  simp only [h.records_iff]
  constructor
  · rintro hregistered _ _ ⟨entry, hentry, rfl, r, hr, rfl⟩
    exact hregistered entry hentry r hr
  · intro hregistered entry hentry r hr
    exact hregistered entry.1 r.name ⟨entry, hentry, rfl, r, hr, rfl⟩

theorem Logged.closure (h : Logged (.empty settings) entries registry) :
    Closure entries registry := by
  have hassembles : (∃ file, registry.assemble = .ok file) ↔ ∀ aliasName name,
      registry.Records aliasName name → name ∈ Fields.names registry.guards := by
    rw [← h.registered_iff]
    exact ⟨fun ⟨_, hfile⟩ => Registry.references_of_assemble hfile, Registry.exists_assemble⟩
  constructor
  case guards => exact h.names_guards
  case references => exact h.names_eq
  case last => exact fun aliasName => ⟨h.find?_guards aliasName, h.find?_references aliasName⟩
  case calls => exact fun _ _ => h.calls_iff
  case assembles => exact hassembles
  case closed =>
      intro file hfile
      rw [Registry.eq_draftFile_of_assemble hfile]
      exact h.closed (hassembles.mp ⟨file, hfile⟩)
  case imports =>
      intro file hfile
      rw [Registry.imported_of_assemble hfile]
      refine ⟨registry.importedNames_nodup, ?_⟩
      refine (List.perm_ext_iff_of_nodup registry.importedNames_nodup h.nodup).mpr fun name => ?_
      exact Registry.mem_importedNames_iff h.names_eq (Registry.references_of_assemble hfile)
  case onlyThen =>
      intro hclear hclosed
      refine hassembles.mpr fun aliasName name hrecords => ?_
      exact h.registered_of_closed hclosed (hclear aliasName name hrecords) hrecords

/-- The guards and the references of a session are those of its last registrations, each
guard calls what is recorded for it and the array guard besides, and the file is closed if
it can be assembled. -/
theorem run_closure (settings : Settings) (steps : List Step) :
    Closure (history (start settings) steps) (run settings steps).registry :=
  (logged_run (start settings) steps).closure

/-- Nothing is recorded for the list, but it calls the guard of `Array`. -/
theorem run_closure_arraySteps :
    ∃ file, (run .standard arraySteps).registry.assemble = .ok file ∧ file.Closed ∧
      file.imported.Perm ["Array", "List"] ∧
      (run .standard arraySteps).registry.Calls "List" "Array" ∧
      ¬ (run .standard arraySteps).registry.Records "List" "Array" ∧
      file.accepts "isList" listSample = .ok false := by
  have hclosure := run_closure .standard arraySteps
  have hcalls : (Fields.find? "List" (run .standard arraySteps).registry.guards).map
      (·.calls) = some ["isArray"] := by decide +kernel
  have hrecorded : Fields.find? "List" (run .standard arraySteps).registry.references =
      some [] := by decide +kernel
  have hnames : Fields.names (run .standard arraySteps).registry.guards = ["Array", "List"] := by
    decide +kernel
  have hrun : ((run .standard arraySteps).registry.assemble.toOption.bind fun file =>
      (file.accepts "isList" listSample).toOption) = some false := by decide +kernel
  obtain ⟨file, hassembled, hverdict⟩ := Option.bind_eq_some_iff.mp hrun
  have hfile := eq_ok_of_toOption hassembled
  obtain ⟨guard, hguard, hcalled⟩ := Option.map_eq_some_iff.mp hcalls
  refine ⟨file, hfile, hclosure.closed file hfile, hnames ▸ (hclosure.imports file hfile).2,
    ⟨guard, hguard, ?_⟩, ?_, eq_ok_of_toOption hverdict⟩
  · rw [hcalled]
    decide
  · rintro ⟨references, hreferences, r, hr, -⟩
    cases hrecorded.symm.trans hreferences
    cases hr

end Session

end TypeGuard
