import TypeGuard.Proofs.Policies

/-!
# What becomes of every root

The roots of a batch leave it in four places: a specification that is no type tree, a root
without a name of its own, a root that is dropped, and a kept root without fixtures.  Each
phase takes the roots that the one before it let through, and gives one value or one failure
for each of them.  So the values and the failures of a whole run that skips failures are as
many as its roots, however often the loop over the roots begins again.
-/

namespace TypeGuard

/-! ## Lowered trees -/

namespace TypeTree

mutual

theorem distinct_of_ofSpecAt {path : Path} {tree : TypeTree} (spec : TypeSpec)
    (h : ofSpecAt path spec = .ok tree) : tree.Distinct := by
  match spec with
  | .undefined _ =>
      cases h
      exact .literal
  | .literal _ _ =>
      obtain ⟨_, -, h⟩ := bind_eq_ok.mp h
      cases h
      exact .literal
  | .primitive _ _ =>
      obtain ⟨_, -, h⟩ := bind_eq_ok.mp h
      cases h
      exact .primitive
  | .object _ attributes _ =>
      obtain ⟨trees, htrees, h⟩ := bind_eq_ok.mp h
      cases h
      exact .object (Fields.names_nodup_ofList trees) fun attr hattr =>
        distinct_of_attributesAt attributes htrees attr (Fields.mem_ofList hattr)
  | .union _ members =>
      obtain ⟨trees, htrees, h⟩ := bind_eq_ok.mp h
      cases h
      exact .union (distinct_of_membersAt members htrees)
  | .array _ element =>
      obtain ⟨_, htree, h⟩ := bind_eq_ok.mp h
      cases h
      exact .array (distinct_of_ofSpecAt element htree)
  | .reference _ _ =>
      cases h
      exact .reference

theorem distinct_of_attributesAt {path : Path} {trees : List (String × TypeTree)}
    (attributes : List (String × TypeSpec)) (h : attributesAt path attributes = .ok trees) :
    ∀ attr ∈ trees, attr.2.Distinct := by
  match attributes with
  | [] =>
      cases h
      simp
  | (_, spec) :: rest =>
      obtain ⟨_, hfirst, h⟩ := bind_eq_ok.mp h
      obtain ⟨_, hrest, h⟩ := bind_eq_ok.mp h
      cases h
      exact List.forall_mem_cons.mpr
        ⟨distinct_of_ofSpecAt spec hfirst, distinct_of_attributesAt rest hrest⟩

theorem distinct_of_membersAt {path : Path} {trees : List TypeTree} (members : List TypeSpec)
    (h : membersAt path members = .ok trees) : ∀ member ∈ trees, member.Distinct := by
  match members with
  | [] =>
      cases h
      simp
  | spec :: rest =>
      obtain ⟨_, hfirst, h⟩ := bind_eq_ok.mp h
      obtain ⟨_, hrest, h⟩ := bind_eq_ok.mp h
      cases h
      exact List.forall_mem_cons.mpr
        ⟨distinct_of_ofSpecAt spec hfirst, distinct_of_membersAt rest hrest⟩

end

end TypeTree

namespace Batch

variable {settings : Settings} {named kept : Fields TypeTree}

def lowered (specs : List TypeSpec) : List TypeTree :=
  specs.filterMap fun spec => (TypeTree.ofSpec spec).toOption

theorem distinct_of_mem_lowered {specs : List TypeSpec} :
    ∀ tree ∈ lowered specs, tree.Distinct := by
  intro tree hmem
  obtain ⟨spec, -, htree⟩ := List.mem_filterMap.mp hmem
  exact TypeTree.distinct_of_ofSpecAt spec (eq_ok_of_toOption htree)

/-! ## Outcomes of the phases -/

inductive Lowers : TypeSpec × Nat → Except RootProblem (TypeTree × Nat) → Prop
  | lowered {spec : TypeSpec} {index place : Nat} {tree : TypeTree} :
      TypeTree.ofSpec spec = .ok tree → Lowers (spec, index) (.ok (tree, place))
  | unlowered {spec : TypeSpec} {index : Nat} {problem : Problem} :
      TypeTree.ofSpec spec = .error problem →
      Lowers (spec, index) (.error ⟨rootLabel spec.label.aliasName index, problem⟩)

theorem run_lower (index place : Nat) (specs : List TypeSpec) (failures : List RootProblem) :
    ∃ noted, (lower .skip index specs).run failures = .ok (lowered specs, failures ++ noted) ∧
      Accounts Lowers (specs.zipIdx index) ((lowered specs).zipIdx place) noted := by
  induction specs generalizing index place failures with
  | nil =>
      refine ⟨[], ?_, .nil⟩
      rw [List.append_nil]
      rfl
  | cons spec rest ih =>
      simp only [lower, lowered, List.filterMap_cons]
      cases hspec : TypeTree.ofSpec spec with
      | ok tree =>
          obtain ⟨noted, hrun, hrest⟩ := ih (index + 1) (place + 1) failures
          exact ⟨noted, run_bind_eq_ok.mpr ⟨_, _, hrun, rfl⟩, .value (.lowered hspec) hrest⟩
      | error problem =>
          obtain ⟨noted, hrun, hrest⟩ := ih (index + 1) place
            (failures ++ [⟨rootLabel spec.label.aliasName index, problem⟩])
          rw [List.append_assoc, List.singleton_append] at hrun
          exact ⟨_, hrun, .failure (.unlowered hspec) hrest⟩

inductive Survives (kept : Fields TypeTree) :
    String × TypeTree → Except RootProblem (String × TypeTree) → Prop
  | kept {entry : String × TypeTree} : entry ∈ kept → Survives kept entry (.ok entry)
  | dropped {entry : String × TypeTree} {problem : Problem} :
      entry.1 ∉ Fields.names kept → problem.isNaming = false →
      Survives kept entry (.error ⟨entry.1, problem⟩)

theorem accounts_of_perm
    {outcome : String × TypeTree → Except RootProblem (String × TypeTree) → Prop}
    {dropped : List RootProblem} (hkept : kept.Sublist named)
    (hnodup : (Fields.names named).Nodup)
    (hperm : (dropped.map (·.root) ++ Fields.names kept).Perm (Fields.names named))
    (hvalue : ∀ entry ∈ kept, outcome entry (.ok entry))
    (hfailure : ∀ failure ∈ dropped, ∀ entry ∈ named, entry.1 = failure.root →
      outcome entry (.error failure)) :
    ∃ noted, noted.Perm dropped ∧ Accounts outcome named kept noted := by
  induction hkept generalizing dropped with
  | slnil =>
      have hnone := List.perm_nil.mp hperm
      rw [List.append_eq_nil_iff, List.map_eq_nil_iff] at hnone
      exact ⟨[], by rw [hnone.1], .nil⟩
  | @cons kept named entry hkept ih =>
      rw [Fields.names_cons, List.nodup_cons] at hnodup
      -- The name of the root is not among the kept ones, so it is that of a failure.
      have hmem : entry.1 ∈ dropped.map (·.root) := by
        refine (List.mem_append.mp (hperm.mem_iff.mpr List.mem_cons_self)).resolve_right ?_
        exact fun hmem => hnodup.1 ((hkept.map _).subset hmem)
      obtain ⟨failure, hdropped, hroot⟩ := List.mem_map.mp hmem
      obtain ⟨front, back, rfl⟩ := List.append_of_mem hdropped
      have hrest : ((front ++ back).map (·.root) ++ Fields.names kept).Perm
          (Fields.names named) := by
        refine List.Perm.cons_inv (a := entry.1) (.trans ?_ hperm)
        rw [← hroot, ← List.cons_append, ← List.map_cons]
        exact (List.perm_middle.symm.map _).append_right _
      obtain ⟨noted, hnoted, hall⟩ := ih hnodup.2 hrest hvalue fun other hother root hmem =>
        hfailure other (List.perm_middle.mem_iff.mpr (List.mem_cons_of_mem _ hother)) root
          (List.mem_cons_of_mem _ hmem)
      exact ⟨failure :: noted, (hnoted.cons failure).trans List.perm_middle.symm,
        .failure (hfailure failure hdropped entry List.mem_cons_self hroot.symm) hall⟩
  | @cons_cons kept named entry _ ih =>
      rw [Fields.names_cons, List.nodup_cons] at hnodup
      rw [List.forall_mem_cons] at hvalue
      have hrest : (dropped.map (·.root) ++ Fields.names kept).Perm (Fields.names named) :=
        List.Perm.cons_inv (List.perm_middle.symm.trans hperm)
      obtain ⟨noted, hnoted, hall⟩ := ih hnodup.2 hrest hvalue.2 fun other hother root hmem =>
        hfailure other hother root (List.mem_cons_of_mem _ hmem)
      exact ⟨noted, hnoted, .value hvalue.1 hall⟩

theorem Drops.accounts {limit : Nat} {dropped : List RootProblem}
    (h : Drops limit named dropped kept) (hnodup : (Fields.names named).Nodup) :
    ∃ noted, noted.Perm dropped ∧ Accounts (Survives kept) named kept noted := by
  refine accounts_of_perm h.sublist hnodup (h.perm hnodup) (fun _ => .kept) ?_
  rintro ⟨root, problem⟩ hmem entry - rfl
  exact .dropped (h.notKept hnodup _ hmem) (h.notNaming _ hmem)

inductive Samples (expansion : Expansion) :
    String × TypeTree → Except RootProblem (String × Fixtures) → Prop
  | sampled {aliasName : String} {tree : TypeTree} {fixtures : Fixtures} :
      expansion.fixtures tree = .ok fixtures →
      Samples expansion (aliasName, tree) (.ok (aliasName, fixtures))
  | unsampled {aliasName : String} {tree : TypeTree} {problem : Problem} :
      expansion.fixtures tree = .error problem →
      Samples expansion (aliasName, tree) (.error ⟨aliasName, problem⟩)

theorem accounts_sampled (expansion : Expansion) (kept : Fields TypeTree) :
    Accounts (Samples expansion) kept (sampled expansion kept) (unsampled expansion kept) := by
  induction kept with
  | nil => exact .nil
  | cons entry rest ih =>
      simp only [sampled, unsampled, List.filterMap_cons]
      cases hfixtures : expansion.fixtures entry.2 with
      | ok fixtures => exact .value (.sampled hfixtures) ih
      | error problem => exact .failure (.unsampled hfixtures) ih

inductive Guards (settings : Settings) : String × TypeTree → Except RootProblem Function → Prop
  | intro {aliasName : String} {tree : TypeTree} {guard : Function} :
      guard.name = settings.guardName aliasName → Guards settings (aliasName, tree) (.ok guard)

theorem accounts_guards {guards : List Function}
    (h : guards.map (·.name) = (Fields.names kept).map settings.guardName) :
    Accounts (Guards settings) kept guards [] := by
  induction kept generalizing guards with
  | nil =>
      cases List.map_eq_nil_iff.mp h
      exact .nil
  | cons entry rest ih =>
      obtain ⟨guard, others, rfl, hname, hrest⟩ := List.map_eq_cons_iff.mp h
      exact .value (.intro hname) (ih hrest)

/-! ## Whole runs -/

/-- What becomes of the specification at a place of the batch: it is lowered, collected under
its alias among these aliases, kept, and has the outcome of the last phase. -/
def Contributes {β : Type} (aliases : List String) (kept : Fields TypeTree)
    (last : String × TypeTree → Except RootProblem β → Prop) :
    TypeSpec × Nat → Except RootProblem β → Prop :=
  Then Lowers (Then (Collects aliases) (Then (Survives kept) last))

theorem accounts_of_phases {β : Type} {last : String × TypeTree → Except RootProblem β → Prop}
    {specs : List TypeSpec} {lost notes dropped later : List RootProblem} {results : List β}
    {limit : Nat} (hlower : Accounts Lowers specs.zipIdx (lowered specs).zipIdx lost)
    (hcollect : Accounts (Collects (Fields.names named)) (lowered specs).zipIdx named notes)
    (hnodup : (Fields.names named).Nodup) (hdrops : Drops limit named dropped kept)
    (hlast : Accounts last kept results later) :
    ∃ noted, noted.Perm (lost ++ (notes ++ dropped ++ later)) ∧
      Accounts (Contributes (Fields.names named) kept last) specs.zipIdx results noted := by
  obtain ⟨gone, hgone, hsurvives⟩ := hdrops.accounts hnodup
  obtain ⟨fromKept, hkept, haccounts⟩ := hsurvives.bind hlast
  obtain ⟨fromTrees, htrees, haccounts⟩ := hcollect.bind haccounts
  obtain ⟨noted, hnoted, haccounts⟩ := hlower.bind haccounts
  refine ⟨noted, hnoted.trans (.append_left lost (htrees.trans ?_)), haccounts⟩
  rw [List.append_assoc]
  exact .append_left notes (hkept.trans (hgone.append_right later))

theorem ofSpecs_of_ofTrees {withFixtures : Bool} {specs : List TypeSpec} {trees : List TypeTree}
    {lost : List RootProblem} {output : Output}
    (hlower : (lower .skip 0 specs).run [] = .ok (trees, lost))
    (h : ofTrees settings .skip withFixtures trees = .ok output) :
    ofSpecs settings .skip withFixtures specs =
      .ok { output with failures := lost ++ output.failures } := by
  obtain ⟨⟨file, fixtures⟩, noted, hruns⟩ := runTrees_ends settings withFixtures trees
  obtain ⟨_, hrun, h⟩ := bind_eq_ok.mp h
  cases (hruns.skip []).symm.trans hrun
  cases h
  exact bind_eq_ok.mpr ⟨_, run_bind_eq_ok.mpr ⟨_, _, hlower, hruns.skip lost⟩, rfl⟩

/-- A run that skips failures gives one result or one failure for each of its roots: the
fixtures of the root, or its guard if no fixtures are made.  A root with fixtures has a guard
too. -/
theorem accounts_for_every_root (settings : Settings) (withFixtures : Bool)
    (specs : List TypeSpec) :
    ∃ (output : Output) (kept : Fields TypeTree) (guards : List Function)
      (noted : List RootProblem),
      ofSpecs settings .skip withFixtures specs = .ok output ∧
      output.file.functions = Registry.arrayGuard :: guards ∧
      guards.map (·.name) = (Fields.names kept).map settings.guardName ∧
      (Fields.names kept).Nodup ∧ noted.Perm output.failures ∧
      (withFixtures = true →
        Accounts (Contributes (Fields.names (firstRoots (lowered specs))) kept
          (Samples ⟨kept, settings.maxDepth⟩)) specs.zipIdx output.fixtures noted ∧
        (Fields.names output.fixtures).Sublist (Fields.names kept) ∧
        output.fixtures.length + output.failures.length = specs.length) ∧
      (withFixtures = false →
        Accounts (Contributes (Fields.names (firstRoots (lowered specs))) kept (Guards settings))
          specs.zipIdx guards noted ∧
        output.fixtures = [] ∧ guards.length + output.failures.length = specs.length) := by
  obtain ⟨lost, hlower, hlowers⟩ := run_lower 0 0 specs []
  obtain ⟨notes, hcollect, hcollects⟩ := run_collect_firstRoots (lowered specs)
  have hkeyed : Keyed (firstRoots (lowered specs)) := keyed_firstRoots distinct_of_mem_lowered
  obtain ⟨output, kept, dropped, hrun, hskipped⟩ :=
    ofTrees_skipped settings withFixtures hkeyed hcollect
  have hkept := hkeyed.sublist hskipped.drops.sublist
  obtain ⟨complete, hregistry, hfile⟩ := hskipped.file
  obtain ⟨hsound, rfl⟩ := registry_sound hkept.roots hregistry
  have hfunctions := (Registry.assemble_ok hfile).2
  have hguards : (complete.guards.map (·.2)).map (·.name) =
      (Fields.names kept).map complete.settings.guardName := by
    have hnames := hsound.function_names hfile
    rw [hfunctions, hsound.guards] at hnames
    exact (List.cons.inj hnames).2
  have hspecs := ofSpecs_of_ofTrees hlower hrun
  cases withFixtures with
  | true =>
      have hfixtures := hskipped.fixtures
      have hfailures := hskipped.failures
      rw [if_pos rfl] at hfixtures hfailures
      obtain ⟨noted, hnoted, haccounts⟩ := accounts_of_phases hlowers hcollects hkeyed.nodup
        hskipped.drops (accounts_sampled ⟨kept, complete.settings.maxDepth⟩ kept)
      rw [← hfailures, ← List.nil_append lost] at hnoted
      rw [← hfixtures] at haccounts
      have hcount := haccounts.length_eq
      rw [hnoted.length_eq, List.length_zipIdx] at hcount
      refine ⟨_, kept, _, noted, hspecs, hfunctions, hguards, hkept.nodup, hnoted,
        fun _ => ⟨haccounts, ?_, hcount⟩, nofun⟩
      rw [hfixtures]
      exact names_sampled_sublist _ kept
  | false =>
      have hfailures := hskipped.failures
      rw [if_neg Bool.false_ne_true] at hfailures
      obtain ⟨noted, hnoted, haccounts⟩ := accounts_of_phases hlowers hcollects hkeyed.nodup
        hskipped.drops (accounts_guards hguards)
      rw [← hfailures, ← List.nil_append lost] at hnoted
      have hcount := haccounts.length_eq
      rw [hnoted.length_eq, List.length_zipIdx] at hcount
      exact ⟨_, kept, _, noted, hspecs, hfunctions, hguards, hkept.nodup, hnoted, nofun,
        fun _ => ⟨haccounts, hskipped.fixtures, hcount⟩⟩

def mixedSpecs : List TypeSpec :=
  [.primitive ⟨some "Day", false⟩ "date",
    .undefined ⟨none, false⟩,
    .primitive ⟨some "Id", false⟩ "number",
    .primitive ⟨some "Id", false⟩ "string",
    .union ⟨some "Broken", false⟩ [.undefined ⟨none, false⟩],
    .object ⟨some "User", false⟩ [("broken", .reference ⟨none, false⟩ "Broken")] [],
    .object ⟨some "Node", false⟩ [("next", .reference ⟨none, false⟩ "Node")] []]

example : (ofSpecs .standard .skip true mixedSpecs).toOption.map (fun output =>
    (Fields.names output.fixtures, output.failures.map (·.root))) =
      some (["Id"], ["Day", "<root #0>", "Id", "Broken", "User", "Node"]) := by
  decide +kernel

end Batch

end TypeGuard
