import TypeGuard.Proofs.Unlabelled

/-!
# Batches of relabelled types

A root goes by its own alias.  Apart from that, the labels of its type and the optional
names of its objects matter only to what type aliases stand for.  So two batches of roots
that differ in these alone end alike: the same roots are dropped in the same rounds, the
same fixtures are made, and the files are the same but for the right-hand sides of their
type aliases.
-/

namespace TypeGuard

namespace Registry

open Writing

variable {registry other : Registry} {tree partner : TypeTree}

/-! ## Registries side by side -/

/-- Registries with the same aliases and references, whose guards differ at most in what
their type aliases stand for. -/
structure Twin (registry other : Registry) : Prop where
  settings : registry.settings = other.settings
  announced : registry.announced = other.announced
  guards : registry.guards.mapValues Function.unaliased =
    other.guards.mapValues Function.unaliased
  references : registry.references = other.references

theorem Twin.names (h : registry.Twin other) :
    Fields.names registry.guards = Fields.names other.guards := by
  rw [← Fields.names_mapValues Function.unaliased, h.guards, Fields.names_mapValues]

theorem Twin.knows (h : registry.Twin other) (name : String) :
    registry.knows name = other.knows name := by
  rw [Registry.knows, Registry.knows, h.announced, Fields.contains_congr h.names]

theorem write_twin (registry : Registry) (aliasName : String) (tree : TypeTree) :
    Parallel Problem.Like (fun written partner => written.1.unaliased = partner.1.unaliased ∧
        written.2 = partner.2)
      (registry.write aliasName tree.unlabelled) (registry.write aliasName tree) := by
  refine (guardFunction_twin (assertions_twin registry.settings _) _ _ _ _ _ tree _ _ rfl).bind ?_
  rintro ⟨guard, draft⟩ ⟨partner, last⟩ ⟨hguard, hdraft⟩
  exact .ok ⟨hguard, congrArg Draft.references hdraft⟩

theorem Twin.write (h : registry.Twin other) (htree : tree.unlabelled = partner.unlabelled)
    (aliasName : String) :
    Parallel Problem.Like (fun written partner => written.1.unaliased = partner.1.unaliased ∧
        written.2 = partner.2)
      (registry.write aliasName tree) (other.write aliasName partner) := by
  have hfirst := registry.write_twin aliasName tree
  have hsecond := registry.write_twin aliasName partner
  rw [← write_congr h.settings h.knows aliasName partner]
  -- Both are compared with what is written for their common unlabelled type.
  rw [htree] at hfirst
  refine hfirst.join hsecond (fun _ _ _ hone hother => hone.symm.trans hother) ?_
  exact fun _ _ _ hone hother => ⟨hone.1.symm.trans hother.1, hone.2.symm.trans hother.2⟩

theorem Twin.register (h : registry.Twin other) (htree : tree.SameRoot partner) :
    Parallel Problem.Like Twin (registry.register tree) (other.register partner) := by
  unfold Registry.register
  rw [htree.aliasName]
  split
  next => exact .error rfl
  next => exact .error rfl
  next aliasName _ _ =>
      refine (h.write htree.unlabelled aliasName).bind ?_
      rintro ⟨guard, references⟩ ⟨copy, _⟩ ⟨hguard, rfl⟩
      simp only [h.knows]
      split
      next reference _ =>
          refine .error ?_
          simp [unknownAlias, h.names]
      next =>
          refine .ok ⟨h.settings, h.announced, ?_,
            congrArg (Fields.insert aliasName references) h.references⟩
          simp [h.guards, hguard]

theorem Twin.assemble (h : registry.Twin other) :
    Parallel Eq (fun file partner => file.unaliased = partner.unaliased) registry.assemble
      other.assemble := by
  have himports : registry.importStatements = other.importStatements := by
    rw [importStatements, importStatements, importedNames, importedNames, h.references, h.settings]
  have hguards : unaliasedIn (registry.guards.map fun entry => entry.2.toStmt) =
      unaliasedIn (other.guards.map fun entry => entry.2.toStmt) := by
    simpa [Fields.mapValues, Function.comp_def] using
      congrArg (List.map fun entry => entry.2.toStmt) h.guards
  unfold Registry.assemble
  simp only [h.references, Fields.contains_congr h.names]
  split
  next reference _ => exact .error (by rw [unknownAlias, unknownAlias, h.names])
  next => exact .ok (by simp only [GuardFile.unaliased, unaliasedIn_append, himports, hguards])

end Registry

/-! ## Expanding types -/

namespace Expansion

variable {expansion other : Expansion} {tree partner : TypeTree}

def unlabelled (expansion : Expansion) : Expansion :=
  { expansion with roots := expansion.roots.mapValues TypeTree.unlabelled }

theorem expand_unlabelled (expansion : Expansion) (budget : Nat) (path : Path)
    (enclosing : List String) (tree : TypeTree) :
    (expansion.unlabelled.expand budget path enclosing tree.unlabelled).mapError
        Problem.unshown =
      (expansion.expand budget path enclosing tree).mapError Problem.unshown := by
  induction budget generalizing path enclosing tree with
  | zero => rfl
  | succ budget ih =>
      cases tree with
      | literal label value => rfl
      | primitive label kind => rfl
      | array label element => simp only [TypeTree.unlabelled, expand, mapError_bind, ih]
      | union label members =>
          simp only [TypeTree.unlabelled_union, expand, mapError_bind,
            TypeTree.checkUnion_unlabelled, mapError_mapM, List.mapM_map, Function.comp_apply, ih]
      | object label attributes optionalNames =>
          simp only [TypeTree.unlabelled_object, expand, mapError_bind, mapError_mapM,
            Fields.mapValues, List.mapM_map, Function.comp_apply, ih]
      | reference label name =>
          simp only [TypeTree.unlabelled, expand, unlabelled, Fields.find?_mapValues,
            Fields.names_mapValues]
          split
          next => rfl
          next =>
              cases Fields.find? name expansion.roots with
              | none => rfl
              | some root => exact ih path (enclosing ++ [name]) root

theorem fixtures_unshown (h : expansion.unlabelled = other.unlabelled)
    (htree : tree.SameRoot partner) :
    (expansion.fixtures tree).mapError Problem.unshown =
      (other.fixtures partner).mapError Problem.unshown := by
  have hdepth : expansion.maxDepth = other.maxDepth := (Expansion.mk.inj h).2
  have hexpand : ∀ budget path enclosing,
      (expansion.expand budget path enclosing tree).mapError Problem.unshown =
        (other.expand budget path enclosing partner).mapError Problem.unshown := by
    intro budget path enclosing
    rw [← expand_unlabelled, h, htree.unlabelled, expand_unlabelled]
  simp only [fixtures, sampler, mapError_bind, hexpand, hdepth, htree.aliasName]

end Expansion

namespace Batch

variable {settings : Settings} {policy : Policy} {named others kept left : Fields TypeTree}

/-! ## Phases side by side -/

abbrev Twin {α β : Type} (related : α → β → Prop) (phase : Reporting α) (other : Reporting β) :
    Prop :=
  InStep RootProblem.Like
    (fun failures noted => failures.map RootProblem.unshown = noted.map RootProblem.unshown)
    related phase other

structure SameEntry (entry other : String × TypeTree) : Prop where
  key : entry.1 = other.1
  root : entry.2.SameRoot other.2

theorem names_eq_of_sameEntries (h : List.Forall₂ SameEntry named others) :
    Fields.names named = Fields.names others := by
  induction h with
  | nil => rfl
  | cons hentry _ ih => exact congrArg₂ List.cons hentry.key ih

theorem fail_twin (policy : Policy) (root : String) {problem other : Problem}
    (h : problem.Like other) : Twin Eq (fail policy root problem) (fail policy root other) := by
  cases policy with
  | abort => exact .throw (congrArg (RootProblem.mk root) h)
  | skip =>
      intro failures noted hnoted
      refine .ok ⟨rfl, ?_⟩
      have hfailure : (RootProblem.mk root problem).Like ⟨root, other⟩ :=
        congrArg (RootProblem.mk root) h
      simp only [List.map_append, List.map_singleton, hnoted, hfailure]

theorem collect_twin (policy : Policy) (hnamed : List.Forall₂ SameEntry named others)
    (index : Nat) {trees partners : List TypeTree}
    (htrees : List.Forall₂ TypeTree.SameRoot trees partners) :
    Twin (List.Forall₂ SameEntry) (collect policy named index trees)
      (collect policy others index partners) := by
  induction htrees generalizing named others index with
  | nil => exact .pure hnamed
  | @cons tree partner rest partners hroot _ ih =>
      have hfails : ∀ root (problem other : Problem), problem.Like other →
          Twin (List.Forall₂ SameEntry)
            (do
              fail policy root problem
              collect policy named (index + 1) rest)
            (do
              fail policy root other
              collect policy others (index + 1) partners) :=
        fun root _ _ hlike => (fail_twin policy root hlike).bind fun _ _ _ => ih hnamed _
      unfold collect
      rw [hroot.aliasName]
      split
      next => exact hfails _ _ _ rfl
      next => exact hfails _ _ _ rfl
      next aliasName _ _ =>
          rw [Fields.contains_congr (names_eq_of_sameEntries hnamed)]
          split
          next => exact hfails _ _ _ rfl
          next =>
              have hentry : SameEntry (aliasName, tree) (aliasName, partner) := ⟨rfl, hroot⟩
              exact ih (List.rel_append hnamed (.cons hentry .nil)) _

theorem registerAll_twin {registry other : Registry} (h : registry.Twin other)
    (hnamed : List.Forall₂ SameEntry named others) :
    Parallel (fun failed partner => failed.1 = partner.1 ∧ failed.2.Like partner.2) Registry.Twin
      (registerAll named registry) (registerAll others other) := by
  induction hnamed generalizing registry other with
  | nil => exact .ok h
  | @cons entry partner rest partners hentry _ ih =>
      simp only [registerAll]
      rcases (h.register hentry.root).inv with
        ⟨later, next, hlater, hnext, htwin⟩ | ⟨problem, cause, hproblem, hcause, hlike⟩
      · rw [hlater, hnext]
        exact ih htwin
      · rw [hproblem, hcause]
        exact .error ⟨hentry.key, hlike⟩

theorem registry_twin (settings : Settings) (hnamed : List.Forall₂ SameEntry named others) :
    Parallel (fun failed partner => failed.1 = partner.1 ∧ failed.2.Like partner.2) Registry.Twin
      (registry settings named) (registry settings others) := by
  refine registerAll_twin ⟨rfl, ?_, rfl, rfl⟩ hnamed
  rw [names_eq_of_sameEntries hnamed]

/-- Files that differ at most in what their type aliases stand for, and roots that differ at
most in labels and optional names. -/
structure SameFile (reached left : GuardFile × Fields TypeTree) : Prop where
  file : reached.1.unaliased = left.1.unaliased
  kept : List.Forall₂ SameEntry reached.2 left.2

theorem finish_twin {registry other : Registry} (h : registry.Twin other)
    (hnamed : List.Forall₂ SameEntry named others) :
    Twin SameFile (finish registry named) (finish other others) := by
  unfold finish
  rcases h.assemble.inv with ⟨file, copy, hfile, hcopy, hsame⟩ | ⟨_, _, hproblem, hcause, rfl⟩
  · rw [hfile, hcopy]
    exact .pure ⟨hsame, hnamed⟩
  · rw [hproblem, hcause]
    exact .throw rfl

theorem settle_twin (policy : Policy) (settings : Settings) (rounds : Nat)
    (hnamed : List.Forall₂ SameEntry named others) :
    Twin SameFile (settle policy settings rounds named) (settle policy settings rounds others) := by
  induction rounds generalizing named others with
  | zero => exact finish_twin ⟨rfl, rfl, rfl, rfl⟩ .nil
  | succ rounds ih =>
      simp only [settle]
      rcases (registry_twin settings hnamed).inv with ⟨_, _, hregistry, hother, htwin⟩ |
        ⟨⟨aliasName, problem⟩, ⟨_, cause⟩, hregistry, hother, rfl, hlike⟩
      · rw [hregistry, hother]
        exact finish_twin htwin hnamed
      · rw [hregistry, hother]
        refine (fail_twin policy aliasName hlike).bind fun _ _ _ => ih ?_
        refine List.rel_filter (fun entry other hentry => ?_) hnamed
        simp only [hentry.key]

theorem fixturesOf_twin (policy : Policy) {expansion other : Expansion}
    (h : expansion.unlabelled = other.unlabelled) (hkept : List.Forall₂ SameEntry kept left) :
    Twin Eq (fixturesOf policy expansion kept) (fixturesOf policy other left) := by
  induction hkept with
  | nil => exact .pure rfl
  | @cons entry partner rest partners hentry _ ih =>
      have hfixtures := Parallel.of_mapError (Expansion.fixtures_unshown h hentry.root)
      obtain ⟨aliasName, tree⟩ := entry
      obtain ⟨_, copy⟩ := partner
      cases hentry.key
      simp only [fixturesOf]
      rcases hfixtures.inv with ⟨_, _, hfirst, hother, rfl⟩ | ⟨_, _, hfirst, hother, hlike⟩
      · rw [hfirst, hother]
        exact ih.map fun fixtures others hrest => by rw [hrest]
      · rw [hfirst, hother]
        exact (fail_twin policy aliasName hlike).bind fun _ _ _ => ih

theorem mapValues_unlabelled_eq (h : List.Forall₂ SameEntry kept left) :
    kept.mapValues TypeTree.unlabelled = left.mapValues TypeTree.unlabelled := by
  induction h with
  | nil => rfl
  | cons hentry _ ih => exact congrArg₂ List.cons (Prod.ext hentry.key hentry.root.unlabelled) ih

theorem runTrees_twin (settings : Settings) (policy : Policy) (withFixtures : Bool)
    {trees partners : List TypeTree} (htrees : List.Forall₂ TypeTree.SameRoot trees partners) :
    Twin (fun made other => made.1.unaliased = other.1.unaliased ∧ made.2 = other.2)
      (runTrees settings policy withFixtures trees)
      (runTrees settings policy withFixtures partners) := by
  refine (collect_twin policy .nil 0 htrees).bind fun named others hnamed => ?_
  rw [hnamed.length_eq]
  refine (settle_twin policy settings _ hnamed).bind ?_
  rintro ⟨file, kept⟩ ⟨copy, left⟩ ⟨hfile, hkept⟩
  cases withFixtures with
  | true =>
      have hexpansion : (Expansion.mk kept settings.maxDepth).unlabelled =
          (Expansion.mk left settings.maxDepth).unlabelled := by
        simp only [Expansion.unlabelled, mapValues_unlabelled_eq hkept]
      exact (fixturesOf_twin policy hexpansion hkept).map fun _ _ hfixtures => ⟨hfile, hfixtures⟩
  | false => exact .pure ⟨hfile, rfl⟩

/-! ## Whole batches -/

/-- Batches of roots that differ at most in labels and optional names, but not in their own
aliases, both have an output or both end with one failure.  The files of the outputs differ
at most in what their type aliases stand for, and the fixtures are the same.  So are the
failures, but for the texts of types. -/
theorem ofTrees_relabelled (settings : Settings) (policy : Policy) (withFixtures : Bool)
    {trees partners : List TypeTree} (htrees : List.Forall₂ TypeTree.SameRoot trees partners) :
    (Succeeds (ofTrees settings policy withFixtures trees) ↔
      Succeeds (ofTrees settings policy withFixtures partners)) ∧
    (∀ output other, ofTrees settings policy withFixtures trees = .ok output →
      ofTrees settings policy withFixtures partners = .ok other →
        output.file.unaliased = other.file.unaliased ∧ output.fixtures = other.fixtures ∧
        output.failures.map RootProblem.unshown = other.failures.map RootProblem.unshown) ∧
    ∀ failure other, ofTrees settings policy withFixtures trees = .error failure →
      ofTrees settings policy withFixtures partners = .error other →
        failure.unshown = other.unshown := by
  have hrun := runTrees_twin settings policy withFixtures htrees [] [] rfl
  have hends : Parallel RootProblem.Like (fun output other : Output =>
      output.file.unaliased = other.file.unaliased ∧ output.fixtures = other.fixtures ∧
        output.failures.map RootProblem.unshown = other.failures.map RootProblem.unshown)
      (ofTrees settings policy withFixtures trees)
      (ofTrees settings policy withFixtures partners) := by
    refine hrun.bind ?_
    rintro ⟨⟨file, fixtures⟩, failures⟩ ⟨⟨copy, others⟩, noted⟩ ⟨⟨hfile, hfixtures⟩, hnoted⟩
    exact .ok ⟨hfile, hfixtures, hnoted⟩
  refine ⟨hends.succeeds_iff, fun output other houtput hother => ?_,
    fun failure other hfailure hother => ?_⟩
  · rw [houtput, hother] at hends
    cases hends with
    | ok h => exact h
  · rw [hfailure, hother] at hends
    cases hends with
    | error h => exact h

def labelledRoots : List TypeTree :=
  [.object ⟨true, some "User"⟩
      [("tags", .array .bare
          (.object ⟨false, some "Tag"⟩ [("id", .primitive .bare .number)] [])),
        ("name", .reference ⟨true, none⟩ "Name")] ["tags"],
    .union ⟨false, some "Shape"⟩
      [.object ⟨false, some "Circle"⟩ [] [], .primitive .bare .string],
    .primitive ⟨false, some "Name"⟩ .string]

def relabelledRoots : List TypeTree :=
  [.object ⟨false, some "User"⟩
      [("tags", .array ⟨true, some "Tags"⟩
          (.object .bare [("id", .primitive .bare .number)] ["id"])),
        ("name", .reference .bare "Name")] [],
    .union ⟨false, some "Shape"⟩ [.object .bare [] [], .primitive .bare .string],
    .primitive ⟨true, some "Name"⟩ .string]

theorem ofTrees_relabelled_labelledRoots :
    ∃ output other, ofTrees .standard .skip true labelledRoots = .ok output ∧
      ofTrees .standard .skip true relabelledRoots = .ok other ∧
      output.failures ≠ other.failures ∧ output.file.unaliased = other.file.unaliased ∧
      output.fixtures = other.fixtures ∧
      output.failures.map RootProblem.unshown = other.failures.map RootProblem.unshown := by
  have htrees : List.Forall₂ TypeTree.SameRoot labelledRoots relabelledRoots :=
    .cons ⟨rfl, rfl⟩ (.cons ⟨rfl, rfl⟩ (.cons ⟨rfl, rfl⟩ .nil))
  obtain ⟨-, hsame, -⟩ := ofTrees_relabelled .standard .skip true htrees
  have hshown : (ofTrees .standard .skip true labelledRoots).toOption.bind (fun output =>
      (ofTrees .standard .skip true relabelledRoots).toOption.map fun other =>
        decide (output.failures = other.failures)) = some false := by
    decide +kernel
  obtain ⟨output, houtput, hshown⟩ := Option.bind_eq_some_iff.mp hshown
  obtain ⟨other, hother, hshown⟩ := Option.map_eq_some_iff.mp hshown
  replace houtput := eq_ok_of_toOption houtput
  replace hother := eq_ok_of_toOption hother
  exact ⟨output, other, houtput, hother, of_decide_eq_false hshown,
    hsame output other houtput hother⟩

end Batch

end TypeGuard
