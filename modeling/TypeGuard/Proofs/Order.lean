import TypeGuard.Proofs.Congruence
import TypeGuard.Proofs.Survivors

/-!
# The order of a batch

The order of the roots decides which of them fail first, which aliases are known when a
failure is reported, and how often the file is begun again.  It decides nothing else.  The
roots that are kept are the greatest consistent set, which has no order; each of their
guards is written while the aliases of all of them are known; and their types are expanded
by looking aliases up.  The other roots fail for reasons of their own, but for the details
of an unknown alias.
-/

namespace TypeGuard

/-! ## Expanding types -/

namespace Expansion

variable {roots others : Fields TypeTree}

/-- An expansion depends on what its roots are under their aliases; their order shows only
where an alias is unknown. -/
theorem expand_outline (h : ∀ name, Fields.find? name roots = Fields.find? name others)
    (depth budget : Nat) (path : Path) (enclosing : List String) (tree : TypeTree) :
    ((Expansion.mk roots depth).expand budget path enclosing tree).mapError Problem.outline =
      ((Expansion.mk others depth).expand budget path enclosing tree).mapError
        Problem.outline := by
  induction budget generalizing path enclosing tree with
  | zero => rfl
  | succ budget ih =>
      cases tree with
      | literal label value => rfl
      | primitive label kind => rfl
      | array label element => simp only [expand, mapError_bind, ih]
      | union label members => simp only [expand, mapError_bind, mapError_mapM, ih]
      | object label attributes optionalNames =>
          simp only [expand, mapError_bind, mapError_mapM, ih]
      | reference label name =>
          simp only [expand, h]
          split
          next => rfl
          next =>
              split
              -- The roots that are listed here may be in another order.
              next => rfl
              next => exact ih _ _ _

theorem fixtures_outline (h : ∀ name, Fields.find? name roots = Fields.find? name others)
    (depth : Nat) (tree : TypeTree) :
    ((Expansion.mk roots depth).fixtures tree).mapError Problem.outline =
      ((Expansion.mk others depth).fixtures tree).mapError Problem.outline := by
  simp only [fixtures, sampler, mapError_bind, expand_outline h]

end Expansion

namespace Batch

variable {settings : Settings} {trees : List TypeTree} {named kept others : Fields TypeTree}

/-! ## Fixtures -/

theorem of?_mapError_outline {α : Type} (root : String) (result : Except Problem α) :
    RootProblem.of? root (result.mapError Problem.outline) =
      (RootProblem.of? root result).map RootProblem.outline := by
  cases result <;> rfl

section

variable (hperm : kept.Perm others) (hnodup : (Fields.names kept).Nodup) (depth : Nat)

include hperm hnodup

theorem sampled_perm : (sampled ⟨kept, depth⟩ kept).Perm (sampled ⟨others, depth⟩ others) := by
  have hroots := Fields.find?_perm hperm hnodup
  have hsame : sampled ⟨kept, depth⟩ kept = sampled ⟨others, depth⟩ kept := by
    refine List.filterMap_congr fun entry _ => ?_
    rw [← toOption_mapError Problem.outline, Expansion.fixtures_outline hroots,
      toOption_mapError]
  rw [hsame]
  exact hperm.filterMap _

theorem unsampled_perm : ((unsampled ⟨kept, depth⟩ kept).map RootProblem.outline).Perm
    ((unsampled ⟨others, depth⟩ others).map RootProblem.outline) := by
  have hroots := Fields.find?_perm hperm hnodup
  have hsame : (unsampled ⟨kept, depth⟩ kept).map RootProblem.outline =
      (unsampled ⟨others, depth⟩ kept).map RootProblem.outline := by
    rw [unsampled, unsampled, List.map_filterMap, List.map_filterMap]
    refine List.filterMap_congr fun entry _ => ?_
    rw [← of?_mapError_outline, ← of?_mapError_outline, Expansion.fixtures_outline hroots]
  rw [hsame]
  exact (hperm.filterMap _).map _

end

/-! ## Guards -/

theorem Announced.write_eq {registry other : Registry} {aliases others : List String}
    (h : Announced settings aliases registry) (hother : Announced settings others other)
    (hsame : ∀ name, name ∈ aliases ↔ name ∈ others) (aliasName : String) (tree : TypeTree) :
    registry.write aliasName tree = other.write aliasName tree := by
  refine Registry.write_congr (h.settings.trans hother.settings.symm) (fun name => ?_) _ tree
  rw [Bool.eq_iff_iff, h.knows, hother.knows, hsame]

def guardOf (settings : Settings) (aliases : List String) (entry : String × TypeTree) :
    Option (String × Function) :=
  (((Registry.empty settings).announce aliases).write entry.1 entry.2).toOption.map
    fun written => (entry.1, written.1)

theorem guardOf_congr {aliases others : List String}
    (hsame : ∀ name, name ∈ aliases ↔ name ∈ others) :
    guardOf settings aliases = guardOf settings others := by
  funext entry
  rw [guardOf, guardOf,
    (Announced.start settings aliases).write_eq (Announced.start settings others) hsame]

theorem registerAll_guards {registry later : Registry} {aliases : List String}
    (h : Announced settings aliases registry)
    (hkeyed : ∀ entry ∈ named, entry.2.aliasName = some entry.1)
    (hmem : Fields.names named ⊆ aliases)
    (hnodup : (Fields.names registry.guards ++ Fields.names named).Nodup)
    (hlater : registerAll named registry = .ok later) :
    later.guards = registry.guards ++ named.filterMap (guardOf settings aliases) := by
  induction named generalizing registry with
  | nil =>
      cases hlater
      rw [List.filterMap_nil, List.append_nil]
  | cons entry rest ih =>
      obtain ⟨aliasName, tree⟩ := entry
      rw [List.forall_mem_cons] at hkeyed
      rw [Fields.names_cons, List.cons_subset] at hmem
      cases hregister : registry.register tree with
      | error problem => simp [registerAll, hregister] at hlater
      | ok middle =>
          simp only [registerAll, hregister] at hlater
          obtain ⟨guard, references, hwrite, -, hmiddle⟩ :=
            Registry.register_eq_ok hkeyed.1 hregister
          have hnew : aliasName ∉ Fields.names registry.guards := by
            simp only [Fields.names_cons, List.nodup_append] at hnodup
            exact fun hold => hnodup.2.2 aliasName hold aliasName List.mem_cons_self rfl
          have hguards : middle.guards = registry.guards ++ [(aliasName, guard)] := by
            rw [hmiddle, Fields.insert_of_notMem hnew]
          -- The same aliases are known as at the start, when all of them were announced.
          have hguard : guardOf settings aliases (aliasName, tree) = some (aliasName, guard) := by
            rw [guardOf, (Announced.start settings aliases).write_eq h fun _ => Iff.rfl, hwrite]
            rfl
          have hrest := ih (h.register hkeyed.1 hmem.1 hregister) hkeyed.2 hmem.2
            (by simpa [hguards] using hnodup) hlater
          rw [hrest, hguards, List.filterMap_cons_some hguard, List.append_assoc,
            List.singleton_append]

theorem registry_guards {complete : Registry} (hkeyed : Keyed named)
    (h : registry settings named = .ok complete) :
    complete.guards = named.filterMap (guardOf settings (Fields.names named)) :=
  registerAll_guards (Announced.start settings _) hkeyed.aliasName (List.Subset.refl _)
    hkeyed.nodup h

/-! ## Kept and dropped roots -/

section

variable {limit : Nat} {gone lost : List RootProblem} {left : Fields TypeTree}

def rootDiagnosis (limit : Nat) (named : Fields TypeTree) (root : String) : RootProblem :=
  ⟨root, ((Fields.find? root named).map (diagnosis limit root)).getD (.unknownAlias "" [] [])⟩

theorem rootDiagnosis_perm (hperm : named.Perm others) (hnodup : (Fields.names named).Nodup) :
    rootDiagnosis limit named = rootDiagnosis limit others := by
  funext root
  rw [rootDiagnosis, Fields.find?_perm hperm hnodup]
  rfl

theorem Drops.map_outline (h : Drops limit named gone kept)
    (hnodup : (Fields.names named).Nodup)
    (hgone : ∀ failure ∈ gone, failure.problem.isExhaustion = false) :
    gone.map RootProblem.outline = (gone.map (·.root)).map (rootDiagnosis limit named) := by
  rw [List.map_map]
  refine List.map_congr_left fun failure hmem => ?_
  obtain ⟨tree, htree, hdiagnosis⟩ := h.diagnosed failure hmem (hgone failure hmem)
  simp only [Function.comp, rootDiagnosis, RootProblem.outline, hdiagnosis,
    Fields.find?_of_mem hnodup htree, Option.map_some, Option.getD_some]

variable (h : Drops limit named gone kept) (hother : Drops limit others lost left)
  (hperm : named.Perm others) (hnodup : (Fields.names named).Nodup)
  (hgone : ∀ failure ∈ gone, failure.problem.isExhaustion = false)
  (hlost : ∀ failure ∈ lost, failure.problem.isExhaustion = false)

include h hother hperm hnodup hgone hlost

theorem Drops.kept_perm : kept.Perm left := by
  have hothers := (Fields.names_perm hperm).nodup_iff.mp hnodup
  -- Each of the two sets is consistent, so the other run never drops a root of it.
  refine (List.perm_ext_iff_of_nodup ?_ ?_).mpr fun entry => ⟨fun hmem => ?_, fun hmem => ?_⟩
  · exact (hnodup.sublist (h.sublist.map _)).of_map
  · exact (hothers.sublist (hother.sublist.map _)).of_map
  · have hlisted : kept ⊆ others := List.Subset.trans h.sublist.subset hperm.subset
    exact hother.greatest hothers hlost hlisted h.consistent hmem
  · have hlisted : left ⊆ named := List.Subset.trans hother.sublist.subset hperm.symm.subset
    exact h.greatest hnodup hgone hlisted hother.consistent hmem

theorem Drops.outline_perm :
    (gone.map RootProblem.outline).Perm (lost.map RootProblem.outline) := by
  have hothers := (Fields.names_perm hperm).nodup_iff.mp hnodup
  have hkept := Fields.names_perm (h.kept_perm hother hperm hnodup hgone hlost)
  have hroots : (gone.map (·.root)).Perm (lost.map (·.root)) := by
    refine (List.perm_append_right_iff (Fields.names kept)).mp ?_
    exact ((h.perm hnodup).trans (Fields.names_perm hperm)).trans
      ((hother.perm hothers).symm.trans (hkept.symm.append_left _))
  rw [h.map_outline hnodup hgone, hother.map_outline hothers hlost,
    rootDiagnosis_perm hperm hnodup]
  exact hroots.map _

end

/-! ## Roots with names of their own -/

def rootAliases (trees : List TypeTree) : List String :=
  trees.map fun tree => tree.aliasName.getD ""

def underAlias (tree : TypeTree) : String × TypeTree := (tree.aliasName.getD "", tree)

@[simp] theorem names_underAlias (trees : List TypeTree) :
    Fields.names (trees.map underAlias) = rootAliases trees := by
  rw [Fields.names, List.map_map]
  rfl

theorem aliasName_eq_some {tree : TypeTree} (hne : tree.aliasName.getD "" ≠ "") :
    tree.aliasName = some (tree.aliasName.getD "") := by
  cases halias : tree.aliasName with
  | none => exact absurd (by rw [halias]; rfl) hne
  | some aliasName => rfl

theorem keyed_underAlias (hnodup : (rootAliases trees).Nodup) (hne : "" ∉ rootAliases trees)
    (hdistinct : ∀ tree ∈ trees, tree.Distinct) : Keyed (trees.map underAlias) where
  aliasName := List.forall_mem_map.mpr fun tree htree =>
    aliasName_eq_some fun hempty => hne (List.mem_map.mpr ⟨tree, htree, hempty⟩)
  ne_empty := List.forall_mem_map.mpr fun tree htree hempty =>
    hne (List.mem_map.mpr ⟨tree, htree, hempty⟩)
  distinct := List.forall_mem_map.mpr hdistinct
  nodup := names_underAlias trees ▸ hnodup

theorem Keyed.perm (h : Keyed named) (hperm : named.Perm others) : Keyed others where
  aliasName entry hentry := h.aliasName entry (hperm.mem_iff.mpr hentry)
  ne_empty entry hentry := h.ne_empty entry (hperm.mem_iff.mpr hentry)
  distinct entry hentry := h.distinct entry (hperm.mem_iff.mpr hentry)
  nodup := (Fields.names_perm hperm).nodup_iff.mp h.nodup

theorem run_collect_underAlias {index : Nat} {failures : List RootProblem}
    (hnodup : (Fields.names named ++ rootAliases trees).Nodup) (hne : "" ∉ rootAliases trees) :
    (collect .skip named index trees).run failures =
      .ok (named ++ trees.map underAlias, failures) := by
  induction trees generalizing named index with
  | nil =>
      rw [List.map_nil, List.append_nil]
      rfl
  | cons tree rest ih =>
      have hfirst : tree.aliasName.getD "" ≠ "" := fun hempty => hne (hempty ▸ List.mem_cons_self)
      unfold collect
      split
      next hnone => exact absurd (congrArg (·.getD "") hnone) hfirst
      next hempty => exact absurd (congrArg (·.getD "") hempty) hfirst
      next aliasName _ halias =>
          have hcons : rootAliases (tree :: rest) = aliasName :: rootAliases rest :=
            congrArg (· :: rootAliases rest) (congrArg (·.getD "") halias)
          have hentry : underAlias tree = (aliasName, tree) :=
            congrArg (·, tree) (congrArg (·.getD "") halias)
          rw [hcons] at hnodup hne
          have hnew : aliasName ∉ Fields.names named := fun hold =>
            (List.nodup_append.mp hnodup).2.2 _ hold _ List.mem_cons_self rfl
          have hrest : (collect .skip (named ++ [(aliasName, tree)]) (index + 1) rest).run
              failures = .ok (named ++ [(aliasName, tree)] ++ rest.map underAlias, failures) :=
            ih (by simpa using hnodup) (mt (List.mem_cons_of_mem _) hne)
          rw [List.append_assoc, List.singleton_append] at hrest
          rw [if_neg (mt Fields.contains_iff.mp hnew), List.map_cons, hentry]
          exact hrest

/-! ## Reordered batches -/

structure Holds (settings : Settings) (file : GuardFile) (guards : Fields Function) : Prop where
  functions : file.functions = Registry.arrayGuard :: guards.map (·.2)
  named : ∀ entry ∈ guards, entry.2.name = settings.guardName entry.1
  nodup : (Fields.names guards).Nodup

/-- Two outputs with the same guards and the same fixtures under each alias, and with the
same failures but for the details of unknown aliases. -/
structure Reordered (settings : Settings) (output other : Output) : Prop where
  guards : ∃ guards others, Holds settings output.file guards ∧
    Holds settings other.file others ∧ guards.Perm others
  fixtures : output.fixtures.Perm other.fixtures
  fixtures_nodup : (Fields.names output.fixtures).Nodup
  failures : (output.failures.map RootProblem.outline).Perm
    (other.failures.map RootProblem.outline)

theorem holds_of_registry {complete : Registry} {file : GuardFile} (hkeyed : Keyed named)
    (hregistry : registry settings named = .ok complete) (hfile : complete.assemble = .ok file) :
    Holds settings file (named.filterMap (guardOf settings (Fields.names named))) := by
  rw [← registry_guards hkeyed hregistry]
  obtain ⟨hsound, rfl⟩ := registry_sound hkeyed.roots hregistry
  exact ⟨(Registry.assemble_ok hfile).2, fun entry hentry => hsound.name_of_mem hentry,
    hsound.guards ▸ hkeyed.nodup⟩

theorem Skipped.reordered {withFixtures : Bool} {left : Fields TypeTree}
    {gone lost : List RootProblem} {output other : Output}
    (h : Skipped settings withFixtures named kept [] gone output)
    (hother : Skipped settings withFixtures others left [] lost other) (hkeyed : Keyed named)
    (hperm : named.Perm others)
    (hnames : ∀ failure ∈ output.failures, failure.problem.isExhaustion = false)
    (hothers : ∀ failure ∈ other.failures, failure.problem.isExhaustion = false) :
    Reordered settings output other := by
  have hgone : ∀ failure ∈ gone, failure.problem.isExhaustion = false :=
    fun failure hmem => hnames failure (by simp [h.failures, hmem])
  have hlost : ∀ failure ∈ lost, failure.problem.isExhaustion = false :=
    fun failure hmem => hothers failure (by simp [hother.failures, hmem])
  have hkept := h.drops.kept_perm hother.drops hperm hkeyed.nodup hgone hlost
  have hdropped := h.drops.outline_perm hother.drops hperm hkeyed.nodup hgone hlost
  have hkeptKeyed := hkeyed.sublist h.drops.sublist
  constructor
  case guards =>
      obtain ⟨complete, hregistry, hfile⟩ := h.file
      obtain ⟨final, hfinal, hlast⟩ := hother.file
      refine ⟨_, _, holds_of_registry hkeptKeyed hregistry hfile,
        holds_of_registry (hkeptKeyed.perm hkept) hfinal hlast, ?_⟩
      rw [guardOf_congr fun name => (Fields.names_perm hkept).mem_iff]
      exact hkept.filterMap _
  case fixtures =>
      rw [h.fixtures, hother.fixtures]
      split
      next => exact sampled_perm hkept hkeptKeyed.nodup _
      next => exact .refl _
  case fixtures_nodup =>
      rw [h.fixtures]
      split
      next => exact hkeptKeyed.nodup.sublist (names_sampled_sublist _ kept)
      next => exact List.nodup_nil
  case failures =>
      rw [h.failures, hother.failures, List.nil_append, List.nil_append, List.map_append,
        List.map_append]
      refine hdropped.append ?_
      split
      next => exact unsampled_perm hkept hkeptKeyed.nodup _
      next => exact .refl _

/-- The order of roots with names of their own does not matter, unless fresh names run
out. -/
theorem ofTrees_perm (settings : Settings) (withFixtures : Bool) {trees others : List TypeTree}
    (hperm : trees.Perm others) (hnodup : (rootAliases trees).Nodup) (hne : "" ∉ rootAliases trees)
    (hdistinct : ∀ tree ∈ trees, tree.Distinct) :
    ∃ output other, ofTrees settings .skip withFixtures trees = .ok output ∧
      ofTrees settings .skip withFixtures others = .ok other ∧
      ((∀ failure ∈ output.failures ++ other.failures, failure.problem.isExhaustion = false) →
        Reordered settings output other) := by
  have haliases : (rootAliases trees).Perm (rootAliases others) := hperm.map _
  have hkeyed := keyed_underAlias hnodup hne hdistinct
  have hroots : (trees.map underAlias).Perm (others.map underAlias) := hperm.map _
  obtain ⟨output, kept, gone, hrun, hskipped⟩ :=
    ofTrees_skipped settings withFixtures hkeyed (run_collect_underAlias hnodup hne)
  obtain ⟨other, left, lost, hother, hreached⟩ :=
    ofTrees_skipped settings withFixtures (hkeyed.perm hroots) (run_collect_underAlias
      (haliases.nodup_iff.mp hnodup) (mt haliases.mem_iff.mpr hne))
  refine ⟨output, other, hrun, hother, fun hnames => ?_⟩
  rw [List.forall_mem_append] at hnames
  exact hskipped.reordered hreached hkeyed hroots hnames.1 hnames.2

def scattered : List TypeTree :=
  [.object ⟨false, some "User"⟩ [("broken", .reference .bare "Broken")] [],
    .array ⟨false, some "Lost"⟩ (.reference .bare "Missing"),
    .union ⟨false, some "Broken"⟩ [.primitive .bare .string],
    .object ⟨false, some "Loop"⟩ [("next", .reference .bare "Loop")] [],
    .primitive ⟨false, some "Text"⟩ .string]

theorem ofTrees_perm_scattered :
    ∃ output other, ofTrees .standard .skip true scattered = .ok output ∧
      ofTrees .standard .skip true scattered.reverse = .ok other ∧
      output.failures ≠ other.failures ∧ Reordered .standard output other := by
  have hdistinct : ∀ tree ∈ scattered, tree.Distinct := by
    have huser : TypeTree.Distinct
        (.object ⟨false, some "User"⟩ [("broken", .reference .bare "Broken")] []) :=
      .object (by decide) (by simpa using .reference)
    have hloop : TypeTree.Distinct
        (.object ⟨false, some "Loop"⟩ [("next", .reference .bare "Loop")] []) :=
      .object (by decide) (by simpa using .reference)
    have hbroken : TypeTree.Distinct (.union ⟨false, some "Broken"⟩ [.primitive .bare .string]) :=
      .union (by simpa using .primitive)
    simpa [scattered] using ⟨huser, .array .reference, hbroken, hloop, .primitive⟩
  obtain ⟨output, other, hrun, hother, hreordered⟩ := ofTrees_perm .standard true
    (List.reverse_perm scattered).symm (by decide) (by decide) hdistinct
  have hresult : (ofTrees .standard .skip true scattered).toOption.bind (fun output =>
      (ofTrees .standard .skip true scattered.reverse).toOption.map fun other =>
        ((output.failures ++ other.failures).all fun failure => !failure.problem.isExhaustion,
          decide (output.failures = other.failures))) = some (true, false) := by
    decide +kernel
  rw [hrun, hother] at hresult
  obtain ⟨hnames, hne⟩ := Prod.ext_iff.mp (Option.some.inj hresult)
  exact ⟨output, other, hrun, hother, of_decide_eq_false hne,
    hreordered (List.forall_mem_append.mpr (by simpa using hnames))⟩

end Batch

end TypeGuard
