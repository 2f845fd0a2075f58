import TypeGuard.Batch
import TypeGuard.Proofs.Drawing
import TypeGuard.Proofs.Session

/-!
# Guards and fixtures of one batch

The guards of a batch and its fixtures come from the same roots, the first by
writing code and the second by expanding the types.  A guard accepts what the
sampler of its root takes, so it accepts every valid fixture.  It rejects an
invalid fixture unless the sampler misreads it.
-/

namespace TypeGuard

/-! ## Registered roots -/

namespace Registry

variable {registry later : Registry} {trees : Fields TypeTree} {file : GuardFile}

theorem Sound.distinct (h : Sound registry trees) :
    ∀ entry ∈ trees, entry.2.Distinct := by
  intro entry hentry
  obtain ⟨_, _, -, -, hwritten⟩ := h.written _ _ (Fields.find?_of_mem h.nodup hentry)
  cases hwritten with
  | intro hguard => exact hguard.distinct

theorem Sound.accepts_eq_takes (h : Sound registry trees) (hclear : registry.NamesClear)
    (hfile : registry.assemble = .ok file) (hnan : ∀ entry ∈ trees, entry.2.hasNaN = false)
    {depth : Nat} (hdepth : depth ≤ Evaluation.maxCallDepth) {aliasName : String}
    {tree : TypeTree} (htree : Fields.find? aliasName trees = some tree) {sampler : Sampler}
    (hsampler : (Expansion.mk trees depth).sampler tree = .ok sampler) (sample : Sample) :
    file.accepts (registry.settings.guardName aliasName) sample = .ok (sampler.takes sample) := by
  rw [h.accepts_eq hclear hfile htree]
  have hyields : (Expansion.mk trees depth).Yields (depth + 1) tree sampler := ⟨_, _, hsampler⟩
  exact hyields.verdict_eq hnan (Nat.succ_le_succ hdepth)
    (hnan _ (Fields.mem_of_find? htree)) sample

end Registry

namespace Batch

variable {settings : Settings} {policy : Policy}

structure Roots (trees : List TypeTree) (named : Fields TypeTree) : Prop where
  listed : ∀ entry ∈ named, entry.2 ∈ trees
  keyed : ∀ entry ∈ named, entry.2.aliasName = some entry.1
  nodup : (Fields.names named).Nodup

theorem registerAll_sound {registry later : Registry} {trees named : Fields TypeTree}
    (h : registry.Sound trees) (hkeyed : ∀ entry ∈ named, entry.2.aliasName = some entry.1)
    (hnodup : (Fields.names (trees ++ named)).Nodup)
    (hlater : registerAll named registry = .ok later) :
    later.Sound (trees ++ named) ∧ later.settings = registry.settings := by
  induction named generalizing registry trees with
  | nil =>
      cases hlater
      rw [List.append_nil]
      exact ⟨h, rfl⟩
  | cons entry rest ih =>
      obtain ⟨aliasName, tree⟩ := entry
      rw [List.forall_mem_cons] at hkeyed
      cases hregister : registry.register tree with
      | error problem => simp [registerAll, hregister] at hlater
      | ok middle =>
          simp only [registerAll, hregister] at hlater
          have hfresh : aliasName ∉ Fields.names trees := by
            simp only [Fields.names_append, Fields.names_cons, List.nodup_append] at hnodup
            exact fun hmem => hnodup.2.2 aliasName hmem aliasName List.mem_cons_self rfl
          have happend : trees ++ (aliasName, tree) :: rest =
              Fields.insert aliasName tree trees ++ rest := by
            simp [hfresh]
          have hsettings : middle.settings = registry.settings := by
            obtain ⟨_, _, _, -, -, rfl⟩ := Registry.register_ok hregister
            rfl
          rw [happend] at hnodup ⊢
          rw [← hsettings]
          exact ih (h.register hkeyed.1 hregister) hkeyed.2 hnodup hlater

theorem registry_sound {registry : Registry} {trees : List TypeTree} {named : Fields TypeTree}
    (hroots : Roots trees named) (h : Batch.registry settings named = .ok registry) :
    registry.Sound named ∧ registry.settings = settings :=
  registerAll_sound ((Registry.Sound.empty settings).announce _) hroots.keyed hroots.nodup h

/-! ## Runs of a batch -/

variable {trees : List TypeTree} {named : Fields TypeTree} {failures noted : List RootProblem}

theorem Roots.empty (trees : List TypeTree) : Roots trees [] :=
  ⟨by simp, by simp, List.nodup_nil⟩

theorem Roots.sublist (h : Roots trees named) {kept : Fields TypeTree}
    (hkept : kept.Sublist named) : Roots trees kept where
  listed entry hentry := h.listed entry (hkept.subset hentry)
  keyed entry hentry := h.keyed entry (hkept.subset hentry)
  nodup := h.nodup.sublist (hkept.map _)

theorem Roots.append (h : Roots trees named) {aliasName : String} {tree : TypeTree}
    (hmem : tree ∈ trees) (halias : tree.aliasName = some aliasName)
    (hnew : Fields.contains aliasName named ≠ true) :
    Roots trees (named ++ [(aliasName, tree)]) where
  listed := List.forall_mem_append.mpr ⟨h.listed, by simpa using hmem⟩
  keyed := List.forall_mem_append.mpr ⟨h.keyed, by simpa using halias⟩
  nodup := by
    rw [Ne, Fields.contains_iff] at hnew
    rw [← Fields.insert_of_notMem hnew]
    exact Fields.names_nodup_insert h.nodup _ _

theorem collect_ok {rest : List TypeTree} (hrest : rest ⊆ trees) (hroots : Roots trees named)
    {index : Nat} {collected : Fields TypeTree}
    (h : (collect policy named index rest).run failures = .ok (collected, noted)) :
    Roots trees collected := by
  induction rest generalizing named index failures with
  | nil =>
      cases h
      exact hroots
  | cons tree rest ih =>
      rw [List.cons_subset] at hrest
      unfold collect at h
      split at h
      next =>
          obtain ⟨_, _, -, h⟩ := run_bind_eq_ok.mp h
          exact ih hrest.2 hroots h
      next =>
          obtain ⟨_, _, -, h⟩ := run_bind_eq_ok.mp h
          exact ih hrest.2 hroots h
      next aliasName _ halias =>
          split at h
          next =>
              obtain ⟨_, _, -, h⟩ := run_bind_eq_ok.mp h
              exact ih hrest.2 hroots h
          next hnew => exact ih hrest.2 (hroots.append hrest.1 halias hnew) h

theorem settle_ok (hroots : Roots trees named) {rounds : Nat} {file : GuardFile}
    {kept : Fields TypeTree}
    (h : (settle policy settings rounds named).run failures = .ok ((file, kept), noted)) :
    Roots trees kept ∧ ∃ registry, Batch.registry settings kept = .ok registry ∧
      registry.assemble = .ok file := by
  induction rounds generalizing named failures with
  | zero =>
      cases h
      exact ⟨.empty trees, _, rfl, rfl⟩
  | succ rounds ih =>
      unfold settle at h
      split at h
      next registry hregistry =>
          unfold finish at h
          split at h
          next hfile =>
              cases h
              exact ⟨hroots, registry, hregistry, hfile⟩
          next => cases h
      next =>
          obtain ⟨_, _, -, h⟩ := run_bind_eq_ok.mp h
          exact ih (hroots.sublist List.filter_sublist) h

theorem fixturesOf_ok {expansion : Expansion} {fixtures : Fields Fixtures}
    (h : (fixturesOf policy expansion named).run failures = .ok (fixtures, noted)) :
    ∀ entry ∈ fixtures, ∃ tree, (entry.1, tree) ∈ named ∧
      expansion.fixtures tree = .ok entry.2 := by
  induction named generalizing failures fixtures with
  | nil =>
      cases h
      simp
  | cons root rest ih =>
      obtain ⟨aliasName, tree⟩ := root
      unfold fixturesOf at h
      split at h
      next first hfirst =>
          obtain ⟨others, _, hothers, h⟩ := run_bind_eq_ok.mp h
          cases h
          refine List.forall_mem_cons.mpr
            ⟨⟨tree, List.mem_cons_self, hfirst⟩, fun entry hentry => ?_⟩
          obtain ⟨other, hother, hfixtures⟩ := ih hothers entry hentry
          exact ⟨other, List.mem_cons_of_mem _ hother, hfixtures⟩
      next =>
          obtain ⟨_, _, -, h⟩ := run_bind_eq_ok.mp h
          intro entry hentry
          obtain ⟨other, hother, hfixtures⟩ := ih h entry hentry
          exact ⟨other, List.mem_cons_of_mem _ hother, hfixtures⟩

theorem ofTrees_ok {output : Output} (h : ofTrees settings policy true trees = .ok output) :
    ∃ kept registry, Roots trees kept ∧ Batch.registry settings kept = .ok registry ∧
      registry.assemble = .ok output.file ∧
      ∀ entry ∈ output.fixtures, ∃ tree, (entry.1, tree) ∈ kept ∧
        (Expansion.mk kept settings.maxDepth).fixtures tree = .ok entry.2 := by
  obtain ⟨⟨⟨file, fixtures⟩, noted⟩, hrun, h⟩ := bind_eq_ok.mp h
  cases h
  obtain ⟨collected, _, hcollect, hrun⟩ := run_bind_eq_ok.mp hrun
  obtain ⟨⟨_, kept⟩, _, hsettle, hrun⟩ := run_bind_eq_ok.mp hrun
  obtain ⟨_, _, hfixtures, hrun⟩ := run_bind_eq_ok.mp hrun
  cases hrun
  have hcollected := collect_ok (List.Subset.refl trees) (.empty trees) hcollect
  obtain ⟨hkept, registry, hregistry, hfile⟩ := settle_ok hcollected hsettle
  exact ⟨kept, registry, hkept, hregistry, hfile, fixturesOf_ok hfixtures⟩

/-! ## Samplers against guards -/

/-- A root's guard accepts what its sampler accepts and what its sampler misreads,
so the two agree on a sample exactly if the sampler does not misread it. -/
theorem accepts_eq_sampler {registry : Registry} {file : GuardFile} {roots : Fields TypeTree}
    (hstem : settings.stem = "is")
    (hkeyed : ∀ entry ∈ roots, entry.2.aliasName = some entry.1)
    (hnodup : (Fields.names roots).Nodup) (harray : "Array" ∉ Fields.names roots)
    (hnan : ∀ entry ∈ roots, entry.2.hasNaN = false)
    (hregistry : Batch.registry settings roots = .ok registry)
    (hfile : registry.assemble = .ok file) {depth : Nat} (hdepth : depth ≤ 1000)
    {aliasName : String} {tree : TypeTree} (htree : Fields.find? aliasName roots = some tree)
    {sampler : Sampler} (hsampler : (Expansion.mk roots depth).sampler tree = .ok sampler)
    (sample : Sample) :
    file.accepts (settings.guardName aliasName) sample =
        .ok (sampler.accepts sample || sampler.misreads sample) ∧
      (file.accepts (settings.guardName aliasName) sample = .ok (sampler.accepts sample) ↔
        sampler.misreads sample = false) := by
  have hroots : Roots (roots.map (·.2)) roots :=
    ⟨fun entry hentry => List.mem_map_of_mem hentry, hkeyed, hnodup⟩
  obtain ⟨hsound, rfl⟩ := registry_sound hroots hregistry
  have hclear := Registry.namesClear_of_stem hstem (hsound.guards ▸ harray)
  rw [hsound.accepts_eq_takes hclear hfile hnan hdepth htree hsampler sample]
  refine ⟨rfl, ?_⟩
  -- A misread sample is accepted by the guard only, any other by both or by neither.
  cases hmisreads : sampler.misreads sample with
  | true => simp [Sampler.takes, hmisreads, Sampler.accepts_eq_false_of_misreads hmisreads]
  | false => simp [Sampler.takes, hmisreads]

def openRoots : Fields TypeTree := [("Open", .object ⟨false, some "Open"⟩ [] [])]

theorem accepts_eq_sampler_openRoots :
    ∃ registry file, Batch.registry .standard openRoots = .ok registry ∧
      registry.assemble = .ok file ∧ file.accepts "isOpen" (.array []) = .ok true ∧
      (Sampler.object []).accepts (.array []) = false := by
  have hsome : ((Batch.registry .standard openRoots).toOption.bind fun registry =>
      registry.assemble.toOption).isSome = true := by decide +kernel
  obtain ⟨file, hfile⟩ := Option.isSome_iff_exists.mp hsome
  obtain ⟨registry, hregistry, hfile⟩ := Option.bind_eq_some_iff.mp hfile
  have htree : Fields.find? "Open" openRoots = some (.object ⟨false, some "Open"⟩ [] []) := rfl
  have hsampler : (Expansion.mk openRoots 100).sampler (.object ⟨false, some "Open"⟩ [] []) =
      .ok (.object []) := rfl
  have haccepts := accepts_eq_sampler rfl (by decide) (by decide) (by decide) (by decide)
    (eq_ok_of_toOption hregistry) (eq_ok_of_toOption hfile) (by decide) htree hsampler (.array [])
  exact ⟨registry, file, eq_ok_of_toOption hregistry, eq_ok_of_toOption hfile, haccepts.1, rfl⟩

/-! ## Fixtures against guards -/

section

variable {output : Output} (hstem : settings.stem = "is")
  (harray : ∀ tree ∈ trees, tree.aliasName ≠ some "Array")
  (hnan : ∀ tree ∈ trees, tree.hasNaN = false) (hdepth : settings.maxDepth ≤ 1000)
  (hrun : ofTrees settings policy true trees = .ok output)
  {aliasName : String} {fixtures : Fixtures}
  (hfixtures : Fields.find? aliasName output.fixtures = some fixtures)

include hstem harray hnan hdepth hrun hfixtures

theorem fixtures_sampler :
    ∃ kept tree sampler, Roots trees kept ∧ Fields.find? aliasName kept = some tree ∧
      (Expansion.mk kept settings.maxDepth).sampler tree = .ok sampler ∧
      fixtures = sampler.fixtures ∧ sampler.Drawable ∧
      ∀ sample, output.file.accepts (settings.guardName aliasName) sample =
        .ok (sampler.takes sample) := by
  obtain ⟨kept, registry, hroots, hregistry, hfile, hentries⟩ := ofTrees_ok hrun
  obtain ⟨tree, hmem, hmade⟩ := hentries _ (Fields.mem_of_find? hfixtures)
  obtain ⟨hsound, hsettings⟩ := registry_sound hroots hregistry
  obtain ⟨sampler, hsampler, hmade⟩ := bind_eq_ok.mp hmade
  cases hmade
  have htree := Fields.find?_of_mem hroots.nodup hmem
  have hkeptArray : "Array" ∉ Fields.names registry.guards := by
    rw [hsound.guards]
    intro hname
    obtain ⟨root, hroot⟩ := Fields.mem_names.mp hname
    have hentry := Fields.mem_of_find? hroot
    exact harray root (hroots.listed _ hentry) (hroots.keyed _ hentry)
  have hclear := Registry.namesClear_of_stem (hsettings ▸ hstem) hkeptArray
  have hyields : (Expansion.mk kept settings.maxDepth).Yields _ tree sampler := ⟨_, _, hsampler⟩
  refine ⟨kept, tree, sampler, hroots, htree, hsampler, rfl,
    (hyields.breakable hsound.distinct (hsound.distinct _ hmem)).drawable, fun sample => ?_⟩
  rw [← hsettings]
  exact hsound.accepts_eq_takes hclear hfile
    (fun entry hentry => hnan _ (hroots.listed entry hentry)) hdepth htree hsampler sample

/-- The guard of a root accepts every valid fixture. -/
theorem accepts_valid {sample : Sample} (hsample : sample ∈ fixtures.valid) :
    output.file.accepts (settings.guardName aliasName) sample = .ok true := by
  obtain ⟨kept, tree, sampler, -, -, -, rfl, hregular, haccepts⟩ :=
    fixtures_sampler hstem harray hnan hdepth hrun hfixtures
  rw [haccepts, Sampler.takes_of_accepts (Sampler.accepts_of_mem_valid hregular hsample)]

/-- The guard of a root rejects an invalid fixture exactly if the root's sampler
does not misread it. -/
theorem accepts_invalid :
    ∃ kept tree sampler, Roots trees kept ∧ Fields.find? aliasName kept = some tree ∧
      (Expansion.mk kept settings.maxDepth).sampler tree = .ok sampler ∧
      fixtures = sampler.fixtures ∧
      ∀ sample ∈ fixtures.invalid, output.file.accepts (settings.guardName aliasName) sample =
        .ok (sampler.misreads sample) := by
  obtain ⟨kept, tree, sampler, hroots, htree, hsampler, rfl, -, haccepts⟩ :=
    fixtures_sampler hstem harray hnan hdepth hrun hfixtures
  refine ⟨kept, tree, sampler, hroots, htree, hsampler, rfl, fun sample hsample => ?_⟩
  rw [haccepts, Sampler.takes, Sampler.accepts_of_mem_invalid hsample, Bool.false_or]

end

def openUnion : List TypeTree :=
  [.object ⟨false, some "Open"⟩ [] [],
    .union ⟨false, some "Union"⟩ [.array .bare (.primitive .bare .number), .reference .bare "Open"]]

theorem openUnion_fixtures :
    ∃ output fixtures, ofTrees .standard .abort true openUnion = .ok output ∧
      Fields.find? "Union" output.fixtures = some fixtures ∧ (∃ sample, sample ∈ fixtures.valid) ∧
      ∃ sample ∈ fixtures.invalid, output.file.accepts "isUnion" sample = .ok true := by
  have hsome : ((ofTrees .standard .abort true openUnion).toOption.bind fun output =>
      (Fields.find? "Union" output.fixtures).map fun fixtures => !fixtures.valid.isEmpty &&
        fixtures.invalid.any fun sample =>
          (output.file.accepts "isUnion" sample).toOption == some true) = some true := by
    decide +kernel
  obtain ⟨output, hrun, hsome⟩ := Option.bind_eq_some_iff.mp hsome
  obtain ⟨fixtures, hfixtures, hsamples⟩ := Option.map_eq_some_iff.mp hsome
  rw [Bool.and_eq_true, List.any_eq_true] at hsamples
  obtain ⟨hvalid, sample, hsample, haccepts⟩ := hsamples
  exact ⟨output, fixtures, eq_ok_of_toOption hrun, hfixtures,
    List.exists_mem_of_ne_nil _ (by simpa using hvalid), sample, hsample,
    eq_ok_of_toOption (eq_of_beq haccepts)⟩

theorem accepts_valid_openUnion :
    ∃ output fixtures, ofTrees .standard .abort true openUnion = .ok output ∧
      Fields.find? "Union" output.fixtures = some fixtures ∧
      ∃ sample ∈ fixtures.valid, output.file.accepts "isUnion" sample = .ok true := by
  obtain ⟨output, fixtures, hrun, hfixtures, ⟨sample, hsample⟩, -⟩ := openUnion_fixtures
  exact ⟨output, fixtures, hrun, hfixtures, sample, hsample, accepts_valid rfl (by decide)
    (by decide) (by decide) hrun hfixtures hsample⟩

theorem accepts_invalid_openUnion :
    ∃ output fixtures, ofTrees .standard .abort true openUnion = .ok output ∧
      Fields.find? "Union" output.fixtures = some fixtures ∧
      ∃ kept tree sampler, Roots openUnion kept ∧ Fields.find? "Union" kept = some tree ∧
        (Expansion.mk kept Settings.standard.maxDepth).sampler tree = .ok sampler ∧
        fixtures = sampler.fixtures ∧
        ∃ sample ∈ fixtures.invalid, output.file.accepts "isUnion" sample = .ok true ∧
          sampler.misreads sample = true := by
  obtain ⟨output, fixtures, hrun, hfixtures, -, sample, hsample, haccepts⟩ := openUnion_fixtures
  obtain ⟨kept, tree, sampler, hroots, htree, hsampler, hmade, hinvalid⟩ :=
    accepts_invalid rfl (by decide) (by decide) (by decide) hrun hfixtures
  have hmisreads := Except.ok.inj (haccepts.symm.trans (hinvalid sample hsample))
  exact ⟨output, fixtures, hrun, hfixtures, kept, tree, sampler, hroots, htree, hsampler, hmade,
    sample, hsample, haccepts, hmisreads.symm⟩

end Batch

end TypeGuard
