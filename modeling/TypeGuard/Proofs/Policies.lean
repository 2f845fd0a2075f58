import TypeGuard.Proofs.Survivors

/-!
# The two policies

A batch that stops at its first failure ends with the failure that a batch which
skips them notes first, and gives the same output if there is none.  To the other
phases this adds the loop over the roots: the roots that are left when nothing fails
any more always make a file, so that no failure is of the file itself.
-/

namespace TypeGuard.Batch

variable {settings : Settings} {trees : List TypeTree} {named : Fields TypeTree}

/-! ## The loop over the roots -/

theorem settle_ends (hroots : Roots trees named) (settings : Settings) (rounds : Nat) :
    ∃ result noted, Ends (fun policy => settle policy settings rounds named) result noted := by
  induction rounds generalizing named with
  | zero => exact ⟨_, [], .pure _⟩
  | succ rounds ih =>
      simp only [settle]
      cases hregistry : registry settings named with
      | ok complete =>
          obtain ⟨file, hfile⟩ := exists_assemble_of_registry hroots hregistry
          simp only [finish, hfile]
          exact ⟨(file, named), [], .pure _⟩
      | error failed =>
          obtain ⟨aliasName, problem⟩ := failed
          obtain ⟨result, noted, hrest⟩ := ih (hroots.sublist List.filter_sublist)
          exact ⟨result, _, (Ends.fail aliasName problem).bind hrest⟩

theorem runTrees_ends (settings : Settings) (withFixtures : Bool) (trees : List TypeTree) :
    ∃ result noted, Ends (fun policy => runTrees settings policy withFixtures trees) result
      noted := by
  obtain ⟨named, _, hcollect⟩ := collect_ends [] 0 trees
  have hroots : Roots trees named :=
    collect_ok (List.Subset.refl trees) (.empty trees) (hcollect.skip [])
  obtain ⟨⟨file, kept⟩, _, hsettle⟩ := settle_ends hroots settings (named.length + 1)
  cases withFixtures with
  | true =>
      have hfixtures := fixturesOf_ends ⟨kept, settings.maxDepth⟩ kept
      exact ⟨_, _, hcollect.bind (hsettle.bind (hfixtures.map (file, ·)))⟩
  | false => exact ⟨_, _, hcollect.bind (hsettle.bind (.pure (file, [])))⟩

/-! ## Whole batches -/

/-- A batch that skips failures has an output.  One that does not has the same output if
there are no failures, and ends with the first of them otherwise.  No failure comes from
putting the file together: the roots of a round that were all registered make a file. -/
theorem abort_eq_first_failure (settings : Settings) (withFixtures : Bool)
    (specs : List TypeSpec) :
    (∃ output, ofSpecs settings .skip withFixtures specs = .ok output ∧
      ofSpecs settings .abort withFixtures specs = stoppedAt output.failures output) ∧
    ∀ policy trees named noted, (collect policy [] 0 trees).run [] = .ok (named, noted) →
      ∀ kept complete, kept.Sublist named → registry settings kept = .ok complete →
        ∃ file, complete.assemble = .ok file := by
  constructor
  · obtain ⟨trees, lowered, hlower⟩ := lower_ends 0 specs
    obtain ⟨⟨file, fixtures⟩, noted, hrun⟩ := runTrees_ends settings withFixtures trees
    have hboth := hlower.bind hrun
    refine ⟨⟨settings, file, fixtures, lowered ++ noted⟩, ?_, ?_⟩
    · exact bind_eq_ok.mpr ⟨_, hboth.skip [], rfl⟩
    · have habort := hboth.abort []
      cases hnoted : lowered ++ noted with
      | nil =>
          rw [hnoted] at habort
          exact bind_eq_ok.mpr ⟨_, habort, rfl⟩
      | cons failure rest =>
          rw [hnoted] at habort
          exact bind_eq_error.mpr (.inl habort)
  · intro policy trees named noted hcollect kept complete hkept hregistry
    have hroots : Roots trees named :=
      collect_ok (List.Subset.refl trees) (.empty trees) hcollect
    exact exists_assemble_of_registry (hroots.sublist hkept) hregistry

def lateSpecs : List TypeSpec :=
  [.object ⟨some "User", false⟩ [("broken", .reference ⟨none, false⟩ "Broken")] [],
    .union ⟨some "Broken", false⟩ [.undefined ⟨none, false⟩],
    .object ⟨some "Loop", false⟩ [("next", .reference ⟨none, false⟩ "Loop")] [],
    .primitive ⟨some "Day", false⟩ "date"]

def loopRoots : Fields TypeTree :=
  [("Loop", .object ⟨false, some "Loop"⟩ [("next", .reference .bare "Loop")] [])]

theorem abort_eq_first_failure_lateSpecs :
    (∃ output first, ofSpecs .standard .skip true lateSpecs = .ok output ∧
      output.failures.map (·.root) = ["Day", "Broken", "User", "Loop"] ∧ first.root = "Day" ∧
      ofSpecs .standard .abort true lateSpecs = .error first) ∧
    ∃ complete file, registry .standard loopRoots = .ok complete ∧
      complete.assemble = .ok file := by
  obtain ⟨⟨output, hskip, habort⟩, -⟩ := abort_eq_first_failure .standard true lateSpecs
  have hroots : (ofSpecs .standard .skip true lateSpecs).toOption.map (fun output =>
      output.failures.map (·.root)) = some ["Day", "Broken", "User", "Loop"] := by
    decide +kernel
  rw [hskip] at hroots
  replace hroots : output.failures.map (·.root) = _ := Option.some.inj hroots
  have hsome : (registry .standard loopRoots).toOption.isSome = true := by decide +kernel
  obtain ⟨complete, hcomplete⟩ := Option.isSome_iff_exists.mp hsome
  have hregistry := eq_ok_of_toOption hcomplete
  obtain ⟨file, hfile⟩ := (abort_eq_first_failure .standard true lateSpecs).2 .skip
    (loopRoots.map (·.2)) loopRoots [] rfl loopRoots complete (.refl _) hregistry
  refine ⟨?_, complete, file, hregistry, hfile⟩
  cases hfailures : output.failures with
  | nil => simp [hfailures] at hroots
  | cons first rest =>
      rw [hfailures] at habort hroots
      exact ⟨output, first, hskip, by rw [hfailures, hroots], (List.cons.inj hroots).1, habort⟩

end TypeGuard.Batch
