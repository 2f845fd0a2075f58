import TypeGuard.Proofs.Session

/-!
# What a file answers

Where the names of guards are clear, what a file answers under any name follows from the
names of guards and the types behind them: the array guard tells arrays, a guard gives the
verdict of its type, and no other name has a guard.  No other setting has a say in it.

So a self-check is advisory.  It takes one more name, which may change the names taken
after it, and at run time it sets one more local; neither is seen in an answer.
-/

namespace TypeGuard

open Evaluation Writing

namespace Registry

variable {registry : Registry} {trees : Fields TypeTree} {file : GuardFile}

def answer (settings : Settings) (trees : Fields TypeTree) (name : String) (sample : Sample) :
    Except EvalError Bool :=
  if name = arrayGuardName then arrayVerdict (maxCallDepth + 1) sample
  else
    match List.find? (fun entry => settings.guardName entry.1 == name) trees with
    | some entry => verdict trees (maxCallDepth + 1) entry.2 sample
    | none => .error (.unknownGuard name)

theorem Sound.accepts_arrayGuard (h : Sound registry trees) (hclear : registry.NamesClear)
    (hfile : registry.assemble = .ok file) (sample : Sample) :
    file.accepts arrayGuardName sample = arrayVerdict (maxCallDepth + 1) sample := by
  obtain ⟨closure, hfound, hinvoke⟩ := (h.linked hclear hfile (maxCallDepth + 1)).array
  exact accepts_of_invoke hfound (hinvoke sample)

theorem Sound.accepts_unknown (h : Sound registry trees) (hfile : registry.assemble = .ok file)
    {name : String} (harray : name ≠ arrayGuardName)
    (hname : ∀ aliasName ∈ Fields.names trees, registry.settings.guardName aliasName ≠ name)
    (sample : Sample) : file.accepts name sample = .error (.unknownGuard name) := by
  have hnone : name ∉ file.functions.map (·.name) := by
    rw [h.function_names hfile, List.mem_cons, h.guards, List.mem_map]
    rintro (heq | ⟨aliasName, halias, heq⟩)
    · exact harray heq
    · exact hname aliasName halias heq
  rw [GuardFile.accepts, GuardFile.scope, Scope.find?, Frame.find?_ofBody_eq_none hnone]
  rfl

theorem Sound.accepts_eq_answer (h : Sound registry trees) (hclear : registry.NamesClear)
    (hfile : registry.assemble = .ok file) (name : String) (sample : Sample) :
    file.accepts name sample = answer registry.settings trees name sample := by
  rw [answer]
  split
  next harray => rw [harray, h.accepts_arrayGuard hclear hfile]
  next harray =>
      split
      next aliasName tree hfound =>
          have hname := List.find?_some hfound
          rw [← beq_iff_eq.mp hname]
          exact h.accepts_eq hclear hfile
            (Fields.find?_of_mem h.nodup (List.mem_of_find?_eq_some hfound)) sample
      next hfound =>
          refine h.accepts_unknown hfile harray (fun aliasName halias heq => ?_) sample
          obtain ⟨tree, htree⟩ := Fields.mem_names.mp halias
          have hother := List.find?_eq_none.mp hfound _ (Fields.mem_of_find? htree)
          exact hother (beq_iff_eq.mpr heq)

end Registry

namespace Session

variable {session later : Session} {steps : List Step}

theorem Sound.accepts_eq_answer {settings : Settings} {file : GuardFile}
    (h : Sound settings session) (hstem : settings.stem = "is")
    (harray : "Array" ∉ Fields.names session.registry.guards)
    (hfile : session.registry.assemble = .ok file) (name : String) (sample : Sample) :
    file.accepts name sample = Registry.answer settings session.trees name sample := by
  have hclear : session.registry.NamesClear :=
    Registry.namesClear_of_stem ((congrArg Settings.stem h.settings).trans hstem) harray
  rw [h.registry.accepts_eq_answer hclear hfile, h.settings]

/-! ## Runs without a failure -/

def attempt (session : Session) : Step → Except Problem Session
  | .announce names => .ok { session with registry := session.registry.announce names }
  | .register tree => do
      let registry ← session.registry.register tree
      return ⟨registry, Fields.insert (tree.aliasName.getD "") tree session.trees⟩

def kept (trees : Fields TypeTree) : Step → Fields TypeTree
  | .announce _ => trees
  | .register tree => Fields.insert (tree.aliasName.getD "") tree trees

theorem attempt_ok {action : Step} (h : session.attempt action = .ok later) :
    later = session.step action ∧ later.trees = kept session.trees action := by
  cases action with
  | announce names =>
      cases h
      exact ⟨rfl, rfl⟩
  | register tree =>
      obtain ⟨registry, hregister, hlater⟩ := bind_eq_ok.mp h
      cases hlater
      rw [step, hregister]
      exact ⟨rfl, rfl⟩

theorem sound_of_attempts {settings : Settings}
    (h : steps.foldlM attempt (start settings) = .ok later) : Sound settings later := by
  have hrun : later = run settings steps :=
    foldlM_ok_eq_foldl id (fun hattempt => (attempt_ok hattempt).1) h
  rw [hrun]
  exact run_sound settings steps

theorem trees_of_attempts {settings : Settings}
    (h : steps.foldlM attempt (start settings) = .ok later) :
    later.trees = steps.foldl kept [] :=
  foldlM_ok_eq_foldl Session.trees (fun hattempt => (attempt_ok hattempt).2) h

/-- Self-checks are advisory: where a run without failures can be assembled with self-checks
and without, the two files answer the same under every name. -/
theorem accepts_selfChecks (settings : Settings) (hstem : settings.stem = "is")
    (steps : List Step) (checks others : Bool) (first second : Session) (file other : GuardFile)
    (hfirst : steps.foldlM attempt (start { settings with selfChecks := checks }) = .ok first)
    (hsecond : steps.foldlM attempt (start { settings with selfChecks := others }) = .ok second)
    (harray : "Array" ∉ Fields.names first.registry.guards)
    (hfile : first.registry.assemble = .ok file) (hother : second.registry.assemble = .ok other)
    (name : String) (sample : Sample) : file.accepts name sample = other.accepts name sample := by
  have hsound := sound_of_attempts hfirst
  have hagain := sound_of_attempts hsecond
  have htrees : first.trees = second.trees :=
    (trees_of_attempts hfirst).trans (trees_of_attempts hsecond).symm
  have hguards : Fields.names first.registry.guards = Fields.names second.registry.guards := by
    rw [hsound.registry.guards, hagain.registry.guards, htrees]
  rw [hsound.accepts_eq_answer hstem harray hfile,
    hagain.accepts_eq_answer hstem (hguards ▸ harray) hother, htrees]
  rfl

/-- The self-check of `first` is written before the attributes of `second` are bound, and it
takes the name that one of them would have. -/
def checkedSteps : List Step :=
  [.announce ["Rest"],
    .register (.object ⟨false, some "Pair"⟩
      [("first", .object .bare [("size", .primitive .bare .number)] []),
        ("second", .object .bare [("checked", .array .bare (.reference .bare "Rest"))] [])] []),
    .register (.union ⟨false, some "Rest"⟩ [.literal .bare .null, .reference .bare "Pair"])]

def checkedSample : Sample :=
  .object [("first", .object [("size", .number (Binary64.ofNat 1))]),
    ("second", .object [("checked", .array [.null])])]

theorem accepts_selfChecks_checkedSteps :
    ∃ first second file other,
      checkedSteps.foldlM attempt (start { Settings.standard with selfChecks := true }) =
        .ok first ∧
      checkedSteps.foldlM attempt (start { Settings.standard with selfChecks := false }) =
        .ok second ∧
      first.registry.assemble = .ok file ∧ second.registry.assemble = .ok other ∧
      "second_checked" ∈ declaredIn file.statements ∧
      "second_checked" ∉ declaredIn other.statements ∧
      file.accepts "isPair" checkedSample = .ok true ∧
      other.accepts "isPair" checkedSample = .ok true := by
  have hchecked : ((checkedSteps.foldlM attempt
        (start { Settings.standard with selfChecks := true })).toOption.bind fun session =>
      session.registry.assemble.toOption.map fun file =>
        (decide ("Array" ∉ Fields.names session.registry.guards),
          decide ("second_checked" ∈ declaredIn file.statements),
          (file.accepts "isPair" checkedSample).toOption)) = some (true, true, some true) := by
    decide +kernel
  have hplain : ((checkedSteps.foldlM attempt
        (start { Settings.standard with selfChecks := false })).toOption.bind fun session =>
      session.registry.assemble.toOption.map fun file =>
        decide ("second_checked" ∉ declaredIn file.statements)) = some true := by
    decide +kernel
  obtain ⟨first, hfirst, hchecked⟩ := Option.bind_eq_some_iff.mp hchecked
  obtain ⟨file, hfile, hchecked⟩ := Option.map_eq_some_iff.mp hchecked
  obtain ⟨second, hsecond, hplain⟩ := Option.bind_eq_some_iff.mp hplain
  obtain ⟨other, hother, hplain⟩ := Option.map_eq_some_iff.mp hplain
  simp only [Prod.mk.injEq] at hchecked
  obtain ⟨harray, hname, haccepts⟩ := hchecked
  refine ⟨first, second, file, other, eq_ok_of_toOption hfirst, eq_ok_of_toOption hsecond,
    eq_ok_of_toOption hfile, eq_ok_of_toOption hother, of_decide_eq_true hname,
    of_decide_eq_true hplain, eq_ok_of_toOption haccepts, ?_⟩
  rw [← accepts_selfChecks .standard rfl checkedSteps true false first second file other
    (eq_ok_of_toOption hfirst) (eq_ok_of_toOption hsecond) (of_decide_eq_true harray)
    (eq_ok_of_toOption hfile) (eq_ok_of_toOption hother)]
  exact eq_ok_of_toOption haccepts

end Session

end TypeGuard
