import TypeGuard.Proofs.Fixtures

/-!
# Phases of a batch under both policies

A batch that stops at its first failure goes through the same steps as one that notes its
failures, up to the first of them.  So each phase of a batch, run under both policies,
either notes nothing and gives the same value, or the one run ends with the failure that
the other notes first.  Phases put together behave like that again, because failures are
noted in the order in which they arise.
-/

namespace TypeGuard

def RootProblem.of? {α : Type} (root : String) : Except Problem α → Option RootProblem
  | .ok _ => none
  | .error problem => some ⟨root, problem⟩

namespace Batch

variable {kept : Fields TypeTree}

/-! ## Phases under both policies -/

def stoppedAt {α : Type} : List RootProblem → α → Except RootProblem α
  | [], result => .ok result
  | first :: _, _ => .error first

/-- Skipping failures, the phase gives the value and notes these failures; otherwise it
ends with the first of them, or gives the value if there is none. -/
structure Ends {α : Type} (phase : Policy → Reporting α) (value : α)
    (noted : List RootProblem) : Prop where
  skip : ∀ failures, (phase .skip).run failures = .ok (value, failures ++ noted)
  abort : ∀ failures, (phase .abort).run failures = stoppedAt noted (value, failures)

namespace Ends

variable {α β : Type} {first : Policy → Reporting α} {next : Policy → α → Reporting β}
  {value : α} {result : β} {noted later : List RootProblem}

theorem pure (value : α) : Ends (fun _ => pure value) value [] where
  skip failures := by
    rw [List.append_nil]
    rfl
  abort _ := rfl

theorem fail (root : String) (problem : Problem) :
    Ends (fun policy => Batch.fail policy root problem) () [⟨root, problem⟩] where
  skip _ := rfl
  abort _ := rfl

theorem bind (hfirst : Ends first value noted)
    (hnext : Ends (fun policy => next policy value) result later) :
    Ends (fun policy => first policy >>= next policy) result (noted ++ later) where
  skip failures := by
    rw [← List.append_assoc]
    exact run_bind_eq_ok.mpr ⟨value, failures ++ noted, hfirst.skip failures, hnext.skip _⟩
  abort failures := by
    have hrun := hfirst.abort failures
    cases noted with
    | nil =>
        rw [List.nil_append, ← hnext.abort failures, StateT.run_bind, hrun]
        rfl
    | cons failure rest =>
        rw [List.cons_append, StateT.run_bind, hrun]
        rfl

theorem map (hfirst : Ends first value noted) (f : α → β) :
    Ends (fun policy => do return f (← first policy)) (f value) noted := by
  rw [← List.append_nil noted]
  refine hfirst.bind ?_
  exact .pure (f value)

end Ends

/-! ## What becomes of the items of a phase -/

/-- Every item has one outcome, a value or a failure.  The values and the failures stand in
the order of their items. -/
inductive Accounts {α β : Type} (outcome : α → Except RootProblem β → Prop) :
    List α → List β → List RootProblem → Prop
  | nil : Accounts outcome [] [] []
  | value {item : α} {value : β} {items : List α} {values : List β}
      {failures : List RootProblem} :
      outcome item (.ok value) → Accounts outcome items values failures →
      Accounts outcome (item :: items) (value :: values) failures
  | failure {item : α} {failure : RootProblem} {items : List α} {values : List β}
      {failures : List RootProblem} :
      outcome item (.error failure) → Accounts outcome items values failures →
      Accounts outcome (item :: items) values (failure :: failures)

inductive Then {α β γ : Type} (first : α → Except RootProblem β → Prop)
    (next : β → Except RootProblem γ → Prop) : α → Except RootProblem γ → Prop
  | failure {item : α} {failure : RootProblem} :
      first item (.error failure) → Then first next item (.error failure)
  | value {item : α} {value : β} {outcome : Except RootProblem γ} :
      first item (.ok value) → next value outcome → Then first next item outcome

namespace Accounts

variable {α β γ : Type} {outcome : α → Except RootProblem β → Prop}
  {next : β → Except RootProblem γ → Prop} {items : List α} {values : List β}
  {results : List γ} {failures later : List RootProblem}

theorem length_eq (h : Accounts outcome items values failures) :
    values.length + failures.length = items.length := by
  induction h with
  | nil => rfl
  | value _ _ ih =>
      rw [List.length_cons, List.length_cons, ← ih]
      omega
  | failure _ _ ih =>
      rw [List.length_cons, List.length_cons, ← ih]
      omega

theorem exists_of_failure (h : Accounts outcome items values failures) :
    ∀ failure ∈ failures, ∃ item ∈ items, outcome item (.error failure) := by
  induction h with
  | nil => simp
  | value _ _ ih =>
      intro failure hmem
      obtain ⟨item, hitem, houtcome⟩ := ih failure hmem
      exact ⟨item, List.mem_cons_of_mem _ hitem, houtcome⟩
  | failure hfirst _ ih =>
      refine List.forall_mem_cons.mpr ⟨⟨_, List.mem_cons_self, hfirst⟩, fun failure hmem => ?_⟩
      obtain ⟨item, hitem, houtcome⟩ := ih failure hmem
      exact ⟨item, List.mem_cons_of_mem _ hitem, houtcome⟩

theorem outcome_of_mem (h : Accounts outcome items values failures) :
    ∀ item ∈ items, (∃ value ∈ values, outcome item (.ok value)) ∨
      ∃ failure ∈ failures, outcome item (.error failure) := by
  induction h with
  | nil => simp
  | value hfirst _ ih =>
      refine List.forall_mem_cons.mpr ⟨.inl ⟨_, List.mem_cons_self, hfirst⟩, fun item hmem => ?_⟩
      rcases ih item hmem with ⟨value, hvalue, houtcome⟩ | hfails
      · exact .inl ⟨value, List.mem_cons_of_mem _ hvalue, houtcome⟩
      · exact .inr hfails
  | failure hfirst _ ih =>
      refine List.forall_mem_cons.mpr ⟨.inr ⟨_, List.mem_cons_self, hfirst⟩, fun item hmem => ?_⟩
      rcases ih item hmem with hsucceeds | ⟨failure, hfailure, houtcome⟩
      · exact .inl hsucceeds
      · exact .inr ⟨failure, List.mem_cons_of_mem _ hfailure, houtcome⟩

theorem bind (h : Accounts outcome items values failures)
    (hnext : Accounts next values results later) :
    ∃ noted, noted.Perm (failures ++ later) ∧
      Accounts (Then outcome next) items results noted := by
  induction h generalizing results later with
  | nil =>
      cases hnext
      exact ⟨[], .refl _, .nil⟩
  | value hfirst _ ih =>
      cases hnext with
      | value hlast hrest =>
          obtain ⟨noted, hperm, hall⟩ := ih hrest
          exact ⟨noted, hperm, .value (.value hfirst hlast) hall⟩
      | failure hlast hrest =>
          obtain ⟨noted, hperm, hall⟩ := ih hrest
          exact ⟨_ :: noted, (hperm.cons _).trans List.perm_middle.symm,
            .failure (.value hfirst hlast) hall⟩
  | failure hfirst _ ih =>
      obtain ⟨noted, hperm, hall⟩ := ih hnext
      exact ⟨_ :: noted, hperm.cons _, .failure (.failure hfirst) hall⟩

end Accounts

/-! ## The phases of a batch -/

theorem lower_ends (index : Nat) (specs : List TypeSpec) :
    ∃ trees noted, Ends (fun policy => lower policy index specs) trees noted := by
  induction specs generalizing index with
  | nil => exact ⟨[], [], .pure []⟩
  | cons spec rest ih =>
      obtain ⟨trees, noted, hrest⟩ := ih (index + 1)
      simp only [lower]
      cases TypeTree.ofSpec spec with
      | ok tree => exact ⟨tree :: trees, noted, hrest.map (tree :: ·)⟩
      | error problem => exact ⟨trees, _, (Ends.fail _ problem).bind hrest⟩

theorem collect_ends (named : Fields TypeTree) (index : Nat) (trees : List TypeTree) :
    ∃ collected noted, Ends (fun policy => collect policy named index trees) collected noted := by
  induction trees generalizing named index with
  | nil => exact ⟨named, [], .pure named⟩
  | cons tree rest ih =>
      have hfails : ∀ root problem, ∃ collected noted, Ends (fun policy => do
          fail policy root problem
          collect policy named (index + 1) rest) collected noted := by
        intro root problem
        obtain ⟨collected, noted, hrest⟩ := ih named (index + 1)
        exact ⟨collected, _, (Ends.fail root problem).bind hrest⟩
      unfold collect
      split
      next => exact hfails _ _
      next => exact hfails _ _
      next aliasName _ _ =>
          split
          next => exact hfails _ _
          next => exact ih _ _

/-! ## Fixtures -/

def sampled (expansion : Expansion) (kept : Fields TypeTree) : Fields Fixtures :=
  kept.filterMap fun entry => (expansion.fixtures entry.2).toOption.map (entry.1, ·)

def unsampled (expansion : Expansion) (kept : Fields TypeTree) : List RootProblem :=
  kept.filterMap fun entry => RootProblem.of? entry.1 (expansion.fixtures entry.2)

theorem fixturesOf_ends (expansion : Expansion) (kept : Fields TypeTree) :
    Ends (fun policy => fixturesOf policy expansion kept) (sampled expansion kept)
      (unsampled expansion kept) := by
  induction kept with
  | nil => exact .pure []
  | cons entry rest ih =>
      obtain ⟨aliasName, tree⟩ := entry
      simp only [fixturesOf, sampled, unsampled, List.filterMap_cons]
      cases expansion.fixtures tree with
      | ok first => exact ih.map ((aliasName, first) :: ·)
      | error problem => exact (Ends.fail aliasName problem).bind ih

theorem names_sampled_sublist (expansion : Expansion) (kept : Fields TypeTree) :
    (Fields.names (sampled expansion kept)).Sublist (Fields.names kept) := by
  induction kept with
  | nil => exact .refl _
  | cons entry rest ih =>
      rw [sampled, List.filterMap_cons]
      cases expansion.fixtures entry.2 with
      | ok fixtures => exact ih.cons_cons entry.1
      | error problem => exact ih.cons entry.1

theorem root_of_mem_unsampled {expansion : Expansion} {failure : RootProblem}
    (h : failure ∈ unsampled expansion kept) : failure.root ∈ Fields.names kept := by
  obtain ⟨entry, hentry, hfailure⟩ := List.mem_filterMap.mp h
  unfold RootProblem.of? at hfailure
  split at hfailure
  next => cases hfailure
  next =>
      cases hfailure
      exact List.mem_map_of_mem hentry

end Batch

end TypeGuard
