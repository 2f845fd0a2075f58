import TypeGuard.Proofs.Admission

/-!
# Which types a registry refuses

A root is registered if its type is legal and every alias that it mentions can be
resolved.  Otherwise it is refused with the problem of its first offending node, or, if no
node offends, with its first reference that cannot be resolved.  Apart from this a
registration fails only if fresh names run out.
-/

namespace TypeGuard.Registry

open TypeTree

variable {registry : Registry} {aliasName : String} {tree : TypeTree} {problem : Problem}

def Resolves (registry : Registry) (aliasName name : String) : Prop :=
  name = aliasName ∨ name ∈ registry.announced ∨ name ∈ Fields.names registry.guards

structure Accepts (registry : Registry) (aliasName : String) (tree : TypeTree) : Prop where
  legal : tree.Legal registry.settings.maxDepth
  resolves : ∀ name ∈ tree.mentions, registry.Resolves aliasName name

def FirstUnresolved (registry : Registry) (aliasName : String) (references : List Reference)
    (reference : Reference) : Prop :=
  ∃ earlier later, references = earlier ++ reference :: later ∧
    ¬ registry.Resolves aliasName reference.name ∧
    ∀ other ∈ earlier, registry.Resolves aliasName other.name

/-- The problems that a root can be refused with. -/
inductive Refuses (registry : Registry) (aliasName : String) (tree : TypeTree) : Problem → Prop
  | offence {problem : Problem} :
      FirstOffence registry.settings.maxDepth (tree.nodes 0 [aliasName]) problem →
      Refuses registry aliasName tree problem
  | unknown {reference : Reference} : tree.Legal registry.settings.maxDepth →
      registry.FirstUnresolved aliasName (tree.references [aliasName]) reference →
      Refuses registry aliasName tree (registry.unknownAlias [aliasName] reference)

/-! ## Resolving aliases -/

theorem admits_iff_resolves {name : String} :
    registry.admits aliasName name = true ↔ registry.Resolves aliasName name := by
  simp [admits, knows, Resolves]

theorem not_resolves_iff {name : String} :
    ¬ registry.Resolves aliasName name ↔ (!registry.admits aliasName name) = true := by
  rw [← admits_iff_resolves, Bool.not_eq_true, Bool.not_eq_true']

theorem firstUnresolved_iff {references : List Reference} {reference : Reference} :
    registry.FirstUnresolved aliasName references reference ↔
      references.find? (fun r => !registry.admits aliasName r.name) = some reference := by
  rw [List.find?_eq_some_iff_append, ← not_resolves_iff]
  constructor
  · rintro ⟨earlier, later, hlist, hunresolved, hearlier⟩
    refine ⟨hunresolved, earlier, later, hlist, fun other hother => ?_⟩
    rw [Bool.not_not, admits_iff_resolves]
    exact hearlier other hother
  · rintro ⟨hunresolved, earlier, later, hlist, hearlier⟩
    refine ⟨earlier, later, hlist, hunresolved, fun other hother => ?_⟩
    rw [← admits_iff_resolves, ← Bool.not_not (registry.admits aliasName other.name)]
    exact hearlier other hother

/-! ## Refusals -/

theorem Refuses.not_accepts (h : registry.Refuses aliasName tree problem) :
    ¬ registry.Accepts aliasName tree := by
  intro haccepts
  cases h with
  | offence hfirst =>
      have hoffence := offence?_eq_some_iff.mpr hfirst
      rw [legal_iff_offence?.mp haccepts.legal] at hoffence
      cases hoffence
  | unknown _ hfirst =>
      obtain ⟨earlier, later, hlist, hunresolved, -⟩ := hfirst
      refine hunresolved (haccepts.resolves _ ?_)
      rw [← tree.map_name_references [aliasName], hlist]
      exact List.mem_map_of_mem (List.mem_append_right _ List.mem_cons_self)

theorem Refuses.ne_repeatedAttribute (h : registry.Refuses aliasName tree problem)
    (place : Path) (name : String) : problem ≠ .repeatedAttribute place name := by
  rintro rfl
  cases h with
  | offence hfirst =>
      obtain ⟨_, _, _, -, hoffends, -⟩ := hfirst
      cases hoffends

theorem accepts_of_register (halias : tree.aliasName = some aliasName) {later : Registry}
    (h : registry.register tree = .ok later) : registry.Accepts aliasName tree := by
  obtain ⟨hlegal, hadmits⟩ := admits_of_register_ok halias h
  exact ⟨hlegal, fun name hname => admits_iff_resolves.mp (hadmits name hname)⟩

theorem refuses_of_register (halias : tree.aliasName = some aliasName) (hne : aliasName ≠ "")
    (hdistinct : tree.Distinct) (h : registry.register tree = .error problem) :
    problem.isExhaustion = true ∨ registry.Refuses aliasName tree problem := by
  rcases register_eq_error halias hne hdistinct h with
    hexhausted | hoffence | ⟨hnone, reference, hunknown, rfl⟩
  · exact .inl hexhausted
  · exact .inr (.offence (offence?_eq_some_iff.mp hoffence))
  · exact .inr (.unknown (legal_iff_offence?.mpr hnone) (firstUnresolved_iff.mpr hunknown))

theorem register_of_unnamed (h : tree.aliasName.getD "" = "") :
    registry.register tree = .error (.unnamedRoot tree.text) := by
  unfold register
  split
  next => rfl
  next => rfl
  next aliasName hne halias =>
      rw [halias] at h
      exact absurd h hne

theorem register_ne_repeatedAttribute (hdistinct : tree.Distinct) (place : Path)
    (name : String) : registry.register tree ≠ .error (.repeatedAttribute place name) := by
  intro h
  by_cases hunnamed : tree.aliasName.getD "" = ""
  · rw [register_of_unnamed hunnamed] at h
    cases h
  · obtain ⟨aliasName, halias⟩ : ∃ aliasName, tree.aliasName = some aliasName :=
      Option.ne_none_iff_exists'.mp fun hnone => hunnamed (by rw [hnone]; rfl)
    rw [halias, Option.getD_some] at hunnamed
    rcases refuses_of_register halias hunnamed hdistinct h with hexhausted | hrefuses
    · cases hexhausted
    · exact hrefuses.ne_repeatedAttribute place name rfl

/-- A registry takes a root whose type is legal and whose aliases resolve, and refuses any
other with the first offence in the order of nodes, or else with the first reference that
does not resolve; either may be cut short by a want of names.  No attribute is bound twice,
whatever the attributes are called.  The attributes of an object are a map, so no type
names one twice. -/
theorem register_refuses (registry : Registry) (tree : TypeTree) (hdistinct : tree.Distinct) :
    (∀ aliasName, tree.aliasName = some aliasName → aliasName ≠ "" →
      (registry.Accepts aliasName tree →
        (∃ later, registry.register tree = .ok later) ∨
          ∃ problem, registry.register tree = .error problem ∧ problem.isExhaustion = true) ∧
      (¬ registry.Accepts aliasName tree →
        ∃ problem, registry.register tree = .error problem ∧
          (problem.isExhaustion = true ∨ registry.Refuses aliasName tree problem))) ∧
    ∀ place name, registry.register tree ≠ .error (.repeatedAttribute place name) := by
  refine ⟨fun aliasName halias hne => ⟨fun haccepts => ?_, fun hrefused => ?_⟩,
    register_ne_repeatedAttribute hdistinct⟩
  · cases hregister : registry.register tree with
    | ok later => exact .inl ⟨later, rfl⟩
    | error problem =>
        refine .inr ⟨problem, rfl, ?_⟩
        rcases refuses_of_register halias hne hdistinct hregister with hexhausted | hrefuses
        · exact hexhausted
        · exact absurd haccepts hrefuses.not_accepts
  · cases hregister : registry.register tree with
    | ok later => exact absurd (accepts_of_register halias hregister) hrefused
    | error problem =>
        exact ⟨problem, rfl, refuses_of_register halias hne hdistinct hregister⟩

def faultyTree : TypeTree :=
  .object ⟨false, some "Odd"⟩
    [("element", .array .bare (.object .bare [("alt0", .reference .bare "Odd")] [])),
      ("mixed", .union .bare
        [.object .bare [("id", .primitive .bare .number)] [], .primitive .bare .string,
          .object ⟨false, some "Named"⟩ [] []]),
      ("none", .union .bare []), ("ghost", .reference .bare "Ghost")] []

theorem distinct_faultyTree : faultyTree.Distinct := by
  have hitem : TypeTree.Distinct (.object .bare [("alt0", .reference .bare "Odd")] []) :=
    .object (by decide) (by simpa using .reference)
  have hid : TypeTree.Distinct (.object .bare [("id", .primitive .bare .number)] []) :=
    .object (by decide) (by simpa using .primitive)
  have hnamed : TypeTree.Distinct (.object ⟨false, some "Named"⟩ [] []) :=
    .object (by decide) (by simp)
  refine .object (by decide) ?_
  simp only [List.forall_mem_cons]
  refine ⟨.array hitem, .union ?_, .union (by simp), .reference, by simp⟩
  simpa using ⟨hid, .primitive, hnamed⟩

theorem register_refuses_faultyTree :
    (empty .standard).register faultyTree =
        .error (.objectInUnion ["Odd", "mixed"] ["\x7b id \x7d", "Named"]) ∧
      (empty .standard).Refuses "Odd" faultyTree
        (.objectInUnion ["Odd", "mixed"] ["\x7b id \x7d", "Named"]) := by
  have hoffence : faultyTree.offence? Settings.standard.maxDepth 0 ["Odd"] ≠ none := by
    decide +kernel
  obtain ⟨problem, hregister, hreason⟩ :=
    ((register_refuses (empty .standard) faultyTree distinct_faultyTree).1 "Odd" rfl
      (by decide)).2 fun haccepts => hoffence (legal_iff_offence?.mp haccepts.legal)
  have hproblem : ((empty .standard).register faultyTree).map (fun _ => ()) =
      .error (.objectInUnion ["Odd", "mixed"] ["\x7b id \x7d", "Named"]) := by decide +kernel
  rw [hregister] at hproblem
  cases hproblem
  exact ⟨hregister, hreason.resolve_left (by decide)⟩

end TypeGuard.Registry
