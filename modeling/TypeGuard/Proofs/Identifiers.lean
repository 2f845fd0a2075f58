import TypeGuard.Proofs.Admission

/-!
# The identifiers of a registered guard

A guard declares its parameter, nested guards with their parameters, the locals that
attributes are bound to, the constants of self-checks and the type aliases of elements.
Whatever the attributes of its type are called, these are identifiers, no two of one kind
are the same, and none is a name that guards share: that of a helper, of a known guard or
of a known alias.

The parameter is the one name that is not chosen.  It is always `root`, so a guard of that
name could not be called inside another.  The usual stem rules this out.
-/

namespace TypeGuard

def Function.declared (f : Function) : List String := f.param :: declaredIn f.body

def Function.typed (f : Function) : List String := typedIn f.body

namespace Registry

open Writing

variable {registry later : Registry} {aliasName : String} {tree : TypeTree} {guard : Function}

/-- What is declared in a guard clashes neither with itself nor with the names that are
known when it is registered. -/
structure Hygienic (registry : Registry) (aliasName : String) (guard : Function) : Prop where
  declared_nodup : guard.declared.Nodup
  arrayGuard : arrayGuardName ∉ guard.declared
  guardNames : ∀ name, registry.admits aliasName name = true →
    registry.settings.guardName name ≠ rootParam →
    registry.settings.guardName name ∉ guard.declared
  typed_nodup : guard.typed.Nodup
  shallowType : shallowTypeName ∉ guard.typed
  aliases : ∀ name, registry.admits aliasName name = true → name ∉ guard.typed
  valid : ∀ name ∈ guard.declared ++ guard.typed, Identifier.isValid name = true

theorem admits_iff {name : String} :
    registry.admits aliasName name = true ↔ name = aliasName ∨ registry.knows name = true := by
  simp [admits]

/-- The parameter is reserved first, and all else that is declared is new. -/
theorem hygienic_of_write {references : List Reference}
    (h : registry.write aliasName tree = .ok (guard, references)) :
    registry.Hygienic aliasName guard := by
  obtain ⟨after, hwritten, -⟩ := write_ok h
  have hbody := hwritten.extends
  have hparam : guard.param = rootParam := hwritten.param
  -- A name that was taken before is declared only if it is the parameter.
  have hdeclared : ∀ name ∈ (registry.reservedNames aliasName).locals, name ≠ rootParam →
      name ∉ guard.declared := by
    intro name htaken hne
    rw [Function.declared, hparam, List.mem_cons, not_or]
    refine ⟨hne, fun hmem => hbody.fresh name hmem ?_⟩
    exact Names.mem_locals_reserveLocal.mpr (.inr htaken)
  have htyped : ∀ name ∈ (registry.reservedNames aliasName).types, name ∉ guard.typed :=
    fun name htaken hmem => hbody.types.fresh name hmem htaken
  constructor
  case declared_nodup =>
      refine List.nodup_cons.mpr ⟨fun hmem => ?_, hbody.nodup⟩
      rw [hparam] at hmem
      exact hbody.fresh _ hmem (Names.mem_locals_reserveLocal.mpr (.inl rfl))
  case arrayGuard => exact hdeclared _ (arrayGuardName_mem_reservedNames _ _) (by decide)
  case guardNames =>
      intro name hadmits hne
      exact hdeclared _ (guardName_mem_reservedNames (admits_iff.mp hadmits)) hne
  case typed_nodup => exact hbody.types.nodup
  case shallowType => exact htyped _ (shallowTypeName_mem_reservedNames _ _)
  case aliases =>
      intro name hadmits
      exact htyped _ (aliasName_mem_reservedNames (admits_iff.mp hadmits))
  case valid =>
      refine List.forall_mem_append.mpr ⟨List.forall_mem_cons.mpr ⟨?_, hbody.valid⟩,
        hbody.types.valid⟩
      rw [hparam]
      decide

/-- A registered guard is hygienic, whatever the state of the registry.  With the usual
stem no known guard's name is declared in it. -/
theorem register_hygienic (registry later : Registry) (tree : TypeTree)
    (h : registry.register tree = .ok later) :
    ∃ aliasName guard, tree.aliasName = some aliasName ∧
      Fields.find? aliasName later.guards = some guard ∧ registry.Hygienic aliasName guard ∧
      (registry.settings.stem = "is" → ∀ name, registry.admits aliasName name = true →
        registry.settings.guardName name ∉ guard.declared) := by
  obtain ⟨aliasName, _, _, halias, -⟩ := register_ok h
  obtain ⟨guard, references, hwrite, -, rfl⟩ := register_eq_ok halias h
  have hhygienic := hygienic_of_write hwrite
  refine ⟨aliasName, guard, halias, Fields.find?_insert_self .., hhygienic, ?_⟩
  intro hstem name hadmits
  exact hhygienic.guardNames name hadmits (guardName_ne_rootParam hstem name)

/-- Attributes that are called like the parameter, the array guard, a guard that is yet to
come, and twice like each other but for a character that no identifier has. -/
def clashingTree : TypeTree :=
  .object ⟨false, some "Odd"⟩
    [("root", .primitive .bare .number), ("isArray", .array .bare (.reference .bare "Tag")),
      ("isTag", .primitive .bare .string), ("a-b", .array .bare (.primitive .bare .string)),
      ("a b", .array .bare (.primitive .bare .string))] []

theorem register_hygienic_clashingTree :
    ∃ later guard, ((empty .standard).announce ["Tag"]).register clashingTree = .ok later ∧
      Fields.find? "Odd" later.guards = some guard ∧
      "Odd_isTag" ∈ guard.declared ∧ "isTag" ∉ guard.declared ∧ guard.declared.Nodup := by
  have hsome : ((((empty .standard).announce ["Tag"]).register clashingTree).toOption.bind
      fun later => (Fields.find? "Odd" later.guards).map (·.declared.contains "Odd_isTag")) =
        some true := by decide +kernel
  obtain ⟨later, hlater, hsome⟩ := Option.bind_eq_some_iff.mp hsome
  obtain ⟨found, hfound, hmem⟩ := Option.map_eq_some_iff.mp hsome
  have hregister := eq_ok_of_toOption hlater
  obtain ⟨aliasName, guard, halias, hguard, hhygienic, hnames⟩ :=
    register_hygienic _ later clashingTree hregister
  cases halias
  cases hfound.symm.trans hguard
  exact ⟨later, found, hregister, hguard, List.contains_iff_mem.mp hmem,
    hnames rfl "Tag" (by decide +kernel), hhygienic.declared_nodup⟩

end Registry

end TypeGuard
