import TypeGuard.Proofs.Acceptance
import TypeGuard.Proofs.Limits

/-!
# Samplers put in for references

What a type expands to does not depend on where it stands: not on the levels that are left,
not on the aliases above it, and not on what was expanded before it.  So the sampler of a
type is the type itself, read as a sampler, with the sampler of its root in the place of
every reference.
-/

namespace TypeGuard

namespace TypeTree

mutual

/-- A type read as a sampler, with a sampler put in for every reference. -/
def toSampler (samplerOf : String → Sampler) : TypeTree → Sampler
  | .literal _ value => .value (.ofLiteral value)
  | .primitive _ kind => .primitive kind
  | .array _ element => .array (toSampler samplerOf element)
  | .union _ members => .union (memberSamplers samplerOf members)
  | .object _ attributes _ => .object (attributeSamplers samplerOf attributes)
  | .reference _ name => samplerOf name

def memberSamplers (samplerOf : String → Sampler) : List TypeTree → List Sampler
  | [] => []
  | member :: rest => toSampler samplerOf member :: memberSamplers samplerOf rest

def attributeSamplers (samplerOf : String → Sampler) :
    List (String × TypeTree) → List (String × Sampler)
  | [] => []
  | (name, attr) :: rest =>
      (name, toSampler samplerOf attr) :: attributeSamplers samplerOf rest

end

@[simp] theorem memberSamplers_eq_map (samplerOf : String → Sampler) (members : List TypeTree) :
    memberSamplers samplerOf members = members.map (toSampler samplerOf) := by
  induction members with
  | nil => rfl
  | cons member rest ih => simp [memberSamplers, ih]

@[simp] theorem attributeSamplers_eq_map (samplerOf : String → Sampler)
    (attributes : List (String × TypeTree)) :
    attributeSamplers samplerOf attributes =
      attributes.map fun attr => (attr.1, attr.2.toSampler samplerOf) := by
  induction attributes with
  | nil => rfl
  | cons attr rest ih => simp [attributeSamplers, ih]

end TypeTree

namespace Expansion

variable {expansion : Expansion} {budget : Nat} {tree : TypeTree}

/-! ## One type, one sampler -/

theorem Level.unique {roots : Fields TypeTree} {below other : TypeTree → Sampler → Prop}
    {first second : Sampler} (hfirst : Level roots below tree first)
    (hsecond : Level roots other tree second)
    (h : ∀ part a b, below part a → other part b → a = b) : first = second := by
  cases hfirst with
  | literal =>
      cases hsecond
      rfl
  | primitive =>
      cases hsecond
      rfl
  | array helement =>
      cases hsecond with
      | array hother => rw [h _ _ _ helement hother]
  | union hmembers =>
      cases hsecond with
      | union hothers => rw [eq_of_forall₂ hmembers hothers h]
  | object hattributes =>
      cases hsecond with
      | object hothers =>
          exact congrArg Sampler.object (eq_of_forall₂ hattributes hothers
            fun _ _ _ ⟨hname, ha⟩ ⟨hother, hb⟩ =>
              Prod.ext (hname.trans hother.symm) (h _ _ _ ha hb))
  | reference hroot hbelow =>
      cases hsecond with
      | reference hfound hother =>
          cases hroot.symm.trans hfound
          exact h _ _ _ hbelow hother

/-- The sampler of a type is the same within any levels and below any aliases. -/
theorem Yields.unique {more : Nat} {first second : Sampler}
    (hfirst : expansion.Yields budget tree first) (hsecond : expansion.Yields more tree second) :
    first = second := by
  induction budget generalizing more tree first second with
  | zero => exact absurd hfirst.pos (Nat.lt_irrefl 0)
  | succ budget ih =>
      obtain ⟨fewer, rfl⟩ : ∃ fewer, more = fewer + 1 :=
        Nat.exists_eq_add_one.mpr hsecond.pos
      exact hfirst.level.unique hsecond.level fun _ _ _ => ih

/-! ## References -/

theorem Yields.eq_toSampler {samplerOf : String → Sampler} {made : Sampler}
    (h : expansion.Yields budget tree made)
    (hroots : ∀ name ∈ tree.mentions, ∃ root more, Fields.find? name expansion.roots = some root ∧
      expansion.Yields more root (samplerOf name)) :
    made = tree.toSampler samplerOf := by
  induction budget generalizing tree made with
  | zero => exact absurd h.pos (Nat.lt_irrefl 0)
  | succ budget ih =>
      cases h.level with
      | literal => rfl
      | primitive => rfl
      | array helement =>
          simpa [TypeTree.toSampler] using congrArg Sampler.array (ih helement hroots)
      | union hmembers =>
          rw [TypeTree.toSampler, TypeTree.memberSamplers_eq_map]
          refine congrArg Sampler.union (eq_map_of_forall₂ hmembers fun member hmember part hpart =>
            ih hpart fun name hname => ?_)
          exact hroots name (TypeTree.mem_memberMentions.mpr ⟨member, hmember, hname⟩)
      | object hattributes =>
          rw [TypeTree.toSampler, TypeTree.attributeSamplers_eq_map]
          refine congrArg Sampler.object (eq_map_of_forall₂ hattributes fun attr hattr part hpart =>
            Prod.ext hpart.1 (ih hpart.2 fun name hname => ?_))
          exact hroots name (TypeTree.mem_attributeMentions.mpr ⟨attr, hattr, hname⟩)
      | @reference _ name root _ hroot hbelow =>
          obtain ⟨target, more, htarget, hother⟩ := hroots name (List.mem_singleton_self name)
          cases hroot.symm.trans htarget
          exact hbelow.unique hother

/-- Where roots stand under their own aliases, a type with a sampler mentions only roots with
samplers, and its own sampler is the type with these put in for the references. -/
theorem sampler_eq_toSampler (expansion : Expansion)
    (hkeyed : ∀ entry ∈ expansion.roots, entry.2.aliasName = some entry.1) {tree : TypeTree}
    {made : Sampler} (h : expansion.sampler tree = .ok made) :
    ∃ samplerOf : String → Sampler,
      (∀ name ∈ tree.mentions, ∃ root, Fields.find? name expansion.roots = some root ∧
        expansion.sampler root = .ok (samplerOf name)) ∧
      made = tree.toSampler samplerOf := by
  have hmentioned : ∀ name ∈ tree.mentions, ∃ part root,
      Fields.find? name expansion.roots = some root ∧ expansion.sampler root = .ok part := by
    intro name hname
    obtain ⟨root, hroot, part, hpart⟩ := succeeds_sampler_of_mention hkeyed ⟨made, h⟩ hname
    exact ⟨part, root, hroot, hpart⟩
  have : Nonempty Sampler := ⟨made⟩
  choose! samplerOf hsamplerOf using hmentioned
  refine ⟨samplerOf, hsamplerOf, Yields.eq_toSampler ⟨_, _, h⟩ fun name hname => ?_⟩
  obtain ⟨root, hroot, hpart⟩ := hsamplerOf name hname
  exact ⟨root, _, hroot, _, _, hpart⟩

def sharedRoots : Fields TypeTree :=
  [("Entry", .object ⟨false, some "Entry"⟩
      [("tags", .array .bare (.reference .bare "Tag")), ("id", .reference .bare "Id"),
        ("links", .array .bare (.union .bare [.reference .bare "Id", .reference .bare "Tag"]))] []),
    ("Tag", .union ⟨false, some "Tag"⟩ [.reference .bare "Id", .literal .bare .null]),
    ("Id", .primitive ⟨false, some "Id"⟩ .number)]

theorem sampler_eq_toSampler_sharedRoots :
    ∃ (entry : TypeTree) (samplerOf : String → Sampler),
      Fields.find? "Entry" sharedRoots = some entry ∧
      samplerOf "Id" = .primitive .number ∧
      samplerOf "Tag" = .union [.primitive .number, .value .null] ∧
      sampler ⟨sharedRoots, 6⟩ entry = .ok (entry.toSampler samplerOf) ∧
      entry.toSampler samplerOf = .object
        [("tags", .array (samplerOf "Tag")), ("id", samplerOf "Id"),
          ("links", .array (.union [samplerOf "Id", samplerOf "Tag"]))] := by
  have hkeyed : ∀ root ∈ sharedRoots, root.2.aliasName = some root.1 := by
    simp [sharedRoots, TypeTree.aliasName, TypeTree.label]
  obtain ⟨entry, hentry⟩ : ∃ entry, Fields.find? "Entry" sharedRoots = some entry := ⟨_, rfl⟩
  obtain ⟨made, hmade⟩ : ∃ made, sampler ⟨sharedRoots, 6⟩ entry = .ok made := by
    cases hentry
    exact ⟨_, rfl⟩
  obtain ⟨samplerOf, hsamplerOf, rfl⟩ := sampler_eq_toSampler ⟨sharedRoots, 6⟩ hkeyed hmade
  have hid : samplerOf "Id" = .primitive .number := by
    obtain ⟨root, hroot, hpart⟩ := hsamplerOf "Id" (by cases hentry; decide)
    cases hroot
    exact (Except.ok.inj hpart).symm
  have htag : samplerOf "Tag" = .union [.primitive .number, .value .null] := by
    obtain ⟨root, hroot, hpart⟩ := hsamplerOf "Tag" (by cases hentry; decide)
    cases hroot
    exact (Except.ok.inj hpart).symm
  refine ⟨entry, samplerOf, hentry, hid, htag, hmade, ?_⟩
  cases hentry
  rfl

end Expansion

end TypeGuard
