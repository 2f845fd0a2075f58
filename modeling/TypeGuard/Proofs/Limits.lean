import Mathlib.Logic.Relation
import TypeGuard.Proofs.Survivors

/-!
# Where the expansion of kept roots ends

The roots that a batch keeps are legal and mention each other only, so nothing is wrong
with their types when they are expanded into samplers.  An expansion still ends early where
an alias comes up again below itself, or where the aliases that are put in for references
make the type nest too deep.

Both get worse with what stands above a root.  So a root that is reached from one with
fixtures has fixtures itself: its own expansion has more levels and fewer aliases above it.
-/

namespace TypeGuard

inductive Problem.IsLimit : Problem → Prop
  | cycle {cycle : List String} : IsLimit (.aliasCycle cycle)
  | depth {limit : Nat} {place : Path} : IsLimit (.nestedTooDeep limit place)

/-! ## Results that end at a limit -/

section

variable {α β : Type} {result : Except Problem α} {next : α → Except Problem β}

def Limited (result : Except Problem α) : Prop :=
  ∀ problem, result = .error problem → problem.IsLimit

theorem Limited.ok (value : α) : Limited (.ok value) := fun _ h => by cases h

theorem Limited.bind (h : Limited result) (hnext : ∀ value, Limited (next value)) :
    Limited (result >>= next) := by
  intro problem hfails
  rcases bind_eq_error.mp hfails with hresult | ⟨value, -, hnextFails⟩
  · exact h problem hresult
  · exact hnext value problem hnextFails

theorem Limited.mapM {f : β → Except Problem α} {items : List β}
    (h : ∀ item ∈ items, Limited (f item)) : Limited (items.mapM f) := by
  induction items with
  | nil => exact .ok []
  | cons first rest ih =>
      rw [List.forall_mem_cons] at h
      rw [List.mapM_cons]
      exact h.1.bind fun _ => (ih h.2).bind fun _ => .ok _

end

section

variable {ε α β : Type}

def Succeeds (result : Except ε α) : Prop := ∃ value, result = .ok value

@[simp] theorem succeeds_map_iff {result : Except ε α} {f : α → β} :
    Succeeds (do let value ← result; return f value) ↔ Succeeds result := by
  constructor
  · rintro ⟨_, h⟩
    obtain ⟨value, hvalue, -⟩ := bind_eq_ok.mp h
    exact ⟨value, hvalue⟩
  · rintro ⟨value, rfl⟩
    exact ⟨f value, rfl⟩

@[simp] theorem succeeds_mapM_iff {f : α → Except ε β} {items : List α} :
    Succeeds (items.mapM f) ↔ ∀ item ∈ items, Succeeds (f item) := by
  induction items with
  | nil => exact ⟨fun _ => by simp, fun _ => ⟨[], rfl⟩⟩
  | cons first rest ih =>
      rw [List.mapM_cons, List.forall_mem_cons, ← ih]
      constructor
      · rintro ⟨_, h⟩
        obtain ⟨value, hfirst, h⟩ := bind_eq_ok.mp h
        obtain ⟨values, hrest, -⟩ := bind_eq_ok.mp h
        exact ⟨⟨value, hfirst⟩, ⟨values, hrest⟩⟩
      · rintro ⟨⟨value, hfirst⟩, ⟨values, hrest⟩⟩
        exact ⟨value :: values, bind_eq_ok.mpr ⟨value, hfirst, bind_eq_ok.mpr ⟨values, hrest, rfl⟩⟩⟩

end

namespace Expansion

open Batch

variable {expansion : Expansion} {budget : Nat} {path : Path} {enclosing : List String}
  {label : Label}

/-! ## Failing expansions -/

/-- Where the roots are legal and mention each other only, the expansion of a type that
fits ends at a limit or not at all. -/
theorem expand_limited {limit : Nat} (hroots : Consistent limit expansion.roots)
    {tree : TypeTree} (hunions : tree.LegalUnions)
    (hmentions : ∀ name ∈ tree.mentions, name ∈ Fields.names expansion.roots) :
    Limited (expansion.expand budget path enclosing tree) := by
  induction budget generalizing path enclosing tree with
  | zero =>
      intro problem h
      cases h
      exact .depth
  | succ budget ih =>
      cases hunions with
      | literal => exact .ok _
      | primitive => exact .ok _
      | array helement => exact (ih helement hmentions).bind fun _ => .ok _
      | union hlength hflat hmembers =>
          have hcheck : TypeTree.checkUnion path _ = .ok () :=
            TypeTree.checkUnion_eq_ok_iff.mpr ⟨hlength, hflat⟩
          simp only [expand, hcheck]
          refine (Limited.ok ()).bind fun _ => ?_
          refine Limited.bind (.mapM fun member hmember => ?_) fun _ => .ok _
          exact ih (hmembers member hmember) fun name hname =>
            hmentions name (TypeTree.mem_memberMentions.mpr ⟨member, hmember, hname⟩)
      | object hattributes =>
          refine Limited.bind (.mapM fun attr hattr => ?_) fun _ => .ok _
          refine (ih (hattributes attr hattr) fun name hname => ?_).bind fun _ => .ok _
          exact hmentions name (TypeTree.mem_attributeMentions.mpr ⟨attr, hattr, hname⟩)
      | @reference label name =>
          simp only [expand]
          split
          next =>
              intro problem h
              cases h
              exact .cycle
          next =>
              obtain ⟨root, hroot⟩ := Fields.mem_names.mp (hmentions name List.mem_cons_self)
              obtain ⟨hlegal, hknown⟩ := hroots _ (Fields.mem_of_find? hroot)
              simp only [hroot]
              exact ih hlegal.unions hknown

/-! ## Succeeding expansions -/

@[simp] theorem succeeds_array_iff {element : TypeTree} :
    Succeeds (expansion.expand (budget + 1) path enclosing (.array label element)) ↔
      Succeeds (expansion.expand budget (path ++ ["element"]) enclosing element) :=
  succeeds_map_iff

@[simp] theorem succeeds_union_iff {members : List TypeTree} :
    Succeeds (expansion.expand (budget + 1) path enclosing (.union label members)) ↔
      TypeTree.checkUnion path members = .ok () ∧
        ∀ member ∈ members, Succeeds (expansion.expand budget path enclosing member) := by
  rw [← succeeds_mapM_iff]
  constructor
  · rintro ⟨_, h⟩
    obtain ⟨_, hcheck, h⟩ := bind_eq_ok.mp h
    obtain ⟨samplers, hmembers, -⟩ := bind_eq_ok.mp h
    exact ⟨hcheck, samplers, hmembers⟩
  · rintro ⟨hcheck, samplers, hmembers⟩
    exact ⟨.union samplers,
      bind_eq_ok.mpr ⟨(), hcheck, bind_eq_ok.mpr ⟨samplers, hmembers, rfl⟩⟩⟩

@[simp] theorem succeeds_object_iff {attributes : List (String × TypeTree)}
    {optionalNames : List String} :
    Succeeds (expansion.expand (budget + 1) path enclosing
        (.object label attributes optionalNames)) ↔
      ∀ attr ∈ attributes,
        Succeeds (expansion.expand budget (path ++ [attr.1]) enclosing attr.2) := by
  refine (succeeds_map_iff.trans succeeds_mapM_iff).trans ?_
  simp only [succeeds_map_iff]

@[simp] theorem succeeds_reference_iff {name : String} :
    Succeeds (expansion.expand (budget + 1) path enclosing (.reference label name)) ↔
      name ∉ enclosing ∧ ∃ root, Fields.find? name expansion.roots = some root ∧
        Succeeds (expansion.expand budget path (enclosing ++ [name]) root) := by
  simp only [expand]
  split
  next hcycle =>
      constructor
      · rintro ⟨_, h⟩
        cases h
      · rintro ⟨hnew, -⟩
        exact absurd hcycle hnew
  next hnew =>
      split
      next hnone =>
          constructor
          · rintro ⟨_, h⟩
            cases h
          · rintro ⟨-, root, hroot, -⟩
            cases hnone.symm.trans hroot
      next root hroot =>
          constructor
          · intro h
            exact ⟨hnew, root, hroot, h⟩
          · rintro ⟨-, other, hother, h⟩
            cases hroot.symm.trans hother
            exact h

/-- An expansion that succeeds does so with more levels and below fewer aliases too,
wherever it is reported. -/
theorem succeeds_mono {more : Nat} {place : Path} {fewer : List String} {tree : TypeTree}
    (h : Succeeds (expansion.expand budget path enclosing tree)) (hbudget : budget ≤ more)
    (hfewer : fewer ⊆ enclosing) : Succeeds (expansion.expand more place fewer tree) := by
  induction budget generalizing more path place enclosing fewer tree with
  | zero =>
      obtain ⟨_, h⟩ := h
      cases h
  | succ budget ih =>
      obtain ⟨more, rfl⟩ : ∃ other, more = other + 1 := ⟨more - 1, by omega⟩
      have hmore : budget ≤ more := Nat.le_of_succ_le_succ hbudget
      cases tree with
      | literal label value => exact ⟨_, rfl⟩
      | primitive label kind => exact ⟨_, rfl⟩
      | array label element =>
          rw [succeeds_array_iff] at h ⊢
          exact ih h hmore hfewer
      | union label members =>
          rw [succeeds_union_iff, TypeTree.checkUnion_eq_ok_iff] at h ⊢
          exact ⟨h.1, fun member hmember => ih (h.2 member hmember) hmore hfewer⟩
      | object label attributes optionalNames =>
          rw [succeeds_object_iff] at h ⊢
          exact fun attr hattr => ih (h attr hattr) hmore hfewer
      | reference label name =>
          rw [succeeds_reference_iff] at h ⊢
          obtain ⟨hnew, root, hroot, h⟩ := h
          refine ⟨fun hmem => hnew (hfewer hmem), root, hroot, ih h hmore ?_⟩
          exact List.append_subset.mpr ⟨fun other hother => List.mem_append_left _ (hfewer hother),
            List.subset_append_right _ _⟩

theorem succeeds_of_mention {tree : TypeTree}
    (h : Succeeds (expansion.expand budget path enclosing tree)) {name : String}
    (hname : name ∈ tree.mentions) :
    name ∉ enclosing ∧ ∃ root fewer place, Fields.find? name expansion.roots = some root ∧
      fewer ≤ budget ∧ Succeeds (expansion.expand fewer place (enclosing ++ [name]) root) := by
  induction budget generalizing path tree with
  | zero =>
      obtain ⟨_, h⟩ := h
      cases h
  | succ budget ih =>
      have hbelow : ∀ {place tree}, Succeeds (expansion.expand budget place enclosing tree) →
          name ∈ tree.mentions → name ∉ enclosing ∧ ∃ root fewer place,
            Fields.find? name expansion.roots = some root ∧ fewer ≤ budget + 1 ∧
              Succeeds (expansion.expand fewer place (enclosing ++ [name]) root) := by
        intro place tree hpart hmem
        obtain ⟨hnew, root, fewer, place, hroot, hfewer, hsucceeds⟩ := ih hpart hmem
        exact ⟨hnew, root, fewer, place, hroot, Nat.le_succ_of_le hfewer, hsucceeds⟩
      cases tree with
      | literal label value => cases hname
      | primitive label kind => cases hname
      | array label element => exact hbelow (succeeds_array_iff.mp h) hname
      | union label members =>
          obtain ⟨member, hmember, hmem⟩ := TypeTree.mem_memberMentions.mp hname
          exact hbelow ((succeeds_union_iff.mp h).2 member hmember) hmem
      | object label attributes optionalNames =>
          obtain ⟨attr, hattr, hmem⟩ := TypeTree.mem_attributeMentions.mp hname
          exact hbelow (succeeds_object_iff.mp h attr hattr) hmem
      | reference label other =>
          obtain ⟨hnew, root, hroot, hsucceeds⟩ := succeeds_reference_iff.mp h
          cases List.mem_singleton.mp hname
          exact ⟨hnew, root, budget, path, hroot, Nat.le_succ budget, hsucceeds⟩

theorem succeeds_sampler_of_mention
    (hkeyed : ∀ entry ∈ expansion.roots, entry.2.aliasName = some entry.1) {tree : TypeTree}
    (h : Succeeds (expansion.sampler tree)) {name : String} (hname : name ∈ tree.mentions) :
    ∃ root, Fields.find? name expansion.roots = some root ∧
      Succeeds (expansion.sampler root) := by
  obtain ⟨-, root, fewer, place, hroot, hfewer, hsucceeds⟩ := succeeds_of_mention h hname
  refine ⟨root, hroot, succeeds_mono hsucceeds hfewer ?_⟩
  rw [hkeyed _ (Fields.mem_of_find? hroot), Option.toList_some]
  exact List.subset_append_right _ _

end Expansion

namespace Batch

variable {settings : Settings} {trees : List TypeTree} {named kept : Fields TypeTree}

/-! ## Kept roots -/

def Refers (roots : Fields TypeTree) (root name : String) : Prop :=
  ∃ tree, Fields.find? root roots = some tree ∧ name ∈ tree.mentions

theorem limit_of_mem_unsampled {limit depth : Nat} (hconsistent : Consistent limit kept)
    {failure : RootProblem} (h : failure ∈ unsampled ⟨kept, depth⟩ kept) :
    failure.problem.IsLimit := by
  obtain ⟨⟨aliasName, tree⟩, hentry, hfailure⟩ := List.mem_filterMap.mp h
  obtain ⟨hlegal, hmentions⟩ := hconsistent _ hentry
  unfold RootProblem.of? at hfailure
  split at hfailure
  next => cases hfailure
  next problem hfixtures =>
      cases hfailure
      have hsampler : Limited ((Expansion.mk kept depth).sampler tree) :=
        Expansion.expand_limited hconsistent hlegal.unions hmentions
      exact (hsampler.bind fun _ => .ok _) problem hfixtures

@[simp] theorem mem_names_sampled {expansion : Expansion} {aliasName : String} :
    aliasName ∈ Fields.names (sampled expansion kept) ↔
      ∃ tree, (aliasName, tree) ∈ kept ∧ Succeeds (expansion.sampler tree) := by
  rw [Fields.names, sampled, List.mem_map]
  constructor
  · rintro ⟨_, hmem, rfl⟩
    obtain ⟨⟨aliasName, tree⟩, hentry, hfixtures⟩ := List.mem_filterMap.mp hmem
    obtain ⟨fixtures, hmade, rfl⟩ := Option.map_eq_some_iff.mp hfixtures
    obtain ⟨sampler, hsampler, -⟩ := bind_eq_ok.mp (eq_ok_of_toOption hmade)
    exact ⟨tree, hentry, sampler, hsampler⟩
  · rintro ⟨tree, hentry, sampler, hsampler⟩
    refine ⟨(aliasName, sampler.fixtures), List.mem_filterMap.mpr ⟨_, hentry, ?_⟩, rfl⟩
    have hfixtures : expansion.fixtures tree = .ok sampler.fixtures :=
      bind_eq_ok.mpr ⟨sampler, hsampler, rfl⟩
    rw [hfixtures]
    rfl

theorem sampled_of_refers (hkeyed : Keyed kept) {depth : Nat} {root name : String}
    (hrefers : Refers kept root name)
    (hroot : root ∈ Fields.names (sampled ⟨kept, depth⟩ kept)) :
    name ∈ Fields.names (sampled ⟨kept, depth⟩ kept) := by
  obtain ⟨tree, htree, hname⟩ := hrefers
  obtain ⟨other, hentry, hsucceeds⟩ := mem_names_sampled.mp hroot
  cases htree.symm.trans (Fields.find?_of_mem hkeyed.nodup hentry)
  obtain ⟨target, htarget, hexpands⟩ :=
    Expansion.succeeds_sampler_of_mention hkeyed.aliasName hsucceeds hname
  exact mem_names_sampled.mpr ⟨target, Fields.mem_of_find? htarget, hexpands⟩

theorem Refers.of_sublist (hkeyed : Keyed named) (hkept : kept.Sublist named) {root name : String}
    (hrefers : Refers named root name) (hroot : root ∈ Fields.names kept) :
    Refers kept root name := by
  obtain ⟨tree, htree, hname⟩ := hrefers
  obtain ⟨other, hother⟩ := Fields.mem_names.mp hroot
  have hmem := hkept.subset (Fields.mem_of_find? hother)
  cases htree.symm.trans (Fields.find?_of_mem hkeyed.nodup hmem)
  exact ⟨tree, hother, hname⟩

theorem sampled_of_reaches (hkeyed : Keyed named) (hkept : kept.Sublist named) {depth : Nat}
    {root name : String} (hreaches : Relation.ReflTransGen (Refers named) root name)
    (hroot : root ∈ Fields.names (sampled ⟨kept, depth⟩ kept)) :
    name ∈ Fields.names (sampled ⟨kept, depth⟩ kept) := by
  induction hreaches with
  | refl => exact hroot
  | tail _ hrefers ih =>
      obtain ⟨tree, hentry, -⟩ := mem_names_sampled.mp ih
      exact sampled_of_refers (hkeyed.sublist hkept)
        (hrefers.of_sublist hkeyed hkept (List.mem_map_of_mem hentry)) ih

/-- Making fixtures adds failures for kept roots only, and each is for a limit of the
expansion: an alias that comes up below itself, or a type that nests too deep.  All that a
root with fixtures leads to has fixtures. -/
theorem fixtures_fail_at_limits (settings : Settings)
    (hdistinct : ∀ tree ∈ trees, tree.Distinct) :
    ∃ (output plain : Output) (kept : Fields TypeTree) (phase : List RootProblem),
      ofTrees settings .skip true trees = .ok output ∧
      ofTrees settings .skip false trees = .ok plain ∧ output.file = plain.file ∧
      output.failures = plain.failures ++ phase ∧
      output.file.functions.map (·.name) =
        Writing.arrayGuardName :: (Fields.names kept).map settings.guardName ∧
      (∀ failure ∈ plain.failures,
        failure.problem.isNaming = true ∨ failure.root ∉ Fields.names kept) ∧
      (∀ failure ∈ phase, failure.root ∈ Fields.names kept ∧ failure.problem.IsLimit) ∧
      ∀ root ∈ Fields.names output.fixtures, ∀ name,
        Relation.ReflTransGen (Refers (firstRoots trees)) root name →
        name ∈ Fields.names output.fixtures := by
  have hkeyed := keyed_firstRoots hdistinct
  obtain ⟨notes, hcollect, hcollects⟩ := run_collect_firstRoots trees
  obtain ⟨output, kept, dropped, hrun, hskipped⟩ := ofTrees_skipped settings true hkeyed hcollect
  obtain ⟨plain, others, gone, hplain, hbare⟩ := ofTrees_skipped settings false hkeyed hcollect
  obtain ⟨complete, hregistry, hfile⟩ := hskipped.file
  have hdrops := hskipped.drops
  -- The loop over the roots does not know whether fixtures are made.
  have hsettled := (hskipped.settles _ (Nat.lt_succ_self _) []).symm.trans
    (hbare.settles _ (Nat.lt_succ_self _) [])
  simp only [List.nil_append, Except.ok.injEq, Prod.mk.injEq] at hsettled
  obtain ⟨⟨hsame, rfl⟩, rfl⟩ := hsettled
  refine ⟨output, plain, kept, unsampled ⟨kept, settings.maxDepth⟩ kept, hrun, hplain, hsame,
    ?_, ?_, ?_, fun failure hmem => ?_, ?_⟩
  · rw [hskipped.failures, hbare.failures]
    exact congrArg (· ++ _) (List.append_nil _).symm
  · obtain ⟨hsound, rfl⟩ := registry_sound (hkeyed.sublist hdrops.sublist).roots hregistry
    rw [hsound.function_names hfile, hsound.guards]
  · intro failure hmem
    rw [hbare.failures, if_neg Bool.false_ne_true, List.append_nil, List.mem_append] at hmem
    exact hmem.imp (isNaming_of_collects hcollects failure) (hdrops.notKept hkeyed.nodup failure)
  · exact ⟨root_of_mem_unsampled hmem, limit_of_mem_unsampled hdrops.consistent hmem⟩
  · intro root hroot name hreaches
    rw [hskipped.fixtures, if_pos rfl] at hroot ⊢
    exact sampled_of_reaches hkeyed hdrops.sublist hreaches hroot

def threeLevels : Settings := { Settings.standard with maxDepth := 2 }

/-- With three levels, a user nests too deep only where the tag is put in, and a node comes
up below itself.  A pair leads to an identifier, which comes twice, and the broken root is
dropped. -/
def nestedRoots : List TypeTree :=
  [.object ⟨false, some "User"⟩ [("tag", .reference .bare "Tag")] [],
    .array ⟨false, some "Tag"⟩ (.primitive .bare .string),
    .object ⟨false, some "Node"⟩ [("next", .reference .bare "Node")] [],
    .object ⟨false, some "Pair"⟩ [("id", .reference .bare "Id")] [],
    .primitive ⟨false, some "Id"⟩ .number,
    .primitive ⟨false, some "Id"⟩ .string,
    .union ⟨false, some "Broken"⟩ [.primitive .bare .string]]

theorem fixtures_fail_at_limits_nestedRoots :
    ∃ (output : Output) (phase : List RootProblem),
      ofTrees threeLevels .skip true nestedRoots = .ok output ∧
      output.failures.drop 2 = phase ∧ phase.map (·.root) = ["User", "Node"] ∧
      (∀ failure ∈ phase, failure.problem.IsLimit) ∧
      Fields.names output.fixtures = ["Tag", "Pair", "Id"] ∧
      Refers (firstRoots nestedRoots) "Pair" "Id" ∧
      ∀ name, Relation.ReflTransGen (Refers (firstRoots nestedRoots)) "Pair" name →
        name ∈ ["Tag", "Pair", "Id"] := by
  have hdistinct : ∀ tree ∈ nestedRoots, tree.Distinct := by
    have hrefers : ∀ root attr name, TypeTree.Distinct
        (.object ⟨false, some root⟩ [(attr, .reference .bare name)] []) := fun _ _ _ =>
      .object (List.nodup_singleton _) (by simpa using .reference)
    simpa [nestedRoots] using ⟨hrefers _ _ _, .array .primitive, hrefers _ _ _, hrefers _ _ _,
      .primitive, .primitive, .union (by simpa using .primitive)⟩
  obtain ⟨output, plain, kept, phase, hrun, hplain, -, hfailures, -, -, hphase, hreaches⟩ :=
    fixtures_fail_at_limits threeLevels hdistinct
  have hresult : (ofTrees threeLevels .skip true nestedRoots).toOption.map (fun output =>
      (output.failures.map (·.root), Fields.names output.fixtures)) =
      some (["Id", "Broken", "User", "Node"], ["Tag", "Pair", "Id"]) := by
    decide +kernel
  have hbare : (ofTrees threeLevels .skip false nestedRoots).toOption.map (fun output =>
      output.failures.map (·.root)) = some ["Id", "Broken"] := by
    decide +kernel
  rw [hrun] at hresult
  rw [hplain] at hbare
  obtain ⟨hroots, hnames⟩ :
      output.failures.map (·.root) = ["Id", "Broken", "User", "Node"] ∧
        Fields.names output.fixtures = ["Tag", "Pair", "Id"] :=
    Prod.ext_iff.mp (Option.some.inj hresult)
  have hbare : plain.failures.map (·.root) = ["Id", "Broken"] := Option.some.inj hbare
  have hlength : plain.failures.length = 2 := by
    rw [← List.length_map (f := (·.root)), hbare]
    rfl
  have hdrop : output.failures.drop 2 = phase := by
    rw [hfailures, ← hlength, List.drop_left]
  refine ⟨output, phase, hrun, hdrop, ?_, fun failure hmem => (hphase failure hmem).2, hnames,
    ⟨_, rfl, List.mem_singleton_self _⟩, fun name hname => ?_⟩
  · rw [← hdrop, List.map_drop, hroots]
    rfl
  · rw [← hnames]
    exact hreaches "Pair" (by rw [hnames]; decide) name hname

end Batch

end TypeGuard
