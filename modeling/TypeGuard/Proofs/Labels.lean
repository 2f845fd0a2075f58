import TypeGuard.Proofs.Accounts

/-!
# What failures of unnamed roots are called

A root without an alias goes by its place.  If it is no type tree, that is its place in the
batch.  If it is one, the roots are counted again, and those before it that are no type
trees are left out of the count.  So the label is the place in the batch exactly if there
are none of them, and two roots can go by one label.
-/

namespace TypeGuard

theorem rootLabel_injective : (rootLabel none).Injective := by
  intro first second h
  have hplaces : "<root #" ++ toString first ++ ">" = "<root #" ++ toString second ++ ">" := h
  rw [String.append_left_inj, String.append_right_inj] at hplaces
  exact Nat.repr_injective hplaces

theorem TypeTree.aliasName_of_ofSpec {spec : TypeSpec} {tree : TypeTree}
    (h : ofSpec spec = .ok tree) : tree.aliasName = spec.label.aliasName := by
  unfold ofSpec at h
  cases spec with
  | undefined label =>
      cases h
      rfl
  | reference label name =>
      cases h
      rfl
  | _ =>
      obtain ⟨_, -, h⟩ := bind_eq_ok.mp h
      cases h
      rfl

namespace Batch

variable {settings : Settings} {specs : List TypeSpec} {spec : TypeSpec} {tree : TypeTree}

/-! ## Places before and after lowering -/

def Lowerable (spec : TypeSpec) : Prop := ∃ tree, TypeTree.ofSpec spec = .ok tree

/-- How many of the specifications before `index` become trees. -/
def placeAfter (specs : List TypeSpec) (index : Nat) : Nat := (lowered (specs.take index)).length

@[simp] theorem isSome_toOption_ofSpec {spec : TypeSpec} :
    (TypeTree.ofSpec spec).toOption.isSome = true ↔ Lowerable spec := by
  rw [Option.isSome_iff_exists]
  constructor
  · rintro ⟨tree, htree⟩
    exact ⟨tree, eq_ok_of_toOption htree⟩
  · rintro ⟨tree, htree⟩
    exact ⟨tree, by rw [htree]; rfl⟩

theorem placeAfter_le (specs : List TypeSpec) (index : Nat) : placeAfter specs index ≤ index :=
  Nat.le_trans (List.length_filterMap_le _ _) (List.length_take_le index specs)

theorem placeAfter_mono {index later : Nat} (h : index ≤ later) :
    placeAfter specs index ≤ placeAfter specs later :=
  ((List.take_sublist_take_left h).filterMap _).length_le

theorem placeAfter_eq_iff {index : Nat} (hindex : index ≤ specs.length) :
    placeAfter specs index = index ↔ ∀ earlier ∈ specs.take index, Lowerable earlier := by
  have hcount := List.filterMap_length_eq_length (l := specs.take index)
    (f := fun spec => (TypeTree.ofSpec spec).toOption)
  rw [List.length_take_of_le hindex] at hcount
  exact hcount.trans (forall₂_congr fun _ _ => isSome_toOption_ofSpec)

theorem lowered_take_succ {index : Nat} (hspec : specs[index]? = some spec)
    (htree : TypeTree.ofSpec spec = .ok tree) :
    lowered (specs.take (index + 1)) = lowered (specs.take index) ++ [tree] := by
  rw [List.take_add_one, hspec, lowered, List.filterMap_append, Option.toList_some,
    List.filterMap_cons, htree]
  rfl

theorem placeAfter_lt {index later : Nat} (hspec : specs[index]? = some spec)
    (hlowerable : Lowerable spec) (hlater : index < later) :
    placeAfter specs index < placeAfter specs later := by
  obtain ⟨tree, htree⟩ := hlowerable
  have hnext : placeAfter specs (index + 1) = placeAfter specs index + 1 := by
    simp [placeAfter, lowered_take_succ hspec htree]
  have hmono : placeAfter specs (index + 1) ≤ placeAfter specs later := placeAfter_mono hlater
  omega

theorem getElem?_lowered {index : Nat} (hspec : specs[index]? = some spec)
    (htree : TypeTree.ofSpec spec = .ok tree) :
    (lowered specs)[placeAfter specs index]? = some tree := by
  have hstarts : lowered (specs.take (index + 1)) <+: lowered specs :=
    (List.take_prefix _ specs).filterMap _
  obtain ⟨rest, hrest⟩ := hstarts
  rw [← hrest, lowered_take_succ hspec htree, List.append_assoc, placeAfter,
    List.getElem?_append_right (Nat.le_refl _), Nat.sub_self]
  rfl

theorem exists_of_getElem?_lowered {place : Nat} (h : (lowered specs)[place]? = some tree) :
    ∃ index spec, specs[index]? = some spec ∧ TypeTree.ofSpec spec = .ok tree ∧
      placeAfter specs index = place := by
  induction specs generalizing place with
  | nil => cases h
  | cons first rest ih =>
      cases hfirst : TypeTree.ofSpec first with
      | error problem =>
          have hskip : ∀ others, lowered (first :: others) = lowered others := by
            intro others
            rw [lowered, List.filterMap_cons, hfirst]
            rfl
          rw [hskip] at h
          obtain ⟨index, spec, hspec, htree, hplace⟩ := ih h
          refine ⟨index + 1, spec, hspec, htree, ?_⟩
          rw [placeAfter, List.take_succ_cons, hskip]
          exact hplace
      | ok other =>
          have hcons : ∀ others, lowered (first :: others) = other :: lowered others := by
            intro others
            rw [lowered, List.filterMap_cons, hfirst]
            rfl
          rw [hcons] at h
          cases place with
          | zero =>
              cases h
              exact ⟨0, first, rfl, hfirst, rfl⟩
          | succ place =>
              obtain ⟨index, spec, hspec, htree, hplace⟩ := ih h
              refine ⟨index + 1, spec, hspec, htree, ?_⟩
              rw [placeAfter, List.take_succ_cons, hcons, List.length_cons]
              exact congrArg (· + 1) hplace

/-! ## Failures of unnamed roots -/

def unnamedFailure (specs : List TypeSpec) (index : Nat) (spec : TypeSpec) : RootProblem :=
  match TypeTree.ofSpec spec with
  | .error problem => ⟨rootLabel spec.label.aliasName index, problem⟩
  | .ok tree => ⟨rootLabel none (placeAfter specs index), .unnamedRoot tree.text⟩

/-- A failure is that of an unnamed root, or goes by the alias of its root. -/
inductive Blames (specs : List TypeSpec) : RootProblem → Prop
  | unnamed {index : Nat} {spec : TypeSpec} : specs[index]? = some spec →
      spec.label.aliasName.getD "" = "" → Blames specs (unnamedFailure specs index spec)
  | named {spec : TypeSpec} {failure : RootProblem} : spec ∈ specs →
      spec.label.aliasName = some failure.root → failure.root ≠ "" → Blames specs failure

section

variable {index : Nat} {problem : Problem}

theorem unnamedFailure_of_error (htree : TypeTree.ofSpec spec = .error problem) :
    unnamedFailure specs index spec = ⟨rootLabel spec.label.aliasName index, problem⟩ := by
  rw [unnamedFailure, htree]

theorem unnamedFailure_of_ok (htree : TypeTree.ofSpec spec = .ok tree) :
    unnamedFailure specs index spec =
      ⟨rootLabel none (placeAfter specs index), .unnamedRoot tree.text⟩ := by
  rw [unnamedFailure, htree]

end

/-- An unnamed root goes by its place in the batch if it is no type tree, or if every
specification before it is one. -/
theorem unnamedFailure_root_eq_iff {index : Nat} (hspec : specs[index]? = some spec)
    (hnone : spec.label.aliasName = none) :
    (unnamedFailure specs index spec).root = rootLabel none index ↔
      ¬ Lowerable spec ∨ ∀ earlier ∈ specs.take index, Lowerable earlier := by
  cases htree : TypeTree.ofSpec spec with
  | error problem =>
      rw [unnamedFailure_of_error htree, hnone]
      refine ⟨fun _ => .inl ?_, fun _ => rfl⟩
      rintro ⟨tree, hok⟩
      cases htree.symm.trans hok
  | ok tree =>
      obtain ⟨hindex, -⟩ := List.getElem?_eq_some_iff.mp hspec
      rw [unnamedFailure_of_ok htree, rootLabel_injective.eq_iff,
        placeAfter_eq_iff (Nat.le_of_lt hindex)]
      exact ⟨.inr, fun h => h.resolve_left fun hunlowerable => hunlowerable ⟨tree, htree⟩⟩

theorem unnamedFailure_root_eq_root_iff {index later : Nat} {other : TypeSpec}
    (hspec : specs[index]? = some spec) (hnone : spec.label.aliasName = none)
    (hlater : index < later) (hother : other.label.aliasName = none) :
    (unnamedFailure specs index spec).root = (unnamedFailure specs later other).root ↔
      ¬ Lowerable spec ∧ Lowerable other ∧ placeAfter specs later = index := by
  have hbefore : placeAfter specs index ≤ index := placeAfter_le specs index
  cases htree : TypeTree.ofSpec spec with
  | error problem =>
      have hunlowerable : ¬ Lowerable spec := by
        rintro ⟨tree, hok⟩
        cases htree.symm.trans hok
      cases hlast : TypeTree.ofSpec other with
      | error last =>
          rw [unnamedFailure_of_error htree, unnamedFailure_of_error hlast, hnone, hother,
            rootLabel_injective.eq_iff]
          constructor
          · intro heq
            omega
          · rintro ⟨-, ⟨tree, hok⟩, -⟩
            cases hlast.symm.trans hok
      | ok tree =>
          rw [unnamedFailure_of_error htree, unnamedFailure_of_ok hlast, hnone,
            rootLabel_injective.eq_iff]
          exact ⟨fun heq => ⟨hunlowerable, ⟨tree, hlast⟩, heq.symm⟩, fun h => h.2.2.symm⟩
  | ok tree =>
      have hless : placeAfter specs index < placeAfter specs later :=
        placeAfter_lt hspec ⟨tree, htree⟩ hlater
      constructor
      · intro heq
        cases hlast : TypeTree.ofSpec other with
        | error last =>
            rw [unnamedFailure_of_ok htree, unnamedFailure_of_error hlast, hother,
              rootLabel_injective.eq_iff] at heq
            omega
        | ok last =>
            rw [unnamedFailure_of_ok htree, unnamedFailure_of_ok hlast,
              rootLabel_injective.eq_iff] at heq
            omega
      · rintro ⟨hunlowerable, -, -⟩
        exact absurd ⟨tree, htree⟩ hunlowerable

/-! ## Failures of the phases -/

theorem mem_of_not_lowered {index : Nat} {problem : Problem} {values : List (TypeTree × Nat)}
    {lost : List RootProblem} (h : Accounts Lowers specs.zipIdx values lost)
    (hspec : specs[index]? = some spec) (htree : TypeTree.ofSpec spec = .error problem) :
    ⟨rootLabel spec.label.aliasName index, problem⟩ ∈ lost := by
  rcases h.outcome_of_mem _ (List.mk_mem_zipIdx_iff_getElem?.mpr hspec) with
    ⟨_, -, hlowers⟩ | ⟨failure, hfailure, hlowers⟩
  · cases hlowers with
    | lowered hok => cases htree.symm.trans hok
  · cases hlowers with
    | unlowered herror =>
        cases htree.symm.trans herror
        exact hfailure

theorem mem_of_unnamed {trees : List TypeTree} {named : Fields TypeTree} {place : Nat}
    {notes : List RootProblem}
    (h : Accounts (Collects (Fields.names named)) trees.zipIdx named notes)
    (hkeyed : Keyed named) (htree : trees[place]? = some tree)
    (hunnamed : tree.aliasName.getD "" = "") :
    ⟨rootLabel none place, .unnamedRoot tree.text⟩ ∈ notes := by
  have hne : "" ∉ Fields.names named := by
    intro hmem
    obtain ⟨entry, hentry, hempty⟩ := List.mem_map.mp hmem
    exact hkeyed.ne_empty entry hentry hempty
  have hnamed : ∀ aliasName, tree.aliasName = some aliasName → aliasName ∉ Fields.names named := by
    intro aliasName halias
    rw [halias, Option.getD_some] at hunnamed
    rwa [hunnamed]
  rcases h.outcome_of_mem _ (List.mk_mem_zipIdx_iff_getElem?.mpr htree) with
    ⟨_, hvalue, hcollects⟩ | ⟨failure, hfailure, hcollects⟩
  · cases hcollects with
    | named halias => exact absurd (List.mem_map_of_mem hvalue) (hnamed _ halias)
  · cases hcollects with
    | unnamed => exact hfailure
    | repeated halias hmem => exact absurd hmem (hnamed _ halias)

theorem blames_of_alias {aliasName : String} {failure : RootProblem}
    (hmem : tree ∈ lowered specs) (halias : tree.aliasName = some aliasName) (hne : aliasName ≠ "")
    (hroot : failure.root = aliasName) : Blames specs failure := by
  obtain ⟨spec, hspec, htree⟩ := List.mem_filterMap.mp hmem
  rw [TypeTree.aliasName_of_ofSpec (eq_ok_of_toOption htree)] at halias
  exact .named hspec (hroot ▸ halias) (hroot ▸ hne)

theorem blames_of_lost {values : List (TypeTree × Nat)} {lost : List RootProblem}
    (h : Accounts Lowers specs.zipIdx values lost) : ∀ failure ∈ lost, Blames specs failure := by
  intro failure hmem
  obtain ⟨⟨spec, index⟩, hitem, hlowers⟩ := h.exists_of_failure failure hmem
  have hspec := List.mk_mem_zipIdx_iff_getElem?.mp hitem
  cases hlowers with
  | unlowered htree =>
      by_cases hunnamed : spec.label.aliasName.getD "" = ""
      · have hblames : Blames specs (unnamedFailure specs index spec) := .unnamed hspec hunnamed
        rwa [unnamedFailure_of_error htree] at hblames
      · cases halias : spec.label.aliasName with
        | none => simp [halias] at hunnamed
        | some aliasName =>
            rw [halias] at hunnamed
            exact .named (List.mem_of_getElem? hspec) halias hunnamed

theorem blames_of_notes {named : Fields TypeTree} {notes : List RootProblem}
    (h : Accounts (Collects (Fields.names named)) (lowered specs).zipIdx named notes)
    (hkeyed : Keyed named) : ∀ failure ∈ notes, Blames specs failure := by
  intro failure hmem
  obtain ⟨⟨tree, place⟩, hitem, hcollects⟩ := h.exists_of_failure failure hmem
  have htree := List.mk_mem_zipIdx_iff_getElem?.mp hitem
  cases hcollects with
  | unnamed hunnamed =>
      obtain ⟨index, spec, hspec, hok, rfl⟩ := exists_of_getElem?_lowered htree
      rw [TypeTree.aliasName_of_ofSpec hok] at hunnamed
      rw [← unnamedFailure_of_ok hok]
      exact .unnamed hspec hunnamed
  | repeated halias hlisted =>
      obtain ⟨entry, hentry, rfl⟩ := List.mem_map.mp hlisted
      exact blames_of_alias (List.mem_of_getElem? htree) halias (hkeyed.ne_empty entry hentry) rfl

theorem blames_of_firstRoot {failure : RootProblem}
    (h : failure.root ∈ Fields.names (firstRoots (lowered specs))) : Blames specs failure := by
  obtain ⟨notes, hcollect, -⟩ := run_collect_firstRoots (lowered specs)
  have hroots := collect_ok (List.Subset.refl _) (.empty (lowered specs)) hcollect
  have hkeyed : Keyed (firstRoots (lowered specs)) := keyed_firstRoots distinct_of_mem_lowered
  obtain ⟨entry, hentry, hname⟩ := List.mem_map.mp h
  exact blames_of_alias (hroots.listed entry hentry) (hkeyed.aliasName entry hentry)
    (hkeyed.ne_empty entry hentry) hname.symm

theorem unnamedFailure_mem {index : Nat} {values : List (TypeTree × Nat)}
    {lost notes : List RootProblem} {named : Fields TypeTree}
    (hlowers : Accounts Lowers specs.zipIdx values lost)
    (hcollects : Accounts (Collects (Fields.names named)) (lowered specs).zipIdx named notes)
    (hkeyed : Keyed named) (hspec : specs[index]? = some spec)
    (hunnamed : spec.label.aliasName.getD "" = "") :
    unnamedFailure specs index spec ∈ lost ++ notes := by
  cases htree : TypeTree.ofSpec spec with
  | error problem =>
      rw [unnamedFailure_of_error htree]
      exact List.mem_append_left _ (mem_of_not_lowered hlowers hspec htree)
  | ok tree =>
      rw [unnamedFailure_of_ok htree]
      rw [← TypeTree.aliasName_of_ofSpec htree] at hunnamed
      exact List.mem_append_right _
        (mem_of_unnamed hcollects hkeyed (getElem?_lowered hspec htree) hunnamed)

/-! ## Whole runs -/

structure Reports (specs : List TypeSpec) (failures : List RootProblem) : Prop where
  blames : ∀ failure ∈ failures, Blames specs failure
  reported : ∀ index spec, specs[index]? = some spec → spec.label.aliasName.getD "" = "" →
    unnamedFailure specs index spec ∈ failures
  own_place : ∀ index spec, specs[index]? = some spec → spec.label.aliasName = none →
    ((unnamedFailure specs index spec).root = rootLabel none index ↔
      ¬ Lowerable spec ∨ ∀ earlier ∈ specs.take index, Lowerable earlier)
  shared : ∀ index spec later other, specs[index]? = some spec → specs[later]? = some other →
    spec.label.aliasName = none → other.label.aliasName = none → index < later →
    ((unnamedFailure specs index spec).root = (unnamedFailure specs later other).root ↔
      ¬ Lowerable spec ∧ Lowerable other ∧ placeAfter specs later = index)

/-- Skipping failures, every root without an alias has its failure, and all other failures
go by the alias of their root.  An unnamed root goes by its place in the batch exactly if it
is no type tree or every root before it is one.  Two of them share a label exactly if the
first is no type tree and the second, counted among the trees, comes to the first's place. -/
theorem unnamed_labels (settings : Settings) (withFixtures : Bool) (specs : List TypeSpec) :
    ∃ output, ofSpecs settings .skip withFixtures specs = .ok output ∧
      Reports specs output.failures := by
  obtain ⟨lost, hlower, hlowers⟩ := run_lower 0 0 specs []
  rw [List.nil_append] at hlower
  obtain ⟨notes, hcollect, hcollects⟩ := run_collect_firstRoots (lowered specs)
  have hkeyed : Keyed (firstRoots (lowered specs)) := keyed_firstRoots distinct_of_mem_lowered
  obtain ⟨output, kept, dropped, hrun, hskipped⟩ :=
    ofTrees_skipped settings withFixtures hkeyed hcollect
  have hspecs := ofSpecs_of_ofTrees hlower hrun
  refine ⟨_, hspecs, ?_⟩
  constructor
  case blames =>
      rw [hskipped.failures]
      simp only [List.forall_mem_append]
      refine ⟨blames_of_lost hlowers, ⟨blames_of_notes hcollects hkeyed, fun failure hmem => ?_⟩,
        fun failure hmem => ?_⟩
      · refine blames_of_firstRoot ((hskipped.drops.perm hkeyed.nodup).subset ?_)
        exact List.mem_append_left _ (List.mem_map_of_mem hmem)
      · refine blames_of_firstRoot ((hskipped.drops.sublist.map _).subset ?_)
        cases withFixtures with
        | true => exact root_of_mem_unsampled hmem
        | false => cases hmem
  case reported =>
      intro index spec hspec hunnamed
      have hmem := unnamedFailure_mem hlowers hcollects hkeyed hspec hunnamed
      rw [hskipped.failures, List.append_assoc, ← List.append_assoc lost]
      exact List.mem_append_left _ hmem
  case own_place =>
      intro index spec hspec hnone
      exact unnamedFailure_root_eq_iff hspec hnone
  case shared =>
      intro index spec later other hspec _ hnone hother hlater
      exact unnamedFailure_root_eq_root_iff hspec hnone hlater hother

def unnamedSpecs : List TypeSpec :=
  [.primitive ⟨none, false⟩ "symbol", .primitive ⟨none, false⟩ "string"]

theorem unnamed_labels_unnamedSpecs :
    ∃ output, ofSpecs .standard .skip true unnamedSpecs = .ok output ∧
      ⟨rootLabel none 0, .unknownPrimitive "symbol" ["root"]⟩ ∈ output.failures ∧
      ⟨rootLabel none 0, .unnamedRoot "string"⟩ ∈ output.failures := by
  obtain ⟨output, hrun, hreports⟩ := unnamed_labels .standard true unnamedSpecs
  exact ⟨output, hrun, hreports.reported 0 _ rfl rfl, hreports.reported 1 _ rfl rfl⟩

end Batch

end TypeGuard
