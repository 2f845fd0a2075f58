import Mathlib.Data.List.Perm.Basic
import TypeGuard.Proofs.Admission
import TypeGuard.Proofs.Phases

/-!
# The roots that a batch keeps

A batch that skips failures registers its roots in order, drops the first that
fails and begins again.  The roots that are left are legal and mention each other
only.  No root of a set like that is ever dropped: all that it mentions is still
there when it is registered.  So the roots that are left are the greatest such set
among the named roots, whatever the order in which the others went.
-/

namespace TypeGuard

def Problem.isNaming : Problem → Bool
  | .unnamedRoot _ | .repeatedRoot _ => true
  | _ => false

/-- A problem without what depends on the moment: the reference to an unknown alias that
was met first, and the aliases known by then. -/
def Problem.outline : Problem → Problem
  | .unknownAlias .. => .unknownAlias "" [] []
  | problem => problem

def RootProblem.outline (failure : RootProblem) : RootProblem :=
  ⟨failure.root, failure.problem.outline⟩

namespace TypeTree

theorem isNaming_of_checkUnion {place : Path} {members : List TypeTree} {problem : Problem}
    (h : checkUnion place members = .error problem) : problem.isNaming = false := by
  have hoffends : Node.Offends 0 ⟨0, place, .union .bare members⟩ problem :=
    offends_of_checkUnion (Nat.le_refl 0) h
  cases hoffends <;> rfl

theorem IsOffence.isNaming {limit : Nat} {problem : Problem} (h : IsOffence limit problem) :
    problem.isNaming = false := by
  rcases h with ⟨place, rfl⟩ | ⟨place, members, hcheck⟩
  · rfl
  · exact isNaming_of_checkUnion hcheck

end TypeTree

theorem Fields.names_filter {α : Type} (keep : String → Bool) (fields : Fields α) :
    names (fields.filter fun field => keep field.1) = (names fields).filter keep := by
  rw [names, names, List.filter_map]
  rfl

namespace Batch

variable {settings : Settings} {trees : List TypeTree} {named kept other : Fields TypeTree}

/-! ## Consistent roots -/

def Fits (limit : Nat) (roots : Fields TypeTree) (tree : TypeTree) : Prop :=
  tree.Legal limit ∧ ∀ name ∈ tree.mentions, name ∈ Fields.names roots

def Consistent (limit : Nat) (roots : Fields TypeTree) : Prop :=
  ∀ entry ∈ roots, Fits limit roots entry.2

/-- Every root stands under its own alias, which is not empty and not repeated, and no
object of it names an attribute twice. -/
structure Keyed (named : Fields TypeTree) : Prop where
  aliasName : ∀ entry ∈ named, entry.2.aliasName = some entry.1
  ne_empty : ∀ entry ∈ named, entry.1 ≠ ""
  distinct : ∀ entry ∈ named, entry.2.Distinct
  nodup : (Fields.names named).Nodup

theorem Keyed.roots (h : Keyed named) : Roots (named.map (·.2)) named :=
  ⟨fun _ hentry => List.mem_map_of_mem hentry, h.aliasName, h.nodup⟩

theorem Keyed.sublist (h : Keyed named) (hkept : kept.Sublist named) : Keyed kept where
  aliasName entry hentry := h.aliasName entry (hkept.subset hentry)
  ne_empty entry hentry := h.ne_empty entry (hkept.subset hentry)
  distinct entry hentry := h.distinct entry (hkept.subset hentry)
  nodup := h.nodup.sublist (hkept.map _)

/-! ## Registering a batch -/

structure Announced (settings : Settings) (aliases : List String) (registry : Registry) :
    Prop where
  settings : registry.settings = settings
  knows : ∀ name, registry.knows name = true ↔ name ∈ aliases
  references : ∀ entry ∈ registry.references, ∀ r ∈ entry.2, r.name ∈ aliases

theorem Announced.start (settings : Settings) (aliases : List String) :
    Announced settings aliases ((Registry.empty settings).announce aliases) where
  settings := rfl
  knows name := by
    simp [Registry.knows, Registry.announce, Registry.empty, Fields.contains,
      Std.TreeSet.contains_insertMany_list]
  references entry hentry := by cases hentry

theorem Announced.register {registry later : Registry} {aliases : List String}
    (h : Announced settings aliases registry) {aliasName : String} {tree : TypeTree}
    (halias : tree.aliasName = some aliasName) (hmem : aliasName ∈ aliases)
    (hregister : registry.register tree = .ok later) : Announced settings aliases later := by
  obtain ⟨guard, references, -, hadmits, rfl⟩ := Registry.register_eq_ok halias hregister
  refine ⟨h.settings, fun name => ?_, fun entry hentry r hr => ?_⟩
  · have hknows := h.knows name
    simp only [Registry.knows, Bool.or_eq_true, Fields.contains_iff] at hknows ⊢
    rw [Fields.mem_names_insert, or_left_comm, hknows]
    constructor
    · rintro (rfl | hold)
      · exact hmem
      · exact hold
    · exact .inr
  · rcases Fields.mem_insert hentry with rfl | hold
    · have hadmitted := hadmits r hr
      rw [Registry.admits, Bool.or_eq_true, beq_iff_eq, h.knows] at hadmitted
      rcases hadmitted with hself | hknown
      · exact hself ▸ hmem
      · exact hknown
    · exact h.references entry hold r hr

theorem Announced.fits {registry later : Registry}
    (h : Announced settings (Fields.names named) registry) {entry : String × TypeTree}
    (hentry : entry ∈ named) (halias : entry.2.aliasName = some entry.1)
    (hregister : registry.register entry.2 = .ok later) :
    Fits settings.maxDepth named entry.2 := by
  obtain ⟨hlegal, hadmits⟩ := Registry.admits_of_register_ok halias hregister
  rw [h.settings] at hlegal
  refine ⟨hlegal, fun name hname => ?_⟩
  have hadmitted := hadmits name hname
  rw [Registry.admits, Bool.or_eq_true, beq_iff_eq, h.knows] at hadmitted
  rcases hadmitted with rfl | hknown
  · exact List.mem_map_of_mem hentry
  · exact hknown

def diagnosis (limit : Nat) (aliasName : String) (tree : TypeTree) : Problem :=
  ((tree.offence? limit 0 [aliasName]).getD (.unknownAlias "" [] [])).outline

structure Failed (limit : Nat) (named : Fields TypeTree) (entry : String × TypeTree)
    (problem : Problem) : Prop where
  mem : entry ∈ named
  notNaming : problem.isNaming = false
  unfit : problem.isExhaustion = false → ¬ Fits limit named entry.2
  diagnosed : problem.isExhaustion = false →
    problem.outline = diagnosis limit entry.1 entry.2

theorem Announced.failed {registry : Registry}
    (h : Announced settings (Fields.names named) registry) (hkeyed : Keyed named)
    {entry : String × TypeTree} (hentry : entry ∈ named) {problem : Problem}
    (hregister : registry.register entry.2 = .error problem) :
    Failed settings.maxDepth named entry problem := by
  rcases Registry.register_eq_error (hkeyed.aliasName entry hentry) (hkeyed.ne_empty entry hentry)
    (hkeyed.distinct entry hentry) hregister with hexhausted | hoffence |
      ⟨hnone, r, hunknown, rfl⟩
  · refine ⟨hentry, ?_, fun hother => ?_, fun hother => ?_⟩
    · cases problem <;> first | rfl | cases hexhausted
    · rw [hexhausted] at hother
      cases hother
    · rw [hexhausted] at hother
      cases hother
  · rw [h.settings] at hoffence
    refine ⟨hentry, (TypeTree.isOffence_of_offence? _ hoffence).isNaming, fun _ hfits => ?_,
      fun _ => ?_⟩
    · rw [TypeTree.legal_iff_offence?.mp hfits.1] at hoffence
      cases hoffence
    · simp [diagnosis, hoffence]
  · rw [h.settings] at hnone
    refine ⟨hentry, rfl, fun _ hfits => ?_, fun _ => ?_⟩
    · have hmem := List.mem_map_of_mem (f := (·.name)) (List.mem_of_find?_eq_some hunknown)
      rw [TypeTree.map_name_references] at hmem
      have hknown := (h.knows r.name).mpr (hfits.2 r.name hmem)
      have hadmits := List.find?_some hunknown
      simp [Registry.admits, hknown] at hadmits
    · rw [diagnosis, hnone]
      rfl

theorem registerAll_cases {registry : Registry} {aliases : List String}
    (h : Announced settings aliases registry)
    (hkeyed : ∀ entry ∈ named, entry.2.aliasName = some entry.1)
    (hmem : Fields.names named ⊆ aliases) :
    (∃ later, registerAll named registry = .ok later ∧ Announced settings aliases later ∧
      ∀ entry ∈ named, ∃ current next, Announced settings aliases current ∧
        current.register entry.2 = .ok next) ∨
    ∃ entry ∈ named, ∃ current problem, Announced settings aliases current ∧
      current.register entry.2 = .error problem ∧
      registerAll named registry = .error (entry.1, problem) := by
  induction named generalizing registry with
  | nil => exact .inl ⟨registry, rfl, h, by simp⟩
  | cons entry rest ih =>
      obtain ⟨aliasName, tree⟩ := entry
      rw [List.forall_mem_cons] at hkeyed
      rw [Fields.names_cons, List.cons_subset] at hmem
      cases hregister : registry.register tree with
      | error problem =>
          refine .inr ⟨_, List.mem_cons_self, registry, problem, h, hregister, ?_⟩
          rw [registerAll, hregister]
      | ok middle =>
          have hrun : registerAll ((aliasName, tree) :: rest) registry =
              registerAll rest middle := by rw [registerAll, hregister]
          rw [hrun]
          rcases ih (h.register hkeyed.1 hmem.1 hregister) hkeyed.2 hmem.2 with
            ⟨later, hlater, hannounced, hrest⟩ | ⟨other, hother, hfailed⟩
          · exact .inl ⟨later, hlater, hannounced,
              List.forall_mem_cons.mpr ⟨⟨registry, middle, h, hregister⟩, hrest⟩⟩
          · exact .inr ⟨other, List.mem_cons_of_mem _ hother, hfailed⟩

theorem exists_assemble_of_registry (hroots : Roots trees named) {complete : Registry}
    (h : registry settings named = .ok complete) : ∃ file, complete.assemble = .ok file := by
  have hsound := (registry_sound hroots h).1
  rcases registerAll_cases (Announced.start settings (Fields.names named)) hroots.keyed
    (List.Subset.refl _) with ⟨later, hlater, hannounced, -⟩ | ⟨_, -, _, _, -, -, hfailed⟩
  · cases hlater.symm.trans h
    exact Registry.exists_assemble fun entry hentry r hr =>
      hsound.guards ▸ hannounced.references entry hentry r hr
  · cases hfailed.symm.trans h

/-- One round over the roots makes a file of consistent ones, or names a root that
failed. -/
theorem registry_cases (settings : Settings) (hkeyed : Keyed named) :
    (∃ complete file, registry settings named = .ok complete ∧ complete.assemble = .ok file ∧
      Consistent settings.maxDepth named) ∨
    ∃ entry problem, registry settings named = .error (entry.1, problem) ∧
      Failed settings.maxDepth named entry problem := by
  rcases registerAll_cases (Announced.start settings (Fields.names named)) hkeyed.aliasName
    (List.Subset.refl _) with ⟨later, hlater, -, hall⟩ |
      ⟨entry, hentry, current, problem, hannounced, hregister, hfailed⟩
  · obtain ⟨file, hfile⟩ := exists_assemble_of_registry hkeyed.roots hlater
    refine .inl ⟨later, file, hlater, hfile, fun entry hentry => ?_⟩
    obtain ⟨current, next, hcurrent, hregister⟩ := hall entry hentry
    exact hcurrent.fits hentry (hkeyed.aliasName entry hentry) hregister
  · exact .inr ⟨entry, problem, hfailed, hannounced.failed hkeyed hentry hregister⟩

/-! ## Dropping roots -/

/-- Failed roots are dropped one after the other until the rest is consistent. -/
inductive Drops (limit : Nat) : Fields TypeTree → List RootProblem → Fields TypeTree → Prop
  | stop {named : Fields TypeTree} : Consistent limit named → Drops limit named [] named
  | drop {named kept : Fields TypeTree} {entry : String × TypeTree} {problem : Problem}
      {dropped : List RootProblem} :
      Failed limit named entry problem →
      Drops limit (named.filter fun other => other.1 != entry.1) dropped kept →
      Drops limit named (⟨entry.1, problem⟩ :: dropped) kept

section

variable {limit : Nat} {dropped : List RootProblem}

theorem Drops.sublist (h : Drops limit named dropped kept) : kept.Sublist named := by
  induction h with
  | stop => exact .refl _
  | drop _ _ ih => exact ih.trans List.filter_sublist

theorem Drops.consistent (h : Drops limit named dropped kept) : Consistent limit kept := by
  induction h with
  | stop hconsistent => exact hconsistent
  | drop _ _ ih => exact ih

theorem Drops.notNaming (h : Drops limit named dropped kept) :
    ∀ failure ∈ dropped, failure.problem.isNaming = false := by
  induction h with
  | stop => simp
  | drop hfailed _ ih => exact List.forall_mem_cons.mpr ⟨hfailed.notNaming, ih⟩

theorem Drops.diagnosed (h : Drops limit named dropped kept) :
    ∀ failure ∈ dropped, failure.problem.isExhaustion = false →
      ∃ tree, (failure.root, tree) ∈ named ∧
        failure.problem.outline = diagnosis limit failure.root tree := by
  induction h with
  | stop => simp
  | drop hfailed _ ih =>
      refine List.forall_mem_cons.mpr
        ⟨fun hnames => ⟨_, hfailed.mem, hfailed.diagnosed hnames⟩, fun failure hmem hnames => ?_⟩
      obtain ⟨tree, htree, hdiagnosis⟩ := ih failure hmem hnames
      exact ⟨tree, List.mem_of_mem_filter htree, hdiagnosis⟩

/-- A consistent set never loses a root: while it is there, all that the root mentions
is there too. -/
theorem Drops.greatest (h : Drops limit named dropped kept)
    (hnodup : (Fields.names named).Nodup)
    (hnames : ∀ failure ∈ dropped, failure.problem.isExhaustion = false)
    (hother : other ⊆ named) (hconsistent : Consistent limit other) : other ⊆ kept := by
  induction h with
  | stop => exact hother
  | @drop named kept entry problem dropped hfailed _ ih =>
      rw [List.forall_mem_cons] at hnames
      have hkeeps : entry ∉ other := by
        intro hmem
        obtain ⟨hlegal, hmentions⟩ := hconsistent entry hmem
        exact hfailed.unfit hnames.1
          ⟨hlegal, fun name hname => List.map_subset _ hother (hmentions name hname)⟩
      refine ih (hnodup.sublist (List.filter_sublist.map _)) hnames.2 fun root hroot => ?_
      refine List.mem_filter.mpr ⟨hother hroot, bne_iff_ne.mpr fun hname => hkeeps ?_⟩
      rwa [← List.inj_on_of_nodup_map hnodup (hother hroot) hfailed.mem hname]

theorem Drops.perm (h : Drops limit named dropped kept) (hnodup : (Fields.names named).Nodup) :
    (dropped.map (·.root) ++ Fields.names kept).Perm (Fields.names named) := by
  induction h with
  | stop => exact .refl _
  | @drop named kept entry problem dropped hfailed _ ih =>
      have hrest := ih (hnodup.sublist (List.filter_sublist.map _))
      rw [Fields.names_filter fun name => name != entry.1, ← hnodup.erase_eq_filter] at hrest
      exact (hrest.cons entry.1).trans
        (List.perm_cons_erase (List.mem_map_of_mem hfailed.mem)).symm

theorem Drops.notKept (h : Drops limit named dropped kept) (hnodup : (Fields.names named).Nodup) :
    ∀ failure ∈ dropped, failure.root ∉ Fields.names kept := fun _ hmem hkept =>
  List.disjoint_of_nodup_append ((h.perm hnodup).nodup_iff.mpr hnodup) (List.mem_map_of_mem hmem)
    hkept

end

/-- The loop comes to the same end whatever the number of rounds, if there is one for
each root and one more. -/
theorem settle_drops (settings : Settings) (hkeyed : Keyed named) :
    ∃ registry file dropped kept, Drops settings.maxDepth named dropped kept ∧
      Batch.registry settings kept = .ok registry ∧ registry.assemble = .ok file ∧
      ∀ rounds, named.length < rounds → ∀ failures,
        (settle .skip settings rounds named).run failures =
          .ok ((file, kept), failures ++ dropped) := by
  induction hlength : named.length using Nat.strongRecOn generalizing named with
  | ind length ih =>
      subst hlength
      rcases registry_cases settings hkeyed with ⟨registry, file, hregistry, hfile, hconsistent⟩ |
        ⟨entry, problem, hregistry, hfailed⟩
      · refine ⟨registry, file, [], named, .stop hconsistent, hregistry, hfile,
          fun rounds hrounds failures => ?_⟩
        obtain ⟨rounds, rfl⟩ : ∃ fewer, rounds = fewer + 1 := ⟨rounds - 1, by omega⟩
        rw [settle, hregistry, List.append_nil]
        simp only [finish, hfile]
        rfl
      · have hshorter : (named.filter fun other => other.1 != entry.1).length < named.length :=
          List.length_filter_lt_length_iff_exists.mpr ⟨entry, hfailed.mem, by simp⟩
        obtain ⟨registry, file, dropped, kept, hdrops, hkept, hfile, hrun⟩ :=
          ih _ hshorter (hkeyed.sublist List.filter_sublist) rfl
        refine ⟨registry, file, _, kept, .drop hfailed hdrops, hkept, hfile,
          fun rounds hrounds failures => ?_⟩
        obtain ⟨rounds, rfl⟩ : ∃ fewer, rounds = fewer + 1 := ⟨rounds - 1, by omega⟩
        rw [settle, hregistry]
        have hagain := hrun rounds (by omega) (failures ++ [⟨entry.1, problem⟩])
        rw [List.append_assoc, List.singleton_append] at hagain
        exact hagain

/-! ## Named roots -/

def firstRoots : List TypeTree → Fields TypeTree
  | [] => []
  | tree :: rest =>
      let aliasName := tree.aliasName.getD ""
      if aliasName = "" then firstRoots rest
      else (aliasName, tree) :: (firstRoots rest).filter fun entry => entry.1 != aliasName

theorem firstRoots_of_unnamed {tree : TypeTree} {rest : List TypeTree}
    (h : tree.aliasName.getD "" = "") : firstRoots (tree :: rest) = firstRoots rest := by
  simp only [firstRoots, if_pos h]

theorem firstRoots_of_named {tree : TypeTree} {rest : List TypeTree} {aliasName : String}
    (h : tree.aliasName = some aliasName) (hne : aliasName ≠ "") :
    firstRoots (tree :: rest) =
      (aliasName, tree) :: (firstRoots rest).filter fun entry => entry.1 != aliasName := by
  simp only [firstRoots, h, Option.getD_some, if_neg hne]

theorem keyed_firstRoots (hdistinct : ∀ tree ∈ trees, tree.Distinct) :
    Keyed (firstRoots trees) := by
  induction trees with
  | nil => exact ⟨by simp [firstRoots], by simp [firstRoots], by simp [firstRoots], List.nodup_nil⟩
  | cons tree rest ih =>
      rw [List.forall_mem_cons] at hdistinct
      have hrest := ih hdistinct.2
      by_cases hunnamed : tree.aliasName.getD "" = ""
      · rw [firstRoots_of_unnamed hunnamed]
        exact hrest
      · obtain ⟨aliasName, halias⟩ : ∃ aliasName, tree.aliasName = some aliasName :=
          Option.ne_none_iff_exists'.mp fun hnone => hunnamed (by rw [hnone]; rfl)
        rw [halias, Option.getD_some] at hunnamed
        rw [firstRoots_of_named halias hunnamed]
        have hkept := hrest.sublist (List.filter_sublist (p := fun entry => entry.1 != aliasName))
        refine ⟨List.forall_mem_cons.mpr ⟨halias, hkept.aliasName⟩,
          List.forall_mem_cons.mpr ⟨hunnamed, hkept.ne_empty⟩,
          List.forall_mem_cons.mpr ⟨hdistinct.1, hkept.distinct⟩,
          List.nodup_cons.mpr ⟨?_, hkept.nodup⟩⟩
        rw [← Fields.names, Fields.names_filter fun name => name != aliasName]
        simp

inductive Collects (aliases : List String) :
    TypeTree × Nat → Except RootProblem (String × TypeTree) → Prop
  | named {tree : TypeTree} {index : Nat} {aliasName : String} :
      tree.aliasName = some aliasName → Collects aliases (tree, index) (.ok (aliasName, tree))
  | unnamed {tree : TypeTree} {index : Nat} : tree.aliasName.getD "" = "" →
      Collects aliases (tree, index) (.error ⟨rootLabel none index, .unnamedRoot tree.text⟩)
  | repeated {tree : TypeTree} {index : Nat} {aliasName : String} :
      tree.aliasName = some aliasName → aliasName ∈ aliases →
      Collects aliases (tree, index) (.error ⟨aliasName, .repeatedRoot aliasName⟩)

theorem run_collect (named : Fields TypeTree) (index : Nat) (trees : List TypeTree)
    (failures : List RootProblem) :
    ∃ found notes, (collect .skip named index trees).run failures =
        .ok (named ++ found, failures ++ notes) ∧
      found = (firstRoots trees).filter (fun entry => !Fields.contains entry.1 named) ∧
      Accounts (Collects (Fields.names (named ++ found))) (trees.zipIdx index) found notes := by
  induction trees generalizing named index failures with
  | nil =>
      refine ⟨[], [], ?_, rfl, .nil⟩
      simp only [collect, List.append_nil]
      rfl
  | cons tree rest ih =>
      have hnoted : ∀ root problem, (∀ found, Collects (Fields.names (named ++ found))
          (tree, index) (.error ⟨root, problem⟩)) → ∃ found notes,
          (do fail .skip root problem; collect .skip named (index + 1) rest).run failures =
            .ok (named ++ found, failures ++ notes) ∧
          found = (firstRoots rest).filter (fun entry => !Fields.contains entry.1 named) ∧
          Accounts (Collects (Fields.names (named ++ found))) ((tree :: rest).zipIdx index)
            found notes := by
        intro root problem hcollects
        obtain ⟨found, notes, hrun, hfound, hrest⟩ :=
          ih named (index + 1) (failures ++ [⟨root, problem⟩])
        rw [List.append_assoc, List.singleton_append] at hrun
        exact ⟨found, _, hrun, hfound, .failure (hcollects found) hrest⟩
      unfold collect
      split
      next hnone =>
          have hunnamed : tree.aliasName.getD "" = "" := by rw [hnone]; rfl
          rw [firstRoots_of_unnamed hunnamed]
          exact hnoted _ _ fun _ => .unnamed hunnamed
      next hempty =>
          have hunnamed : tree.aliasName.getD "" = "" := by rw [hempty]; rfl
          rw [firstRoots_of_unnamed hunnamed]
          exact hnoted _ _ fun _ => .unnamed hunnamed
      next aliasName hne halias =>
          rw [firstRoots_of_named halias hne, List.filter_cons, List.filter_filter]
          split
          next hold =>
              -- The alias has its root already, and no other root is filtered out for it.
              have hrest : (firstRoots rest).filter (fun entry =>
                  !Fields.contains entry.1 named && entry.1 != aliasName) =
                  (firstRoots rest).filter fun entry => !Fields.contains entry.1 named := by
                refine List.filter_congr fun entry _ => ?_
                by_cases hname : entry.1 = aliasName <;> simp [hname, hold]
              rw [hrest, if_neg (by simp [hold])]
              refine hnoted _ _ fun found => .repeated halias ?_
              rw [Fields.names_append]
              exact List.mem_append_left _ (Fields.contains_iff.mp hold)
          next hnew =>
              obtain ⟨found, notes, hrun, hfound, hall⟩ :=
                ih (named ++ [(aliasName, tree)]) (index + 1) failures
              have hrest : (firstRoots rest).filter (fun entry =>
                  !Fields.contains entry.1 (named ++ [(aliasName, tree)])) =
                  (firstRoots rest).filter fun entry =>
                    !Fields.contains entry.1 named && entry.1 != aliasName := by
                refine List.filter_congr fun entry _ => ?_
                rw [← Fields.insert_of_notMem (mt Fields.contains_iff.mpr hnew)]
                by_cases hname : entry.1 = aliasName
                · simp [hname, Fields.contains]
                · simp [hname, Fields.contains, Fields.find?_insert_of_ne]
              rw [List.append_assoc, List.singleton_append] at hrun hall
              rw [hrest] at hfound
              rw [if_pos (by simp [hnew])]
              exact ⟨_, notes, hrun, congrArg _ hfound, .value (.named halias) hall⟩

theorem run_collect_firstRoots (trees : List TypeTree) :
    ∃ notes, (collect .skip [] 0 trees).run [] = .ok (firstRoots trees, notes) ∧
      Accounts (Collects (Fields.names (firstRoots trees))) trees.zipIdx (firstRoots trees)
        notes := by
  obtain ⟨found, notes, hcollect, hfound, hall⟩ := run_collect [] 0 trees []
  have hfirst : found = firstRoots trees := by
    rw [hfound]
    simp [Fields.contains]
  rw [List.nil_append, hfirst] at hcollect hall
  exact ⟨notes, hcollect, hall⟩

theorem isNaming_of_collects {aliases : List String} {trees : List (TypeTree × Nat)}
    {notes : List RootProblem} (h : Accounts (Collects aliases) trees named notes) :
    ∀ note ∈ notes, note.problem.isNaming = true := by
  intro note hmem
  obtain ⟨_, -, hcollects⟩ := h.exists_of_failure note hmem
  cases hcollects <;> rfl

/-! ## Runs that skip failures -/

structure Skipped (settings : Settings) (withFixtures : Bool) (named kept : Fields TypeTree)
    (notes dropped : List RootProblem) (output : Output) : Prop where
  drops : Drops settings.maxDepth named dropped kept
  file : ∃ complete, registry settings kept = .ok complete ∧
    complete.assemble = .ok output.file
  settles : ∀ rounds, named.length < rounds → ∀ failures,
    (settle .skip settings rounds named).run failures =
      .ok ((output.file, kept), failures ++ dropped)
  fixtures : output.fixtures =
    if withFixtures then sampled ⟨kept, settings.maxDepth⟩ kept else []
  failures : output.failures = notes ++ dropped ++
    if withFixtures then unsampled ⟨kept, settings.maxDepth⟩ kept else []

theorem ofTrees_skipped (settings : Settings) (withFixtures : Bool) (hkeyed : Keyed named)
    {notes : List RootProblem} (hcollect : (collect .skip [] 0 trees).run [] = .ok (named, notes)) :
    ∃ output kept dropped, ofTrees settings .skip withFixtures trees = .ok output ∧
      Skipped settings withFixtures named kept notes dropped output := by
  obtain ⟨complete, file, dropped, kept, hdrops, hregistry, hfile, hsettle⟩ :=
    settle_drops settings hkeyed
  have hround := hsettle _ (Nat.lt_succ_self _) notes
  have hrun : (runTrees settings .skip withFixtures trees).run [] =
      .ok ((file, if withFixtures then sampled ⟨kept, settings.maxDepth⟩ kept else []),
        notes ++ dropped ++
          if withFixtures then unsampled ⟨kept, settings.maxDepth⟩ kept else []) := by
    refine run_bind_eq_ok.mpr ⟨_, _, hcollect, run_bind_eq_ok.mpr ⟨_, _, hround, ?_⟩⟩
    cases withFixtures with
    | true => exact run_bind_eq_ok.mpr ⟨_, _, (fixturesOf_ends _ kept).skip _, rfl⟩
    | false => exact congrArg (fun failures => Except.ok (_, failures)) (List.append_nil _).symm
  exact ⟨_, kept, dropped, bind_eq_ok.mpr ⟨_, hrun, rfl⟩, hdrops, ⟨complete, hregistry, hfile⟩,
    hsettle, rfl, rfl⟩

/-- A run that skips failures gives an output.  Its failures are those of naming, then
those of the dropped roots, then those of kept roots that have no fixtures. -/
theorem ofTrees_skip (settings : Settings) (withFixtures : Bool)
    (hdistinct : ∀ tree ∈ trees, tree.Distinct) :
    ∃ output kept notes dropped unsampled complete,
      ofTrees settings .skip withFixtures trees = .ok output ∧
      Drops settings.maxDepth (firstRoots trees) dropped kept ∧
      registry settings kept = .ok complete ∧ complete.assemble = .ok output.file ∧
      (∀ rounds, (firstRoots trees).length < rounds → ∀ failures,
        (settle .skip settings rounds (firstRoots trees)).run failures =
          .ok ((output.file, kept), failures ++ dropped)) ∧
      output.failures = notes ++ dropped ++ unsampled ∧
      (∀ note ∈ notes, note.problem.isNaming = true) ∧
      ∀ failure ∈ unsampled, failure.root ∈ Fields.names kept := by
  obtain ⟨notes, hcollect, hcollects⟩ := run_collect_firstRoots trees
  obtain ⟨output, kept, dropped, hrun, hskipped⟩ :=
    ofTrees_skipped settings withFixtures (keyed_firstRoots hdistinct) hcollect
  obtain ⟨complete, hregistry, hfile⟩ := hskipped.file
  refine ⟨output, kept, notes, dropped, _, complete, hrun, hskipped.drops, hregistry, hfile,
    hskipped.settles, hskipped.failures, isNaming_of_collects hcollects, fun failure hfailure => ?_⟩
  split at hfailure
  next => exact root_of_mem_unsampled hfailure
  next => cases hfailure

def isGuardFailure (aliasName : String) (failure : RootProblem) : Bool :=
  failure.root == aliasName && !failure.problem.isNaming

/-- A run that skips failures comes to an end that more rounds do not change.  It keeps
the greatest consistent set of the named roots, in their order, and has one failure for
each of the others. -/
theorem keeps_greatest_consistent (settings : Settings) (withFixtures : Bool)
    (hdistinct : ∀ tree ∈ trees, tree.Distinct) :
    ∃ output kept dropped, ofTrees settings .skip withFixtures trees = .ok output ∧
      (∀ rounds, (firstRoots trees).length < rounds → ∀ failures,
        (settle .skip settings rounds (firstRoots trees)).run failures =
          .ok ((output.file, kept), failures ++ dropped)) ∧
      ((∀ failure ∈ output.failures, failure.problem.isExhaustion = false) →
        kept.Sublist (firstRoots trees) ∧ Consistent settings.maxDepth kept ∧
        (∀ other, other ⊆ firstRoots trees → Consistent settings.maxDepth other → other ⊆ kept) ∧
        (∃ complete, registry settings kept = .ok complete ∧
          complete.assemble = .ok output.file) ∧
        output.file.functions.map (·.name) =
          Writing.arrayGuardName :: (Fields.names kept).map settings.guardName ∧
        ∀ aliasName ∈ Fields.names (firstRoots trees), aliasName ∉ Fields.names kept →
          output.failures.countP (isGuardFailure aliasName) = 1) := by
  obtain ⟨output, kept, notes, dropped, unsampled, complete, hrun, hdrops, hregistry, hfile,
    hsettle, hfailures, hnotes, hunsampled⟩ := ofTrees_skip settings withFixtures hdistinct
  have hkeyed := keyed_firstRoots hdistinct
  refine ⟨output, kept, dropped, hrun, hsettle, fun hnames => ⟨hdrops.sublist, hdrops.consistent,
    fun other hother => ?_, ⟨complete, hregistry, hfile⟩, ?_, fun aliasName halias hgone => ?_⟩⟩
  · refine hdrops.greatest hkeyed.nodup (fun failure hfailure => hnames failure ?_) hother
    rw [hfailures]
    exact List.mem_append_left _ (List.mem_append_right _ hfailure)
  · obtain ⟨hsound, rfl⟩ := registry_sound (hkeyed.sublist hdrops.sublist).roots hregistry
    rw [hsound.function_names hfile, hsound.guards]
  · have hnaming : notes.countP (isGuardFailure aliasName) = 0 :=
      List.countP_eq_zero.mpr fun note hnote => by simp [isGuardFailure, hnotes note hnote]
    have hfixtures : unsampled.countP (isGuardFailure aliasName) = 0 := by
      refine List.countP_eq_zero.mpr fun failure hfailure => ?_
      have hne : failure.root ≠ aliasName := by
        rintro rfl
        exact hgone (hunsampled failure hfailure)
      simp [isGuardFailure, hne]
    have hroots : dropped.countP (isGuardFailure aliasName) =
        (dropped.map (·.root)).count aliasName := by
      rw [List.count, List.countP_map]
      refine List.countP_congr fun failure hfailure => ?_
      simp [isGuardFailure, hdrops.notNaming failure hfailure]
    -- The alias is once among the dropped and the kept roots, and not among the kept.
    have hcount := (hdrops.perm hkeyed.nodup).count_eq aliasName
    rw [List.count_append, List.count_eq_zero.mpr hgone,
      List.count_eq_one_of_mem hkeyed.nodup halias] at hcount
    rw [hfailures, List.countP_append, List.countP_append, hnaming, hfixtures, hroots]
    omega

def cascade : List TypeTree :=
  [.object ⟨false, some "User"⟩ [("broken", .reference .bare "Broken")] [],
    .union ⟨false, some "Broken"⟩ [.primitive .bare .string],
    .object ⟨false, some "Fine"⟩ [("next", .reference .bare "Fine")] [],
    .primitive ⟨false, some "User"⟩ .number]

theorem keeps_greatest_consistent_cascade :
    ∃ output kept, ofTrees .standard .skip false cascade = .ok output ∧
      Fields.names kept = ["Fine"] ∧ Consistent Settings.standard.maxDepth kept ∧
      output.failures.countP (isGuardFailure "User") = 1 ∧
      output.failures.countP (isGuardFailure "Broken") = 1 := by
  have hdistinct : ∀ tree ∈ cascade, tree.Distinct := by
    have huser : TypeTree.Distinct
        (.object ⟨false, some "User"⟩ [("broken", .reference .bare "Broken")] []) :=
      .object (by decide) (by simpa using .reference)
    have hbroken : TypeTree.Distinct (.union ⟨false, some "Broken"⟩ [.primitive .bare .string]) :=
      .union (by simpa using .primitive)
    have hfine : TypeTree.Distinct
        (.object ⟨false, some "Fine"⟩ [("next", .reference .bare "Fine")] []) :=
      .object (by decide) (by simpa using .reference)
    simpa [cascade] using ⟨huser, hbroken, hfine, .primitive⟩
  obtain ⟨output, kept, dropped, hrun, -, hkeeps⟩ :=
    keeps_greatest_consistent .standard false hdistinct
  have hresult : (ofTrees .standard .skip false cascade).toOption.map (fun output =>
      (output.failures.all fun failure => !failure.problem.isExhaustion,
        output.file.functions.map (·.name))) = some (true, ["isArray", "isFine"]) := by
    decide +kernel
  rw [hrun] at hresult
  obtain ⟨hnames, hfunctions⟩ := Prod.ext_iff.mp (Option.some.inj hresult)
  obtain ⟨-, hconsistent, -, -, hguards, hfailures⟩ := hkeeps (by simpa using hnames)
  have hkept : Fields.names kept = ["Fine"] := by
    have hmap : (Fields.names kept).map Settings.standard.guardName =
        ["Fine"].map Settings.standard.guardName :=
      (List.cons.inj (hguards.symm.trans hfunctions)).2
    exact List.map_injective_iff.mpr (Registry.guardName_injective _) hmap
  refine ⟨output, kept, hrun, hkept, hconsistent, hfailures "User" (by decide +kernel) ?_,
    hfailures "Broken" (by decide +kernel) ?_⟩ <;> simp [hkept]

end Batch

end TypeGuard
