import Mathlib.Data.List.Chain
import TypeGuard.Proofs.Limits

/-!
# Which roots have samplers

A root has a sampler if and only if four things hold of all that it leads to: every alias is
that of a root, no alias leads back to itself, every union is legal, and with roots put in
for references the type does not nest too deep.

An expansion never sees the graph of references.  It goes down one path at a time, knows
the aliases above, and fails where one of them comes up again.  On a path the aliases above
refer to each other one after the other, so what is reported is a way through the graph
that ends where it has been before.
-/

namespace TypeGuard

open Batch

/-! ## Expanded types -/

/-- With roots put in for references, a type has a node at a depth.  A reference is a node
of its own, one level above its root. -/
inductive HasNodeAt (roots : Fields TypeTree) : Nat → TypeTree → Prop
  | self {tree : TypeTree} : HasNodeAt roots 0 tree
  | element {depth : Nat} {label : Label} {element : TypeTree} :
      HasNodeAt roots depth element → HasNodeAt roots (depth + 1) (.array label element)
  | member {depth : Nat} {label : Label} {members : List TypeTree} {member : TypeTree} :
      member ∈ members → HasNodeAt roots depth member →
      HasNodeAt roots (depth + 1) (.union label members)
  | attr {depth : Nat} {label : Label} {attributes : List (String × TypeTree)}
      {optionalNames : List String} {entry : String × TypeTree} :
      entry ∈ attributes → HasNodeAt roots depth entry.2 →
      HasNodeAt roots (depth + 1) (.object label attributes optionalNames)
  | root {depth : Nat} {label : Label} {name : String} {root : TypeTree} :
      Fields.find? name roots = some root → HasNodeAt roots depth root →
      HasNodeAt roots (depth + 1) (.reference label name)

/-- A way through the references of the roots that begins with the aliases `start` and ends
with an alias that it has met before. -/
structure Circle (roots : Fields TypeTree) (start cycle : List String) : Prop where
  starts : start <+: cycle
  refers : cycle.IsChain (Refers roots)
  closes : ∃ front last, cycle = front ++ [last] ∧ last ∈ front

theorem Circle.circular {roots : Fields TypeTree} {root : String} {cycle : List String}
    (h : Circle roots [root] cycle) :
    ∃ name, Relation.ReflTransGen (Refers roots) root name ∧
      Relation.TransGen (Refers roots) name name := by
  obtain ⟨front, last, rfl, hlast⟩ := h.closes
  obtain ⟨before, between, rfl⟩ := List.append_of_mem hlast
  refine ⟨last, ?_, ?_⟩
  · obtain ⟨rest, hrest : root :: rest = _⟩ := h.starts
    refine List.relationReflTransGen_of_exists_isChain_cons rest (hrest ▸ h.refers) ?_
    simp only [hrest, List.getLast_append_singleton]
  · have hback : (last :: (between ++ [last])).IsChain (Refers roots) := by
      have hchain := h.refers
      rw [List.append_assoc, List.cons_append] at hchain
      exact hchain.right_of_append
    obtain ⟨next, rest, hnext⟩ := List.exists_cons_of_ne_nil
      (List.append_ne_nil_of_right_ne_nil between (List.cons_ne_nil last []))
    rw [hnext, List.isChain_cons_cons] at hback
    refine .head' hback.1 (List.relationReflTransGen_of_exists_isChain_cons rest hback.2 ?_)
    simp only [← hnext, List.getLast_append_singleton]

namespace Expansion

variable {expansion : Expansion} {budget : Nat} {path : Path} {enclosing : List String}
  {tree : TypeTree}

structure Expandable (expansion : Expansion) (root : String) (tree : TypeTree) : Prop where
  registered : ∀ name, Relation.ReflTransGen (Refers expansion.roots) root name →
    name ∈ Fields.names expansion.roots
  acyclic : ∀ name, Relation.ReflTransGen (Refers expansion.roots) root name →
    ¬ Relation.TransGen (Refers expansion.roots) name name
  legal : ∀ name target, Relation.ReflTransGen (Refers expansion.roots) root name →
    Fields.find? name expansion.roots = some target → target.LegalUnions
  shallow : ∀ depth, HasNodeAt expansion.roots depth tree → depth ≤ expansion.maxDepth

/-! ## What an expansion that succeeds shows -/

theorem not_succeeds_zero : ¬ Succeeds (expansion.expand 0 path enclosing tree) := by
  rintro ⟨_, h⟩
  cases h

theorem legalUnions_of_succeeds (h : Succeeds (expansion.expand budget path enclosing tree)) :
    tree.LegalUnions := by
  induction budget generalizing path tree with
  | zero => exact absurd h not_succeeds_zero
  | succ budget ih =>
      cases tree with
      | literal label value => exact .literal
      | primitive label kind => exact .primitive
      | reference label name => exact .reference
      | array label element => exact .array (ih (succeeds_array_iff.mp h))
      | union label members =>
          obtain ⟨hcheck, hmembers⟩ := succeeds_union_iff.mp h
          obtain ⟨hlength, hflat⟩ := TypeTree.checkUnion_eq_ok_iff.mp hcheck
          exact .union hlength hflat fun member hmember => ih (hmembers member hmember)
      | object label attributes optionalNames =>
          exact .object fun attr hattr => ih (succeeds_object_iff.mp h attr hattr)

theorem depth_lt_of_succeeds {depth : Nat} (hnode : HasNodeAt expansion.roots depth tree)
    (h : Succeeds (expansion.expand budget path enclosing tree)) : depth < budget := by
  induction hnode generalizing budget path enclosing with
  | self => exact Nat.pos_of_ne_zero fun hzero => not_succeeds_zero (hzero ▸ h)
  | element _ ih =>
      cases budget with
      | zero => exact absurd h not_succeeds_zero
      | succ budget => exact Nat.succ_lt_succ (ih (succeeds_array_iff.mp h))
  | member hmember _ ih =>
      cases budget with
      | zero => exact absurd h not_succeeds_zero
      | succ budget => exact Nat.succ_lt_succ (ih ((succeeds_union_iff.mp h).2 _ hmember))
  | attr hattr _ ih =>
      cases budget with
      | zero => exact absurd h not_succeeds_zero
      | succ budget => exact Nat.succ_lt_succ (ih (succeeds_object_iff.mp h _ hattr))
  | root hroot _ ih =>
      cases budget with
      | zero => exact absurd h not_succeeds_zero
      | succ budget =>
          obtain ⟨-, target, htarget, hsucceeds⟩ := succeeds_reference_iff.mp h
          cases hroot.symm.trans htarget
          exact Nat.succ_lt_succ (ih hsucceeds)

theorem notMem_enclosing_of_leads {name other : String}
    (hleads : Relation.ReflTransGen (Refers expansion.roots) name other)
    (h : Succeeds (expansion.expand budget path enclosing tree)) (hname : name ∈ tree.mentions) :
    other ∉ enclosing := by
  induction hleads using Relation.ReflTransGen.head_induction_on
    generalizing budget path enclosing tree with
  | refl => exact (succeeds_of_mention h hname).1
  | head hrefers _ ih =>
      obtain ⟨-, root, fewer, place, hroot, -, hsucceeds⟩ := succeeds_of_mention h hname
      obtain ⟨target, htarget, hnext⟩ := hrefers
      cases hroot.symm.trans htarget
      exact fun hmem => ih hsucceeds hnext (List.mem_append_left _ hmem)

theorem succeeds_sampler_of_leads
    (hkeyed : ∀ entry ∈ expansion.roots, entry.2.aliasName = some entry.1) {root name : String}
    (hroot : Fields.find? root expansion.roots = some tree)
    (h : Succeeds (expansion.sampler tree))
    (hleads : Relation.ReflTransGen (Refers expansion.roots) root name) :
    ∃ target, Fields.find? name expansion.roots = some target ∧
      Succeeds (expansion.sampler target) := by
  induction hleads with
  | refl => exact ⟨tree, hroot, h⟩
  | tail _ hrefers ih =>
      obtain ⟨target, htarget, hsucceeds⟩ := ih
      obtain ⟨other, hother, hname⟩ := hrefers
      cases htarget.symm.trans hother
      exact succeeds_sampler_of_mention hkeyed hsucceeds hname

theorem expandable_of_succeeds
    (hkeyed : ∀ entry ∈ expansion.roots, entry.2.aliasName = some entry.1) {root : String}
    (hroot : Fields.find? root expansion.roots = some tree)
    (h : Succeeds (expansion.sampler tree)) : expansion.Expandable root tree where
  registered name hleads := by
    obtain ⟨target, htarget, -⟩ := succeeds_sampler_of_leads hkeyed hroot h hleads
    exact Fields.mem_names.mpr ⟨target, htarget⟩
  acyclic name hleads hcircle := by
    obtain ⟨target, htarget, hsucceeds⟩ := succeeds_sampler_of_leads hkeyed hroot h hleads
    obtain ⟨next, ⟨other, hother, hnext⟩, hback⟩ := Relation.TransGen.head'_iff.mp hcircle
    cases htarget.symm.trans hother
    -- The expansion of a root stands below the root's own alias.
    refine notMem_enclosing_of_leads hback hsucceeds hnext ?_
    rw [hkeyed _ (Fields.mem_of_find? htarget)]
    exact List.mem_singleton_self name
  legal name target hleads htarget := by
    obtain ⟨other, hother, hsucceeds⟩ := succeeds_sampler_of_leads hkeyed hroot h hleads
    cases htarget.symm.trans hother
    exact legalUnions_of_succeeds hsucceeds
  shallow depth hnode := Nat.le_of_lt_succ (depth_lt_of_succeeds hnode h)

/-! ## What makes an expansion succeed -/

structure Passable (roots : Fields TypeTree) (enclosing : List String) (name : String) :
    Prop where
  new : name ∉ enclosing
  acyclic : ¬ Relation.TransGen (Refers roots) name name
  legal : ∃ root, Fields.find? name roots = some root ∧ root.LegalUnions

theorem succeeds_of_passable (hunions : tree.LegalUnions)
    (hshallow : ∀ depth, HasNodeAt expansion.roots depth tree → depth < budget)
    (hpassable : ∀ name ∈ tree.mentions, ∀ other,
      Relation.ReflTransGen (Refers expansion.roots) name other →
      Passable expansion.roots enclosing other) :
    Succeeds (expansion.expand budget path enclosing tree) := by
  induction budget generalizing path enclosing tree with
  | zero => exact absurd (hshallow 0 .self) (Nat.lt_irrefl 0)
  | succ budget ih =>
      cases hunions with
      | literal => exact ⟨_, rfl⟩
      | primitive => exact ⟨_, rfl⟩
      | array helement =>
          refine succeeds_array_iff.mpr (ih helement (fun depth hnode => ?_) hpassable)
          exact Nat.lt_of_succ_lt_succ (hshallow _ (.element hnode))
      | union hlength hflat hmembers =>
          refine succeeds_union_iff.mpr
            ⟨TypeTree.checkUnion_eq_ok_iff.mpr ⟨hlength, hflat⟩, fun member hmember => ?_⟩
          refine ih (hmembers member hmember) (fun depth hnode => ?_) fun name hname =>
            hpassable name (TypeTree.mem_memberMentions.mpr ⟨member, hmember, hname⟩)
          exact Nat.lt_of_succ_lt_succ (hshallow _ (.member hmember hnode))
      | object hattributes =>
          refine succeeds_object_iff.mpr fun attr hattr => ?_
          refine ih (hattributes attr hattr) (fun depth hnode => ?_) fun name hname =>
            hpassable name (TypeTree.mem_attributeMentions.mpr ⟨attr, hattr, hname⟩)
          exact Nat.lt_of_succ_lt_succ (hshallow _ (.attr hattr hnode))
      | @reference label name =>
          have hleads := hpassable name List.mem_cons_self
          obtain ⟨hnew, hacyclic, root, hroot, hlegal⟩ := hleads name .refl
          refine succeeds_reference_iff.mpr ⟨hnew, root, hroot, ih hlegal (fun depth hnode => ?_)
            fun next hnext other hother => ?_⟩
          · exact Nat.lt_of_succ_lt_succ (hshallow _ (.root hroot hnode))
          · have hrefers : Refers expansion.roots name next := ⟨root, hroot, hnext⟩
            have hpass := hleads other (.head hrefers hother)
            refine { hpass with new := fun hmem => ?_ }
            rcases List.mem_append.mp hmem with hold | hself
            · exact hpass.new hold
            · cases List.mem_singleton.mp hself
              exact hacyclic (.head' hrefers hother)

theorem succeeds_of_expandable {root : String} (halias : tree.aliasName = some root)
    (hroot : Fields.find? root expansion.roots = some tree)
    (h : expansion.Expandable root tree) : Succeeds (expansion.sampler tree) := by
  refine succeeds_of_passable (h.legal root tree .refl hroot)
    (fun depth hnode => Nat.lt_succ_of_le (h.shallow depth hnode)) fun name hname other hother => ?_
  have hrefers : Refers expansion.roots root name := ⟨tree, hroot, hname⟩
  have hleads : Relation.ReflTransGen (Refers expansion.roots) root other := .head hrefers hother
  obtain ⟨target, htarget⟩ := Fields.mem_names.mp (h.registered other hleads)
  refine ⟨?_, h.acyclic other hleads, target, htarget, h.legal other target hleads htarget⟩
  rw [halias]
  intro hmem
  cases List.mem_singleton.mp hmem
  exact h.acyclic _ .refl (.head' hrefers hother)

/-! ## The cycle that is reported -/

theorem checkUnion_ne_aliasCycle {place : Path} {members : List TypeTree} {cycle : List String} :
    TypeTree.checkUnion place members ≠ .error (.aliasCycle cycle) := by
  intro h
  have hoffends : TypeTree.Node.Offends 0 ⟨0, place, .union .bare members⟩ (.aliasCycle cycle) :=
    TypeTree.offends_of_checkUnion (Nat.le_refl 0) h
  cases hoffends

/-- Where the aliases above a type refer to each other one after the other, and the last of
them to all that the type mentions, the cycle that is reported begins with them. -/
theorem circle_of_aliasCycle {cycle : List String}
    (hrefers : ∀ name ∈ tree.mentions, (enclosing ++ [name]).IsChain (Refers expansion.roots))
    (h : expansion.expand budget path enclosing tree = .error (.aliasCycle cycle)) :
    Circle expansion.roots enclosing cycle := by
  induction budget generalizing path enclosing tree with
  | zero => cases h
  | succ budget ih =>
      cases tree with
      | literal label value => cases h
      | primitive label kind => cases h
      | array label element =>
          rcases bind_eq_error.mp h with helement | ⟨_, -, h⟩
          · refine ih ?_ helement
            exact hrefers
          · cases h
      | union label members =>
          rcases bind_eq_error.mp h with hcheck | ⟨_, -, h⟩
          · exact absurd hcheck checkUnion_ne_aliasCycle
          rcases bind_eq_error.mp h with hmembers | ⟨_, -, h⟩
          · obtain ⟨member, hmember, hfails⟩ := exists_mem_of_mapM_eq_error hmembers
            exact ih (fun name hname =>
              hrefers name (TypeTree.mem_memberMentions.mpr ⟨member, hmember, hname⟩)) hfails
          · cases h
      | object label attributes optionalNames =>
          rcases bind_eq_error.mp h with hattributes | ⟨_, -, h⟩
          · obtain ⟨attr, hattr, hfails⟩ := exists_mem_of_mapM_eq_error hattributes
            rcases bind_eq_error.mp hfails with hfails | ⟨_, -, hfails⟩
            · exact ih (fun name hname =>
                hrefers name (TypeTree.mem_attributeMentions.mpr ⟨attr, hattr, hname⟩)) hfails
            · cases hfails
          · cases h
      | reference label name =>
          have hchain := hrefers name List.mem_cons_self
          simp only [expand] at h
          split at h
          next hmem =>
              cases h
              exact ⟨List.prefix_append _ _, hchain, enclosing, name, rfl, hmem⟩
          split at h
          next => cases h
          next root hroot =>
              have hcircle := ih (fun next hnext => ?_) h
              · exact ⟨(List.prefix_append _ _).trans hcircle.starts, hcircle.refers,
                  hcircle.closes⟩
              · rw [List.append_assoc, List.singleton_append, List.isChain_append_cons_cons]
                exact ⟨hchain, ⟨root, hroot, hnext⟩, List.isChain_singleton next⟩

/-- A root has a sampler exactly if all that it leads to is registered, acyclic, legal and
shallow.  If it is refused for a cycle, the cycle is a circle through the references that
begins at the root; so it is never refused for one where no alias leads back to itself. -/
theorem succeeds_sampler_iff_expandable (expansion : Expansion)
    (hkeyed : ∀ entry ∈ expansion.roots, entry.2.aliasName = some entry.1) {root : String}
    {tree : TypeTree} (hroot : Fields.find? root expansion.roots = some tree) :
    (Succeeds (expansion.sampler tree) ↔ expansion.Expandable root tree) ∧
      (∀ cycle, expansion.sampler tree = .error (.aliasCycle cycle) →
        Circle expansion.roots [root] cycle) ∧
      ((∀ name, Relation.ReflTransGen (Refers expansion.roots) root name →
          ¬ Relation.TransGen (Refers expansion.roots) name name) →
        ∀ cycle, expansion.sampler tree ≠ .error (.aliasCycle cycle)) := by
  have halias : tree.aliasName = some root := hkeyed _ (Fields.mem_of_find? hroot)
  have hcircle : ∀ cycle, expansion.sampler tree = .error (.aliasCycle cycle) →
      Circle expansion.roots [root] cycle := by
    intro cycle hfails
    rw [sampler, halias] at hfails
    refine circle_of_aliasCycle (fun name hname => ?_) hfails
    exact List.isChain_pair.mpr ⟨tree, hroot, hname⟩
  refine ⟨⟨expandable_of_succeeds hkeyed hroot, succeeds_of_expandable halias hroot⟩, hcircle,
    fun hacyclic cycle hfails => ?_⟩
  obtain ⟨name, hleads, hback⟩ := (hcircle cycle hfails).circular
  exact hacyclic name hleads hback

def ringedRoots : Fields TypeTree :=
  [("Top", .object ⟨false, some "Top"⟩
      [("left", .reference .bare "Side"), ("right", .array .bare (.reference .bare "Side"))] []),
    ("Side", .union ⟨false, some "Side"⟩ [.reference .bare "Tip", .literal .bare .null]),
    ("Tip", .primitive ⟨false, some "Tip"⟩ .string),
    ("Ring", .object ⟨false, some "Ring"⟩
      [("tip", .reference .bare "Tip"), ("link", .reference .bare "Link")] []),
    ("Link", .array ⟨false, some "Link"⟩ (.reference .bare "Ring"))]

theorem succeeds_sampler_iff_expandable_ringedRoots :
    ∃ top ring, Fields.find? "Top" ringedRoots = some top ∧
      Fields.find? "Ring" ringedRoots = some ring ∧
      Expandable ⟨ringedRoots, 5⟩ "Top" top ∧ ¬ Expandable ⟨ringedRoots, 4⟩ "Top" top ∧
      (∀ cycle, sampler ⟨ringedRoots, 4⟩ top ≠ .error (.aliasCycle cycle)) ∧
      sampler ⟨ringedRoots, 5⟩ ring = .error (.aliasCycle ["Ring", "Link", "Ring"]) ∧
      Circle ringedRoots ["Ring"] ["Ring", "Link", "Ring"] ∧
      ¬ Expandable ⟨ringedRoots, 5⟩ "Ring" ring := by
  have hkeyed : ∀ entry ∈ ringedRoots, entry.2.aliasName = some entry.1 := by
    simp [ringedRoots, TypeTree.aliasName, TypeTree.label]
  obtain ⟨top, htop⟩ : ∃ top, Fields.find? "Top" ringedRoots = some top := ⟨_, rfl⟩
  obtain ⟨ring, hring⟩ : ∃ ring, Fields.find? "Ring" ringedRoots = some ring := ⟨_, rfl⟩
  obtain ⟨hdeep, -, -⟩ := succeeds_sampler_iff_expandable ⟨ringedRoots, 5⟩ hkeyed htop
  obtain ⟨hflat, -, hnone⟩ := succeeds_sampler_iff_expandable ⟨ringedRoots, 4⟩ hkeyed htop
  obtain ⟨hcyclic, hcircle, -⟩ := succeeds_sampler_iff_expandable ⟨ringedRoots, 5⟩ hkeyed hring
  have hfails : sampler ⟨ringedRoots, 5⟩ ring = .error (.aliasCycle ["Ring", "Link", "Ring"]) := by
    cases hring
    rfl
  have hexpandable : Expandable ⟨ringedRoots, 5⟩ "Top" top := by
    cases htop
    exact hdeep.mp ⟨_, rfl⟩
  refine ⟨top, ring, htop, hring, hexpandable, fun h => ?_, hnone hexpandable.acyclic, hfails,
    hcircle _ hfails, fun h => ?_⟩
  · cases htop
    obtain ⟨_, hsucceeds⟩ := hflat.mpr h
    cases hsucceeds
  · obtain ⟨_, hsucceeds⟩ := hcyclic.mpr h
    cases hfails.symm.trans hsucceeds

end Expansion

end TypeGuard
