import Mathlib.Data.List.Perm.Subperm
import Mathlib.Logic.Relation
import TypeGuard.Proofs.Legality
import TypeGuard.Proofs.Session

/-!
# Guards come to an answer

An attribute or an item lies less deep than the sample that it is part of, and a
missing attribute is `undefined`, which has no parts.  So a guard that calls
another one on the same sample does it through an unguarded reference: its type is
a reference, or a union with a reference as a member.  Where such references go in
no circle, the guards that are open on one sample are of different roots, and a
sample needs at most one call for each root at each level of its nesting.
-/

namespace TypeGuard

/-! ## Nesting -/

namespace Sample

mutual

def nesting : Sample → Nat
  | .array items => itemsNesting items + 1
  | .object fields => fieldsNesting fields + 1
  | _ => 0

def itemsNesting : List Sample → Nat
  | [] => 0
  | item :: rest => max (nesting item) (itemsNesting rest)

def fieldsNesting : List (String × Sample) → Nat
  | [] => 0
  | (_, value) :: rest => max (nesting value) (fieldsNesting rest)

end

theorem nesting_lt_of_mem {items : List Sample} {item : Sample} (h : item ∈ items) :
    item.nesting < (array items).nesting := by
  rw [nesting, Nat.lt_succ_iff]
  induction items with
  | nil => cases h
  | cons first rest ih =>
      rw [itemsNesting]
      rcases List.mem_cons.mp h with rfl | hrest
      · exact Nat.le_max_left _ _
      · exact Nat.le_trans (ih hrest) (Nat.le_max_right _ _)

theorem nesting_field_le (name : String) (fields : Fields Sample) :
    (field name fields).nesting ≤ fieldsNesting fields := by
  induction fields with
  | nil => exact Nat.le_refl 0
  | cons first rest ih =>
      obtain ⟨key, value⟩ := first
      rw [fieldsNesting, field, Fields.find?]
      split
      · exact Nat.le_max_left _ _
      · exact Nat.le_trans ih (Nat.le_max_right _ _)

theorem nesting_field_lt {sample : Sample} (h : sample.isObjectOrArray = true) (name : String) :
    (field name sample.fields).nesting < sample.nesting := by
  cases sample with
  | array items => exact Nat.succ_pos _
  | object fields =>
      rw [nesting, Nat.lt_succ_iff]
      exact nesting_field_le name fields
  | _ => cases h

end Sample

/-! ## Unguarded references -/

namespace TypeTree

def referenced? : TypeTree → Option String
  | .reference _ name => some name
  | _ => none

/-- The aliases that a type refers to without an attribute or an item in between:
its own, if it is a reference, and those of the members of a union. -/
def unguarded : TypeTree → List String
  | .reference _ name => [name]
  | .union _ members => members.filterMap referenced?
  | _ => []

mutual

def heads : TypeTree → List String
  | .reference _ name => [name]
  | .union _ members => memberHeads members
  | _ => []

def memberHeads : List TypeTree → List String
  | [] => []
  | member :: rest => heads member ++ memberHeads rest

end

theorem memberHeads_eq_filterMap {members : List TypeTree}
    (h : ∀ member ∈ members, member.isUnion = false) :
    memberHeads members = members.filterMap referenced? := by
  induction members with
  | nil => rfl
  | cons member rest ih =>
      rw [List.forall_mem_cons] at h
      rw [memberHeads, ih h.2]
      cases member with
      | union => cases h.1
      | _ => simp [heads, referenced?, List.filterMap_cons]

end TypeTree

def RefersUnguarded (roots : Fields TypeTree) (root name : String) : Prop :=
  ∃ tree, Fields.find? root roots = some tree ∧ name ∈ tree.unguarded

/-- No circle of roots is made of unguarded references only. -/
def Guarded (roots : Fields TypeTree) : Prop :=
  ∀ name, ¬ Relation.TransGen (RefersUnguarded roots) name name

/-! ## Verdicts that are answers -/

namespace Verdict

def Decided (result : Except EvalError Bool) : Prop := ∃ answer, result = .ok answer

theorem Decided.ok (answer : Bool) : Decided (.ok answer) := ⟨answer, rfl⟩

theorem Decided.and {result next : Except EvalError Bool} (h : Decided result)
    (hnext : Decided next) :
    Decided (do let passes ← result; if passes then next else return false) := by
  obtain ⟨answer, rfl⟩ := h
  cases answer with
  | true => exact hnext
  | false => exact .ok false

theorem Decided.or {result next : Except EvalError Bool} (h : Decided result)
    (hnext : Decided next) :
    Decided (do let passes ← result; if passes then return true else next) := by
  obtain ⟨answer, rfl⟩ := h
  cases answer with
  | true => exact .ok true
  | false => exact hnext

theorem ofItems_decided {item : Sample → Except EvalError Bool} {items : List Sample}
    (h : ∀ sample ∈ items, Decided (item sample)) : Decided (ofItems item items) := by
  induction items with
  | nil => exact .ok true
  | cons first rest ih =>
      rw [List.forall_mem_cons] at h
      exact h.1.and (ih h.2)

variable {levels : Nat} {below : TypeTree → Sample → Except EvalError Bool}
  {roots : Fields TypeTree}

theorem checkEvery_decided {attributes : List (String × TypeTree)} {fields : Fields Sample}
    (h : ∀ attr ∈ attributes,
      Decided (check levels below roots attr.2 (Sample.field attr.1 fields))) :
    Decided (checkEvery levels below roots attributes fields) := by
  induction attributes with
  | nil => exact .ok true
  | cons attr rest ih =>
      rw [List.forall_mem_cons] at h
      exact h.1.and (ih h.2)

def PartsDecided (levels : Nat) (below : TypeTree → Sample → Except EvalError Bool)
    (roots : Fields TypeTree) (sample : Sample) : Prop :=
  ∀ part : Sample, part.nesting < sample.nesting → ∀ tree,
    Decided (below tree part) ∧ Decided (check levels below roots tree part)

mutual

/-- A check comes to an answer if the checks of smaller samples do, and the guards
that it calls on the sample itself. -/
theorem check_decided {sample : Sample} (hlevels : levels ≠ 0)
    (hparts : PartsDecided levels below roots sample) (tree : TypeTree)
    (hheads : ∀ name ∈ tree.heads, ∀ root, Fields.find? name roots = some root →
      Decided (below root sample)) :
    Decided (check levels below roots tree sample) := by
  match tree with
  | .literal _ value => exact .ok _
  | .primitive _ kind => exact .ok _
  | .array _ element =>
      rw [check]
      unfold ofArray
      rw [if_neg hlevels]
      split
      next items =>
          exact ofItems_decided fun item hitem =>
            (hparts item (Sample.nesting_lt_of_mem hitem) element).1
      next => exact .ok false
  | .union _ members => exact checkSome_decided hlevels hparts members hheads
  | .object _ attributes _ =>
      rw [check]
      split
      next hsample =>
          exact checkEvery_decided fun attr _ =>
            (hparts _ (Sample.nesting_field_lt hsample attr.1) attr.2).2
      next => exact .ok false
  | .reference _ name =>
      rw [check]
      split
      next root hroot => exact hheads name (List.mem_singleton_self name) root hroot
      next => exact .ok false

theorem checkSome_decided {sample : Sample} (hlevels : levels ≠ 0)
    (hparts : PartsDecided levels below roots sample) (members : List TypeTree)
    (hheads : ∀ name ∈ TypeTree.memberHeads members, ∀ root,
      Fields.find? name roots = some root → Decided (below root sample)) :
    Decided (checkSome levels below roots members sample) := by
  match members with
  | [] => exact .ok false
  | member :: rest =>
      rw [TypeTree.memberHeads, List.forall_mem_append] at hheads
      exact (check_decided hlevels hparts member hheads.1).or
        (checkSome_decided hlevels hparts rest hheads.2)

end

end Verdict

/-! ## How many levels are enough -/

section

open Verdict

variable {roots : Fields TypeTree}

def enoughLevels (roots : Fields TypeTree) (bound : Nat) : Nat :=
  bound * (roots.length + 1) + 1

/-- The roots whose guards are open on a sample lead to the next one, so they are
all different, and each leaves one level less for the others. -/
theorem root_decided (hguarded : Guarded roots)
    (hflat : ∀ entry ∈ roots, entry.2.heads = entry.2.unguarded) {sample : Sample} {base : Nat}
    (hbase : base ≠ 0)
    (hparts : ∀ part : Sample, part.nesting < sample.nesting → ∀ tree levels, base ≤ levels →
      Decided (verdict roots levels tree part))
    {levels : Nat} {opened : List String} {name : String} {tree : TypeTree}
    (hnodup : opened.Nodup) (hsubset : opened ⊆ Fields.names roots)
    (hopened : ∀ earlier ∈ opened, Relation.TransGen (RefersUnguarded roots) earlier name)
    (htree : Fields.find? name roots = some tree)
    (hlevels : base + (roots.length - opened.length) ≤ levels) :
    Decided (verdict roots levels tree sample) := by
  induction levels generalizing opened name tree with
  | zero => omega
  | succ levels ih =>
      have hnew : name ∉ opened := fun hmem => hguarded name (hopened name hmem)
      have hroom : (name :: opened).length ≤ (Fields.names roots).length := by
        have hcons : name :: opened ⊆ Fields.names roots :=
          List.cons_subset.mpr ⟨Fields.mem_names.mpr ⟨tree, htree⟩, hsubset⟩
        exact (List.subperm_of_subset (List.nodup_cons.mpr ⟨hnew, hnodup⟩) hcons).length_le
      rw [List.length_cons, Fields.length_names] at hroom
      refine check_decided (by omega) (fun part hpart other => ?_) tree
        fun next hnext root hroot => ?_
      · exact ⟨hparts part hpart other levels (by omega),
          hparts part hpart other (levels + 1) (by omega)⟩
      · have hedge : RefersUnguarded roots name next :=
          ⟨tree, htree, hflat _ (Fields.mem_of_find? htree) ▸ hnext⟩
        refine ih (List.nodup_cons.mpr ⟨hnew, hnodup⟩) ?_ ?_ hroot ?_
        · exact List.cons_subset.mpr ⟨Fields.mem_names.mpr ⟨tree, htree⟩, hsubset⟩
        · exact List.forall_mem_cons.mpr
            ⟨.single hedge, fun earlier hearlier => (hopened earlier hearlier).tail hedge⟩
        · rw [List.length_cons]
          omega

theorem verdict_decided (hguarded : Guarded roots)
    (hflat : ∀ entry ∈ roots, entry.2.heads = entry.2.unguarded) {bound : Nat} {sample : Sample}
    (hsample : sample.nesting < bound) (tree : TypeTree) {levels : Nat}
    (hlevels : enoughLevels roots bound ≤ levels) :
    Decided (verdict roots levels tree sample) := by
  induction bound generalizing sample tree levels with
  | zero => exact absurd hsample (Nat.not_lt_zero _)
  | succ bound ih =>
      have hparts : ∀ part : Sample, part.nesting < sample.nesting → ∀ tree levels,
          enoughLevels roots bound ≤ levels → Decided (verdict roots levels tree part) :=
        fun part hpart tree _ h => ih (by omega) tree h
      have hstep : enoughLevels roots (bound + 1) =
          enoughLevels roots bound + roots.length + 1 := by
        rw [enoughLevels, enoughLevels, Nat.succ_mul]
        omega
      obtain ⟨levels, rfl⟩ : ∃ fewer, levels = fewer + 1 := ⟨levels - 1, by omega⟩
      have hbase : enoughLevels roots bound ≠ 0 := Nat.succ_ne_zero _
      refine check_decided (by omega) (fun part hpart other => ?_) tree fun name _ root hroot => ?_
      · exact ⟨hparts part hpart other levels (by omega),
          hparts part hpart other (levels + 1) (by omega)⟩
      · refine root_decided hguarded hflat hbase hparts List.nodup_nil (List.nil_subset _)
          (by simp) hroot ?_
        rw [List.length_nil]
        omega

end

/-! ## Registered types -/

namespace Registry

variable {registry : Registry} {trees : Fields TypeTree}

theorem WrittenFor.checkUnion {settings : Settings} {aliasName : String} {label : Label}
    {members : List TypeTree} {guard : Function} {references : List Reference}
    (h : WrittenFor settings aliasName (.union label members) guard references) :
    ∃ place, TypeTree.checkUnion place members = .ok () := by
  cases h with
  | intro hguard =>
      cases hguard with
      | intro hbody =>
          cases hbody with
          | union hcheck _ => exact ⟨_, hcheck⟩
          | single hcondition => cases hcondition

theorem Sound.heads_eq_unguarded (h : Sound registry trees) :
    ∀ entry ∈ trees, entry.2.heads = entry.2.unguarded := by
  rintro ⟨aliasName, tree⟩ hentry
  obtain ⟨_, _, -, -, hwritten⟩ := h.written _ _ (Fields.find?_of_mem h.nodup hentry)
  cases tree with
  | union label members =>
      obtain ⟨place, hcheck⟩ := hwritten.checkUnion
      have hflat := (TypeTree.checkUnion_eq_ok_iff.mp hcheck).2
      rw [TypeTree.heads, TypeTree.unguarded,
        TypeTree.memberHeads_eq_filterMap fun member hmember => (hflat member hmember).1]
  | _ => simp [TypeTree.heads, TypeTree.unguarded]

end Registry

/-! ## Sessions -/

namespace Session

/-- Where unguarded references go in no circle, every guard of a session's file comes to
an answer on every sample whose nesting is within the limit of calls, and it is the
meaning of the type. -/
theorem accepts_terminates (settings : Settings) (hstem : settings.stem = "is")
    (steps : List Step) (file : GuardFile)
    (hfile : (run settings steps).registry.assemble = .ok file)
    (harray : "Array" ∉ Fields.names (run settings steps).registry.guards)
    (hguarded : Guarded (run settings steps).trees) (aliasName : String)
    (halias : aliasName ∈ Fields.names (run settings steps).registry.guards) (sample : Sample)
    (hlimit : (sample.nesting + 2) * ((run settings steps).registry.guards.length + 2) ≤ 1000) :
    ∃ tree answer, Fields.find? aliasName (run settings steps).trees = some tree ∧
      file.accepts (settings.guardName aliasName) sample = .ok answer ∧
      (answer = true ↔ Conforms (run settings steps).trees tree sample) := by
  obtain ⟨hsettings, hsound⟩ := run_sound settings steps
  generalize run settings steps = session at *
  subst hsettings
  have hclear := Registry.namesClear_of_stem hstem harray
  obtain ⟨tree, htree⟩ := Fields.mem_names.mp (hsound.guards ▸ halias)
  rw [hsound.accepts_eq hclear hfile htree sample]
  have hlength : session.registry.guards.length = session.trees.length := by
    simpa using congrArg List.length hsound.guards
  have hlevels : enoughLevels session.trees (sample.nesting + 1) ≤ Evaluation.maxCallDepth + 1 := by
    have hproduct : (sample.nesting + 1) * (session.trees.length + 1) ≤
        (sample.nesting + 2) * (session.registry.guards.length + 2) :=
      Nat.mul_le_mul (by omega) (by omega)
    rw [enoughLevels, Evaluation.maxCallDepth]
    omega
  obtain ⟨answer, hanswer⟩ :=
    verdict_decided hguarded hsound.heads_eq_unguarded (Nat.lt_succ_self _) tree hlevels
  refine ⟨tree, answer, htree, hanswer, ?_⟩
  have hagrees := verdict_agrees session.trees (Evaluation.maxCallDepth + 1) tree sample
  rw [hanswer] at hagrees
  rcases hagrees with htooDeep | ⟨other, hother, hmeaning⟩
  · cases htooDeep
  · cases hother
    exact hmeaning

theorem guarded_cyclicSteps : Guarded (run .standard cyclicSteps).trees := by
  have hedges : ((run .standard cyclicSteps).trees.flatMap fun entry =>
      entry.2.unguarded.map fun name => (entry.1, name)) = [("Item", "Node")] := by
    decide +kernel
  have hedge : ∀ {root name : String}, RefersUnguarded (run .standard cyclicSteps).trees root name →
      root = "Item" ∧ name = "Node" := by
    rintro root name ⟨tree, htree, hname⟩
    have hmem : (root, name) ∈ [("Item", "Node")] := by
      rw [← hedges]
      exact List.mem_flatMap.mpr ⟨_, Fields.mem_of_find? htree, List.mem_map_of_mem hname⟩
    simpa using hmem
  intro name hcircle
  obtain ⟨first, hfirst, -⟩ := Relation.TransGen.head'_iff.mp hcircle
  obtain ⟨last, -, hlast⟩ := Relation.TransGen.tail'_iff.mp hcircle
  have hname := (hedge hfirst).1.symm.trans (hedge hlast).2
  exact absurd hname (by decide)

theorem accepts_terminates_cyclicSteps :
    ∃ file, (run .standard cyclicSteps).registry.assemble = .ok file ∧
      cyclicSample.nesting = 4 ∧ ∃ tree answer,
        Fields.find? "Node" (run .standard cyclicSteps).trees = some tree ∧
        file.accepts "isNode" cyclicSample = .ok answer ∧
        (answer = true ↔ Conforms (run .standard cyclicSteps).trees tree cyclicSample) := by
  have hsome : (run .standard cyclicSteps).registry.assemble.toOption.isSome = true := by
    decide +kernel
  obtain ⟨file, hfile⟩ := Option.isSome_iff_exists.mp hsome
  exact ⟨file, eq_ok_of_toOption hfile, by decide +kernel,
    accepts_terminates .standard rfl cyclicSteps file (eq_ok_of_toOption hfile) (by decide +kernel)
      guarded_cyclicSteps "Node" (by decide +kernel) cyclicSample (by decide +kernel)⟩

end Session

end TypeGuard
