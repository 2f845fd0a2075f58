import Mathlib.Data.List.Induction
import TypeGuard.Proofs.Admission
import TypeGuard.Proofs.Session

/-!
# The history of a session

A registry keeps one guard and one list of references for each alias.  Both come from the
registrations that succeeded: the aliases stand in the order in which they were first
registered, and what an alias has is what its last registration wrote.
-/

namespace TypeGuard

/-! ## Fields from a list -/

namespace Fields

variable {α : Type}

@[simp] theorem ofList_concat (entries : List (String × α)) (name : String) (value : α) :
    ofList (entries ++ [(name, value)]) = insert name value (ofList entries) := by
  simp [ofList, extend]

@[simp] theorem names_ofList (entries : List (String × α)) :
    names (ofList entries) = (names entries).eraseDups := by
  induction entries using List.reverseRecOn with
  | nil => rfl
  | append_singleton entries entry ih =>
      have hnames : names (entries ++ [entry]) = names entries ++ [entry.1] := by simp
      rw [ofList_concat, names_insert, ih, hnames, List.eraseDups_append]
      by_cases hmem : entry.1 ∈ names entries <;> simp [List.removeAll, List.eraseDups_cons, hmem]

@[simp] theorem find?_ofList (entries : List (String × α)) (name : String) :
    find? name (ofList entries) = find? name entries.reverse := by
  induction entries using List.reverseRecOn with
  | nil => rfl
  | append_singleton entries entry ih =>
      rw [ofList_concat, List.reverse_append, List.reverse_singleton, List.singleton_append, find?]
      split
      next hname => simp [hname]
      next hname => rw [find?_insert_of_ne (Ne.symm hname), ih]

section

variable {β : Type} (key : α → String) (value : α → β) (items : List α)

theorem find?_map (name : String) :
    find? name (items.map fun item => (key item, value item)) =
      (items.find? fun item => key item == name).map value := by
  induction items with
  | nil => rfl
  | cons item rest ih =>
      rw [List.map_cons, find?, List.find?_cons, ih]
      split
      next hname => simp [hname]
      next hname => rw [beq_eq_false_iff_ne.mpr hname]

theorem names_ofList_map :
    names (ofList (items.map fun item => (key item, value item))) =
      (items.map key).eraseDups := by
  rw [names_ofList, names, List.map_map]
  rfl

theorem find?_ofList_map (name : String) :
    find? name (ofList (items.map fun item => (key item, value item))) =
      (items.reverse.find? fun item => key item == name).map value := by
  rw [find?_ofList, ← List.map_reverse, find?_map]

end

end Fields

/-! ## Registrations -/

structure Registered where
  aliasName : String
  tree : TypeTree
  guard : Function
  references : List Reference

namespace Registry

variable {registry later : Registry} {tree : TypeTree}

def registered? (registry : Registry) (tree : TypeTree) : Option Registered := do
  let _ ← (registry.register tree).toOption
  let aliasName ← tree.aliasName
  let (guard, references) ← (registry.write aliasName tree).toOption
  return ⟨aliasName, tree, guard, references⟩

structure Wrote (registry : Registry) (entry : Registered) : Prop where
  written : registry.write entry.aliasName entry.tree = .ok (entry.guard, entry.references)
  admits : ∀ r ∈ entry.references, registry.admits entry.aliasName r.name = true

theorem registered?_eq_none {problem : Problem} (h : registry.register tree = .error problem) :
    registry.registered? tree = none := by
  rw [registered?, h]
  rfl

theorem registered?_of_ok (h : registry.register tree = .ok later) :
    ∃ entry, registry.registered? tree = some entry ∧ registry.Wrote entry ∧
      later = { registry with
        guards := Fields.insert entry.aliasName entry.guard registry.guards
        references := Fields.insert entry.aliasName entry.references registry.references } := by
  obtain ⟨aliasName, -, -, halias, -⟩ := register_ok h
  obtain ⟨guard, references, hwrite, hadmits, hlater⟩ := register_eq_ok halias h
  refine ⟨⟨aliasName, tree, guard, references⟩, ?_, ⟨hwrite, hadmits⟩, hlater⟩
  simp [registered?, h, halias, hwrite, Except.toOption]

end Registry

/-! ## Sessions -/

namespace Session

def registered? (session : Session) : Step → Option Registered
  | .announce _ => none
  | .register tree => session.registry.registered? tree

def history : Session → List Step → List Registered
  | _, [] => []
  | session, action :: rest =>
      (session.registered? action).toList ++ history (session.step action) rest

def last? (history : List Registered) (aliasName : String) : Option Registered :=
  history.reverse.find? fun entry => entry.aliasName == aliasName

/-- The registry has what the history left behind, on top of what it had before. -/
structure Logged (before : Registry) (history : List Registered) (after : Registry) : Prop where
  settings : after.settings = before.settings
  guards : after.guards =
    Fields.extend before.guards (history.map fun entry => (entry.aliasName, entry.guard))
  references : after.references =
    Fields.extend before.references (history.map fun entry => (entry.aliasName, entry.references))
  wrote : ∀ entry ∈ history, ∃ registry : Registry, registry.settings = before.settings ∧
    registry.Wrote entry

variable {before middle after : Registry} {first second : List Registered}

theorem Logged.trans (hfirst : Logged before first middle)
    (hsecond : Logged middle second after) : Logged before (first ++ second) after where
  settings := hsecond.settings.trans hfirst.settings
  guards := by
    simp [hsecond.guards, hfirst.guards, Fields.extend]
  references := by
    simp [hsecond.references, hfirst.references, Fields.extend]
  wrote := List.forall_mem_append.mpr ⟨hfirst.wrote, hfirst.settings ▸ hsecond.wrote⟩

theorem logged_step (session : Session) (action : Step) :
    Logged session.registry (session.registered? action).toList
      (session.step action).registry := by
  cases action with
  | announce names => exact ⟨rfl, rfl, rfl, by simp [registered?]⟩
  | register tree =>
      rw [registered?, step]
      cases hregister : session.registry.register tree with
      | error problem =>
          rw [Registry.registered?_eq_none hregister]
          exact ⟨rfl, rfl, rfl, by simp⟩
      | ok later =>
          obtain ⟨entry, hentry, hwrote, rfl⟩ := Registry.registered?_of_ok hregister
          rw [hentry]
          exact ⟨rfl, rfl, rfl, by simpa using ⟨_, rfl, hwrote⟩⟩

theorem logged_run (session : Session) (steps : List Step) :
    Logged session.registry (history session steps) (steps.foldl step session).registry := by
  induction steps generalizing session with
  | nil => exact ⟨rfl, rfl, rfl, by simp [history]⟩
  | cons action rest ih => exact (logged_step session action).trans (ih (session.step action))

end Session

end TypeGuard
