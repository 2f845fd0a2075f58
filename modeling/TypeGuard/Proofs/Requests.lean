import TypeGuard.Proofs.Hygiene
import TypeGuard.Proofs.Ladder

/-!
# A run of requests for names

Names are reserved, attributes bound and fresh names taken in any order, and some of these
requests fail.  Each one finds the names that the requests before it left.

What a request gives was free in every space that it is taken in, and is taken there
afterwards; a request that fails takes nothing.  So no name is given twice in one space, nor
after it was reserved there, however the requests of both spaces are mixed.
-/

namespace TypeGuard.Names

inductive Space where
  | locals
  | types
  deriving DecidableEq

def taken (names : Names) : Space → NameSet
  | .locals => names.locals
  | .types => names.types

def reserve (names : Names) : Space → String → Names
  | .locals => names.reserveLocal
  | .types => names.reserveType

/-- Where a fresh name is taken: a function is a type and a local. -/
def Purpose.spaces : Purpose → List Space
  | .localName => [.locals]
  | .typeName => [.types]
  | .functionName => [.types, .locals]

inductive Request where
  | reserve (space : Space) (name : String)
  | bind (path : Path) (name : String)
  | fresh (purpose : Purpose) (path : Path) (proposed : String)

def Request.spaces : Request → List Space
  | .reserve space _ => [space]
  | .bind .. => [.locals]
  | .fresh purpose _ _ => purpose.spaces

theorem Request.exists_mem_spaces (request : Request) : ∃ space, space ∈ request.spaces := by
  cases request with
  | reserve space => exact ⟨space, List.mem_singleton_self space⟩
  | bind => exact ⟨.locals, List.mem_singleton_self _⟩
  | fresh purpose =>
      cases purpose with
      | localName => exact ⟨.locals, List.mem_singleton_self _⟩
      | typeName => exact ⟨.types, List.mem_singleton_self _⟩
      | functionName => exact ⟨.types, List.mem_cons_self⟩

def serve (names : Names) : Request → Except Problem (Option String) × Names
  | .reserve space name => (.ok none, names.reserve space name)
  | .bind path name => (names.bindAttribute path name).map (Except.map some) id
  | .fresh purpose path proposed =>
      match names.fresh purpose path proposed with
      | .ok (chosen, later) => (.ok (some chosen), later)
      | .error problem => (.error problem, names)

section

variable {names later : Names} {path : Path} {name chosen : String}

/-! ## Taking a name -/

@[simp] theorem mem_taken_reserve {space other : Space} {reserved : String} :
    name ∈ (names.reserve other reserved).taken space ↔
      (other = space ∧ name = reserved) ∨ name ∈ names.taken space := by
  cases other <;> cases space <;> simp [taken, reserve]

theorem takes_of_extends (spaces : List Space) {before after : Draft}
    (h : before.Extends (if Space.locals ∈ spaces then [chosen] else [])
      (if Space.types ∈ spaces then [chosen] else []) after) (space : Space) :
    (before.names.taken space).Takes (if space ∈ spaces then [chosen] else [])
      (after.names.taken space) := by
  cases space with
  | locals => exact h.toTakes
  | types => exact h.types

theorem takes_of_fresh {purpose : Purpose}
    (h : names.fresh purpose path name = .ok (chosen, later)) (space : Space) :
    (names.taken space).Takes (if space ∈ purpose.spaces then [chosen] else [])
      (later.taken space) := by
  -- What is known of drafts is used for the names of one without references.
  let draft : Draft := ⟨names, []⟩
  cases purpose with
  | localName =>
      have hextends : draft.Extends [chosen] [] ⟨later, []⟩ := .of_freshLocal h
      exact takes_of_extends [.locals] hextends space
  | typeName =>
      have hextends : draft.Extends [] [chosen] ⟨later, []⟩ := .of_freshType h
      exact takes_of_extends [.types] hextends space
  | functionName =>
      have hextends : draft.Extends [chosen] [chosen] ⟨later, []⟩ := .of_freshFunction h
      exact takes_of_extends [.types, .locals] hextends space

theorem attributes_of_fresh {purpose : Purpose}
    (h : names.fresh purpose path name = .ok (chosen, later)) :
    later.attributes = names.attributes := by
  cases purpose with
  | localName =>
      obtain ⟨-, rfl⟩ := freshLocal_ok h
      rfl
  | typeName =>
      obtain ⟨-, rfl⟩ := freshType_ok h
      rfl
  | functionName =>
      obtain ⟨-, -, rfl⟩ := freshFunction_ok h
      rfl

theorem takes_of_bindAttribute (h : names.bindAttribute path name = (.ok chosen, later))
    (space : Space) :
    (names.taken space).Takes (if space ∈ [Space.locals] then [chosen] else [])
      (later.taken space) := by
  let draft : Draft := ⟨names, []⟩
  have hextends : draft.Extends [chosen] [] ⟨later, []⟩ := .of_bindAttribute h
  exact takes_of_extends [.locals] hextends space

/-! ## Binding an attribute -/

theorem bindAttribute_repeated_iff {place : Path} {other : String} :
    (names.bindAttribute path name).1 = .error (.repeatedAttribute place other) ↔
      (path, name) = (place, other) ∧ (place, other) ∈ names.attributes := by
  by_cases hmem : (path, name) ∈ names.attributes
  · rw [bindAttribute_of_mem hmem]
    constructor
    · rintro ⟨⟩
      exact ⟨rfl, hmem⟩
    · rintro ⟨⟨⟩, -⟩
      rfl
  · constructor
    · intro h
      rcases bindAttribute_of_new hmem with ⟨chosen, -, -, hbind⟩ | hbind
      · rw [hbind] at h
        cases h
      · rw [hbind] at h
        cases h
    · rintro ⟨⟨⟩, hold⟩
      exact absurd hold hmem

@[simp] theorem mem_attributes_bindAttribute {key : Path × String} :
    key ∈ (names.bindAttribute path name).2.attributes ↔
      key ∈ names.attributes ∨ (path, name) = key := by
  by_cases hmem : (path, name) ∈ names.attributes
  · rw [bindAttribute_of_mem hmem]
    refine ⟨.inl, ?_⟩
    rintro (hkey | rfl)
    · exact hkey
    · exact hmem
  · have hnoted : (names.bindAttribute path name).2.attributes =
        (path, name) :: names.attributes := by
      rcases bindAttribute_of_new hmem with ⟨chosen, -, -, h⟩ | h <;> rw [h] <;> rfl
    rw [hnoted, List.mem_cons, or_comm, eq_comm]

end

/-! ## One request -/

structure Step where
  before : Names
  request : Request
  answer : Except Problem (Option String)
  after : Names

def step (names : Names) (request : Request) : Step :=
  ⟨names, request, (names.serve request).1, (names.serve request).2⟩

namespace Step

def given (step : Step) (space : Space) : List String :=
  match step.answer with
  | .ok (some name) => if space ∈ step.request.spaces then [name] else []
  | _ => []

def reserved (step : Step) (space : Space) : List String :=
  match step.request with
  | .reserve other name => if other = space then [name] else []
  | _ => []

/-- A request reserves a name, is given a new one, or is refused and takes nothing. -/
inductive Sound : Step → Prop
  | reserved (names : Names) (space : Space) (name : String) :
      Sound ⟨names, .reserve space name, .ok none, names.reserve space name⟩
  | given {names later : Names} {request : Request} {name : String} :
      (∀ space, (names.taken space).Takes (if space ∈ request.spaces then [name] else [])
        (later.taken space)) →
      Sound ⟨names, request, .ok (some name), later⟩
  | refused {names later : Names} {request : Request} {problem : Problem} :
      (∀ space, later.taken space = names.taken space) →
      Sound ⟨names, request, .error problem, later⟩

variable {step : Step}

theorem Sound.takes (h : step.Sound) (space : Space) :
    (step.before.taken space).Takes (step.given space) (step.after.taken space) := by
  cases h with
  | reserved => exact .of_grows fun name hname => mem_taken_reserve.mpr (.inr hname)
  | given htakes => exact htakes space
  | refused hsame => exact .of_grows fun name hname => (hsame space).symm ▸ hname

theorem Sound.taken_of_error (h : step.Sound) {problem : Problem}
    (hanswer : step.answer = .error problem) (space : Space) :
    step.after.taken space = step.before.taken space := by
  cases h with
  | reserved | given => cases hanswer
  | refused hsame => exact hsame space

/-- What is given is taken in one space at least, so it is an identifier. -/
theorem Sound.isValid (h : step.Sound) {name : String} (hanswer : step.answer = .ok (some name)) :
    Identifier.isValid name = true := by
  obtain ⟨space, hspace⟩ := step.request.exists_mem_spaces
  have hgiven : step.given space = [name] := by
    rw [Step.given, hanswer]
    exact if_pos hspace
  exact (h.takes space).valid name (hgiven ▸ List.mem_singleton_self name)

end Step

section

variable {names : Names} {request : Request}

theorem sound_step (names : Names) (request : Request) : (names.step request).Sound := by
  unfold step
  cases request with
  | reserve space name => exact .reserved names space name
  | bind path name =>
      rw [serve]
      by_cases hmem : (path, name) ∈ names.attributes
      · rw [bindAttribute_of_mem hmem]
        exact .refused fun _ => rfl
      · rcases bindAttribute_of_new hmem with ⟨chosen, -, -, hbind⟩ | hbind
        · rw [hbind]
          exact .given (takes_of_bindAttribute hbind)
        · rw [hbind]
          exact .refused fun space => by cases space <;> rfl
  | fresh purpose path proposed =>
      rw [serve]
      cases hfresh : names.fresh purpose path proposed with
      | ok result => exact .given (takes_of_fresh hfresh)
      | error problem => exact .refused fun _ => rfl

theorem mem_taken_of_reserved {space : Space} {name : String}
    (h : name ∈ (names.step request).reserved space) :
    name ∈ (names.step request).after.taken space := by
  cases request with
  | reserve other reserved =>
      simp only [step, Step.reserved] at h
      split at h
      next hspace => exact mem_taken_reserve.mpr (.inl ⟨hspace, List.mem_singleton.mp h⟩)
      next => cases h
  | bind | fresh => cases h

@[simp] theorem mem_attributes_step {key : Path × String} :
    key ∈ (names.step request).after.attributes ↔
      key ∈ names.attributes ∨ request = .bind key.1 key.2 := by
  cases request with
  | reserve space name => cases space <;> simp [step, serve, reserve]
  | bind path name =>
      rw [Request.bind.injEq, ← Prod.mk.injEq]
      exact mem_attributes_bindAttribute
  | fresh purpose path proposed =>
      rw [step, serve]
      cases hfresh : names.fresh purpose path proposed with
      | ok result => simp [attributes_of_fresh hfresh]
      | error problem => simp

theorem repeated_step_iff {path : Path} {name : String} :
    (names.step request).answer = .error (.repeatedAttribute path name) ↔
      request = .bind path name ∧ (path, name) ∈ names.attributes := by
  cases request with
  | reserve space other => simp [step, serve]
  | bind place other =>
      have hanswer : (names.step (.bind place other)).answer =
          .error (.repeatedAttribute path name) ↔
          (names.bindAttribute place other).1 = .error (.repeatedAttribute path name) := by
        rw [step, serve]
        cases names.bindAttribute place other with
        | mk result later => cases result <;> simp [Except.map]
      rw [hanswer, bindAttribute_repeated_iff, Request.bind.injEq, Prod.mk.injEq]
  | fresh purpose place proposed =>
      rw [step, serve]
      cases hfresh : names.fresh purpose place proposed with
      | ok result => simp
      | error problem =>
          obtain ⟨rfl, -⟩ := fresh_eq_error_iff.mp hfresh
          simp

end

/-! ## All requests -/

def trace (names : Names) : List Request → List Step
  | [] => []
  | request :: rest => names.step request :: trace (names.step request).after rest

def afterAll (names : Names) (requests : List Request) : Names :=
  requests.foldl (fun names request => (names.step request).after) names

theorem takes_trace (names : Names) (requests : List Request) (space : Space) :
    (names.taken space).Takes ((names.trace requests).flatMap (Step.given · space))
      ((names.afterAll requests).taken space) := by
  induction requests generalizing names with
  | nil => exact .refl _
  | cons request rest ih => exact ((sound_step names request).takes space).trans (ih _)

theorem exists_of_mem_trace {names : Names} {requests : List Request} {step : Step}
    (h : step ∈ names.trace requests) :
    ∃ (found : Names) (request : Request), step = found.step request := by
  induction requests generalizing names with
  | nil => cases h
  | cons request rest ih =>
      rcases List.mem_cons.mp h with rfl | hrest
      · exact ⟨names, request, rfl⟩
      · exact ih hrest

theorem reserved_before_given (names : Names) (requests : List Request) (space : Space) :
    (names.trace requests).Pairwise fun earlier later =>
      ∀ name ∈ earlier.reserved space, name ∉ later.given space := by
  induction requests generalizing names with
  | nil => exact .nil
  | cons request rest ih =>
      refine List.pairwise_cons.mpr ⟨fun later hlater name hreserved hgiven => ?_, ih _⟩
      have htaken := mem_taken_of_reserved hreserved
      exact (takes_trace _ rest space).fresh name (List.mem_flatMap.mpr ⟨later, hlater, hgiven⟩)
        htaken

theorem mem_attributes_trace {names : Names} {requests : List Request} {earlier later : List Step}
    {step : Step} (h : names.trace requests = earlier ++ step :: later) (key : Path × String) :
    key ∈ step.before.attributes ↔
      key ∈ names.attributes ∨ ∃ other ∈ earlier, other.request = .bind key.1 key.2 := by
  induction requests generalizing names earlier with
  | nil => cases earlier <;> cases h
  | cons request rest ih =>
      cases earlier with
      | nil =>
          cases h
          simp [Names.step]
      | cons first others =>
          obtain ⟨rfl, hrest⟩ := List.cons.inj h
          rw [ih hrest, mem_attributes_step, List.exists_mem_cons_iff, or_assoc]
          rfl

structure Unambiguous (steps : List Step) : Prop where
  given_nodup : ∀ space, (steps.flatMap (Step.given · space)).Nodup
  reserved : ∀ space, steps.Pairwise fun earlier later =>
    ∀ name ∈ earlier.reserved space, name ∉ later.given space
  valid : ∀ step ∈ steps, ∀ name, step.answer = .ok (some name) → Identifier.isValid name = true
  refused : ∀ step ∈ steps, ∀ problem, step.answer = .error problem →
    ∀ space, step.after.taken space = step.before.taken space
  repeated : ∀ earlier step later, steps = earlier ++ step :: later → ∀ path name,
    step.answer = .error (.repeatedAttribute path name) ↔
      step.request = .bind path name ∧ ∃ other ∈ earlier, other.request = .bind path name

/-- No name is given twice in a space, nor one that was reserved there before; what is given
is an identifier, and what fails takes nothing.  An attribute is refused as repeated exactly
if it was to be bound before. -/
theorem trace_unambiguous (requests : List Request) : Unambiguous (empty.trace requests) := by
  constructor
  case given_nodup => exact fun space => (takes_trace empty requests space).nodup
  case reserved => exact reserved_before_given empty requests
  case valid =>
      intro step hstep name hanswer
      obtain ⟨names, request, rfl⟩ := exists_of_mem_trace hstep
      exact (sound_step names request).isValid hanswer
  case refused =>
      intro step hstep problem hanswer
      obtain ⟨names, request, rfl⟩ := exists_of_mem_trace hstep
      exact (sound_step names request).taken_of_error hanswer
  case repeated =>
      intro earlier step later hsplit path name
      have hstep : step ∈ empty.trace requests := by
        rw [hsplit]
        exact List.mem_append_right _ List.mem_cons_self
      have hnoted := mem_attributes_trace hsplit (path, name)
      obtain ⟨names, request, rfl⟩ := exists_of_mem_trace hstep
      rw [repeated_step_iff]
      exact and_congr_right fun _ => hnoted.trans (or_iff_right List.not_mem_nil)

example : (empty.trace
    [.fresh .localName ["root"] "isTag", .fresh .functionName ["root"] "isTag",
      .bind ["root"] "root-isTag", .bind ["root"] "root-isTag",
      .fresh .typeName ["root"] "isTag"]).map (·.answer.toOption) =
    [some (some "isTag"), some (some "root_isTag"), some (some "root_root_isTag"), none,
      some (some "isTag")] := by
  decide +kernel

end TypeGuard.Names
