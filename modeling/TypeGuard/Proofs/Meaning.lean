import TypeGuard.Guard.Evaluation

/-!
# What a type means

`Conforms` is the structural meaning of a type tree: which samples it holds of,
with references read through the roots of a file.  It does not speak of code or
of calls.

`verdict` answers the same question by recursion, the way a guard goes about it:
parts are tried in order, and every array and every reference costs one level of
calls.  Its only error is running out of levels, and an answer it gives is the
meaning.
-/

namespace TypeGuard

def Literal.holds : Literal → Sample → Bool
  | .null, .null | .undefined, .undefined => true
  | .string s, .string t => s == t
  | .number x, .number y => x.numericEq y
  | .boolean a, .boolean b => a == b
  | _, _ => false

namespace Sample

/-- Objects and arrays are what `typeof` calls objects, `null` apart. -/
def isObjectOrArray : Sample → Bool
  | .array _ | .object _ => true
  | _ => false

def fields : Sample → Fields Sample
  | .object fields => fields
  | _ => []

end Sample

inductive Conforms (roots : Fields TypeTree) : TypeTree → Sample → Prop
  | literal {label : Label} {value : Literal} {sample : Sample} :
      value.holds sample = true → Conforms roots (.literal label value) sample
  | primitive {label : Label} {kind : Primitive} {sample : Sample} :
      Sampler.isOfKind kind sample = true → Conforms roots (.primitive label kind) sample
  | array {label : Label} {element : TypeTree} {items : List Sample} :
      (∀ item ∈ items, Conforms roots element item) →
      Conforms roots (.array label element) (.array items)
  | union {label : Label} {members : List TypeTree} {member : TypeTree} {sample : Sample} :
      member ∈ members → Conforms roots member sample →
      Conforms roots (.union label members) sample
  | object {label : Label} {attributes : List (String × TypeTree)}
      {optionalNames : List String} {sample : Sample} :
      sample.isObjectOrArray = true →
      (∀ attr ∈ attributes, Conforms roots attr.2 (Sample.field attr.1 sample.fields)) →
      Conforms roots (.object label attributes optionalNames) sample
  | reference {label : Label} {name : String} {root : TypeTree} {sample : Sample} :
      Fields.find? name roots = some root → Conforms roots root sample →
      Conforms roots (.reference label name) sample

/-! ## Verdicts -/

namespace Verdict

def ofItems (item : Sample → Except EvalError Bool) : List Sample → Except EvalError Bool
  | [] => .ok true
  | first :: rest => do
      let passes ← item first
      if passes then ofItems item rest else return false

def ofArray (levels : Nat) (item : Sample → Except EvalError Bool) (sample : Sample) :
    Except EvalError Bool :=
  if levels = 0 then .error .tooDeep
  else
    match sample with
    | .array items => ofItems item items
    | _ => .ok false

section

variable (levels : Nat) (below : TypeTree → Sample → Except EvalError Bool)
  (roots : Fields TypeTree)

mutual

/-- The verdict inside one call that leaves `levels` further levels; `below`
gives the verdict of a nested call. -/
def check : TypeTree → Sample → Except EvalError Bool
  | .literal _ value, sample => .ok (value.holds sample)
  | .primitive _ kind, sample => .ok (Sampler.isOfKind kind sample)
  | .array _ element, sample => ofArray levels (below element) sample
  | .union _ members, sample => checkSome members sample
  | .object _ attributes _, sample =>
      if sample.isObjectOrArray then checkEvery attributes sample.fields else .ok false
  | .reference _ name, sample =>
      match Fields.find? name roots with
      | some root => below root sample
      | none => .ok false

def checkSome : List TypeTree → Sample → Except EvalError Bool
  | [], _ => .ok false
  | member :: rest, sample => do
      let passes ← check member sample
      if passes then return true else checkSome rest sample

def checkEvery : List (String × TypeTree) → Fields Sample → Except EvalError Bool
  | [], _ => .ok true
  | (name, tree) :: rest, fields => do
      let passes ← check tree (Sample.field name fields)
      if passes then checkEvery rest fields else return false

end

end

end Verdict

def verdict (roots : Fields TypeTree) : Nat → TypeTree → Sample → Except EvalError Bool
  | 0, _, _ => .error .tooDeep
  | levels + 1, tree, sample => Verdict.check levels (verdict roots levels) roots tree sample

/-! ## Verdicts give the meaning -/

namespace Verdict

/-- A verdict may be missing for want of levels only, and is right if given. -/
def Agrees (result : Except EvalError Bool) (meaning : Prop) : Prop :=
  result = .error .tooDeep ∨ ∃ answer, result = .ok answer ∧ (answer = true ↔ meaning)

variable {meaning : Prop} {result : Except EvalError Bool}

theorem Agrees.iff {other : Prop} (h : Agrees result meaning) (hiff : meaning ↔ other) :
    Agrees result other := by
  obtain h | ⟨answer, h, hanswer⟩ := h
  · exact .inl h
  · exact .inr ⟨answer, h, hanswer.trans hiff⟩

theorem Agrees.ok {answer : Bool} (h : answer = true ↔ meaning) : Agrees (.ok answer) meaning :=
  .inr ⟨answer, rfl, h⟩

theorem Agrees.and {other : Prop} {next : Except EvalError Bool} (h : Agrees result meaning)
    (hnext : Agrees next other) :
    Agrees (do let passes ← result; if passes then next else return false)
      (meaning ∧ other) := by
  obtain rfl | ⟨answer, rfl, hanswer⟩ := h
  · exact .inl rfl
  · cases answer with
    | true => exact hnext.iff (by simp [← hanswer])
    | false => exact .ok (by simp [← hanswer])

theorem Agrees.or {other : Prop} {next : Except EvalError Bool} (h : Agrees result meaning)
    (hnext : Agrees next other) :
    Agrees (do let passes ← result; if passes then return true else next)
      (meaning ∨ other) := by
  obtain rfl | ⟨answer, rfl, hanswer⟩ := h
  · exact .inl rfl
  · cases answer with
    | true => exact .ok (by simp [← hanswer])
    | false => exact hnext.iff (by simp [← hanswer])

theorem ofItems_agrees {item : Sample → Except EvalError Bool} {holds : Sample → Prop}
    (h : ∀ sample, Agrees (item sample) (holds sample)) (items : List Sample) :
    Agrees (ofItems item items) (∀ sample ∈ items, holds sample) := by
  induction items with
  | nil => exact .ok (by simp)
  | cons first rest ih => exact ((h first).and ih).iff (by simp)

section

variable {levels : Nat} {below : TypeTree → Sample → Except EvalError Bool}
  {roots : Fields TypeTree}

theorem ofArray_agrees
    (hbelow : ∀ tree sample, Agrees (below tree sample) (Conforms roots tree sample))
    (label : Label) (element : TypeTree) (sample : Sample) :
    Agrees (ofArray levels (below element) sample)
      (Conforms roots (.array label element) sample) := by
  unfold ofArray
  split
  · exact .inl rfl
  split
  next items =>
      refine (ofItems_agrees (hbelow element) items).iff ⟨.array, fun h => ?_⟩
      cases h with
      | array hitems => exact hitems
  next hother =>
      refine .ok ⟨Bool.noConfusion, fun h => ?_⟩
      cases h with
      | array => exact absurd rfl (hother _)

mutual

theorem check_agrees
    (hbelow : ∀ tree sample, Agrees (below tree sample) (Conforms roots tree sample))
    (tree : TypeTree) (sample : Sample) :
    Agrees (check levels below roots tree sample) (Conforms roots tree sample) := by
  match tree with
  | .literal label value =>
      refine .ok ⟨.literal, fun h => ?_⟩
      cases h with
      | literal hvalue => exact hvalue
  | .primitive label kind =>
      refine .ok ⟨.primitive, fun h => ?_⟩
      cases h with
      | primitive hkind => exact hkind
  | .array label element => exact ofArray_agrees hbelow label element sample
  | .union label members =>
      refine (checkSome_agrees hbelow members sample).iff ⟨?_, fun h => ?_⟩
      · rintro ⟨member, hmember, hconforms⟩
        exact .union hmember hconforms
      · cases h with
        | union hmember hconforms => exact ⟨_, hmember, hconforms⟩
  | .object label attributes optionalNames =>
      rw [check]
      split
      next hsample =>
          refine (checkEvery_agrees hbelow attributes sample.fields).iff
            ⟨.object hsample, fun h => ?_⟩
          cases h with
          | object _ hattributes => exact hattributes
      next hsample =>
          refine .ok ⟨Bool.noConfusion, fun h => ?_⟩
          cases h with
          | object hobject => exact absurd hobject hsample
  | .reference label name =>
      rw [check]
      split
      next root hroot =>
          refine (hbelow root sample).iff ⟨.reference hroot, fun h => ?_⟩
          cases h with
          | reference hfound hconforms =>
              cases hroot.symm.trans hfound
              exact hconforms
      next hnone =>
          refine .ok ⟨Bool.noConfusion, fun h => ?_⟩
          cases h with
          | reference hfound => cases hnone.symm.trans hfound

theorem checkSome_agrees
    (hbelow : ∀ tree sample, Agrees (below tree sample) (Conforms roots tree sample))
    (members : List TypeTree) (sample : Sample) :
    Agrees (checkSome levels below roots members sample)
      (∃ member ∈ members, Conforms roots member sample) := by
  match members with
  | [] => exact .ok (by simp)
  | member :: rest =>
      exact ((check_agrees hbelow member sample).or (checkSome_agrees hbelow rest sample)).iff
        (by simp)

theorem checkEvery_agrees
    (hbelow : ∀ tree sample, Agrees (below tree sample) (Conforms roots tree sample))
    (attributes : List (String × TypeTree)) (fields : Fields Sample) :
    Agrees (checkEvery levels below roots attributes fields)
      (∀ attr ∈ attributes, Conforms roots attr.2 (Sample.field attr.1 fields)) := by
  match attributes with
  | [] => exact .ok (by simp)
  | (name, tree) :: rest =>
      exact ((check_agrees hbelow tree (Sample.field name fields)).and
        (checkEvery_agrees hbelow rest fields)).iff (by simp)

end

end

end Verdict

/-- A guard's verdict is the meaning of its type, or it ran out of levels. -/
theorem verdict_agrees (roots : Fields TypeTree) (levels : Nat) (tree : TypeTree)
    (sample : Sample) :
    Verdict.Agrees (verdict roots levels tree sample) (Conforms roots tree sample) := by
  induction levels generalizing tree sample with
  | zero => exact .inl rfl
  | succ levels ih => exact Verdict.check_agrees ih tree sample

end TypeGuard
