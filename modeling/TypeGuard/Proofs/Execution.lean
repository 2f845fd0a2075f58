import Mathlib.Data.List.Nodup
import TypeGuard.Guard.Assertions
import TypeGuard.Proofs.Meaning

/-!
# Running the forms that guards are made of

What a scope finds, what each test of a guard evaluates to where its target
holds a sample, and how bodies run piece by piece.  Nothing here depends on how
names were chosen.
-/

namespace TypeGuard

/-! ## Scopes -/

namespace Frame

@[simp] theorem functions_ofBody (address : List Nat) (body : List Stmt) :
    (ofBody address body).functions.map (·.2) = body.filterMap Stmt.function? := by
  have shifted : ∀ index, ((body.zipIdx index).filterMap fun entry =>
      entry.1.function?.map fun f => (entry.2, f)).map (·.2) = body.filterMap Stmt.function? := by
    induction body with
    | nil => simp
    | cons stmt rest ih =>
        intro index
        rw [List.zipIdx_cons, List.filterMap_cons, List.filterMap_cons]
        cases stmt.function? with
        | none => exact ih _
        | some f => simpa using ih _
  exact shifted 0

theorem mem_of_find? {frame : Frame} {name : String} {index : Nat} {f : Function}
    (h : frame.find? name = some (index, f)) :
    f ∈ frame.functions.map (·.2) ∧ f.name = name := by
  have hname := List.find?_some h
  have hmem := List.mem_of_find?_eq_some h
  rw [List.mem_reverse] at hmem
  exact ⟨List.mem_map.mpr ⟨_, hmem, rfl⟩, by simpa using hname⟩

theorem find?_ofBody_eq_none {address : List Nat} {body : List Stmt} {name : String}
    (h : name ∉ (body.filterMap Stmt.function?).map (·.name)) :
    (ofBody address body).find? name = none := by
  rw [Option.eq_none_iff_forall_not_mem]
  rintro ⟨index, f⟩ hfound
  obtain ⟨hmem, rfl⟩ := mem_of_find? hfound
  rw [functions_ofBody] at hmem
  exact h (List.mem_map_of_mem hmem)

theorem find?_ofBody (address : List Nat) {body : List Stmt} {f : Function}
    (hnodup : ((body.filterMap Stmt.function?).map (·.name)).Nodup)
    (hf : f ∈ body.filterMap Stmt.function?) :
    ∃ index, (ofBody address body).find? f.name = some (index, f) := by
  cases hfound : (ofBody address body).find? f.name with
  | none =>
      rw [← functions_ofBody address] at hf
      obtain ⟨entry, hentry, rfl⟩ := List.mem_map.mp hf
      have := List.find?_eq_none.mp hfound entry (List.mem_reverse.mpr hentry)
      simp at this
  | some entry =>
      obtain ⟨index, g⟩ := entry
      obtain ⟨hmem, hname⟩ := mem_of_find? hfound
      rw [functions_ofBody] at hmem
      cases List.inj_on_of_nodup_map hnodup hmem hf hname
      exact ⟨index, rfl⟩

end Frame

theorem Binary64.numericEq_comm (x y : Binary64) : x.numericEq y = y.numericEq x := by
  cases x <;> cases y <;> simp [Binary64.numericEq, Bool.and_comm, BEq.comm]

namespace Evaluation

/-! ## Tests -/

variable {call : Call} {scope : Scope} {locals : Locals}

theorem eval_local {name : String} {sample : Sample}
    (h : Fields.find? name locals = some sample) :
    eval call scope locals (.ident name) = .ok (.data sample) := by
  simp [identifier, h]

theorem eval_function {name : String} {closure : Closure}
    (hlocal : Fields.find? name locals = none) (hscope : scope.find? name = some closure) :
    eval call scope locals (.ident name) = .ok (.function closure) := by
  rw [eval_ident, identifier, hlocal]
  simp only [hscope]

theorem eval_hasTag {target : String} {sample : Sample} (tag : String)
    (h : Fields.find? target locals = some sample) :
    eval call scope locals (Expr.hasTag target tag) =
      .ok (Value.boolean ((Value.data sample).tag == tag)) := by
  simp only [Expr.hasTag, Expr.text, eval, identifier, h]
  rfl

theorem eval_kindTest {target : String} {sample : Sample} (kind : Primitive)
    (h : Fields.find? target locals = some sample) :
    eval call scope locals (Expr.hasTag target kind.tag) =
      .ok (Value.boolean (Sampler.isOfKind kind sample)) := by
  rw [eval_hasTag _ h]
  cases kind <;> cases sample <;> rfl

theorem eval_literalTest {target : String} {sample : Sample} (value : Literal)
    (h : Fields.find? target locals = some sample) :
    eval call scope locals (Writing.literalTest target value) =
      .ok (Value.boolean (value.holds sample)) := by
  cases value with
  | undefined =>
      rw [Writing.literalTest, eval_hasTag _ h]
      cases sample <;> rfl
  | number x =>
      simp only [Writing.literalTest, eval, identifier, h]
      cases sample with
      | number y =>
          exact congrArg (fun b => Except.ok (Value.boolean b)) (Binary64.numericEq_comm y x)
      | _ => rfl
  | _ =>
      simp only [Writing.literalTest, eval, identifier, h]
      cases sample <;> first | rfl | exact congrArg (fun b => Except.ok (Value.boolean b)) BEq.comm

theorem eval_objectTest {target : String} {sample : Sample}
    (h : Fields.find? target locals = some sample) :
    eval call scope locals (Writing.objectTest target) =
      .ok (Value.boolean sample.isObjectOrArray) := by
  simp only [Writing.objectTest, Expr.hasTag, Expr.text, eval, identifier, h]
  cases sample <;> rfl

/-! ## Conditions

The verdict of a condition is a Boolean or an error; as a value it is that
Boolean. -/

variable {result other : Except EvalError Bool}

theorem eval_and {left right : Expr}
    (hleft : eval call scope locals left = result.map Value.boolean)
    (hright : result = .ok true → eval call scope locals right = other.map Value.boolean) :
    eval call scope locals (.and left right) =
      (do let passes ← result; if passes then other else return false).map Value.boolean := by
  rw [eval, hleft]
  cases result with
  | error problem => rfl
  | ok passes =>
      cases passes with
      | true => exact hright rfl
      | false => rfl

theorem eval_or {left right : Expr}
    (hleft : eval call scope locals left = result.map Value.boolean)
    (hright : eval call scope locals right = other.map Value.boolean) :
    eval call scope locals (.or left right) =
      (do let passes ← result; if passes then return true else other).map Value.boolean := by
  rw [eval, hleft]
  cases result with
  | error problem => rfl
  | ok passes =>
      cases passes with
      | true => rfl
      | false => exact hright

theorem holdsOfAll_eq {item : Sample → Except EvalError Bool} {closure : Closure}
    (h : ∀ sample, call closure sample = (item sample).map Value.boolean)
    (items : List Sample) : holdsOfAll call closure items = Verdict.ofItems item items := by
  induction items with
  | nil => rfl
  | cons first rest ih =>
      rw [holdsOfAll, Verdict.ofItems, h, ih]
      cases item first with
      | error problem => rfl
      | ok passes => rfl

theorem eval_callTest {target callee : String} {sample : Sample} {closure : Closure}
    (htarget : Fields.find? target locals = some sample)
    (hlocal : Fields.find? callee locals = none)
    (hscope : scope.find? callee = some closure) :
    eval call scope locals (.call (.ident callee) [.ident target]) = call closure sample := by
  rw [eval, eval_function hlocal hscope, evalAll, eval_local htarget]
  rfl

def arrayVerdict (levels : Nat) (sample : Sample) : Except EvalError Bool :=
  if levels = 0 then .error .tooDeep
  else
    match sample with
    | .array _ => .ok true
    | _ => .ok false

theorem eval_arrayTest {target element : String} {sample : Sample} {isArray nested : Closure}
    {levels : Nat} {item : Sample → Except EvalError Bool}
    (htarget : Fields.find? target locals = some sample)
    (hlocal : Fields.find? Writing.arrayGuardName locals = none)
    (hscope : scope.find? Writing.arrayGuardName = some isArray)
    (hisArray : call isArray sample = (arrayVerdict levels sample).map Value.boolean)
    (helementLocal : Fields.find? element locals = none)
    (helementScope : scope.find? element = some nested)
    (hnested : ∀ sample, call nested sample = (item sample).map Value.boolean) :
    eval call scope locals (.and
      (.call (.ident Writing.arrayGuardName) [.ident target])
      (.call (.member (.ident target) "every") [.ident element])) =
      (Verdict.ofArray levels item sample).map Value.boolean := by
  have hfirst := (eval_callTest htarget hlocal hscope).trans hisArray
  cases sample with
  | array items =>
      have hevery : eval call scope locals
          (.call (.member (.ident target) "every") [.ident element]) =
          (Verdict.ofItems item items).map Value.boolean := by
        rw [eval, eval, eval_local htarget, evalAll, eval_function helementLocal helementScope]
        exact congrArg (Except.map Value.boolean) (holdsOfAll_eq hnested items)
      rw [eval_and hfirst fun _ => hevery]
      unfold arrayVerdict Verdict.ofArray
      split <;> rfl
  | _ =>
      rw [eval, hfirst]
      unfold arrayVerdict Verdict.ofArray
      split <;> rfl

/-! ## Bodies -/

def Flow.ofVerdict (locals : Locals) : Bool → Flow
  | true => .running locals
  | false => .returned (Value.boolean false)

theorem runBody_guard {test : Expr} {rest : List Stmt}
    (h : eval call scope locals test = result.map Value.boolean) :
    runBody call scope locals (.guard test :: rest) =
      (do
        let passes ← result
        if passes then runBody call scope locals rest
        else return .returned (Value.boolean false)) := by
  rw [runBody, Stmt.guard, runStmt, eval, h]
  cases result with
  | error problem => rfl
  | ok passes => cases passes <;> rfl

theorem runBody_append (first second : List Stmt) :
    runBody call scope locals (first ++ second) =
      (do
        match ← runBody call scope locals first with
        | .returned value => return .returned value
        | .running locals => runBody call scope locals second) := by
  induction first generalizing locals with
  | nil => rfl
  | cons stmt rest ih =>
      rw [List.cons_append, runBody, runBody]
      cases runStmt call scope locals stmt with
      | error problem => rfl
      | ok flow =>
          cases flow with
          | returned value => rfl
          | running locals => exact ih

end Evaluation

end TypeGuard
