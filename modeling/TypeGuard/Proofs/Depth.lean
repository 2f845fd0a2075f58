import TypeGuard.Guard.Registry
import TypeGuard.Proofs.Execution

/-!
# Calls at any depth

A call with fewer levels left answers like one with more, or it runs out of levels.  No form
of an expression or a statement hides that a call inside it ran out, and none looks at the
levels left, so the same holds of whole bodies, and of calls by induction on the levels.

Hence a guard that is called from inside another answers as it does from the outside, unless
the ceiling is met.
-/

namespace TypeGuard.Evaluation

/-- With more levels `result` becomes `further`: nothing but running out of levels changes. -/
def Refines {α : Type} (result further : Except EvalError α) : Prop :=
  result = .error .tooDeep ∨ result = further

namespace Refines

variable {α β : Type} {result further : Except EvalError α}

theorem refl (result : Except EvalError α) : Refines result result := .inr rfl

theorem trans {last : Except EvalError α} (h : Refines result further)
    (hnext : Refines further last) : Refines result last := by
  rcases h with htooDeep | rfl
  · exact .inl htooDeep
  · exact hnext

theorem bind {next following : α → Except EvalError β} (h : Refines result further)
    (hnext : ∀ value, Refines (next value) (following value)) :
    Refines (result >>= next) (further >>= following) := by
  rcases h with rfl | rfl
  · exact .inl rfl
  · cases result with
    | error problem => exact .inr rfl
    | ok value => exact hnext value

theorem map (h : Refines result further) (f : α → β) :
    Refines (result.map f) (further.map f) := by
  rcases h with rfl | rfl
  · exact .inl rfl
  · exact .refl _

theorem eq_of_ne (h : Refines result further) (hne : result ≠ .error .tooDeep) :
    result = further :=
  h.resolve_left hne

end Refines

def Deepens (deeper call : Call) : Prop :=
  ∀ closure sample, Refines (deeper closure sample) (call closure sample)

section

variable {call deeper : Call}

/-! ## Expressions -/

theorem holdsOfAll_refines (hcall : Deepens deeper call) (f : Closure) (items : List Sample) :
    Refines (holdsOfAll deeper f items) (holdsOfAll call f items) := by
  induction items with
  | nil => exact .refl _
  | cons item rest ih =>
      rw [holdsOfAll, holdsOfAll]
      refine (hcall f item).bind fun verdict => ?_
      split
      · exact ih
      · exact .refl _

theorem apply_refines (hcall : Deepens deeper call) (callee : Value) (arguments : List Value) :
    Refines (apply deeper callee arguments) (apply call callee arguments) := by
  cases callee with
  | function f => exact hcall f _
  | every items =>
      cases arguments with
      | nil => exact .refl _
      | cons first rest =>
          cases first with
          | function f => exact (holdsOfAll_refines hcall f items).map _
          | _ => exact .refl _
  | _ => exact .refl _

mutual

theorem eval_refines (hcall : Deepens deeper call) (scope : Scope) (locals : Locals) (e : Expr) :
    Refines (eval deeper scope locals e) (eval call scope locals e) := by
  match e with
  | .ident name => exact .refl _
  | .literal value => exact .refl _
  | .typeOf e =>
      have he := eval_refines hcall scope locals e
      exact he.bind fun v => .refl _
  | .not e =>
      have he := eval_refines hcall scope locals e
      exact he.bind fun v => .refl _
  | .member e name =>
      have he := eval_refines hcall scope locals e
      exact he.bind fun v => .refl _
  | .strictEq a b =>
      have ha := eval_refines hcall scope locals a
      have hb := eval_refines hcall scope locals b
      refine ha.bind fun x => ?_
      exact hb.bind fun y => .refl _
  | .strictNe a b =>
      have ha := eval_refines hcall scope locals a
      have hb := eval_refines hcall scope locals b
      refine ha.bind fun x => ?_
      exact hb.bind fun y => .refl _
  | .and a b =>
      have ha := eval_refines hcall scope locals a
      have hb := eval_refines hcall scope locals b
      refine ha.bind fun x => ?_
      cases x.truthy with
      | true => simpa using hb
      | false => simp [Refines.refl]
  | .or a b =>
      have ha := eval_refines hcall scope locals a
      have hb := eval_refines hcall scope locals b
      refine ha.bind fun x => ?_
      cases x.truthy with
      | true => simp [Refines.refl]
      | false => simpa using hb
  | .call e arguments =>
      have he := eval_refines hcall scope locals e
      have harguments := evalAll_refines hcall scope locals arguments
      refine he.bind fun callee => ?_
      refine harguments.bind fun values => ?_
      exact apply_refines hcall callee values
  | .object entries =>
      have hentries := evalEntries_refines hcall scope locals entries []
      exact hentries.bind fun fields => .refl _

theorem evalAll_refines (hcall : Deepens deeper call) (scope : Scope) (locals : Locals)
    (es : List Expr) : Refines (evalAll deeper scope locals es) (evalAll call scope locals es) := by
  match es with
  | [] => exact .refl _
  | e :: rest =>
      have he := eval_refines hcall scope locals e
      have hrest := evalAll_refines hcall scope locals rest
      refine he.bind fun v => ?_
      exact hrest.bind fun values => .refl _

theorem evalEntries_refines (hcall : Deepens deeper call) (scope : Scope) (locals : Locals)
    (entries : List (String × Expr)) (fields : Fields Sample) :
    Refines (evalEntries deeper scope locals entries fields)
      (evalEntries call scope locals entries fields) := by
  match entries with
  | [] => exact .refl _
  | (name, e) :: rest =>
      have he := eval_refines hcall scope locals e
      have hrest := evalEntries_refines hcall scope locals rest
      refine he.bind fun v => ?_
      cases v.data? with
      | some sample => exact hrest (fields.insert name sample)
      | none => exact hrest fields

end

/-! ## Statements -/

mutual

theorem runStmt_refines (hcall : Deepens deeper call) (scope : Scope) (locals : Locals)
    (stmt : Stmt) :
    Refines (runStmt deeper scope locals stmt) (runStmt call scope locals stmt) := by
  match stmt with
  | .imports .. => exact .refl _
  | .typeAlias .. => exact .refl _
  | .function .. => exact .refl _
  | .branch test body =>
      have htest := eval_refines hcall scope locals test
      have hbody := runBody_refines hcall scope locals body
      refine htest.bind fun v => ?_
      cases v.truthy with
      | true => simpa using hbody
      | false => simp [Refines.refl]
  | .ret value =>
      have hvalue := eval_refines hcall scope locals value
      exact hvalue.bind fun v => .refl _
  | .destructure bindings _ source =>
      have hsource := eval_refines hcall scope locals source
      exact hsource.bind fun v => .refl _
  | .const name _ value =>
      have hvalue := eval_refines hcall scope locals value
      exact hvalue.bind fun v => .refl _

theorem runBody_refines (hcall : Deepens deeper call) (scope : Scope) (locals : Locals)
    (body : List Stmt) :
    Refines (runBody deeper scope locals body) (runBody call scope locals body) := by
  match body with
  | [] => exact .refl _
  | stmt :: rest =>
      have hstmt := runStmt_refines hcall scope locals stmt
      refine hstmt.bind fun flow => ?_
      cases flow with
      | returned v => exact .refl _
      | running locals => exact runBody_refines hcall scope locals rest

end

end

/-! ## Calls -/

theorem invoke_succ_refines (levels : Nat) (closure : Closure) (sample : Sample) :
    Refines (invoke levels closure sample) (invoke (levels + 1) closure sample) := by
  induction levels generalizing closure sample with
  | zero => exact .inl rfl
  | succ levels ih =>
      rw [invoke, invoke]
      have hbody := runBody_refines ih
        (Frame.ofBody closure.address closure.function.body :: closure.scope)
        [(closure.function.param, sample)] closure.function.body
      exact hbody.bind fun flow => .refl _

theorem invoke_refines {fewer levels : Nat} (h : fewer ≤ levels) (closure : Closure)
    (sample : Sample) :
    Refines (invoke fewer closure sample) (invoke levels closure sample) := by
  induction h with
  | refl => exact .refl _
  | step _ ih => exact ih.trans (invoke_succ_refines _ closure sample)

theorem invokeAt_refines {depth deeper : Nat} (h : depth ≤ deeper) (closure : Closure)
    (sample : Sample) :
    Refines (invokeAt deeper closure sample) (invokeAt depth closure sample) :=
  invoke_refines (by omega) closure sample

/-- What a call answers at some depth without running out of levels it answers at every
smaller depth.  So the guard of a file that a body calls, from whatever scope it is reached,
gives the verdict that the file gives on the same sample. -/
theorem invokeAt_eq_of_le :
    (∀ (closure : Closure) (sample : Sample) (depth deeper : Nat), depth ≤ deeper →
      invokeAt deeper closure sample ≠ .error .tooDeep →
      invokeAt depth closure sample = invokeAt deeper closure sample) ∧
    ∀ (file : GuardFile) (name target : String) (closure : Closure) (scope : Scope)
      (locals : Locals) (sample : Sample) (depth : Nat),
      file.scope.find? name = some closure → scope.find? name = some closure →
      Fields.find? name locals = none → Fields.find? target locals = some sample →
      let inner := eval (invokeAt depth) scope locals (.call (.ident name) [.ident target])
      inner ≠ .error .tooDeep → inner.map Value.truthy = file.accepts name sample := by
  have hle : ∀ (closure : Closure) (sample : Sample) (depth deeper : Nat), depth ≤ deeper →
      invokeAt deeper closure sample ≠ .error .tooDeep →
      invokeAt depth closure sample = invokeAt deeper closure sample := by
    intro closure sample depth deeper h hne
    have hrefines := invokeAt_refines h closure sample
    exact (hrefines.eq_of_ne hne).symm
  refine ⟨hle, ?_⟩
  intro file name target closure scope locals sample depth hfile hscope hlocal htarget inner hne
  have hinner : inner = invokeAt depth closure sample := eval_callTest htarget hlocal hscope
  rw [hinner] at hne ⊢
  rw [GuardFile.accepts, hfile, ← hle closure sample 0 depth (Nat.zero_le depth) hne]

/-- One guard, which holds of lists of such lists; its helper calls it back. -/
def towerFile : GuardFile := ⟨[
  Registry.arrayGuard.toStmt,
  .function "isTower" true "root" .unknown .boolean [
    .function "isStorey" false "item" .unknown .boolean
      [.ret (.call (.ident "isTower") [.ident "item"])],
    .guard (.and (.call (.ident "isArray") [.ident "root"])
      (.call (.member (.ident "root") "every") [.ident "isStorey"])),
    .ret (Expr.bool true)]]⟩

def towerGuard : Closure :=
  (towerFile.scope.find? "isTower").getD ⟨Registry.arrayGuard, [], []⟩

def towerScope : Scope :=
  Frame.ofBody towerGuard.address towerGuard.function.body :: towerGuard.scope

def tower : Sample := .array [.array [], .array [.array [.array []]]]

def towerCall (depth : Nat) : Except EvalError Value :=
  eval (invokeAt depth) towerScope [("item", tower)] (.call (.ident "isTower") [.ident "item"])

theorem invokeAt_eq_of_le_tower :
    (invokeAt 994 towerGuard tower).map Value.truthy = .error .tooDeep ∧
      (invokeAt 993 towerGuard tower).map Value.truthy = .ok true ∧
      invokeAt 2 towerGuard tower = invokeAt 993 towerGuard tower ∧
      (towerCall 993).map Value.truthy = towerFile.accepts "isTower" tower := by
  have hdeep : (invokeAt 993 towerGuard tower).map Value.truthy = .ok true := by decide +kernel
  have hcall : (towerCall 993).map Value.truthy = .ok true := by decide +kernel
  refine ⟨by decide +kernel, hdeep, ?_, ?_⟩
  · refine invokeAt_eq_of_le.1 towerGuard tower 2 993 (by decide) fun htooDeep => ?_
    rw [htooDeep] at hdeep
    cases hdeep
  · refine invokeAt_eq_of_le.2 towerFile "isTower" "item" towerGuard towerScope
      [("item", tower)] tower 993 rfl rfl rfl rfl fun htooDeep => ?_
    rw [towerCall, htooDeep] at hcall
    cases hcall

end TypeGuard.Evaluation
