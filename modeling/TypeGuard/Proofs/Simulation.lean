import TypeGuard.Proofs.Execution
import TypeGuard.Proofs.Hygiene

/-!
# Written guards give the verdict of their type

A guard is run in a scope where the names it refers to are bound to the shared
array guard and to guards of other roots.  `Ready` is the invariant that carries
the simulation: every local was taken in the draft so far, and none hides a
name that the guard refers to.  It survives each piece of code because the names
that the piece declares were fresh.

`GuardWritten.invoke_eq` is the result: where the other guards give the verdicts
of their types with fewer levels, this one gives its own.
-/

namespace TypeGuard

open Evaluation

/-! ## Pieces of a body -/

theorem runBody_declarations {call : Call} {scope : Scope} {locals : Locals}
    {body rest : List Stmt} (h : ∀ stmt ∈ body, stmt.isDeclaration = true) :
    runBody call scope locals (body ++ rest) = runBody call scope locals rest := by
  induction body with
  | nil => rfl
  | cons stmt body ih =>
      have hrest := ih fun other hother => h other (List.mem_cons_of_mem _ hother)
      have hstmt := h stmt List.mem_cons_self
      cases stmt with
      | typeAlias name params type => exact hrest
      | function name exported param paramType returns inner => exact hrest
      | _ => cases hstmt

namespace Evaluation

def Settles (call : Call) (scope : Scope) (locals : Locals) (body : List Stmt)
    (result : Except EvalError Bool) (good : Locals → Prop) : Prop :=
  ∃ later, runBody call scope locals body = result.map (Flow.ofVerdict later) ∧ good later

section

variable {call : Call} {scope : Scope} {locals : Locals} {result : Except EvalError Bool}

theorem Settles.nil {good : Locals → Prop} (h : good locals) :
    Settles call scope locals [] (.ok true) good :=
  ⟨locals, rfl, h⟩

theorem Settles.guard {test : Expr} {rest : List Stmt} {next : Except EvalError Bool}
    {good : Locals → Prop} (h : eval call scope locals test = result.map Value.boolean)
    (hrest : Settles call scope locals rest next good) :
    Settles call scope locals (.guard test :: rest)
      (do let passes ← result; if passes then next else return false) good := by
  obtain ⟨later, hrun, hgood⟩ := hrest
  refine ⟨later, ?_, hgood⟩
  rw [runBody_guard h, hrun]
  cases result with
  | error problem => rfl
  | ok passes => cases passes <;> rfl

theorem Settles.append {first second : List Stmt} {next : Except EvalError Bool}
    {good better : Locals → Prop} (hfirst : Settles call scope locals first result good)
    (hsecond : ∀ later, good later → Settles call scope later second next better) :
    Settles call scope locals (first ++ second)
      (do let passes ← result; if passes then next else return false) better := by
  obtain ⟨later, hrun, hgood⟩ := hfirst
  obtain ⟨last, hnext, hbetter⟩ := hsecond later hgood
  refine ⟨last, ?_, hbetter⟩
  rw [runBody_append, hrun]
  cases result with
  | error problem => rfl
  | ok passes =>
      cases passes with
      | true => exact hnext
      | false => rfl

theorem Settles.imp {body : List Stmt} {good better : Locals → Prop}
    (h : Settles call scope locals body result good) (himp : ∀ later, good later → better later) :
    Settles call scope locals body result better := by
  obtain ⟨later, hrun, hgood⟩ := h
  exact ⟨later, hrun, himp later hgood⟩

@[simp] theorem bind_pass (result : Except EvalError Bool) :
    (do let passes ← result; if passes then .ok true else return false) = result := by
  cases result with
  | error problem => rfl
  | ok passes => cases passes <;> rfl

end

/-! ## Destructuring -/

@[simp] theorem destructure_cons (sample : Sample) (binding : Binding) (rest : List Binding)
    (locals : Locals) :
    destructure (.data sample) (binding :: rest) locals =
      destructure (.data sample) rest
        ((binding.localName, Sample.field binding.property sample.fields) :: locals) := by
  cases sample <;> rfl

theorem find?_destructure_of_notMem {sample : Sample} {bindings : List Binding}
    {locals : Locals} {name : String} (h : name ∉ bindings.map (·.localName)) :
    Fields.find? name (destructure (.data sample) bindings locals) =
      Fields.find? name locals := by
  induction bindings generalizing locals with
  | nil => rfl
  | cons binding rest ih =>
      rw [List.map_cons, List.mem_cons, not_or] at h
      simp [ih h.2, Ne.symm h.1]

theorem find?_destructure {sample : Sample} {bindings : List Binding} {locals : Locals}
    {binding : Binding} (hnodup : (bindings.map (·.localName)).Nodup)
    (hmem : binding ∈ bindings) :
    Fields.find? binding.localName (destructure (.data sample) bindings locals) =
      some (Sample.field binding.property sample.fields) := by
  induction bindings generalizing locals with
  | nil => cases hmem
  | cons first rest ih =>
      rw [List.map_cons, List.nodup_cons] at hnodup
      rw [destructure_cons]
      cases hmem with
      | head => simp [find?_destructure_of_notMem hnodup.1]
      | tail _ hrest => exact ih hnodup.2 hrest

/-! ## The invariant -/

/-- The locals are those of a guard written up to `draft`: all were taken by
then, and none hides one of the names that the scope has from outside. -/
structure Ready (globals : Scope) (isGlobal : String → Prop) (draft : Draft) (scope : Scope)
    (locals : Locals) : Prop where
  sees : ∀ name, isGlobal name → scope.find? name = globals.find? name
  reserved : ∀ name, isGlobal name → name ∈ draft.names.locals
  taken : ∀ name sample, Fields.find? name locals = some sample →
    name ∈ draft.names.locals ∧ ¬ isGlobal name

def Keeps (draft : Draft) (locals later : Locals) : Prop :=
  ∀ name ∈ draft.names.locals, Fields.find? name later = Fields.find? name locals

section

variable {globals : Scope} {isGlobal : String → Prop} {before middle after : Draft}
  {scope : Scope} {locals later : Locals} {declared typed : List String}

/-- Code that binds nothing but what it declares keeps the invariant. -/
theorem Ready.extend (h : Ready globals isGlobal before scope locals)
    (hextends : before.Extends declared typed after)
    (hlater : ∀ name, name ∉ declared → Fields.find? name later = Fields.find? name locals) :
    Ready globals isGlobal after scope later where
  sees := h.sees
  reserved name hname := hextends.grows name (h.reserved name hname)
  taken name sample hfound := by
    by_cases hdeclared : name ∈ declared
    · exact ⟨hextends.taken name hdeclared,
        fun hname => hextends.fresh name hdeclared (h.reserved name hname)⟩
    · rw [hlater name hdeclared] at hfound
      obtain ⟨htaken, hlocal⟩ := h.taken name sample hfound
      exact ⟨hextends.grows name htaken, hlocal⟩

theorem Ready.global_notLocal (h : Ready globals isGlobal before scope locals) {name : String}
    (hname : isGlobal name) : Fields.find? name locals = none := by
  rw [Option.eq_none_iff_forall_not_mem]
  intro sample hfound
  exact (h.taken name sample hfound).2 hname

theorem Ready.fresh_notLocal (h : Ready globals isGlobal before scope locals) {name : String}
    (hname : name ∉ before.names.locals) : Fields.find? name locals = none := by
  rw [Option.eq_none_iff_forall_not_mem]
  intro sample hfound
  exact hname (h.taken name sample hfound).1

theorem Keeps.trans {last : Locals} (hfirst : Keeps before locals later)
    (hextends : before.Extends declared typed middle) (hsecond : Keeps middle later last) :
    Keeps before locals last :=
  fun name hname => (hsecond name (hextends.grows name hname)).trans (hfirst name hname)

theorem Keeps.of_extends (hextends : before.Extends declared typed after)
    (hlater : ∀ name, name ∉ declared → Fields.find? name later = Fields.find? name locals) :
    Keeps before locals later :=
  fun name hname => hlater name fun hdeclared => hextends.fresh name hdeclared hname

end

def Declares (scope : Scope) (body : List Stmt) : Prop :=
  ∀ f ∈ body.filterMap Stmt.function?, ∃ address, scope.find? f.name = some ⟨f, address, scope⟩

@[simp] theorem Declares.append {scope : Scope} {first second : List Stmt} :
    Declares scope (first ++ second) ↔ Declares scope first ∧ Declares scope second := by
  simp only [Declares, List.filterMap_append, List.forall_mem_append]

theorem Declares.nested {scope : Scope} {name : String} {type : TypeExpr} {nested : Function}
    (h : Declares scope [.typeAlias name [] type, nested.toStmt]) :
    ∃ address, scope.find? nested.name = some ⟨nested, address, scope⟩ :=
  h nested (List.mem_singleton.mpr rfl)

theorem declares_ofBody (address : List Nat) (outer : Scope) {body : List Stmt}
    (h : ((body.filterMap Stmt.function?).map (·.name)).Nodup) :
    Declares (Frame.ofBody address body :: outer) body := by
  intro f hf
  obtain ⟨index, hfound⟩ := Frame.find?_ofBody address h hf
  refine ⟨index :: address, ?_⟩
  rw [Scope.find?, hfound]
  rfl

/-! ## The globals -/

/-- With this many levels the shared array guard tells arrays, and the guards of
the roots give the verdicts of their types. -/
structure Linked (settings : Settings) (roots : Fields TypeTree) (globals : Scope)
    (levels : Nat) : Prop where
  array : ∃ closure, globals.find? Writing.arrayGuardName = some closure ∧
    ∀ sample, invoke levels closure sample = (arrayVerdict levels sample).map Value.boolean
  root : ∀ name tree, Fields.find? name roots = some tree →
    ∃ closure, globals.find? (settings.guardName name) = some closure ∧
      ∀ sample, invoke levels closure sample =
        (verdict roots levels tree sample).map Value.boolean

/-- The code written up to a draft takes from outside only global names, and
refers only to roots. -/
structure Covers (settings : Settings) (roots : Fields TypeTree) (isGlobal : String → Prop)
    (draft : Draft) : Prop where
  array : isGlobal Writing.arrayGuardName
  reference : ∀ r ∈ draft.references, isGlobal (settings.guardName r.name) ∧
    ∃ tree, Fields.find? r.name roots = some tree

theorem Covers.earlier {settings : Settings} {roots : Fields TypeTree}
    {isGlobal : String → Prop} {before after : Draft} {declared typed : List String}
    (h : Covers settings roots isGlobal after) (hextends : before.Extends declared typed after) :
    Covers settings roots isGlobal before where
  array := h.array
  reference r hr := h.reference r (hextends.references hr)

end Evaluation

namespace Writing

variable {settings : Settings} {roots : Fields TypeTree} {globals : Scope}
  {isGlobal : String → Prop} {levels : Nat} {scope : Scope} {locals : Locals}
  {before after : Draft}

/-! ## Self checks -/

theorem evalEntries_checkedEntries (call : Call) (scope : Scope) {bindings : List Binding}
    (h : ∀ binding ∈ bindings, ∃ sample, Fields.find? binding.localName locals = some sample)
    (entries : Fields Sample) :
    ∃ fields, evalEntries call scope locals (checkedEntries bindings) entries = .ok fields := by
  induction bindings generalizing entries with
  | nil => exact ⟨entries, rfl⟩
  | cons binding rest ih =>
      obtain ⟨sample, hfound⟩ := h binding List.mem_cons_self
      obtain ⟨fields, hfields⟩ := ih (fun other hother => h other (List.mem_cons_of_mem _ hother))
        (Fields.insert binding.property sample entries)
      refine ⟨fields, ?_⟩
      rw [checkedEntries, List.map_cons, evalEntries, eval_local hfound]
      exact hfields

theorem SelfCheckWritten.settles {call : Call} {path : Path} {type : TypeExpr}
    {bindings : List Binding} {check : List Stmt}
    (h : SelfCheckWritten settings path type bindings before check after)
    (hready : Ready globals isGlobal before scope locals)
    (hbound : ∀ binding ∈ bindings, ∃ sample,
      Fields.find? binding.localName locals = some sample) :
    Settles call scope locals check (.ok true) fun later =>
      Ready globals isGlobal after scope later ∧ Keeps before locals later := by
  cases h with
  | off => exact ⟨locals, rfl, hready, fun _ _ => rfl⟩
  | @on name names _ _ hfresh =>
      obtain ⟨fields, hfields⟩ := evalEntries_checkedEntries call scope hbound []
      have hextends := Draft.Extends.of_freshLocal hfresh
      have hlater : ∀ other, other ∉ [name] →
          Fields.find? other ((name, .object fields) :: locals) = Fields.find? other locals := by
        intro other hother
        have hne : name ≠ other := fun heq => hother (by simp [heq])
        exact Fields.find?_cons_of_ne hne _ _
      refine ⟨(name, .object fields) :: locals, ?_, hready.extend hextends hlater,
        .of_extends hextends hlater⟩
      rw [runBody, runStmt, eval, hfields]
      rfl

theorem AttributesBound.settles {call : Call} {path : Path} {names : List String}
    {bindings : List Binding} {target : String} {sample : Sample}
    (h : AttributesBound path names before bindings after) (type : TypeExpr)
    (hready : Ready globals isGlobal before scope locals)
    (htarget : Fields.find? target locals = some sample) :
    Settles call scope locals (destructuring type target bindings) (.ok true) fun later =>
      Ready globals isGlobal after scope later ∧ Keeps before locals later ∧
        ∀ binding ∈ bindings, Fields.find? binding.localName later =
          some (Sample.field binding.property sample.fields) := by
  have hlater : ∀ name, name ∉ bindings.map (·.localName) →
      Fields.find? name (destructure (.data sample) bindings locals) =
        Fields.find? name locals := fun name => find?_destructure_of_notMem
  refine ⟨destructure (.data sample) bindings locals, ?_, hready.extend h.extends hlater,
    .of_extends h.extends hlater, fun binding => find?_destructure h.extends.nodup⟩
  cases bindings with
  | nil => cases sample <;> rfl
  | cons binding rest =>
      rw [destructuring, if_neg (by simp), runBody, runStmt, eval_local htarget]
      rfl

/-! ## The simulation -/

theorem GuardWritten.ready {name param : String} {type : TypeExpr} {path : Path}
    {exported : Bool} {tree : TypeTree} {guard : Function}
    (h : GuardWritten settings name type param path exported tree before guard after)
    (address : List Nat) (sample : Sample)
    (hreserved : ∀ name, isGlobal name → name ∈ before.names.locals)
    (hsees : ∀ name, isGlobal name → scope.find? name = globals.find? name)
    (hparam : ¬ isGlobal param) :
    Ready globals isGlobal (before.withNames (before.names.reserveLocal param))
      (Frame.ofBody address guard.body :: scope) [(param, sample)] where
  sees other hother := by
    have hfresh : other ∉ (guard.body.filterMap Stmt.function?).map (·.name) := fun hmem =>
      h.extends.fresh other ((names_sublist_declaredIn guard.body).subset hmem)
        (Names.mem_locals_reserveLocal.mpr (.inr (hreserved other hother)))
    rw [Scope.find?, Frame.find?_ofBody_eq_none hfresh]
    exact hsees other hother
  reserved other hother := Names.mem_locals_reserveLocal.mpr (.inr (hreserved other hother))
  taken other value hfound := by
    rw [Fields.find?] at hfound
    split at hfound
    next heq =>
        subst heq
        exact ⟨Names.mem_locals_reserveLocal.mpr (.inl rfl), hparam⟩
    next => cases hfound

theorem invoke_eq_of_settles {guard : Function} {address : List Nat} {hoisted body : List Stmt}
    {sample : Sample} {result : Except EvalError Bool} {good : Locals → Prop}
    (hbody : guard.body = hoisted ++ body ++ [.ret (Expr.bool true)])
    (hhoisted : ∀ stmt ∈ hoisted, stmt.isDeclaration = true)
    (h : Settles (invoke levels) (Frame.ofBody address guard.body :: scope)
      [(guard.param, sample)] body result good) :
    invoke (levels + 1) ⟨guard, address, scope⟩ sample = result.map Value.boolean := by
  obtain ⟨later, hrun, -⟩ := h
  have hall : runBody (invoke levels) (Frame.ofBody address guard.body :: scope)
      [(guard.param, sample)] guard.body =
        result.map fun passes => .returned (.boolean passes) := by
    conv => lhs; arg 4; rw [hbody, List.append_assoc]
    rw [runBody_declarations hhoisted, runBody_append, hrun]
    cases result with
    | error problem => rfl
    | ok passes => cases passes <;> rfl
  rw [invoke]
  simp only [hall]
  cases result <;> rfl

theorem settles_object {call : Call} {path : Path} {target : String} {type : TypeExpr}
    {names : List String} {bindings : List Binding} {sample : Sample} {inner check : List Stmt}
    {result : Except EvalError Bool} {declared typed : List String} {bound written : Draft}
    (hbound : AttributesBound path names before bindings bound)
    (hcheck : SelfCheckWritten settings path type bindings written check after)
    (hready : Ready globals isGlobal before scope locals)
    (htarget : Fields.find? target locals = some sample)
    (hextends : bound.Extends declared typed written)
    (hinner : ∀ first, Ready globals isGlobal bound scope first →
      (∀ binding ∈ bindings, Fields.find? binding.localName first =
        some (Sample.field binding.property sample.fields)) →
      Settles call scope first inner result fun later =>
        Ready globals isGlobal written scope later ∧ Keeps bound first later) :
    Settles call scope locals
      (.guard (objectTest target) :: destructuring type target bindings ++ inner ++ check)
      (if sample.isObjectOrArray then result else .ok false) fun later =>
        Ready globals isGlobal after scope later ∧ Keeps before locals later := by
  have hchecked : ∀ first, Ready globals isGlobal bound scope first →
      (∀ binding ∈ bindings, Fields.find? binding.localName first =
        some (Sample.field binding.property sample.fields)) →
      Settles call scope first (inner ++ check) result fun later =>
        Ready globals isGlobal after scope later ∧ Keeps bound first later := by
    intro first hfirst hfields
    rw [← bind_pass result]
    refine (hinner first hfirst hfields).append fun second ⟨hsecond, hkeeps⟩ => ?_
    refine (hcheck.settles hsecond fun binding hbinding =>
      ⟨Sample.field binding.property sample.fields, ?_⟩).imp
      fun later ⟨hlater, hlast⟩ => ⟨hlater, hkeeps.trans hextends hlast⟩
    exact (hkeeps _ (hbound.extends.taken _ (List.mem_map_of_mem hbinding))).trans
      (hfields binding hbinding)
  have hbody : Settles call scope locals
      (destructuring type target bindings ++ (inner ++ check)) result fun later =>
        Ready globals isGlobal after scope later ∧ Keeps before locals later :=
    (hbound.settles type hready htarget).append fun first ⟨hfirst, hkeeps, hfields⟩ =>
      (hchecked first hfirst hfields).imp fun later ⟨hlater, hlast⟩ =>
        ⟨hlater, hkeeps.trans hbound.extends hlast⟩
  have hobject : eval call scope locals (objectTest target) =
      (Except.ok sample.isObjectOrArray).map Value.boolean := eval_objectTest htarget
  have hall := Settles.guard hobject hbody
  rw [List.append_assoc]
  cases hkeyed : sample.isObjectOrArray <;> rw [hkeyed] at hall <;> exact hall

/-! The induction is on how the code was written.  Nested guards are called with
fewer levels, but they see the same globals, so `Linked` is asked for below. -/

mutual

theorem GuardWritten.invoke_eq {name param : String} {type : TypeExpr} {path : Path}
    {exported : Bool} {tree : TypeTree} {guard : Function} {levels : Nat} {scope : Scope}
    {before after : Draft}
    (h : GuardWritten settings name type param path exported tree before guard after)
    (hlinked : ∀ fewer < levels, Linked settings roots globals fewer)
    (hcovers : Covers settings roots isGlobal after)
    (hreserved : ∀ name, isGlobal name → name ∈ before.names.locals)
    (hsees : ∀ name, isGlobal name → scope.find? name = globals.find? name)
    (hparam : ¬ isGlobal param) (address : List Nat) (sample : Sample) :
    invoke levels ⟨guard, address, scope⟩ sample =
      (verdict roots levels tree sample).map Value.boolean := by
  cases levels with
  | zero => rfl
  | succ levels =>
      -- The body runs in the scope of its own functions, which hide no global name.
      have hready := h.ready address sample hreserved hsees hparam
      have hdeclares := declares_ofBody address scope
        ((names_sublist_declaredIn guard.body).nodup h.extends.nodup)
      match h with
      | .intro hbody =>
          rw [Declares.append, Declares.append] at hdeclares
          exact invoke_eq_of_settles rfl hbody.hoists <| hbody.settles
            (fun fewer hfewer => hlinked fewer (Nat.lt_succ_of_le hfewer)) hcovers hready
            hdeclares.1.1 (Fields.find?_cons_self _ _ _)

theorem AssertionsWritten.settles {path : Path} {target : String} {type : TypeExpr}
    {tree : TypeTree} {assertions : Assertions} {levels : Nat} {scope : Scope}
    {locals : Locals} {sample : Sample} {before after : Draft}
    (h : AssertionsWritten settings path target type tree before assertions after)
    (hlinked : ∀ fewer ≤ levels, Linked settings roots globals fewer)
    (hcovers : Covers settings roots isGlobal after)
    (hready : Ready globals isGlobal before scope locals)
    (hdeclares : Declares scope assertions.hoisted)
    (htarget : Fields.find? target locals = some sample) :
    Settles (invoke levels) scope locals assertions.body
      (Verdict.check levels (verdict roots levels) roots tree sample) fun later =>
        Ready globals isGlobal after scope later ∧ Keeps before locals later := by
  match h with
  | .object hbound hinner hcheck =>
      have hsettles := settles_object hbound hcheck hready htarget hinner.extends
        fun first hfirst hfields =>
          hinner.settles hlinked (hcovers.earlier hcheck.extends) hfirst hdeclares
            fun attr hattr =>
              have hbinding := (List.of_mem_zip hattr).1
              ⟨hbound.extends.taken _ (List.mem_map_of_mem hbinding), hfields _ hbinding⟩
      rw [map_zip_properties hbound.properties] at hsettles
      rwa [Verdict.check]
  | .union _ hmembers =>
      have heval := hmembers.eval_anyOf hlinked hcovers hready hdeclares htarget
      rw [← bind_pass (Verdict.check _ _ _ _ _), Verdict.check]
      exact .guard heval (.nil ⟨hready.extend hmembers.extends fun _ _ => rfl, fun _ _ => rfl⟩)
  | .single hcondition =>
      have heval := hcondition.eval_eq hlinked hcovers hready hdeclares htarget
      rw [← bind_pass (Verdict.check _ _ _ _ _)]
      exact .guard heval (.nil ⟨hready.extend hcondition.extends fun _ _ => rfl, fun _ _ => rfl⟩)

theorem ConditionWritten.eval_eq {path : Path} {target : String} {tree : TypeTree}
    {condition : Condition} {levels : Nat} {scope : Scope} {locals : Locals}
    {sample : Sample} {before after : Draft}
    (h : ConditionWritten settings path target tree before condition after)
    (hlinked : ∀ fewer ≤ levels, Linked settings roots globals fewer)
    (hcovers : Covers settings roots isGlobal after)
    (hready : Ready globals isGlobal before scope locals)
    (hdeclares : Declares scope condition.hoisted)
    (htarget : Fields.find? target locals = some sample) :
    eval (invoke levels) scope locals condition.test =
      (Verdict.check levels (verdict roots levels) roots tree sample).map Value.boolean := by
  match h with
  | .reference =>
      obtain ⟨hglobal, root, hroot⟩ := hcovers.reference _ List.mem_concat_self
      obtain ⟨closure, hfound, hcall⟩ := (hlinked levels (Nat.le_refl _)).root _ root hroot
      rw [eval_callTest htarget (hready.global_notLocal hglobal)
        ((hready.sees _ hglobal).trans hfound), hcall, Verdict.check]
      simp only [hroot]
  | .primitive => exact eval_kindTest _ htarget
  | .literal => exact eval_literalTest _ htarget
  | .array htype hfunction hparam hnested =>
      obtain ⟨closure, hfound, hcall⟩ := (hlinked levels (Nat.le_refl _)).array
      obtain ⟨address, hdeclared⟩ := hdeclares.nested
      rw [hnested.name] at hdeclared
      -- Both fresh names were free when the globals were already taken.
      have htyped := Draft.Extends.of_freshType htype
      have hnamed := htyped.trans (.of_freshFunction hfunction)
      have hbound := hnamed.trans (.of_freshLocal hparam)
      have hreserved : ∀ name, isGlobal name → name ∈ (before.withNames _).names.locals :=
        fun name hname => hbound.grows name (hready.reserved name hname)
      rw [Verdict.check]
      exact eval_arrayTest htarget (hready.global_notLocal hcovers.array)
        ((hready.sees _ hcovers.array).trans hfound) (hcall sample)
        (hready.fresh_notLocal (hbound.fresh _ (by simp))) hdeclared
        (hnested.invoke_eq (fun fewer hfewer => hlinked fewer (Nat.le_of_lt hfewer)) hcovers
          hreserved hready.sees
          (fun hname => hbound.fresh _ (by simp) (hready.reserved _ hname)) address)

theorem MembersWritten.eval_anyOf {path : Path} {target : String} {index : Nat}
    {members : List TypeTree} {conditions : List Condition} {levels : Nat} {scope : Scope}
    {locals : Locals} {sample : Sample} {before after : Draft}
    (h : MembersWritten settings path target index members before conditions after)
    (hlinked : ∀ fewer ≤ levels, Linked settings roots globals fewer)
    (hcovers : Covers settings roots isGlobal after)
    (hready : Ready globals isGlobal before scope locals)
    (hdeclares : Declares scope (conditions.flatMap (·.hoisted)))
    (htarget : Fields.find? target locals = some sample) :
    eval (invoke levels) scope locals (anyOf (conditions.map (·.test))) =
      (Verdict.checkSome levels (verdict roots levels) roots members sample).map
        Value.boolean := by
  match h with
  | .nil => rfl
  | .cons hfirst hrest =>
      rw [List.flatMap_cons, Declares.append] at hdeclares
      have heval := hfirst.eval_eq hlinked (hcovers.earlier hrest.extends) hready hdeclares.1
        htarget
      have hlater := hready.extend hfirst.extends fun _ _ => rfl
      exact hrest.eval_eq hlinked hcovers hlater hdeclares.2 htarget heval

theorem MembersWritten.eval_eq {path : Path} {target : String} {index : Nat}
    {members : List TypeTree} {conditions : List Condition} {levels : Nat} {scope : Scope}
    {locals : Locals} {sample : Sample} {before after : Draft}
    (h : MembersWritten settings path target index members before conditions after)
    (hlinked : ∀ fewer ≤ levels, Linked settings roots globals fewer)
    (hcovers : Covers settings roots isGlobal after)
    (hready : Ready globals isGlobal before scope locals)
    (hdeclares : Declares scope (conditions.flatMap (·.hoisted)))
    (htarget : Fields.find? target locals = some sample)
    {test : Expr} {result : Except EvalError Bool}
    (htest : eval (invoke levels) scope locals test = result.map Value.boolean) :
    eval (invoke levels) scope locals ((conditions.map (·.test)).foldl .or test) =
      (do
        let passes ← result
        if passes then return true
        else Verdict.checkSome levels (verdict roots levels) roots members sample).map
          Value.boolean := by
  match h with
  | .nil =>
      rw [List.map_nil, List.foldl_nil, htest]
      cases result with
      | error problem => rfl
      | ok passes => cases passes <;> rfl
  | .cons hfirst hrest =>
      rw [List.flatMap_cons, Declares.append] at hdeclares
      have heval := hfirst.eval_eq hlinked (hcovers.earlier hrest.extends) hready hdeclares.1
        htarget
      have hlater := hready.extend hfirst.extends fun _ _ => rfl
      rw [List.map_cons, List.foldl_cons, hrest.eval_eq hlinked hcovers hlater hdeclares.2 htarget
        (eval_or htest heval), Verdict.checkSome]
      cases result with
      | error problem => rfl
      | ok passes => cases passes <;> rfl

theorem AttributesWritten.settles {path : Path} {type : TypeExpr}
    {attributes : List (Binding × TypeTree)} {assertions : Assertions} {levels : Nat}
    {scope : Scope} {locals : Locals} {fields : Fields Sample} {before after : Draft}
    (h : AttributesWritten settings path type attributes before assertions after)
    (hlinked : ∀ fewer ≤ levels, Linked settings roots globals fewer)
    (hcovers : Covers settings roots isGlobal after)
    (hready : Ready globals isGlobal before scope locals)
    (hdeclares : Declares scope assertions.hoisted)
    (hbound : ∀ attr ∈ attributes, attr.1.localName ∈ before.names.locals ∧
      Fields.find? attr.1.localName locals = some (Sample.field attr.1.property fields)) :
    Settles (invoke levels) scope locals assertions.body
      (Verdict.checkEvery levels (verdict roots levels) roots
        (attributes.map fun attr => (attr.1.property, attr.2)) fields) fun later =>
        Ready globals isGlobal after scope later ∧ Keeps before locals later := by
  match h with
  | .nil => exact .nil ⟨hready, fun _ _ => rfl⟩
  | .cons hfirst hrest =>
      rw [Assertions.append, Declares.append] at hdeclares
      rw [List.forall_mem_cons] at hbound
      have hcovered := hcovers.earlier hrest.extends
      refine (hfirst.settles hlinked hcovered hready hdeclares.1 hbound.1.2).append
        fun later ⟨hlater, hkeeps⟩ => ?_
      refine (hrest.settles hlinked hcovers hlater hdeclares.2 fun attr hattr => ?_).imp
        fun last ⟨hlast, hkept⟩ => ⟨hlast, hkeeps.trans hfirst.extends hkept⟩
      obtain ⟨htaken, hfound⟩ := hbound.2 attr hattr
      exact ⟨hfirst.extends.grows _ htaken, (hkeeps _ htaken).trans hfound⟩

end

end Writing

end TypeGuard
