import TypeGuard.Fixture.Sampler
import TypeGuard.Guard.Code
import TypeGuard.Json.Printer

/-!
# Running guards

The values and rules of the language that guards are written in, for the forms
that guards use.  The functions declared in a body are visible in that body and
in the functions nested in it; the locals of a call are visible in that call
only.  Calls nest to a fixed depth, and `invoke` counts the levels left.
-/

namespace TypeGuard

/-! ## Values -/

/-- The functions declared in one body, each with its position there.  The
address is the list of positions that leads to the body from the file. -/
structure Frame where
  address : List Nat
  functions : List (Nat × Function)

abbrev Scope := List Frame

structure Closure where
  function : Function
  address : List Nat
  scope : Scope

inductive Value where
  | data (sample : Sample)
  | function (closure : Closure)
  | arrayConstructor
  | isArray
  | every (items : List Sample)

inductive EvalError where
  | unknownGuard (name : String)
  | unbound (name : String)
  | notCallable (what : String)
  | noReturn (name : String)
  | tooDeep
  deriving DecidableEq, Repr

def EvalError.message : EvalError → String
  | .unknownGuard name => s!"no predicate named `{name}` in the generated file"
  | .unbound name => s!"unbound identifier `{name}`"
  | .notCallable what => s!"value is not callable: {what}"
  | .noReturn name => s!"`{name}` finished without returning"
  | .tooDeep => "call depth exceeded"

/-! ## Scopes -/

def Frame.ofBody (address : List Nat) (body : List Stmt) : Frame :=
  { address
    functions := body.zipIdx.filterMap fun (stmt, index) =>
      stmt.function?.map fun f => (index, f) }

/-- Of functions with one name the last declared counts. -/
def Frame.find? (frame : Frame) (name : String) : Option (Nat × Function) :=
  frame.functions.reverse.find? fun (_, f) => f.name == name

def Scope.find? (name : String) : Scope → Option Closure
  | [] => none
  | frame :: outer =>
      match frame.find? name with
      | some (index, f) => some ⟨f, index :: frame.address, frame :: outer⟩
      | none => Scope.find? name outer

namespace Value

def undefined : Value := .data .undefined

def boolean (b : Bool) : Value := .data (.boolean b)

def truthy : Value → Bool
  | .data .undefined | .data .null => false
  | .data (.boolean b) => b
  | .data (.number x) => !(x.isZero || x.isNaN)
  | .data (.string s) => !s.isEmpty
  | _ => true

def tag : Value → String
  | .data .undefined => "undefined"
  | .data .null | .data (.array _) | .data (.object _) => "object"
  | .data (.boolean _) => "boolean"
  | .data (.number _) => "number"
  | .data (.string _) => "string"
  | .data .sentinel => "symbol"
  | _ => "function"

/-- Primitive values are compared by value, functions by declaration; arrays,
objects and sentinels equal nothing. -/
def strictEq : Value → Value → Bool
  | .data .undefined, .data .undefined | .data .null, .data .null => true
  | .data (.boolean a), .data (.boolean b) => a == b
  | .data (.number x), .data (.number y) => x.numericEq y
  | .data (.string s), .data (.string t) => s == t
  | .function f, .function g => f.address == g.address
  | _, _ => false

def text : Value → String
  | .data sample => sample.toJson.compact
  | .function closure => s!"function {closure.function.name}"
  | .arrayConstructor => "Array"
  | .isArray => "Array.isArray"
  | .every _ => "Array.prototype.every"

def data? : Value → Option Sample
  | .data sample => some sample
  | _ => none

def member (name : String) : Value → Value
  | .arrayConstructor => if name = "isArray" then .isArray else undefined
  | .data (.array items) => if name = "every" then .every items else undefined
  | .data (.object fields) => .data (Sample.field name fields)
  | _ => undefined

end Value

/-! ## Expressions -/

namespace Evaluation

abbrev Call := Closure → Sample → Except EvalError Value

abbrev Locals := List (String × Sample)

def holdsOfAll (call : Call) (f : Closure) : List Sample → Except EvalError Bool
  | [] => .ok true
  | item :: rest => do
      let verdict ← call f item
      if verdict.truthy then holdsOfAll call f rest else return false

/-- Apply a value to arguments; only the first one counts, and only data can be
passed to a function. -/
def apply (call : Call) (callee : Value) (arguments : List Value) : Except EvalError Value :=
  let argument := (arguments.head?.bind Value.data?).getD .undefined
  match callee with
  | .isArray =>
      match argument with
      | .array _ => .ok (Value.boolean true)
      | _ => .ok (Value.boolean false)
  | .every items =>
      match arguments with
      | .function f :: _ => (holdsOfAll call f items).map Value.boolean
      | other :: _ => .error (.notCallable other.text)
      | [] => .error (.notCallable "undefined")
  | .function f => call f argument
  | other => .error (.notCallable other.text)

def identifier (scope : Scope) (locals : Locals) (name : String) : Except EvalError Value :=
  match Fields.find? name locals with
  | some sample => .ok (.data sample)
  | none =>
      match scope.find? name with
      | some closure => .ok (.function closure)
      | none =>
          if name = "Array" then .ok .arrayConstructor
          else if name = "undefined" then .ok Value.undefined
          else .error (.unbound name)

mutual

def eval (call : Call) (scope : Scope) (locals : Locals) : Expr → Except EvalError Value
  | .ident name => identifier scope locals name
  | .literal value => .ok (.data (.ofLiteral value))
  | .typeOf e => do
      let v ← eval call scope locals e
      return .data (.string v.tag)
  | .strictEq a b => do
      let x ← eval call scope locals a
      let y ← eval call scope locals b
      return Value.boolean (x.strictEq y)
  | .strictNe a b => do
      let x ← eval call scope locals a
      let y ← eval call scope locals b
      return Value.boolean (!x.strictEq y)
  | .not e => do
      let v ← eval call scope locals e
      return Value.boolean (!v.truthy)
  | .and a b => do
      let x ← eval call scope locals a
      if x.truthy then eval call scope locals b else return x
  | .or a b => do
      let x ← eval call scope locals a
      if x.truthy then return x else eval call scope locals b
  | .member e name => do
      let v ← eval call scope locals e
      return v.member name
  | .call e arguments => do
      let callee ← eval call scope locals e
      let values ← evalAll call scope locals arguments
      apply call callee values
  | .object entries => do
      let fields ← evalEntries call scope locals entries []
      return .data (.object fields)

def evalAll (call : Call) (scope : Scope) (locals : Locals) :
    List Expr → Except EvalError (List Value)
  | [] => .ok []
  | e :: rest => do
      let v ← eval call scope locals e
      return v :: (← evalAll call scope locals rest)

def evalEntries (call : Call) (scope : Scope) (locals : Locals) :
    List (String × Expr) → Fields Sample → Except EvalError (Fields Sample)
  | [], fields => .ok fields
  | (name, e) :: rest, fields => do
      let v ← eval call scope locals e
      match v.data? with
      | some sample => evalEntries call scope locals rest (Fields.insert name sample fields)
      | none => evalEntries call scope locals rest fields

end

@[simp] theorem eval_ident (call : Call) (scope : Scope) (locals : Locals) (name : String) :
    eval call scope locals (.ident name) = identifier scope locals name := by
  rw [eval]

/-! ## Statements -/

inductive Flow where
  | returned (value : Value)
  | running (locals : Locals)

/-- Bind the named properties of an object; anything else has none. -/
def destructure (source : Value) (bindings : List Binding) (locals : Locals) : Locals :=
  let fields : Fields Sample :=
    match source with
    | .data (.object fields) => fields
    | _ => []
  bindings.foldl
    (fun acc binding => (binding.localName, Sample.field binding.property fields) :: acc) locals

mutual

def runStmt (call : Call) (scope : Scope) (locals : Locals) : Stmt → Except EvalError Flow
  | .imports .. | .typeAlias .. | .function .. => .ok (.running locals)
  | .branch test body => do
      let v ← eval call scope locals test
      if v.truthy then runBody call scope locals body else return .running locals
  | .ret value => do
      let v ← eval call scope locals value
      return .returned v
  | .destructure bindings _ source => do
      let v ← eval call scope locals source
      return .running (destructure v bindings locals)
  | .const name _ value => do
      let v ← eval call scope locals value
      match v.data? with
      | some sample => return .running ((name, sample) :: locals)
      | none => return .running locals

def runBody (call : Call) (scope : Scope) (locals : Locals) :
    List Stmt → Except EvalError Flow
  | [] => .ok (.running locals)
  | stmt :: rest => do
      match ← runStmt call scope locals stmt with
      | .returned v => return .returned v
      | .running locals => runBody call scope locals rest

end

/-! ## Calls -/

def invoke : Nat → Call
  | 0, _, _ => .error .tooDeep
  | levels + 1, closure, argument => do
      let f := closure.function
      let scope := Frame.ofBody closure.address f.body :: closure.scope
      match ← runBody (invoke levels) scope [(f.param, argument)] f.body with
      | .returned v => return v
      | .running _ => throw (.noReturn f.name)

def maxCallDepth : Nat := 1000

/-- A call at a depth; a call from the outside has depth zero. -/
def invokeAt (depth : Nat) : Call := invoke (maxCallDepth + 1 - depth)

end Evaluation

namespace GuardFile

def scope (file : GuardFile) : Scope := [Frame.ofBody [] file.statements]

def accepts (file : GuardFile) (name : String) (sample : Sample) : Except EvalError Bool :=
  match file.scope.find? name with
  | none => .error (.unknownGuard name)
  | some closure => (Evaluation.invokeAt 0 closure sample).map Value.truthy

structure Unsound where
  sample : Sample
  expected : Bool

def unsoundAmong (file : GuardFile) (name : String) (expected : Bool) :
    List Sample → Except EvalError (List Unsound)
  | [] => .ok []
  | sample :: rest => do
      let verdict ← file.accepts name sample
      let others ← file.unsoundAmong name expected rest
      return if verdict = expected then others else ⟨sample, expected⟩ :: others

def unsound (file : GuardFile) (name : String) (fixtures : Fixtures) :
    Except EvalError (List Unsound) := do
  let valid ← file.unsoundAmong name true fixtures.valid
  let invalid ← file.unsoundAmong name false fixtures.invalid
  return valid ++ invalid

end GuardFile

end TypeGuard
