import TypeGuard.Guard.Annotation
import TypeGuard.Guard.Settings
import TypeGuard.Model.Names

/-!
# Assertions of one guard

A type is asserted of a local variable, the target.  An object asserts that the
target is an object, binds its attributes to fresh locals and asserts their
types in turn; every other type is one condition, and the guard returns `false`
where it fails.  The element type of an array becomes a nested guard, hoisted
to the front of the body, and a reference becomes a call of the guard of its
root.

The budget is the number of levels of nesting still allowed.
-/

namespace TypeGuard

structure Reference where
  name : String
  place : Path
  deriving DecidableEq, Repr

structure Draft where
  names : Names
  references : List Reference

abbrev Writing (α : Type) := StateT Draft (Except Problem) α

/-- Declarations at the front of a body, and the checks after them. -/
structure Assertions where
  hoisted : List Stmt
  body : List Stmt

namespace Assertions

def none : Assertions := ⟨[], []⟩

def append (first second : Assertions) : Assertions :=
  ⟨first.hoisted ++ second.hoisted, first.body ++ second.body⟩

end Assertions

structure Condition where
  hoisted : List Stmt
  test : Expr

namespace Writing

def arrayGuardName : String := "isArray"

def shallowTypeName : String := "ShallowOptional"

def rootParam : String := "root"

/-! ## Names -/

def takeName (fresh : Names → Except Problem (String × Names)) : Writing String := do
  let draft ← get
  match fresh draft.names with
  | .ok (name, names) =>
      set { draft with names }
      return name
  | .error problem => throw problem

def freshLocal (path : Path) (proposed : String) : Writing String :=
  takeName fun names => names.freshLocal path proposed

def freshType (path : Path) (proposed : String) : Writing String :=
  takeName fun names => names.freshType path proposed

def freshFunction (path : Path) (proposed : String) : Writing String :=
  takeName fun names => names.freshFunction path proposed

def reserveLocal (name : String) : Writing Unit :=
  modify fun draft => { draft with names := draft.names.reserveLocal name }

def bindAttribute (path : Path) (name : String) : Writing Binding := do
  let draft ← get
  match draft.names.bindAttribute path name with
  | (.ok localName, names) =>
      set { draft with names }
      return ⟨name, localName⟩
  | (.error problem, _) => throw problem

def bindAttributes (path : Path) : List String → Writing (List Binding)
  | [] => return []
  | name :: rest => do
      let binding ← bindAttribute path name
      return binding :: (← bindAttributes path rest)

def refer (name : String) (place : Path) : Writing Unit :=
  modify fun draft => { draft with references := draft.references ++ [⟨name, place⟩] }

/-! ## Conditions -/

abbrev Writer := Path → String → TypeExpr → TypeTree → Writing Assertions

def guardFunction (write : Writer) (name : String) (type : TypeExpr) (param : String)
    (path : Path) (exported : Bool) (tree : TypeTree) : Writing Function := do
  reserveLocal param
  let assertions ← write path param type tree
  return {
    name
    exported
    param
    paramType := .unknown
    returns := .narrows param type
    body := assertions.hoisted ++ assertions.body ++ [.ret (Expr.bool true)] }

/-- `isArray(target) && target.every(elementGuard)`. -/
def arrayCondition (write : Writer) (path : Path) (target : String) (element : TypeTree) :
    Writing Condition := do
  let last := path.getLastD ""
  let typeName ← freshType path (last ++ "_element")
  let functionName ← freshFunction path ("is_" ++ last ++ "_element")
  let param ← freshLocal path rootParam
  let nested ←
    guardFunction write functionName (.ref typeName) param (path ++ ["element"]) false element
  return {
    hoisted := [.typeAlias typeName [] element.toTypeExpr, nested.toStmt]
    test := .and
      (.call (.ident arrayGuardName) [.ident target])
      (.call (.member (.ident target) "every") [.ident functionName]) }

def literalTest (target : String) : Literal → Expr
  | .undefined => Expr.hasTag target "undefined"
  | value => .strictEq (.ident target) (.literal value)

def condition (settings : Settings) (write : Writer) (path : Path) (target : String) :
    TypeTree → Writing Condition
  | .reference _ name => do
      refer name path
      return ⟨[], .call (.ident (settings.guardName name)) [.ident target]⟩
  | .primitive _ kind => return ⟨[], Expr.hasTag target kind.tag⟩
  | .literal _ value => return ⟨[], literalTest target value⟩
  | .array _ element => arrayCondition write path target element
  | .union .. => throw (.nestedUnion path)
  | tree@(.object ..) => throw (.objectInUnion path [tree.text])

/-! ## Unions -/

/-- Array members bind attributes of their own, so each has a path of its own. -/
def memberPath (path : Path) (index : Nat) : TypeTree → Path
  | .array .. => path ++ ["alt" ++ toString index]
  | _ => path

def memberConditions (write : Path → TypeTree → Writing Condition) (path : Path) :
    Nat → List TypeTree → Writing (List Condition)
  | _, [] => return []
  | index, member :: rest => do
      let first ← write (memberPath path index member) member
      return first :: (← memberConditions write path (index + 1) rest)

def anyOf : List Expr → Expr
  | [] => Expr.bool false
  | test :: rest => rest.foldl .or test

def unionCondition (write : Path → TypeTree → Writing Condition) (path : Path)
    (members : List TypeTree) : Writing Condition := do
  match TypeTree.checkUnion path members with
  | .error problem => throw problem
  | .ok () =>
      let conditions ← memberConditions write path 0 members
      return ⟨conditions.flatMap (·.hoisted), anyOf (conditions.map (·.test))⟩

/-! ## Objects -/

/-- `typeof target === "object" && target !== null`. -/
def objectTest (target : String) : Expr :=
  .and (Expr.hasTag target "object") (.strictNe (.ident target) (.literal .null))

def attributeAssertions (write : Writer) (path : Path) (type : TypeExpr) :
    List (Binding × TypeTree) → Writing Assertions
  | [] => return Assertions.none
  | (binding, tree) :: rest => do
      let name := binding.property
      let first ← write (path ++ [name]) binding.localName (.index type name) tree
      return first.append (← attributeAssertions write path type rest)

def destructuring (type : TypeExpr) (target : String) (bindings : List Binding) : List Stmt :=
  if bindings.isEmpty then []
  else [.destructure bindings (some (.generic shallowTypeName [type])) (.ident target)]

def selfCheck (settings : Settings) (path : Path) (type : TypeExpr) (bindings : List Binding) :
    Writing (List Stmt) := do
  if settings.selfChecks then
    let name ← freshLocal path "checked"
    let entries := bindings.map fun binding => (binding.property, Expr.ident binding.localName)
    return [.const name (some type) (.object entries)]
  else return []

def objectAssertions (settings : Settings) (write : Writer) (path : Path) (target : String)
    (type : TypeExpr) (attributes : List (String × TypeTree)) : Writing Assertions := do
  let bindings ← bindAttributes path (Fields.names attributes)
  let inner ← attributeAssertions write path type (bindings.zip (attributes.map (·.2)))
  let check ← selfCheck settings path type bindings
  return {
    hoisted := inner.hoisted
    body := .guard (objectTest target) :: destructuring type target bindings ++
      inner.body ++ check }

/-! ## Any type -/

def tooDeep {α : Type} (settings : Settings) (path : Path) : Writing α :=
  throw (.nestedTooDeep settings.maxDepth path)

def assertions (settings : Settings) : Nat → Writer
  | 0, path, _, _, _ => tooDeep settings path
  | budget + 1, path, target, type, tree =>
      match tree with
      | .object _ attributes _ =>
          objectAssertions settings (assertions settings budget) path target type attributes
      | .union _ members => do
          let member : Path → TypeTree → Writing Condition :=
            match budget with
            | 0 => fun path _ => tooDeep settings path
            | inner + 1 => fun path tree =>
                condition settings (assertions settings inner) path target tree
          let union ← unionCondition member path members
          return ⟨union.hoisted, [.guard union.test]⟩
      | tree => do
          let single ← condition settings (assertions settings budget) path target tree
          return ⟨single.hoisted, [.guard single.test]⟩

end Writing

end TypeGuard
