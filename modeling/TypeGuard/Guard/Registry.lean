import TypeGuard.Guard.Assertions

/-!
# The guards of one file

Roots are registered one by one under their aliases; a root registered again
replaces its guard in place.  A reference is good when it names the root itself,
a registered root, or one announced to come.  A registration that fails changes
nothing.

The file can be assembled once every reference names a registered root.
-/

namespace TypeGuard

structure Registry where
  settings : Settings
  announced : NameSet
  guards : Fields Function
  references : Fields (List Reference)

namespace Registry

open Writing

def empty (settings : Settings) : Registry := ⟨settings, ∅, [], []⟩

def announce (registry : Registry) (names : List String) : Registry :=
  { registry with announced := registry.announced.insertMany names }

def knows (registry : Registry) (name : String) : Bool :=
  registry.announced.contains name || Fields.contains name registry.guards

/-! ## Registering -/

def reserveAlias (settings : Settings) (names : Names) (aliasName : String) : Names :=
  (names.reserveType aliasName).reserveLocal (settings.guardName aliasName)

def reservedNames (registry : Registry) (root : String) : Names :=
  let helpers := (Names.empty.reserveLocal arrayGuardName).reserveType shallowTypeName
  (root :: registry.announced.toList ++ Fields.names registry.guards).foldl
    (reserveAlias registry.settings) helpers

def addNames (listed names : List String) : List String :=
  names.foldl (fun acc name => if acc.contains name then acc else acc ++ [name]) listed

def unknownAlias (registry : Registry) (pending : List String) (reference : Reference) :
    Problem :=
  .unknownAlias reference.name reference.place
    (addNames (Fields.names registry.guards) pending)

def write (registry : Registry) (aliasName : String) (tree : TypeTree) :
    Except Problem (Function × List Reference) := do
  let settings := registry.settings
  let start : Draft := ⟨registry.reservedNames aliasName, []⟩
  let (guard, draft) ←
    (guardFunction (assertions settings (settings.maxDepth + 1)) (settings.guardName aliasName)
      (.ref aliasName) rootParam [aliasName] true tree).run start
  return (guard, draft.references)

def register (registry : Registry) (tree : TypeTree) : Except Problem Registry := do
  match tree.aliasName with
  | none | some "" => throw (.unnamedRoot tree.text)
  | some aliasName =>
      let (guard, references) ← registry.write aliasName tree
      let unknown reference := !(reference.name == aliasName || registry.knows reference.name)
      match references.find? unknown with
      | some reference => throw (registry.unknownAlias [aliasName] reference)
      | none =>
          return { registry with
            guards := Fields.insert aliasName guard registry.guards
            references := Fields.insert aliasName references registry.references }

/-! ## Assembling -/

/-- `function isArray(value) { return Array.isArray(value) }`. -/
def arrayGuard : Function where
  name := arrayGuardName
  exported := false
  param := "value"
  paramType := .unknown
  returns := .narrows "value" (.array .unknown)
  body := [.ret (.call (.member (.ident "Array") "isArray") [.ident "value"])]

/-- `type ShallowOptional<T> = { [K in keyof T]?: unknown }`. -/
def shallowType : Stmt :=
  .typeAlias shallowTypeName ["T"] (.mappedOptional "K" (.ref "T"))

def importedNames (registry : Registry) : List String :=
  registry.references.foldl
    (fun acc (aliasName, references) => addNames acc (aliasName :: references.map (·.name))) []

def importStatements (registry : Registry) : List Stmt :=
  if registry.importedNames.isEmpty then []
  else [.imports registry.importedNames registry.settings.importFrom]

/-- Shared helpers, imports, then the guards in order of registration. -/
def assemble (registry : Registry) : Except Problem GuardFile :=
  let references := registry.references.flatMap (·.2)
  match references.find? fun reference => !Fields.contains reference.name registry.guards with
  | some reference => .error (registry.unknownAlias [] reference)
  | none =>
      .ok ⟨arrayGuard.toStmt :: shallowType :: registry.importStatements ++
        registry.guards.map fun (_, guard) => guard.toStmt⟩

end Registry

end TypeGuard
