import TypeGuard.Document.Lowering
import TypeGuard.Fixture.Expansion
import TypeGuard.Guard.Evaluation
import TypeGuard.Guard.Registry

/-!
# Batches

The roots of a batch share one file.  A root that cannot have a guard is left
out, and the file is begun again without it, so that roots which refer to it are
left out in turn.  Fixtures are made for the roots that remain.

The policy decides whether the first failure ends the batch or every failure is
noted.
-/

namespace TypeGuard

structure RootProblem where
  root : String
  problem : Problem
  deriving DecidableEq, Repr

def RootProblem.message (failure : RootProblem) : String :=
  s!"root `{failure.root}`: {failure.problem.message}"

namespace Batch

inductive Policy where
  | abort
  | skip
  deriving DecidableEq, Repr

structure Output where
  /-- The settings the file was made with. -/
  settings : Settings
  file : GuardFile
  /-- By alias, in batch order. -/
  fixtures : Fields Fixtures
  failures : List RootProblem

/-- A run that notes failures, or stops at one. -/
abbrev Reporting (α : Type) := StateT (List RootProblem) (Except RootProblem) α

def fail (policy : Policy) (root : String) (problem : Problem) : Reporting Unit :=
  match policy with
  | .abort => throw ⟨root, problem⟩
  | .skip => modify fun failures => failures ++ [⟨root, problem⟩]

/-! ## Roots -/

def lower (policy : Policy) : Nat → List TypeSpec → Reporting (List TypeTree)
  | _, [] => return []
  | index, spec :: rest => do
      match TypeTree.ofSpec spec with
      | .ok tree => return tree :: (← lower policy (index + 1) rest)
      | .error problem => do
          fail policy (rootLabel spec.label.aliasName index) problem
          lower policy (index + 1) rest

def collect (policy : Policy) (named : Fields TypeTree) :
    Nat → List TypeTree → Reporting (Fields TypeTree)
  | _, [] => return named
  | index, tree :: rest => do
      match tree.aliasName with
      | none | some "" => do
          fail policy (rootLabel none index) (.unnamedRoot tree.text)
          collect policy named (index + 1) rest
      | some aliasName =>
          if Fields.contains aliasName named then
            fail policy aliasName (.repeatedRoot aliasName)
            collect policy named (index + 1) rest
          else collect policy (named ++ [(aliasName, tree)]) (index + 1) rest

/-! ## The file -/

def registerAll : Fields TypeTree → Registry → Except (String × Problem) Registry
  | [], registry => .ok registry
  | (aliasName, tree) :: rest, registry =>
      match registry.register tree with
      | .ok registry => registerAll rest registry
      | .error problem => .error (aliasName, problem)

def registry (settings : Settings) (named : Fields TypeTree) :
    Except (String × Problem) Registry :=
  registerAll named ((Registry.empty settings).announce (Fields.names named))

def finish (registry : Registry) (named : Fields TypeTree) :
    Reporting (GuardFile × Fields TypeTree) :=
  match registry.assemble with
  | .ok file => return (file, named)
  | .error problem => throw ⟨"<file>", problem⟩

/-- Drop failing roots until the others make a file.  Each round drops one root,
so one round more than there are roots is enough. -/
def settle (policy : Policy) (settings : Settings) :
    Nat → Fields TypeTree → Reporting (GuardFile × Fields TypeTree)
  | 0, _ => finish (Registry.empty settings) []
  | rounds + 1, named => do
      match registry settings named with
      | .ok registry => finish registry named
      | .error (aliasName, problem) => do
          fail policy aliasName problem
          settle policy settings rounds (named.filter fun (name, _) => name != aliasName)

/-! ## Fixtures -/

def fixturesOf (policy : Policy) (expansion : Expansion) :
    Fields TypeTree → Reporting (Fields Fixtures)
  | [] => return []
  | (aliasName, tree) :: rest => do
      match expansion.fixtures tree with
      | .ok fixtures => return (aliasName, fixtures) :: (← fixturesOf policy expansion rest)
      | .error problem => do
          fail policy aliasName problem
          fixturesOf policy expansion rest

/-! ## Runs -/

def runTrees (settings : Settings) (policy : Policy) (withFixtures : Bool)
    (trees : List TypeTree) : Reporting (GuardFile × Fields Fixtures) := do
  let named ← collect policy [] 0 trees
  let (file, kept) ← settle policy settings (named.length + 1) named
  if withFixtures then
    return (file, ← fixturesOf policy ⟨kept, settings.maxDepth⟩ kept)
  else return (file, [])

def conclude (settings : Settings) (run : Reporting (GuardFile × Fields Fixtures)) :
    Except RootProblem Output := do
  let ((file, fixtures), failures) ← run.run []
  return ⟨settings, file, fixtures, failures⟩

def ofTrees (settings : Settings) (policy : Policy) (withFixtures : Bool)
    (trees : List TypeTree) : Except RootProblem Output :=
  conclude settings (runTrees settings policy withFixtures trees)

def ofSpecs (settings : Settings) (policy : Policy) (withFixtures : Bool)
    (specs : List TypeSpec) : Except RootProblem Output :=
  conclude settings do
    let trees ← lower policy 0 specs
    runTrees settings policy withFixtures trees

end Batch

end TypeGuard
