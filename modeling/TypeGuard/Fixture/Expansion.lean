import TypeGuard.Fixture.Sampler

/-!
# Samplers of type trees

A type tree becomes a sampler by following its references through the roots of
a batch.  An alias that is met again below itself has no finite sampler.  A
reference counts as one level of nesting, but its place stays that of the type
that makes it.
-/

namespace TypeGuard

structure Expansion where
  roots : Fields TypeTree
  maxDepth : Nat

namespace Expansion

/-- Expand with a number of levels left, inside the aliases `enclosing`. -/
def expand (expansion : Expansion) : Nat → Path → List String → TypeTree →
    Except Problem Sampler
  | 0, path, _, _ => .error (.nestedTooDeep expansion.maxDepth path)
  | budget + 1, path, enclosing, tree =>
      let below := expand expansion budget
      match tree with
      | .literal _ value => .ok (.value (.ofLiteral value))
      | .primitive _ kind => .ok (.primitive kind)
      | .array _ element => do
          let sampler ← below (path ++ ["element"]) enclosing element
          return .array sampler
      | .union _ members => do
          TypeTree.checkUnion path members
          let samplers ← members.mapM (below path enclosing)
          return .union samplers
      | .object _ attributes _ => do
          let samplers ← attributes.mapM fun (name, attr) => do
            let sampler ← below (path ++ [name]) enclosing attr
            return (name, sampler)
          return .object samplers
      | .reference _ name =>
          if name ∈ enclosing then .error (.aliasCycle (enclosing ++ [name]))
          else
            match Fields.find? name expansion.roots with
            | none => .error (.unknownAlias name path (Fields.names expansion.roots))
            | some root => below path (enclosing ++ [name]) root

def sampler (expansion : Expansion) (tree : TypeTree) : Except Problem Sampler :=
  expansion.expand (expansion.maxDepth + 1) [tree.aliasName.getD "root"] tree.aliasName.toList tree

def fixtures (expansion : Expansion) (tree : TypeTree) : Except Problem Fixtures := do
  let sampler ← expansion.sampler tree
  return sampler.fixtures

end Expansion

end TypeGuard
