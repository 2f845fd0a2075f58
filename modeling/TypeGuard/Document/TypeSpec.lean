import TypeGuard.Json.Value

/-!
# Types as a batch document spells them

A specification is what a document says before anything is checked: literals
may be any JSON value and primitive kinds any word.
-/

namespace TypeGuard

structure SpecLabel where
  aliasName : Option String
  optional : Bool
  deriving DecidableEq, Repr

inductive TypeSpec where
  | literal (label : SpecLabel) (value : Json)
  | undefined (label : SpecLabel)
  | primitive (label : SpecLabel) (name : String)
  | object (label : SpecLabel) (attributes : List (String × TypeSpec))
      (optionalNames : List String)
  | union (label : SpecLabel) (members : List TypeSpec)
  | array (label : SpecLabel) (element : TypeSpec)
  | reference (label : SpecLabel) (name : String)

def TypeSpec.label : TypeSpec → SpecLabel
  | .literal label _ | .undefined label | .primitive label _ | .object label _ _ |
    .union label _ | .array label _ | .reference label _ => label

structure BatchDocument where
  importFrom : Option String
  roots : List TypeSpec

end TypeGuard
