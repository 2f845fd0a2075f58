import TypeGuard.Document.TypeSpec
import TypeGuard.Json.Printer
import TypeGuard.Model.Type

/-!
# From specifications to type trees

A specification becomes a type tree unless it uses a literal or a primitive
kind that guards do not cover.  An integer literal is covered only if a double
can hold it exactly.
-/

namespace TypeGuard

/-- The value of a literal; `none` if no guard can compare with it. -/
def Literal.ofJson? : Json → Option Literal
  | .null => some .null
  | .bool b => some (.boolean b)
  | .string s => some (.string s)
  | .number (.double x) => some (.number x)
  | .number (.integer i) =>
      let x := Binary64.ofInt i
      if x.toInt? = some i then some (.number x) else none
  | .array _ | .object _ => none

namespace TypeTree

def literalOf (path : Path) (value : Json) : Except Problem Literal :=
  match Literal.ofJson? value with
  | some accepted => .ok accepted
  | none => .error (.unsupportedLiteral path value.compact)

def primitiveOf (path : Path) (name : String) : Except Problem Primitive :=
  match Primitive.ofTag? name with
  | some kind => .ok kind
  | none => .error (.unknownPrimitive name path)

def labelOf (label : SpecLabel) : Label := ⟨label.optional, label.aliasName⟩

mutual

def ofSpecAt (path : Path) : TypeSpec → Except Problem TypeTree
  | .undefined label => .ok (.literal (labelOf label) .undefined)
  | .literal label value => do
      let accepted ← literalOf path value
      return .literal (labelOf label) accepted
  | .primitive label name => do
      let kind ← primitiveOf path name
      return .primitive (labelOf label) kind
  | .object label attributes optionalNames => do
      let trees ← attributesAt path attributes
      return .object (labelOf label) (Fields.ofList trees) optionalNames.eraseDups
  | .union label members => do
      let trees ← membersAt path members
      return .union (labelOf label) trees
  | .array label element => do
      let tree ← ofSpecAt (path ++ ["element"]) element
      return .array (labelOf label) tree
  | .reference label name => .ok (.reference (labelOf label) name)

def attributesAt (path : Path) :
    List (String × TypeSpec) → Except Problem (List (String × TypeTree))
  | [] => .ok []
  | (name, spec) :: rest => do
      let tree ← ofSpecAt (path ++ [name]) spec
      return (name, tree) :: (← attributesAt path rest)

def membersAt (path : Path) : List TypeSpec → Except Problem (List TypeTree)
  | [] => .ok []
  | spec :: rest => do
      let tree ← ofSpecAt path spec
      return tree :: (← membersAt path rest)

end

def ofSpec (spec : TypeSpec) : Except Problem TypeTree :=
  ofSpecAt [spec.label.aliasName.getD "root"] spec

end TypeTree

/-- What a root is called in messages; one without an alias goes by its place in
the batch. -/
def rootLabel (aliasName : Option String) (index : Nat) : String :=
  aliasName.getD s!"<root #{index}>"

end TypeGuard
