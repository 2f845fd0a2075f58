import TypeGuard.Fields
import TypeGuard.Model.Problem
import TypeGuard.Number.Notation
import TypeGuard.Text.Quoted

/-!
# Type trees

The structural types that guards are written for.  Every node carries a label:
whether it may be absent where it is an attribute, and the alias it was declared
under.  A reference names another root and is never followed here.
-/

namespace TypeGuard

inductive Literal where
  | null
  | undefined
  | string (text : String)
  | number (value : Binary64)
  | boolean (value : Bool)
  deriving DecidableEq

def Literal.text : Literal → String
  | .null => "null"
  | .undefined => "undefined"
  | .string s => Text.quoted s
  | .number x => x.plainText
  | .boolean b => toString b

inductive Primitive where
  | string
  | number
  | boolean
  deriving DecidableEq, Repr

def Primitive.tag : Primitive → String
  | .string => "string"
  | .number => "number"
  | .boolean => "boolean"

def Primitive.ofTag? : String → Option Primitive
  | "string" => some .string
  | "number" => some .number
  | "boolean" => some .boolean
  | _ => none

@[simp] theorem Primitive.ofTag?_tag (kind : Primitive) : ofTag? kind.tag = some kind := by
  cases kind <;> rfl

structure Label where
  optional : Bool
  aliasName : Option String
  deriving DecidableEq, Repr

def Label.bare : Label := ⟨false, none⟩

inductive TypeTree where
  | literal (label : Label) (value : Literal)
  | primitive (label : Label) (kind : Primitive)
  | object (label : Label) (attributes : List (String × TypeTree)) (optionalNames : List String)
  | union (label : Label) (members : List TypeTree)
  | array (label : Label) (element : TypeTree)
  | reference (label : Label) (name : String)

namespace TypeTree

def label : TypeTree → Label
  | .literal label _ | .primitive label _ | .object label _ _ | .union label _ |
    .array label _ | .reference label _ => label

def aliasName (tree : TypeTree) : Option String := tree.label.aliasName

def isUnion : TypeTree → Bool
  | .union .. => true
  | _ => false

def isObject : TypeTree → Bool
  | .object .. => true
  | _ => false

/-! ## Short descriptions -/

mutual

/-- An object goes by its alias, or else by its attribute names. -/
def text : TypeTree → String
  | .literal _ value => value.text
  | .primitive _ kind => kind.tag
  | .reference _ name => name
  | .array _ element => text element ++ "[]"
  | .union _ members => "(" ++ " | ".intercalate (texts members) ++ ")"
  | .object label attributes _ =>
      match label.aliasName with
      | some aliasName => aliasName
      | none => "\x7b " ++ ", ".intercalate (Fields.names attributes) ++ " \x7d"

def texts : List TypeTree → List String
  | [] => []
  | member :: rest => text member :: texts rest

end

/-! ## Unions -/

/-- A union needs two members, none of them a union, and none an object: two
object types are not told apart by their values. -/
def checkUnion (place : Path) (members : List TypeTree) : Except Problem Unit :=
  match members with
  | [] => .error (.emptyUnion place)
  | [_] => .error (.shortUnion place 1)
  | _ =>
      if members.any isUnion then .error (.nestedUnion place)
      else
        match members.filter isObject with
        | [] => .ok ()
        | objects => .error (.objectInUnion place (objects.map text))

end TypeTree

end TypeGuard
