import TypeGuard.Document.TypeSpec
import TypeGuard.Json.Fault

/-!
# Decoding specifications

A type is an object of an `alias` and an `optional` mark, whose meaning does not
depend on the rest, and of the fields of its shape.  The marks are looked at in
document order first.  Of the shape the `kind` comes first, then the fields of
that kind in document order, and last those that are missing.  Fields that a
kind does not know are ignored.
-/

namespace TypeGuard.Document

open Json (Fault Found)

abbrev Decoded (α : Type) := Except Fault α

def mismatch {α : Type} (value : Json) (expected : String) : Decoded α :=
  .error (.wrongType (.ofJson value) expected)

def text : Json → Decoded String
  | .string s => .ok s
  | other => mismatch other "a string"

def flag : Json → Decoded Bool
  | .bool b => .ok b
  | other => mismatch other "a boolean"

def optionalText : Json → Decoded (Option String)
  | .null => .ok none
  | other => (text other).map some

def texts : Json → Decoded (List String)
  | .array items => items.mapM text
  | other => mismatch other "a sequence"

/-! ## Marks -/

structure Marks where
  aliasName : Option (Option String)
  optional : Option Bool
  deriving DecidableEq, Repr

namespace Marks

def none : Marks := ⟨.none, .none⟩

def label (marks : Marks) : SpecLabel := ⟨marks.aliasName.getD .none, marks.optional.getD false⟩

/-- The marks with one more given under `name`; `none` if the name is no mark. -/
def take? (marks : Marks) (name : String) : Option (Decoded (Json → Decoded Marks)) :=
  if name = "alias" then
    some (if marks.aliasName.isSome then .error (.duplicateField name)
      else .ok fun value => do return { marks with aliasName := some (← optionalText value) })
  else if name = "optional" then
    some (if marks.optional.isSome then .error (.duplicateField name)
      else .ok fun value => do return { marks with optional := some (← flag value) })
  else .none

def split (marks : Marks) : List (String × Json) → Decoded (Marks × List (String × Json))
  | [] => .ok (marks, [])
  | (name, value) :: rest =>
      match marks.take? name with
      | some read => do
          let marks ← (← read) value
          split marks rest
      | .none => do
          let (marks, others) ← split marks rest
          return (marks, (name, value) :: others)

end Marks

/-! ## Kinds -/

inductive Kind where
  | literal
  | undefined
  | primitive
  | object
  | union
  | array
  | reference
  deriving DecidableEq, Repr

namespace Kind

def known : List (String × Kind) :=
  [("literal", .literal), ("undefined", .undefined), ("primitive", .primitive),
    ("object", .object), ("union", .union), ("array", .array), ("alias", .reference)]

def ofJson : Json → Decoded Kind
  | .string name =>
      match Fields.find? name known with
      | some kind => .ok kind
      | none => .error (.unknownVariant name (Fields.names known))
  | .number (.integer i) =>
      if i < 0 then mismatch (.int i) "variant identifier"
      else
        match known[i.toNat]? with
        | some (_, kind) => .ok kind
        | none => .error (.wrongIndex i known.length)
  | other => mismatch other "variant identifier"

end Kind

/-! ## Shapes -/

/-- The one field `name` among the members, decoded where it stands; the others
do not matter. -/
def soleField {α : Type} (name : String) (decode : Json → Decoded α) (found : Option α) :
    List (String × Json) → Decoded α
  | [] =>
      match found with
      | some part => .ok part
      | none => .error (.missingField name)
  | (key, value) :: rest =>
      if key = name then
        match found with
        | some _ => .error (.duplicateField name)
        | none => do
            let part ← decode value
            soleField name decode (some part) rest
      else soleField name decode found rest

structure ObjectParts where
  attributes : Option (Fields TypeSpec)
  optionalNames : Option (List String)

def objectParts (decode : Json → Decoded TypeSpec) (parts : ObjectParts) :
    List (String × Json) → Decoded ObjectParts
  | [] => .ok parts
  | ("attributes", value) :: rest =>
      if parts.attributes.isSome then .error (.duplicateField "attributes")
      else
        match value with
        | .object members => do
            let specs ← members.mapM fun (name, member) => do
              let spec ← decode member
              return (name, spec)
            objectParts decode { parts with attributes := some (Fields.ofList specs) } rest
        | other => mismatch other "a map"
  | ("optionalAttributes", value) :: rest =>
      if parts.optionalNames.isSome then .error (.duplicateField "optionalAttributes")
      else do
        let names ← texts value
        objectParts decode { parts with optionalNames := some names } rest
  | _ :: rest => objectParts decode parts rest

def specs (decode : Json → Decoded TypeSpec) : Json → Decoded (List TypeSpec)
  | .array items => items.mapM decode
  | other => mismatch other "a sequence"

def shape (decode : Json → Decoded TypeSpec) (label : SpecLabel)
    (members : List (String × Json)) : Decoded TypeSpec := do
  let kind ← soleField "kind" Kind.ofJson none members
  let fields := members.filter fun (name, _) => name != "kind"
  match kind with
  | .undefined => return .undefined label
  | .literal =>
      let value ← soleField "value" (fun value => .ok value.normal) none fields
      return .literal label value
  | .primitive =>
      let name ← soleField "type" text none fields
      return .primitive label name
  | .object =>
      let parts ← objectParts decode ⟨none, none⟩ fields
      return .object label (parts.attributes.getD []) (parts.optionalNames.getD [])
  | .union =>
      let members ← soleField "members" (specs decode) none fields
      return .union label members
  | .array =>
      let element ← soleField "element" decode none fields
      return .array label element
  | .reference =>
      let name ← soleField "name" text none fields
      return .reference label name

/-! ## Types -/

def specWithin : Nat → Json → Decoded TypeSpec
  | fuel + 1, .object members => do
      let (marks, others) ← Marks.none.split members
      shape (specWithin fuel) marks.label others
  | _, other => mismatch other "struct RawTypeNode"

def spec (value : Json) : Decoded TypeSpec := specWithin value.height value

end TypeGuard.Document
