import TypeGuard.Guard.Code
import TypeGuard.Json.Value

/-!
# Guard code as JSON

Every node is an object with its kind and its parts.  A number literal is
written as a double, integral or not.
-/

namespace TypeGuard

def Literal.toJson : Literal → Json
  | .null => .object [("type", .string "null")]
  | .undefined => .object [("type", .string "undefined")]
  | .string s => .object [("type", .string "string"), ("value", .string s)]
  | .number x => .object [("type", .string "number"), ("value", .double x)]
  | .boolean b => .object [("type", .string "boolean"), ("value", .bool b)]

namespace Json

def strings (texts : List String) : Json := .array (texts.map .string)

def leaf (kind : String) : Json := .object [("kind", .string kind)]

def tagged (kind : String) (part : Json) : Json :=
  .object [("kind", .string kind), ("of", part)]

end Json

/-! ## Expressions -/

namespace Expr

mutual

def toJson : Expr → Json
  | .ident name => .tagged "ident" (.string name)
  | .literal value => .tagged "literal" value.toJson
  | .typeOf e => .tagged "typeOf" (toJson e)
  | .strictEq a b => .tagged "strictEq" (.array [toJson a, toJson b])
  | .strictNe a b => .tagged "strictNe" (.array [toJson a, toJson b])
  | .not e => .tagged "not" (toJson e)
  | .and a b => .tagged "and" (.array [toJson a, toJson b])
  | .or a b => .tagged "or" (.array [toJson a, toJson b])
  | .member e name => .tagged "member" (.array [toJson e, .string name])
  | .call e arguments => .tagged "call" (.array [toJson e, .array (listJson arguments)])
  | .object entries => .tagged "object" (.array (entriesJson entries))

def listJson : List Expr → List Json
  | [] => []
  | e :: rest => toJson e :: listJson rest

def entriesJson : List (String × Expr) → List Json
  | [] => []
  | (name, e) :: rest => .array [.string name, toJson e] :: entriesJson rest

end

end Expr

/-! ## Types -/

namespace TypeExpr

mutual

def toJson : TypeExpr → Json
  | .unknown => .leaf "unknown"
  | .keyword kind => .tagged "keyword" (.string kind.tag)
  | .literal value => .tagged "literal" value.toJson
  | .ref name => .tagged "ref" (.string name)
  | .array element => .tagged "array" (toJson element)
  | .union members => .tagged "union" (.array (listJson members))
  | .object properties => .tagged "object" (.array (propertiesJson properties))
  | .index target name => .tagged "index" (.array [toJson target, .string name])
  | .generic name arguments =>
      .tagged "generic" (.array [.string name, .array (listJson arguments)])
  | .mappedOptional key source =>
      .tagged "mappedOptional" (.object [("key", .string key), ("source", toJson source)])

def listJson : List TypeExpr → List Json
  | [] => []
  | type :: rest => toJson type :: listJson rest

def propertiesJson : List (String × Bool × TypeExpr) → List Json
  | [] => []
  | (name, optional, type) :: rest =>
      .object [("name", .string name), ("optional", .bool optional), ("ty", toJson type)] ::
        propertiesJson rest

end

def optionJson (type : Option TypeExpr) : Json :=
  match type with
  | some type => type.toJson
  | none => .null

end TypeExpr

def Returns.toJson : Returns → Json
  | .boolean => .leaf "boolean"
  | .narrows param type =>
      .object [("kind", .string "narrows"), ("param", .string param), ("ty", type.toJson)]

def Binding.toJson (binding : Binding) : Json :=
  .object [("attribute", .string binding.property), ("local", .string binding.localName)]

/-! ## Statements -/

def functionMembers (name : String) (exported : Bool) (param : String) (paramType : TypeExpr)
    (returns : Returns) (body : List Json) : Fields Json :=
  [("name", .string name), ("exported", .bool exported), ("param", .string param),
    ("paramTy", paramType.toJson), ("returns", returns.toJson), ("body", .array body)]

namespace Stmt

mutual

def toJson : Stmt → Json
  | .imports names source =>
      .object [("kind", .string "import"), ("names", .strings names), ("from", .string source)]
  | .typeAlias name params type =>
      .object [("kind", .string "typeAlias"), ("name", .string name),
        ("params", .strings params), ("ty", type.toJson)]
  | .function name exported param paramType returns body =>
      .object (("kind", .string "function") ::
        functionMembers name exported param paramType returns (bodyJson body))
  | .branch test body =>
      .object [("kind", .string "if"), ("test", test.toJson), ("then", .array (bodyJson body))]
  | .ret value => .object [("kind", .string "return"), ("value", value.toJson)]
  | .destructure bindings type source =>
      .object [("kind", .string "destructure"), ("bindings", .array (bindings.map Binding.toJson)),
        ("ty", TypeExpr.optionJson type), ("init", source.toJson)]
  | .const name type value =>
      .object [("kind", .string "const"), ("name", .string name),
        ("ty", TypeExpr.optionJson type), ("init", value.toJson)]

def bodyJson : List Stmt → List Json
  | [] => []
  | stmt :: rest => toJson stmt :: bodyJson rest

end

end Stmt

def Function.toJson (f : Function) : Json :=
  .object (functionMembers f.name f.exported f.param f.paramType f.returns
    (Stmt.bodyJson f.body))

def GuardFile.statementsJson (file : GuardFile) : Json := .array (Stmt.bodyJson file.statements)

end TypeGuard
