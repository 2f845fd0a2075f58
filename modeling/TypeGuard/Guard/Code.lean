import TypeGuard.Model.Type

/-!
# Guard code

Statements, expressions and types of the files that hold guards.  A guard is a
function of one parameter that narrows the parameter's type when it returns
`true`.  Types are annotations only; running the code does not look at them.
-/

namespace TypeGuard

inductive Expr where
  | ident (name : String)
  | literal (value : Literal)
  | typeOf (operand : Expr)
  | strictEq (left right : Expr)
  | strictNe (left right : Expr)
  | not (operand : Expr)
  | and (left right : Expr)
  | or (left right : Expr)
  | member (target : Expr) (name : String)
  | call (callee : Expr) (arguments : List Expr)
  | object (entries : List (String × Expr))

inductive TypeExpr where
  | unknown
  | keyword (kind : Primitive)
  | literal (value : Literal)
  | ref (name : String)
  | array (element : TypeExpr)
  | union (members : List TypeExpr)
  /-- Properties with their names and whether they are optional. -/
  | object (properties : List (String × Bool × TypeExpr))
  | index (target : TypeExpr) (name : String)
  | generic (name : String) (arguments : List TypeExpr)
  /-- Every property of `source`, optional and of unknown type. -/
  | mappedOptional (key : String) (source : TypeExpr)

inductive Returns where
  | boolean
  | narrows (param : String) (type : TypeExpr)

structure Binding where
  property : String
  localName : String
  deriving DecidableEq, Repr

inductive Stmt where
  | imports (names : List String) (source : String)
  | typeAlias (name : String) (params : List String) (type : TypeExpr)
  | function (name : String) (exported : Bool) (param : String) (paramType : TypeExpr)
      (returns : Returns) (body : List Stmt)
  | branch (test : Expr) (body : List Stmt)
  | ret (value : Expr)
  | destructure (bindings : List Binding) (type : Option TypeExpr) (source : Expr)
  | const (name : String) (type : Option TypeExpr) (value : Expr)

structure Function where
  name : String
  exported : Bool
  param : String
  paramType : TypeExpr
  returns : Returns
  body : List Stmt

def Function.toStmt (f : Function) : Stmt :=
  .function f.name f.exported f.param f.paramType f.returns f.body

def Stmt.function? : Stmt → Option Function
  | .function name exported param paramType returns body =>
      some ⟨name, exported, param, paramType, returns, body⟩
  | _ => none

@[simp] theorem Function.function?_toStmt (f : Function) : f.toStmt.function? = some f := rfl

structure GuardFile where
  statements : List Stmt

def GuardFile.functions (file : GuardFile) : List Function :=
  file.statements.filterMap Stmt.function?

def GuardFile.function? (file : GuardFile) (name : String) : Option Function :=
  file.functions.find? fun f => f.name == name

/-! ## Common forms -/

namespace Expr

def text (s : String) : Expr := .literal (.string s)

def bool (b : Bool) : Expr := .literal (.boolean b)

/-- `typeof target === "tag"`. -/
def hasTag (target tag : String) : Expr := .strictEq (.typeOf (.ident target)) (text tag)

end Expr

/-- `if (!condition) return false`. -/
def Stmt.guard (condition : Expr) : Stmt :=
  .branch (.not condition) [.ret (Expr.bool false)]

end TypeGuard
