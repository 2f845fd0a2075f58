import TypeGuard.Guard.Code

/-!
# The type expression of a type tree

A reference stays a name.  A property is optional if its own label says so or
if its object lists it.
-/

namespace TypeGuard.TypeTree

mutual

def toTypeExpr : TypeTree → TypeExpr
  | .literal _ value => .literal value
  | .primitive _ kind => .keyword kind
  | .reference _ name => .ref name
  | .array _ element => .array (toTypeExpr element)
  | .union _ members => .union (memberTypes members)
  | .object _ attributes optionalNames => .object (propertyTypes optionalNames attributes)

def memberTypes : List TypeTree → List TypeExpr
  | [] => []
  | member :: rest => toTypeExpr member :: memberTypes rest

def propertyTypes (optionalNames : List String) :
    List (String × TypeTree) → List (String × Bool × TypeExpr)
  | [] => []
  | (name, tree) :: rest =>
      (name, tree.label.optional || optionalNames.contains name, toTypeExpr tree) ::
        propertyTypes optionalNames rest

end

end TypeGuard.TypeTree
