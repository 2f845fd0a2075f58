import TypeGuard.Fields
import TypeGuard.Number.Binary64

/-!
# JSON values

Integers within 64 bits are kept apart from doubles.  An object keeps its members
in document order; `Json.normal` drops earlier values of a repeated name.
-/

namespace TypeGuard

inductive Json.Number where
  | integer (value : Int)
  | double (value : Binary64)
  deriving DecidableEq

inductive Json where
  | null
  | bool (value : Bool)
  | number (value : Json.Number)
  | string (text : String)
  | array (items : List Json)
  | object (members : List (String × Json))
  deriving Inhabited

namespace Json

def Number.toDouble : Number → Binary64
  | .integer i => Binary64.ofInt i
  | .double x => x

def nat (n : Nat) : Json := .number (.integer n)

def int (i : Int) : Json := .number (.integer i)

def double (x : Binary64) : Json := .number (.double x)

mutual

/-- Every object with one member a name, the last value in the first place. -/
def normal : Json → Json
  | .array items => .array (normalItems items)
  | .object members => .object (Fields.ofList (normalMembers members))
  | value => value

def normalItems : List Json → List Json
  | [] => []
  | item :: rest => normal item :: normalItems rest

def normalMembers : List (String × Json) → List (String × Json)
  | [] => []
  | (name, value) :: rest => (name, normal value) :: normalMembers rest

end

mutual

def height : Json → Nat
  | .array items => itemsHeight items + 1
  | .object members => membersHeight members + 1
  | _ => 1

def itemsHeight : List Json → Nat
  | [] => 0
  | item :: rest => max (height item) (itemsHeight rest)

def membersHeight : List (String × Json) → Nat
  | [] => 0
  | (_, value) :: rest => max (height value) (membersHeight rest)

end

end Json

end TypeGuard
