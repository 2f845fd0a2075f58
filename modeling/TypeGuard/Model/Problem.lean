/-!
# Problems of a type model

Everything that keeps a root type from becoming a guard or from having
fixtures.  A place is the path of names from the root to the type at fault.
-/

namespace TypeGuard

abbrev Path := List String

def Path.text (path : Path) : String := ".".intercalate path

inductive Problem where
  | unknownAlias (name : String) (place : Path) (known : List String)
  | unnamedRoot (shown : String)
  | repeatedRoot (name : String)
  | aliasCycle (cycle : List String)
  | objectInUnion (place : Path) (members : List String)
  | emptyUnion (place : Path)
  | unknownPrimitive (kind : String) (place : Path)
  | unsupportedLiteral (place : Path) (text : String)
  | repeatedAttribute (place : Path) (name : String)
  | nestedUnion (place : Path)
  | shortUnion (place : Path) (count : Nat)
  | nestedTooDeep (limit : Nat) (place : Path)
  | namesExhausted (proposed : String) (attempts : Nat)
  deriving DecidableEq, Repr

namespace Problem

/-- Whether the author of a batch can mend it, uses a type that guards do not
cover, or has a malformed model. -/
inductive Family where
  | input
  | unsupported
  | internal
  deriving DecidableEq, Repr

def family : Problem → Family
  | .unknownAlias .. | .unnamedRoot .. | .repeatedRoot .. | .aliasCycle .. => .input
  | .objectInUnion .. | .emptyUnion .. | .unknownPrimitive .. | .unsupportedLiteral .. =>
      .unsupported
  | .repeatedAttribute .. | .nestedUnion .. | .shortUnion .. | .nestedTooDeep .. |
    .namesExhausted .. => .internal

def message : Problem → String
  | .unknownAlias name place known =>
      let listed := ", ".intercalate known
      s!"`{name}` referenced at {place.text} has no generated predicate; known: [{listed}]"
  | .unnamedRoot shown => s!"root type at {shown} has no alias name"
  | .repeatedRoot name => s!"alias `{name}` is already defined by an earlier root in this batch"
  | .aliasCycle cycle =>
      "alias cycle while expanding samples: " ++ " -> ".intercalate cycle
  | .objectInUnion place members =>
      s!"unsupported union member(s) at {place.text}: " ++ ", ".intercalate members
  | .emptyUnion place => s!"enum-like type at {place.text} has no members"
  | .unknownPrimitive kind place => s!"unsupported primitive kind `{kind}` at {place.text}"
  | .unsupportedLiteral place text => s!"unsupported literal at {place.text}: {text}"
  | .repeatedAttribute place name =>
      s!"attribute `{name}` at `{place.text}` was registered twice"
  | .nestedUnion place => s!"nested union directly inside a union at {place.text}"
  | .shortUnion place count =>
      s!"union at {place.text} has {count} member(s); at least two are required"
  | .nestedTooDeep limit place => s!"type nesting deeper than {limit} at {place.text}"
  | .namesExhausted proposed attempts =>
      s!"no free name for `{proposed}` after {attempts} attempts"

end Problem

end TypeGuard
