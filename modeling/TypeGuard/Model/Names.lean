import Std.Data.TreeSet
import TypeGuard.Model.Problem
import TypeGuard.Text.Identifier

/-!
# Fresh names

The names taken inside one guard: locals, types, and the attributes that have
been bound.  A fresh name is the first free one on a ladder: the proposal, the
proposal below each segment of the path, innermost first, and the longest of
these with a number from 2 on.

A function name is taken from the types, but it is also a local, so it avoids
both.
-/

namespace TypeGuard

abbrev NameSet := Std.TreeSet String

structure Names where
  locals : NameSet
  types : NameSet
  attributes : List (Path × String)

namespace Names

def empty : Names := ⟨∅, ∅, []⟩

def attempts : Nat := 10000

/-! ## The ladder -/

/-- `base`, then `base` below each of `segments` in turn. -/
def rungs (base : String) : List String → List String
  | [] => [base]
  | segment :: rest => base :: rungs (Identifier.ofText segment ++ "_" ++ base) rest

def namedRungs (path : Path) (proposed : String) : List String :=
  rungs (Identifier.ofText proposed) path.reverse

def numbered (name : String) (n : Nat) : String := name ++ toString n

def longestRung (path : Path) (proposed : String) : String :=
  (namedRungs path proposed).getLastD ""

def firstFree? (free : String → Bool) (path : Path) (proposed : String) : Option String :=
  match (namedRungs path proposed).find? free with
  | some name => some name
  | none =>
      let longest := longestRung path proposed
      (List.range' 2 attempts).findSome? fun n =>
        let name := numbered longest n
        if free name then some name else none

def choose (free : String → Bool) (path : Path) (proposed : String) :
    Except Problem String :=
  match firstFree? free path proposed with
  | some name => .ok name
  | none => .error (.namesExhausted proposed attempts)

/-! ## Taking names -/

def reserveLocal (names : Names) (name : String) : Names :=
  { names with locals := names.locals.insert name }

def reserveType (names : Names) (name : String) : Names :=
  { names with types := names.types.insert name }

def freshLocal (names : Names) (path : Path) (proposed : String) :
    Except Problem (String × Names) := do
  let name ← choose (fun name => !names.locals.contains name) path proposed
  return (name, names.reserveLocal name)

def freshType (names : Names) (path : Path) (proposed : String) :
    Except Problem (String × Names) := do
  let name ← choose (fun name => !names.types.contains name) path proposed
  return (name, names.reserveType name)

def freshFunction (names : Names) (path : Path) (proposed : String) :
    Except Problem (String × Names) := do
  let free name := !names.types.contains name && !names.locals.contains name
  let name ← choose free path proposed
  return (name, (names.reserveType name).reserveLocal name)

/-- A local for an attribute.  Each attribute of a path is bound once; the
request counts even if no name was left. -/
def bindAttribute (names : Names) (path : Path) (name : String) :
    Except Problem String × Names :=
  if (path, name) ∈ names.attributes then
    (.error (.repeatedAttribute path name), names)
  else
    let names := { names with attributes := (path, name) :: names.attributes }
    match names.freshLocal path name with
    | .ok (chosen, names) => (.ok chosen, names)
    | .error problem => (.error problem, names)

end Names

end TypeGuard
