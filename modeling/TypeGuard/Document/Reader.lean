import TypeGuard.Document.Decoding
import TypeGuard.Json.Reader

/-!
# Reading batch documents

A batch is an object with the roots and, if need be, the module to import from;
or a list of these two in the other order.  Marks are checked as soon as they
are read.  The other members of a root are kept until its closing brace, and
what is wrong with its shape is reported there.

Text after the document is not looked at.
-/

namespace TypeGuard.Document

open Json Json.Reading

def maxNesting : Nat := 128

/-! ## Typed parts -/

def settle {α : Type} : Decoded α → Reading α
  | .ok part => return part
  | .error fault => fail fault

/-- A part that is no container.  Where a container stands instead the reading
stays in front of it. -/
def scalarPart {α : Type} (fuel : Nat) (decode : Json → Decoded α) : Reading α := do
  match ← next with
  | none => fail .endOfValue
  | some '[' => settle (decode (.array []))
  | some '\x7b' => settle (decode (.object []))
  | some first => settle (decode (← scalar fuel first))

def openPart (fuel depth : Nat) (opening : Char) (expected : String) : Reading Nat := do
  match ← next with
  | some first =>
      if first = opening then enter depth
      else scalarPart fuel fun other => mismatch other expected
  | none => fail .endOfValue

/-- A fault of the object being read, reported before its next token, or after
its closing brace if that is next. -/
def failObject {α : Type} (fault : Fault) : Reading α := do
  if (← next) == some '\x7d' then skip
  fail fault

def nextName (fuel : Nat) (first : Bool) : Reading (Option String) := do
  if ← within .between (moreMembers first) then
    return some (← within .between (stringLiteral fuel))
  else
    skip
    return none

def memberValue {α : Type} (name : String) (part : Reading α) : Reading α := do
  colon
  within (.member name) part

/-! ## Roots -/

/-- The rest of a root, given its marks and its other members so far, the latest
first. -/
def rootMembers : Nat → Nat → Bool → Marks → List (String × Json) → Reading TypeSpec
  | 0, _, _, _, _ => fail .endOfObject
  | fuel + 1, depth, first, marks, others => do
      match ← nextName fuel first with
      | none => settle (shape spec marks.label others.reverse)
      | some name =>
          match marks.take? name with
          | some (.error fault) => failObject fault
          | some (.ok decode) =>
              let marks ← memberValue name (scalarPart fuel decode)
              rootMembers fuel depth false marks others
          | none =>
              let content ← memberValue name (Json.value fuel depth)
              rootMembers fuel depth false marks ((name, content) :: others)

def rootItems : Nat → Nat → Nat → Reading (List TypeSpec)
  | 0, _, _ => fail .endOfList
  | fuel + 1, depth, index => do
      if ← moreItems (index == 0) then
        let root ← within (.item index) do
          let depth ← openPart fuel depth '\x7b' "struct RawTypeNode"
          rootMembers fuel depth true Marks.none []
        return root :: (← rootItems fuel depth (index + 1))
      else
        skip
        return []

def rootList (fuel depth : Nat) : Reading (List TypeSpec) := do
  let depth ← openPart fuel depth '[' "a sequence"
  rootItems fuel depth 0

/-! ## Batches -/

def batchMembers : Nat → Nat → Bool → Option (Option String) → Option (List TypeSpec) →
    Reading BatchDocument
  | 0, _, _, _, _ => fail .endOfObject
  | fuel + 1, depth, first, source, roots => do
      match ← nextName fuel first with
      | none =>
          match roots with
          | some roots => return ⟨source.getD none, roots⟩
          | none => fail (.missingField "roots")
      | some name =>
          if name = "importFrom" then
            if source.isSome then failObject (.duplicateField name)
            else
              let source ← memberValue name (scalarPart fuel optionalText)
              batchMembers fuel depth false (some source) roots
          else if name = "roots" then
            if roots.isSome then failObject (.duplicateField name)
            else
              let roots ← memberValue name (rootList fuel depth)
              batchMembers fuel depth false source (some roots)
          else
            memberValue name (skipValue fuel)
            batchMembers fuel depth false source roots

def closeList : Reading Unit := do
  match ← next with
  | none => fail .endOfList
  | some ']' => skip
  | some ',' =>
      skip
      match ← next with
      | some ']' => failNext .trailingComma
      | _ => failNext .trailingCharacters
  | some _ => failNext .trailingCharacters

def batchItems (fuel depth : Nat) : Reading BatchDocument := do
  let tooShort : Fault := .wrongLength 1 "struct RawBatch with 2 elements"
  if ← moreItems true then
    let source ← within (.item 0) (scalarPart fuel optionalText)
    if ← moreItems false then
      let roots ← within (.item 1) (rootList fuel depth)
      closeList
      return ⟨source, roots⟩
  skip
  fail tooShort

def batch (fuel : Nat) : Reading BatchDocument := do
  match ← next with
  | none => fail .endOfValue
  | some '[' => batchItems fuel (← enter maxNesting)
  | some '\x7b' => batchMembers fuel (← enter maxNesting) true none none
  | some first => do
      let found ← scalar fuel first
      settle (mismatch found "struct RawBatch")

end TypeGuard.Document

namespace TypeGuard

def BatchDocument.read (source : String) : Except Json.Failure BatchDocument :=
  (Document.batch (Json.fuelFor source) (Json.Cursor.ofText source)).map (·.1)

end TypeGuard
