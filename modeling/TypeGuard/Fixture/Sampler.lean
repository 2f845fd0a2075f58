import TypeGuard.Fixture.Sample

/-!
# Samplers

A sampler describes a finite sequence of samples: a fixed value, the standard
value of a primitive kind, the samples of alternatives one after the other,
one-item arrays, or objects drawn attribute by attribute.

`Sampler.valid` lists what it draws and `Sampler.invalid` what comes of breaking
one position at a time; both without repetition.
-/

namespace TypeGuard

inductive Sampler where
  | value (sample : Sample)
  | primitive (kind : Primitive)
  | union (members : List Sampler)
  | array (element : Sampler)
  | object (attributes : List (String × Sampler))

namespace Sampler

def standard : Primitive → Sample
  | .string => .string "text"
  | .number => .number (Binary64.ofNat 42)
  | .boolean => .boolean true

/-! ## Drawing -/

def rows (name : String) (heads : List Sample) (tails : List (Fields Sample)) :
    List (Fields Sample) :=
  heads.flatMap fun head => tails.map fun tail => Fields.extend [(name, head)] tail

mutual

def draws : Sampler → List Sample
  | .value sample => [sample]
  | .primitive kind => [standard kind]
  | .union members => memberDraws members
  | .array element => (draws element).map fun sample => .array [sample]
  | .object attributes => (rowDraws attributes).map .object

def memberDraws : List Sampler → List Sample
  | [] => []
  | member :: rest => draws member ++ memberDraws rest

/-- The first attribute varies slowest; no attributes give the one empty row. -/
def rowDraws : List (String × Sampler) → List (Fields Sample)
  | [] => [[]]
  | (name, attr) :: rest => rows name (draws attr) (rowDraws rest)

end

/-! ## The canonical sample -/

mutual

/-- The first choice at every position, without drawing the others. -/
def canonical? : Sampler → Option Sample
  | .value sample => some sample
  | .primitive kind => some (standard kind)
  | .union members => firstCanonical? members
  | .array element => (canonical? element).map fun sample => .array [sample]
  | .object attributes => (canonicalRow? attributes []).map .object

def firstCanonical? : List Sampler → Option Sample
  | [] => none
  | member :: rest =>
      match canonical? member with
      | some sample => some sample
      | none => firstCanonical? rest

def canonicalRow? : List (String × Sampler) → Fields Sample → Option (Fields Sample)
  | [], row => some row
  | (name, attr) :: rest, row =>
      match canonical? attr with
      | some sample => canonicalRow? rest (Fields.insert name sample row)
      | none => none

end

/-! ## Acceptance -/

def isOfKind : Primitive → Sample → Bool
  | .string, .string _ | .number, .number _ | .boolean, .boolean _ => true
  | _, _ => false

mutual

/-- Whether the guard of this shape accepts the sample.  Objects may have further
fields, and a missing field counts as `undefined`. -/
def accepts : Sampler → Sample → Bool
  | _, .sentinel => false
  | .value sample, other => sample.same other
  | .primitive kind, other => isOfKind kind other
  | .union members, other => anyAccepts members other
  | .array element, .array items => items.all fun item => accepts element item
  | .object attributes, .object fields => allAccept attributes fields
  | .array _, _ | .object _, _ => false

def anyAccepts : List Sampler → Sample → Bool
  | [], _ => false
  | member :: rest, sample => accepts member sample || anyAccepts rest sample

def allAccept : List (String × Sampler) → Fields Sample → Bool
  | [], _ => true
  | (name, attr) :: rest, fields =>
      accepts attr (Sample.field name fields) && allAccept rest fields

end

/-! ## Breaking one position -/

mutual

/-- Every sample with the sentinel at exactly one position.  A union keeps only
what none of its members takes. -/
def faults : Sampler → List Sample
  | .value _ | .primitive _ => [.sentinel]
  | .union members =>
      Sample.appendNew [.sentinel]
        ((memberFaults members).filter fun fault => !anyAccepts members fault)
  | .array element =>
      Sample.appendNew [.sentinel] ((faults element).map fun fault => .array [fault])
  | .object attributes =>
      match canonicalRow? attributes [] with
      | none => [.sentinel]
      | some row => Sample.appendNew [.sentinel] (attributeFaults row attributes)

def memberFaults : List Sampler → List Sample
  | [] => []
  | member :: rest => faults member ++ memberFaults rest

def attributeFaults (row : Fields Sample) : List (String × Sampler) → List Sample
  | [] => []
  | (name, attr) :: rest =>
      (faults attr).map (fun fault => .object (Fields.insert name fault row)) ++
        attributeFaults row rest

end

/-! ## Fixtures -/

def valid (sampler : Sampler) : List Sample := Sample.distinct sampler.draws

def invalid (sampler : Sampler) : List Sample := Sample.distinct sampler.faults

end Sampler

structure Fixtures where
  valid : List Sample
  invalid : List Sample

def Sampler.fixtures (sampler : Sampler) : Fixtures := ⟨sampler.valid, sampler.invalid⟩

end TypeGuard
