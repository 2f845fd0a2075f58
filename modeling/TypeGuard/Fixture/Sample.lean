import TypeGuard.Json.Value
import TypeGuard.Model.Type

/-!
# Samples

Plain values that a guard may be asked about, and a sentinel that stands for a
value no guard accepts.  Two samples are the same when they agree at every
depth; the order of an object's fields and the sign of zero do not matter, and
not-a-number is the same as itself.
-/

namespace TypeGuard

inductive Sample where
  | undefined
  | null
  | boolean (value : Bool)
  | number (value : Binary64)
  | string (text : String)
  | array (items : List Sample)
  | object (fields : List (String × Sample))
  | sentinel

namespace Sample

def ofLiteral : Literal → Sample
  | .null => .null
  | .undefined => .undefined
  | .string s => .string s
  | .number x => .number x
  | .boolean b => .boolean b

/-- The field of an object; a missing field reads as `undefined`. -/
def field (name : String) (fields : Fields Sample) : Sample :=
  (Fields.find? name fields).getD .undefined

@[simp] theorem field_nil (name : String) : field name [] = .undefined :=
  rfl

theorem field_of_find? {name : String} {fields : Fields Sample} {sample : Sample}
    (h : Fields.find? name fields = some sample) : field name fields = sample := by
  simp [field, h]

@[simp] theorem field_insert_self (name : String) (sample : Sample) (fields : Fields Sample) :
    field name (Fields.insert name sample fields) = sample := by
  simp [field]

@[simp] theorem field_insert_of_ne {name other : String} (h : other ≠ name) (sample : Sample)
    (fields : Fields Sample) :
    field other (Fields.insert name sample fields) = field other fields := by
  simp [field, h]

/-! ## Sameness -/

mutual

def same : Sample → Sample → Bool
  | .undefined, .undefined | .null, .null | .sentinel, .sentinel => true
  | .boolean a, .boolean b => a == b
  | .number x, .number y => x.sameValue y
  | .string s, .string t => s == t
  | .array xs, .array ys => sameItems xs ys
  | .object xs, .object ys => xs.length == ys.length && sameFields xs ys ys
  | _, _ => false

def sameItems : List Sample → List Sample → Bool
  | [], [] => true
  | x :: xs, y :: ys => same x y && sameItems xs ys
  | _, _ => false

/-- Every field has a like one among `all`.  Objects mostly list their fields in
one order, so each is looked for at the front of `ahead` before all are searched. -/
def sameFields :
    List (String × Sample) → List (String × Sample) → List (String × Sample) → Bool
  | [], _, _ => true
  | (name, x) :: rest, ahead, all =>
      (match Fields.findNear? name ahead all with
        | some y => same x y
        | none => false) && sameFields rest ahead.tail all

end

theorem sameFields_of_suffix {xs ahead all : Fields Sample} (h : (Fields.names all).Nodup)
    (hs : ahead <:+ all) :
    sameFields xs ahead all = xs.all fun x => (Fields.find? x.1 all).any (same x.2) := by
  induction xs generalizing ahead with
  | nil => simp [sameFields]
  | cons x xs ih =>
      rw [sameFields, Fields.findNear?_of_suffix h hs, ih (ahead.tail_suffix.trans hs),
        List.all_cons]
      cases Fields.find? x.1 all <;> rfl

def isAmong (sample : Sample) (samples : List Sample) : Bool :=
  samples.any fun other => same other sample

def appendNew (samples more : List Sample) : List Sample :=
  more.foldl (fun acc sample => if isAmong sample acc then acc else acc ++ [sample]) samples

def distinct (samples : List Sample) : List Sample := appendNew [] samples

/-! ## The sentinel -/

mutual

def containsSentinel : Sample → Bool
  | .sentinel => true
  | .array items => anySentinel items
  | .object fields => anyFieldSentinel fields
  | _ => false

def anySentinel : List Sample → Bool
  | [] => false
  | item :: rest => containsSentinel item || anySentinel rest

def anyFieldSentinel : List (String × Sample) → Bool
  | [] => false
  | (_, value) :: rest => containsSentinel value || anyFieldSentinel rest

end

/-! ## JSON view -/

/-- An integer within the limits of 64-bit integers is cast to one.  The upper limit is
rounded to `2^63`, which the cast takes back to `2^63 - 1`. -/
def numberJson (x : Binary64) : Json :=
  if x.toInt?.isSome && x.withinInt64 then .int x.toInt64
  else if x.isInfinite || x.isNaN then .null
  else .double x

def marker (name : String) : Json := .object [(name, .bool true)]

mutual

/-- `undefined` and the sentinel have no JSON form; each is written as a marker
object. -/
def toJson : Sample → Json
  | .undefined => marker "$undefined"
  | .sentinel => marker "$invalid"
  | .null => .null
  | .boolean b => .bool b
  | .number x => numberJson x
  | .string s => .string s
  | .array items => .array (itemsJson items)
  | .object fields => .object (fieldsJson fields)

def itemsJson : List Sample → List Json
  | [] => []
  | item :: rest => toJson item :: itemsJson rest

def fieldsJson : List (String × Sample) → List (String × Json)
  | [] => []
  | (name, value) :: rest => (name, toJson value) :: fieldsJson rest

end

end Sample

end TypeGuard
