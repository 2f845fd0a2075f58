/-!
# Command lines

A command line names an action and the batch files it works on.  The options
that shape a guard file may stand before or after the action, and the later
place wins; within one place no option but `--input` may be repeated.

The words are read one by one; what may follow depends on the options before.
-/

namespace TypeGuard.Command

inductive Action where
  | guards
  | fixtures
  | check
  deriving DecidableEq, Repr

def Action.ofName? : String → Option Action
  | "guards" => some .guards
  | "fixtures" => some .fixtures
  | "check" => some .check
  | _ => none

def Action.hasOutput : Action → Bool
  | .guards | .fixtures => true
  | .check => false

/-- Options that may stand on either side of the action. -/
structure Shaping where
  verbose : Bool
  noSelfChecks : Bool
  maxDepth : Option Nat
  importFrom : Option String
  deriving DecidableEq, Repr

namespace Shaping

def none : Shaping := ⟨false, false, .none, .none⟩

def merge (outer inner : Shaping) : Shaping where
  verbose := inner.verbose || outer.verbose
  noSelfChecks := inner.noSelfChecks || outer.noSelfChecks
  maxDepth := inner.maxDepth <|> outer.maxDepth
  importFrom := inner.importFrom <|> outer.importFrom

end Shaping

structure Invocation where
  action : Action
  shaping : Shaping
  inputs : List String
  keepGoing : Bool
  out : Option String
  deriving DecidableEq, Repr

inductive Stop where
  | usage
  | version
  deriving DecidableEq, Repr

/-! ## Words -/

inductive Slot where
  | maxDepth
  | importFrom
  | out
  deriving DecidableEq, Repr

inductive Awaiting where
  | nothing
  | value (slot : Slot)
  /-- Batch files; `given` once there is one. -/
  | inputs (given : Bool)
  deriving DecidableEq, Repr

structure Line where
  action : Option Action
  outer : Shaping
  inner : Shaping
  inputs : List String
  keepGoing : Bool
  out : Option String
  awaiting : Awaiting
  /-- After `--` no word is an option. -/
  closed : Bool
  deriving DecidableEq, Repr

namespace Line

def empty : Line := ⟨none, .none, .none, [], false, none, .nothing, false⟩

abbrev Step := Except Stop Line

def usage : Step := .error .usage

def isComplete (line : Line) : Bool :=
  match line.awaiting with
  | .nothing => true
  | .value _ => false
  | .inputs given => given

def here (line : Line) : Shaping :=
  if line.action.isNone then line.outer else line.inner

def setHere (line : Line) (shaping : Shaping) : Line :=
  if line.action.isNone then { line with outer := shaping } else { line with inner := shaping }

/-- A natural number below `2^64`, which may have a plus sign. -/
def natural? (text : String) : Option Nat :=
  let digits := match text.toList with
    | '+' :: rest => rest
    | chars => chars
  if digits.isEmpty || !digits.all Char.isDigit then none
  else
    let n := digits.foldl (fun n c => 10 * n + (c.toNat - '0'.toNat)) 0
    if n < UInt64.size then some n else none

def giveValue (line : Line) (slot : Slot) (text : String) : Step :=
  let line := { line with awaiting := .nothing }
  match slot with
  | .maxDepth =>
      match line.here.maxDepth, natural? text with
      | none, some depth => .ok (line.setHere { line.here with maxDepth := some depth })
      | _, _ => usage
  | .importFrom =>
      if line.here.importFrom.isSome then usage
      else .ok (line.setHere { line.here with importFrom := some text })
  | .out =>
      if line.out.isSome || text.isEmpty then usage
      else .ok { line with out := some text }

def giveInput (line : Line) (path : String) (awaiting : Awaiting) : Line :=
  { line with inputs := line.inputs ++ [path], awaiting }

def plain (line : Line) (word : String) : Step :=
  match line.awaiting with
  | .value slot => line.giveValue slot word
  | .inputs _ => .ok (line.giveInput word (.inputs true))
  | .nothing =>
      match line.action, Action.ofName? word with
      | none, some action => .ok { line with action := some action }
      | _, _ => usage

def slotOption (line : Line) (slot : Slot) : Option String → Step
  | some text => line.giveValue slot text
  | none => .ok { line with awaiting := .value slot }

def inputOption (line : Line) : Option String → Step
  | some path => .ok (line.giveInput path .nothing)
  | none => .ok { line with awaiting := .inputs false }

def option (line : Line) (name : String) (value : Option String) : Step :=
  let line := { line with awaiting := .nothing }
  let here := line.here
  match name, value, line.action with
  | "max-depth", value, _ => line.slotOption .maxDepth value
  | "import-from", value, _ => line.slotOption .importFrom value
  | "verbose", none, _ =>
      if here.verbose then usage else .ok (line.setHere { here with verbose := true })
  | "no-self-checks", none, _ =>
      if here.noSelfChecks then usage
      else .ok (line.setHere { here with noSelfChecks := true })
  | "version", none, none => .error .version
  | "keep-going", none, some _ =>
      if line.keepGoing then usage else .ok { line with keepGoing := true }
  | "input", value, some _ => line.inputOption value
  | "out", value, some action =>
      if action.hasOutput then line.slotOption .out value else usage
  | _, _, _ => usage

def longName? : Char → Option String
  | 'i' => some "input"
  | 'o' => some "out"
  | 'V' => some "version"
  | _ => none

/-- A one-letter option takes the rest of its word as its value. -/
def letter (line : Line) (c : Char) (rest : List Char) : Step :=
  let value := match rest with
    | [] => none
    | '=' :: text => some (String.ofList text)
    | text => some (String.ofList text)
  match longName? c with
  | some "version" => line.option "version" none
  | some name => line.option name value
  | none => usage

def long (line : Line) (word : List Char) : Step :=
  let name := String.ofList (word.takeWhile (· != '='))
  match word.dropWhile (· != '=') with
  | [] => line.option name none
  | _ :: text => line.option name (some (String.ofList text))

def read (line : Line) (word : String) : Step :=
  if line.closed then usage
  else
    match word.toList with
    | ['-', '-'] => .ok { line with closed := true }
    | '-' :: '-' :: rest => if line.isComplete then line.long rest else usage
    | '-' :: c :: rest => if line.isComplete then line.letter c rest else usage
    | _ => line.plain word

def invocation (line : Line) : Except Stop Invocation :=
  match line.action with
  | some action =>
      if line.isComplete && !line.inputs.isEmpty then
        .ok ⟨action, line.outer.merge line.inner, line.inputs, line.keepGoing, line.out⟩
      else .error .usage
  | none => .error .usage

end Line

def Invocation.ofWords (words : List String) : Except Stop Invocation := do
  let line ← words.foldlM Line.read Line.empty
  line.invocation

end TypeGuard.Command
