import TypeGuard.Batch
import TypeGuard.Command.Arguments
import TypeGuard.Command.Glob
import TypeGuard.Document.Reader
import TypeGuard.Guard.CodeJson

/-!
# Running commands

A command reads its batches one after the other and does its action on all of
them.  The first error ends it; what was written before stays.  Failures that
were skipped are reported as they come up.
-/

namespace TypeGuard.Command

/-! ## Errors -/

inductive CommandError where
  | badPattern (pattern : String) (error : GlobError)
  | noMatch (pattern : String)
  | unreadable (path : String) (error : FileError)
  | malformed (path : String) (failure : Json.Failure)
  | failed (path : String) (failure : RootProblem)
  | broken (guard path : String) (error : EvalError)
  | noDirectory (error : FileError)
  | unwritable (path : String) (error : FileError)

def CommandError.chain : CommandError → List String
  | .badPattern pattern error => [s!"bad glob pattern: {pattern}", error.text]
  | .noMatch pattern => [s!"glob pattern matched no files: {pattern}"]
  | .unreadable path error => [s!"failed to read {path}", error.text]
  | .malformed path failure => [s!"failed to parse batch {path}", failure.message]
  | .failed path failure =>
      [s!"generation failed for {path}", failure.message, failure.problem.message]
  | .broken guard path error => [s!"evaluating {guard} from {path}", error.message]
  | .noDirectory error => [error.text]
  | .unwritable path error => [s!"failed to write {path}", error.text]

def CommandError.message (error : CommandError) : String := ": ".intercalate error.chain

/-! ## Outputs -/

structure Processed where
  path : String
  output : Batch.Output

def guardsJson (output : Batch.Output) : Json :=
  .object [("statements", output.file.statementsJson)]

def fixturesJson (output : Batch.Output) : Json :=
  .object (output.fixtures.map fun (root, fixtures) =>
    (root, .object [("valid", .array (fixtures.valid.map Sample.toJson)),
      ("invalid", .array (fixtures.invalid.map Sample.toJson))]))

def gather (view : Batch.Output → Json) : List Processed → Json
  | [only] => view only.output
  | all => .object (Fields.ofList (all.map fun p => (p.path, view p.output)))

def checkLines (root : String) (fixtures : Fixtures) : List GuardFile.Unsound → List String
  | [] => [s!"✅ {root} ({fixtures.valid.length} valid, {fixtures.invalid.length} invalid)"]
  | cases =>
      s!"❌ {root}: {cases.length} unsound fixture(s)" ::
        cases.map fun case =>
          let verdict := if case.expected then "rejected valid" else "accepted invalid"
          s!"    {verdict} {case.sample.toJson.compact}"

/-! ## Commands -/

/-- The settings of a batch; an option wins over the batch's own word. -/
def Shaping.settings (shaping : Shaping) (importFrom : Option String) : Settings :=
  let standard := Settings.standard
  { standard with
    maxDepth := shaping.maxDepth.getD standard.maxDepth
    selfChecks := !shaping.noSelfChecks
    importFrom := (shaping.importFrom <|> importFrom).getD standard.importFrom }

def Invocation.policy (invocation : Invocation) : Batch.Policy :=
  if invocation.keepGoing then .skip else .abort

section

variable {m : Type → Type} [Monad m]

abbrev Running (m : Type → Type) (α : Type) := ExceptT CommandError m α

def orThrow {ε α : Type} (wrap : ε → CommandError) : Except ε α → Running m α
  | .ok result => return result
  | .error error => throw (wrap error)

def inputPaths (host : Host m) (word : String) : Running m (List String) := do
  if !Glob.isPattern word then return [word]
  let found ← liftM (Glob.paths host word : m (Except GlobError (List String)))
  let paths ← orThrow (.badPattern word) found
  if paths.isEmpty then throw (.noMatch word)
  return paths

def allInputPaths (host : Host m) : List String → Running m (List String)
  | [] => return []
  | word :: rest => do
      let paths ← inputPaths host word
      return paths ++ (← allInputPaths host rest)

def process (host : Host m) (invocation : Invocation) (withFixtures : Bool) (path : String) :
    Running m Processed := do
  let source ← orThrow (.unreadable path) (← host.read path)
  let document ← orThrow (.malformed path) (BatchDocument.read source)
  let settings := invocation.shaping.settings document.importFrom
  let output ← orThrow (.failed path)
    (Batch.ofSpecs settings invocation.policy withFixtures document.roots)
  output.failures.forM fun failure => host.warn s!"skipped {path}: {failure.message}\n"
  return ⟨path, output⟩

def processAll (host : Host m) (invocation : Invocation) (withFixtures : Bool) :
    List String → Running m (List Processed)
  | [] => return []
  | path :: rest => do
      let first ← process host invocation withFixtures path
      return first :: (← processAll host invocation withFixtures rest)

def makeDirectory (host : Host m) (path : String) : m (Except FileError Unit) := do
  match ← host.makeDirectory path with
  | .ok () => return .ok ()
  | .error error =>
      if ← host.isDirectory path then return .ok () else return .error error

/-- Make the first directory; the others are those above it, from the inside
out, and are made first if it cannot be made without them. -/
def makeDirectories (host : Host m) : List String → m (Except FileError Unit)
  | [] => return .ok ()
  | path :: above => do
      match ← makeDirectory host path with
      | .error .notFound =>
          match ← makeDirectories host above with
          | .ok () => makeDirectory host path
          | .error error => return .error error
      | result => return result

def writeOutput (host : Host m) (out : Option String) (value : Json) : Running m Unit := do
  match out with
  | none => host.print (value.pretty ++ "\n")
  | some path =>
      let made ← liftM (makeDirectories host (directoriesAbove path).reverse)
      orThrow .noDirectory made
      orThrow (.unwritable path) (← host.write path value.pretty)

def checkRoots (host : Host m) (processed : Processed) : Fields Fixtures → Running m Bool
  | [] => return true
  | (root, fixtures) :: rest => do
      let guard := processed.output.settings.guardName root
      let cases ← orThrow (.broken guard processed.path)
        (processed.output.file.unsound guard fixtures)
      (checkLines root fixtures cases).forM fun line => host.print (line ++ "\n")
      let others ← checkRoots host processed rest
      return cases.isEmpty && others

def checkAll (host : Host m) : List Processed → Running m Bool
  | [] => return true
  | processed :: rest => do
      let sound ← checkRoots host processed processed.output.fixtures
      let others ← checkAll host rest
      return sound && others

def perform (host : Host m) (invocation : Invocation) : Running m Bool := do
  let paths ← allInputPaths host invocation.inputs
  match invocation.action with
  | .guards =>
      let processed ← processAll host invocation false paths
      writeOutput host invocation.out (gather guardsJson processed)
      return true
  | .fixtures =>
      let processed ← processAll host invocation true paths
      writeOutput host invocation.out (gather fixturesJson processed)
      return true
  | .check =>
      let processed ← processAll host invocation true paths
      checkAll host processed

def versionText : String := "guard-oracle 0.1.0\n"

def usageStatus : UInt32 := 2

def run (host : Host m) (words : List String) : m UInt32 := do
  match Invocation.ofWords words with
  | .error .version =>
      host.print versionText
      return 0
  | .error .usage => return usageStatus
  | .ok invocation =>
      match ← (perform host invocation).run with
      | .ok true => return 0
      | .ok false => return 1
      | .error error =>
          host.warn s!"error: {error.message}\n"
          return 1

end

end TypeGuard.Command
