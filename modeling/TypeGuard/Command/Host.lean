/-!
# The host of a command

What a command needs from the machine it runs on: files, directories and two
texts to write to.  A command is written over any host, so that it can run on
a machine as well as on a value.
-/

namespace TypeGuard.Command

inductive FileError where
  | notFound
  | alreadyExists
  | notDirectory
  | isDirectory
  | nameTooLong
  | notText
  | other (text : String)
  deriving DecidableEq, Repr

def FileError.text : FileError → String
  | .notFound => "No such file or directory (os error 2)"
  | .alreadyExists => "File exists (os error 17)"
  | .notDirectory => "Not a directory (os error 20)"
  | .isDirectory => "Is a directory (os error 21)"
  | .nameTooLong => "File name too long (os error 36)"
  | .notText => "stream did not contain valid UTF-8"
  | .other text => text

inductive FileKind where
  | file
  | directory
  deriving DecidableEq, Repr

structure Host (m : Type → Type) where
  kind? : String → m (Option FileKind)
  /-- The names in a directory, in any order. -/
  names : String → m (List String)
  read : String → m (Except FileError String)
  makeDirectory : String → m (Except FileError Unit)
  write : String → String → m (Except FileError Unit)
  print : String → m Unit
  warn : String → m Unit

namespace Host

variable {m : Type → Type} [Monad m]

def exists? (host : Host m) (path : String) : m Bool := do
  return (← host.kind? path).isSome

def isDirectory (host : Host m) (path : String) : m Bool := do
  return (← host.kind? path) == some .directory

end Host

/-! ## Paths -/

def join (directory name : String) : String :=
  if directory.endsWith "/" then directory ++ name else directory ++ "/" ++ name

def isIdle (part : String) : Bool := part == "" || part == "."

/-- The steps of a path; empty parts and later single dots do not count. -/
def steps (path : String) : List String :=
  match path.splitOn "/" with
  | [] => []
  | first :: rest =>
      let rest := rest.filter (!isIdle ·)
      if first = "" then rest else first :: rest

def fileName (path : String) : String := (path.splitOn "/").getLastD ""

def leads (path : String) : List String :=
  let parts := path.splitOn "/"
  let count := parts.length
  (List.range count).filterMap fun index =>
    if index != 0 && isIdle (parts.getD index "") then none
    else
      let lead := "/".intercalate (parts.take (index + 1))
      if lead.isEmpty then none else some lead

def directoriesAbove (path : String) : List String := (leads path).dropLast

end TypeGuard.Command
