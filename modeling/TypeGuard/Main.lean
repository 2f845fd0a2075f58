import TypeGuard.Command.Run

/-!
# The command on a machine
-/

namespace TypeGuard.Command

/-- The number of an error; some file operations report it with a minus sign. -/
def errorNumber (code : UInt32) : UInt32 := if code < 0x80000000 then code else 0 - code

def FileError.ofIO (error : IO.Error) : FileError :=
  match error with
  | .noFileOrDirectory .. => .notFound
  | .alreadyExists .. => .alreadyExists
  | .inappropriateType _ code _ | .invalidArgument _ code _ | .resourceExhausted _ code _
  | .otherError code _ =>
      match errorNumber code with
      | 20 => .notDirectory
      | 21 => .isDirectory
      | 36 => .nameTooLong
      | _ => .other (toString error)
  | error => .other (toString error)

def attempt {α : Type} (action : IO α) : IO (Except FileError α) := do
  try
    return .ok (← action)
  catch error =>
    return .error (.ofIO error)

def machineKind? (path : String) : IO (Option FileKind) := do
  if path.isEmpty then return none
  let place := (← IO.currentDir) / path
  if ← place.isDir then return some .directory
  else if ← place.pathExists then return some .file
  else return none

def machine : Host IO where
  kind? := machineKind?
  names path := do
    let place := (← IO.currentDir) / path
    match ← attempt place.readDir with
    | .ok entries => return (entries.map (·.fileName)).toList
    | .error _ => return []
  read path := do
    match ← attempt (IO.FS.readBinFile path) with
    | .error error => return .error error
    | .ok bytes =>
        match String.fromUTF8? bytes with
        | some text => return .ok text
        | none => return .error .notText
  makeDirectory path := attempt (IO.FS.createDir path)
  write path text := attempt (IO.FS.writeFile path text)
  print text := IO.print text
  warn text := IO.eprint text

end TypeGuard.Command

def main (words : List String) : IO UInt32 :=
  TypeGuard.Command.run TypeGuard.Command.machine words
