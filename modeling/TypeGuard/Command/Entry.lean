import TypeGuard.Fields

/-!
# Entries of a file system

A file, or a directory with the entries below their names.
-/

namespace TypeGuard.Command

/-- `none` is the content of a file that is no text. -/
abbrev Content := Option String

def Content.ofBytes (bytes : ByteArray) : Content := String.fromUTF8? bytes

inductive Entry where
  | file (content : Content)
  | directory (entries : List (String × Entry))

namespace Entry

def empty : Entry := .directory []

def at? : Entry → List String → Option Entry
  | entry, [] => some entry
  | .file _, _ :: _ => none
  | .directory entries, name :: rest =>
      match Fields.find? name entries with
      | some entry => entry.at? rest
      | none => none

/-- Put an entry where names lead to, with the directories above it.  Nothing
changes if they lead through a file. -/
def put (new : Entry) : List String → Entry → Entry
  | [], _ => new
  | _ :: _, .file content => .file content
  | name :: rest, .directory entries =>
      let inner := (Fields.find? name entries).getD empty
      .directory (Fields.insert name (put new rest inner) entries)

mutual

def files : Entry → List (List String × Content)
  | .file content => [([], content)]
  | .directory entries => filesBelow entries

def filesBelow : List (String × Entry) → List (List String × Content)
  | [] => []
  | (name, entry) :: rest =>
      (files entry).map (fun (names, content) => (name :: names, content)) ++ filesBelow rest

end

end Entry

end TypeGuard.Command
