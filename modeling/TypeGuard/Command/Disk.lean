import TypeGuard.Command.Entry
import TypeGuard.Command.Host

/-!
# Disks

A host that is a value: the files and directories below one working directory,
and the texts written so far.  Paths are followed step by step, so that a step
through a file or through nothing fails as it would on a machine.  What lies
outside the working directory is not known: directories that hold nothing.
-/

namespace TypeGuard.Command

/-! ## Locations -/

/-- A directory that is always there: some levels above the working directory,
or at the top of everything. -/
inductive Anchor where
  | above (levels : Nat)
  | top
  deriving DecidableEq, Repr

def Anchor.working : Anchor := .above 0

/-- Where a file or directory is: an anchor, and the names below it from the
innermost outwards. -/
structure Location where
  anchor : Anchor
  names : List String
  deriving DecidableEq, Repr

namespace Location

def child (location : Location) (name : String) : Location :=
  { location with names := name :: location.names }

def parent : Location → Location
  | ⟨anchor, _ :: names⟩ => ⟨anchor, names⟩
  | ⟨.above levels, []⟩ => ⟨.above (levels + 1), []⟩
  | ⟨.top, []⟩ => ⟨.top, []⟩

end Location

structure Disk where
  known : List (Anchor × Entry)
  out : String
  err : String

namespace Disk

def empty : Disk := ⟨[], "", ""⟩

def root (disk : Disk) (anchor : Anchor) : Entry := (disk.known.lookup anchor).getD Entry.empty

def entryAt? (disk : Disk) (location : Location) : Option Entry :=
  (disk.root location.anchor).at? location.names.reverse

def put (disk : Disk) (location : Location) (entry : Entry) : Disk :=
  let root := entry.put location.names.reverse (disk.root location.anchor)
  let others := disk.known.filter fun (anchor, _) => anchor != location.anchor
  { disk with known := (location.anchor, root) :: others }

def addFile (disk : Disk) (path : String) (content : Content) : Disk :=
  disk.put ⟨.working, (steps path).reverse⟩ (.file content)

/-! ## Following paths -/

structure Place where
  location : Location
  found : Option Entry

def place (disk : Disk) (location : Location) : Place := ⟨location, disk.entryAt? location⟩

def maxNameSize : Nat := 255

def maxPathSize : Nat := 4095

def step (disk : Disk) (here : Place) (part : String) : Except FileError Place :=
  match here.found with
  | none => .error .notFound
  | some (.file _) => .error .notDirectory
  | some (.directory entries) =>
      if isIdle part then .ok here
      else if part = ".." then .ok (disk.place here.location.parent)
      else if maxNameSize < part.utf8ByteSize then .error .nameTooLong
      else .ok ⟨here.location.child part, Fields.find? part entries⟩

def follow (disk : Disk) (here : Place) (parts : List String) : Except FileError Place :=
  parts.foldlM disk.step here

def start (disk : Disk) (path : String) : Except FileError (Place × List String) :=
  if path.isEmpty then .error .notFound
  else if maxPathSize < path.utf8ByteSize then .error .nameTooLong
  else
    match path.splitOn "/" with
    | "" :: rest => .ok (disk.place ⟨.top, []⟩, rest)
    | parts => .ok (disk.place ⟨.working, []⟩, parts)

def locate (disk : Disk) (path : String) : Except FileError Place := do
  let (here, parts) ← disk.start path
  disk.follow here parts

def kind? (disk : Disk) (path : String) : Option FileKind :=
  match disk.locate path with
  | .ok ⟨_, some (.file _)⟩ => some .file
  | .ok ⟨_, some (.directory _)⟩ => some .directory
  | _ => none

def names (disk : Disk) (path : String) : List String :=
  match disk.locate path with
  | .ok ⟨_, some (.directory entries)⟩ => Fields.names entries
  | _ => []

def read (disk : Disk) (path : String) : Except FileError String := do
  match (← disk.locate path).found with
  | none => throw .notFound
  | some (.directory _) => throw .isDirectory
  | some (.file (some text)) => return text
  | some (.file none) => throw .notText

def makeDirectory (disk : Disk) (path : String) : Except FileError Disk := do
  let place ← disk.locate path
  match place.found with
  | some _ => throw .alreadyExists
  | none => return disk.put place.location Entry.empty

/-- Write a whole file.  A path that ends in a slash asks for a directory, so
its last step is not even tried. -/
def write (disk : Disk) (path text : String) : Except FileError Disk := do
  let (here, parts) ← disk.start path
  let named := (parts.reverse.dropWhile (· == "")).reverse
  let place ← disk.follow here named.dropLast
  let place ← disk.step place ""
  match named.getLast? with
  | none => throw .isDirectory
  | some last =>
      if named.length < parts.length then throw .isDirectory
      let place ← disk.step place last
      match place.found with
      | some (.directory _) => throw .isDirectory
      | _ => return disk.put place.location (.file (some text))

/-! ## The disk as a host -/

def change (step : Disk → Except FileError Disk) : StateM Disk (Except FileError Unit) := do
  match step (← get) with
  | .ok disk =>
      set disk
      return .ok ()
  | .error error => return .error error

def host : Host (StateM Disk) where
  kind? path := do return (← get).kind? path
  names path := do return (← get).names path
  read path := do return (← get).read path
  makeDirectory path := change fun disk => disk.makeDirectory path
  write path text := change fun disk => disk.write path text
  print text := modify fun disk => { disk with out := disk.out ++ text }
  warn text := modify fun disk => { disk with err := disk.err ++ text }

def changed (before after : Disk) : List (String × Content) :=
  let old := before.root .working
  (after.root .working).files.filterMap fun (names, content) =>
    match old.at? names with
    | some (.file same) =>
        if same = content then none else some ("/".intercalate names, content)
    | _ => some ("/".intercalate names, content)

end Disk

end TypeGuard.Command
