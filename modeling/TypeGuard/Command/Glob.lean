import TypeGuard.Command.Host

/-!
# Glob patterns

A pattern is matched against paths component by component.  In a component `?`
stands for one character, `*` for any run of them, and brackets for one
character inside or outside a set; the component `**` stands for directories
nested to any depth.

The paths that match come in the order of a walk that takes the entries of each
directory by name and looks into a directory before going on to the next entry.
-/

namespace TypeGuard.Command

inductive CharSpan where
  | one (c : Char)
  | range (first last : Char)
  deriving DecidableEq, Repr

def CharSpan.holds (c : Char) : CharSpan → Bool
  | .one d => c == d
  | .range first last => first ≤ c && c ≤ last

inductive GlobToken where
  | exact (c : Char)
  | anyChar
  | anyRun
  | anyDirectories
  | within (spans : List CharSpan)
  | outside (spans : List CharSpan)
  deriving DecidableEq, Repr

inductive GlobFault where
  | tooManyStars
  | starsInComponent
  | invalidRange
  deriving DecidableEq, Repr

def GlobFault.text : GlobFault → String
  | .tooManyStars => "wildcards are either regular `*` or recursive `**`"
  | .starsInComponent => "recursive wildcards must form a single path component"
  | .invalidRange => "invalid range pattern"

structure GlobError where
  position : Nat
  fault : GlobFault
  deriving DecidableEq, Repr

def GlobError.text (error : GlobError) : String :=
  s!"Pattern syntax error near position {error.position}: {error.fault.text}"

namespace Glob

def isPattern (path : String) : Bool :=
  path.toList.any fun c => c == '*' || c == '?' || c == '[' || c == '\x7b'

/-! ## Reading patterns -/

def spans : List Char → List CharSpan
  | first :: '-' :: last :: rest => .range first last :: spans rest
  | c :: rest => .one c :: spans rest
  | [] => []

/-- A set after its opening bracket, with the number of characters it takes.  A
bracket right at the front of the set belongs to it. -/
def set? : List Char → Option (GlobToken × Nat)
  | '!' :: first :: rest =>
      if rest.contains ']' then
        let body := first :: rest.takeWhile (· != ']')
        some (.outside (spans body), body.length + 3)
      else none
  | first :: rest =>
      if first != '!' && rest.contains ']' then
        let body := first :: rest.takeWhile (· != ']')
        some (.within (spans body), body.length + 2)
      else none
  | [] => none

def tokens : Nat → Nat → Option Char → List Char → Except GlobError (List GlobToken)
  | 0, _, _, _ | _, _, _, [] => .ok []
  | fuel + 1, position, before, c :: rest =>
      match c with
      | '?' => do return .anyChar :: (← tokens fuel (position + 1) (some c) rest)
      | '*' =>
          let stars := 1 + (rest.takeWhile (· == '*')).length
          let after := rest.dropWhile (· == '*')
          if stars = 1 then do
            return .anyRun :: (← tokens fuel (position + 1) (some c) rest)
          else if 2 < stars then .error ⟨position + 2, .tooManyStars⟩
          else if before.any (· != '/') then .error ⟨position - 1, .starsInComponent⟩
          else
            match after with
            | [] => .ok [.anyDirectories]
            | '/' :: after => do
                return .anyDirectories :: (← tokens fuel (position + 3) (some '/') after)
            | _ :: _ => .error ⟨position + 2, .starsInComponent⟩
      | '[' =>
          match set? rest with
          | some (token, length) => do
              let after := rest.drop (length - 1)
              return token :: (← tokens fuel (position + length) (some ']') after)
          | none => .error ⟨position, .invalidRange⟩
      | c => do return .exact c :: (← tokens fuel (position + 1) (some c) rest)

def parse (pattern : String) : Except GlobError (List GlobToken) :=
  let chars := pattern.toList
  tokens (chars.length + 1) 0 none chars

/-- The components of a pattern, and whether only directories match it.  The
pattern is also checked as a whole, which finds faults by their position in
it. -/
def components (pattern : String) : Except GlobError (List (List GlobToken) × Bool) := do
  let _ ← parse pattern
  let relative := if pattern.startsWith "/" then (pattern.drop 1).toString else pattern
  let parts := relative.splitOn "/"
  let directoriesOnly := pattern.endsWith "/"
  let parts := if parts.getLastD "" = "" then parts.dropLast else parts
  return (← parts.mapM parse, directoriesOnly)

/-! ## Matching -/

def isRun : GlobToken → Bool
  | .anyRun | .anyDirectories => true
  | _ => false

def holds (c : Char) : GlobToken → Bool
  | .exact d => c == d
  | .anyChar => true
  | .anyRun | .anyDirectories => false
  | .within spans => spans.any (·.holds c)
  | .outside spans => !spans.any (·.holds c)

def markedFrom : List Bool → List Bool
  | [] => []
  | mark :: rest =>
      let later := markedFrom rest
      (mark || later.headD false) :: later

/-- For each end part of a name, the longest first, whether the tokens match it.
One row is found from the row of the tokens after the first, so the work is the
product of both lengths however many runs there are. -/
def matchedEnds : List GlobToken → List Char → List Bool
  | [], name => name.map (fun _ => false) ++ [true]
  | token :: rest, name =>
      let ends := matchedEnds rest name
      if isRun token then markedFrom ends
      else List.zipWith (fun c mark => holds c token && mark) name ends.tail ++ [false]

def matchesName (tokens : List GlobToken) (name : List Char) : Bool :=
  (matchedEnds tokens name).headD false

def exactChar? : GlobToken → Option Char
  | .exact c => some c
  | _ => none

def literalText? (component : List GlobToken) : Option String :=
  (component.mapM exactChar?).map String.ofList

def isRecursive (component : List GlobToken) : Bool := component.contains .anyDirectories

/-! ## Walking -/

/-- A path, and the components that it and what is below it must still match;
with none left the path has matched. -/
structure Visit where
  path : String
  left : List (List GlobToken)

variable {m : Type → Type} [Monad m]

def below (directory name : String) : String :=
  if steps directory = ["."] then name else join directory name

def expand (host : Host m) : List (List GlobToken) → String → m (List Visit)
  | [], _ => return []
  | component :: rest, directory => do
      let advance (path : String) : m (List Visit) :=
        if rest.isEmpty then return [⟨path, []⟩] else expand host rest path
      match literalText? component with
      | some name =>
          let path := below directory name
          let found ←
            if name = "." || name = ".." then host.isDirectory directory else host.exists? path
          if found then advance path else return []
      | none =>
          if ← host.isDirectory directory then
            let names := (← host.names directory).mergeSort
            let children := names.map fun name => ⟨below directory name, component :: rest⟩
            if component.head? == some (.exact '.') then
              let special (name : String) : m (List Visit) :=
                if matchesName component name.toList then advance (join directory name)
                else return []
              return (← special "..") ++ (← special ".") ++ children
            else return children
          else return []

def visitName (host : Host m) (directoriesOnly : Bool) (path : String) :
    List (List GlobToken) → m (List String × List Visit)
  | [] => return ([], [])
  | component :: rest => do
      if !matchesName component (fileName path).toList then return ([], [])
      else if rest.isEmpty then
        if !directoriesOnly || (← host.isDirectory path) then return ([path], [])
        else return ([], [])
      else return ([], ← expand host rest path)

def visit (host : Host m) (directoriesOnly : Bool) (here : Visit) :
    m (List String × List Visit) := do
  match here.left with
  | [] =>
      if !directoriesOnly || (← host.isDirectory here.path) then return ([here.path], [])
      else return ([], [])
  | component :: rest =>
      if isRecursive component then
        let after := rest.dropWhile isRecursive
        if ← host.isDirectory here.path then
          let inside ← expand host (component :: after) here.path
          if after.isEmpty then return ([here.path], inside)
          else
            let (found, next) ← visitName host directoriesOnly here.path after
            return (found, next ++ inside)
        else visitName host directoriesOnly here.path after
      else visitName host directoriesOnly here.path here.left

def walk (host : Host m) (directoriesOnly : Bool) : Nat → List Visit → m (List String)
  | 0, _ | _, [] => return []
  | fuel + 1, here :: others => do
      let (found, next) ← visit host directoriesOnly here
      return found ++ (← walk host directoriesOnly fuel (next ++ others))

def maxVisits : Nat := 1000000

def paths (host : Host m) (pattern : String) : m (Except GlobError (List String)) := do
  match components pattern with
  | .error error => return .error error
  | .ok (components, directoriesOnly) =>
      let start := if pattern.startsWith "/" then "/" else "."
      let visits ← expand host components start
      return .ok (← walk host directoriesOnly maxVisits visits)

end Glob

end TypeGuard.Command
