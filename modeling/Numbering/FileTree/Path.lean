import Numbering.FileTree

/-! Paths, and what it means to read and to write a whole file at one. A path is walked name by name, from
the root if it starts with a slash and else from the working directory, and each step needs a directory to
start from. Above the root there is the root. -/

namespace Numbering

/-- Why a file cannot be read or written. -/
inductive Fault where
  | notFound
  | notADirectory
  | isADirectory
  | nameTooLong
  | nulInPath
  | notUtf8
  /-- Any other fault of a file system, in its own words. -/
  | other (message : String)
  deriving DecidableEq, Repr

def Fault.message : Fault → String
  | notFound => "No such file or directory (os error 2)"
  | notADirectory => "Not a directory (os error 20)"
  | isADirectory => "Is a directory (os error 21)"
  | nameTooLong => "File name too long (os error 36)"
  | nulInPath => "file name contained an unexpected NUL byte"
  | notUtf8 => "stream did not contain valid UTF-8"
  | other message => message

/-! ### Paths -/

inductive Step where
  | stay
  | up
  | down (name : Name)
  deriving DecidableEq, Repr

structure Path where
  /-- Whether the path starts with a slash. -/
  rooted : Bool
  steps : List Step
  /-- Whether the path ends with a slash. -/
  closed : Bool
  deriving DecidableEq, Repr

def dot : UInt8 := 0x2E

def Step.ofName (name : Name) : Step :=
  if name = [dot] then stay else if name = [dot, dot] then up else down name

namespace Path

/-- The number of bytes that no path reaches. -/
def sizeLimit : Nat := 4096

def ofBytes (b : Bytes) : Except Fault Path :=
  if b.contains 0 then .error .nulInPath
  else if b = [] then .error .notFound
  else if sizeLimit ≤ b.length then .error .nameTooLong
  else .ok {
    rooted := b.head? = some slash
    steps := ((b.splitOn slash).filter (!·.isEmpty)).map Step.ofName
    closed := b.getLast? = some slash }

end Path

/-! ### Walking -/

namespace FileTree

def nameLimit : Nat := 255

/-- Where the walk along a path starts. -/
def start (tree : FileTree) (p : Path) : Location := if p.rooted then [] else tree.cwd

/-- The location that a name means in a directory. -/
def child (l : Location) (name : Name) : Except Fault Location :=
  if nameLimit < name.length then .error .nameTooLong else .ok (l ++ [name])

/-- The content of the file at a location; a directory has none. -/
def file? (tree : FileTree) (l : Location) : Option Bytes :=
  match tree.get? l with
  | some (.file content) => some content
  | _ => none

def step (tree : FileTree) (l : Location) (s : Step) : Except Fault Location :=
  if (tree.file? l).isSome then .error .notADirectory
  else match s with
    | .stay => .ok l
    | .up => .ok l.dropLast
    | .down name => do
      let l ← child l name
      if (tree.get? l).isSome then .ok l else .error .notFound

def walk (tree : FileTree) (l : Location) (steps : List Step) : Except Fault Location := steps.foldlM tree.step l

/-! ### Whole files -/

/-- The content of the file at a path. -/
def read (tree : FileTree) (path : Bytes) : Except Fault Bytes := do
  let path ← Path.ofBytes path
  match tree.file? (← tree.walk (tree.start path) path.steps) with
  | none => .error .isADirectory
  | some content => if path.closed then .error .notADirectory else .ok content

/-- The location of the file that a write to a path creates or replaces. A path that ends in a slash,
or in a step that stays or goes up, means a directory, whether there is one or not. -/
def target (tree : FileTree) (path : Bytes) : Except Fault Location := do
  let path ← Path.ofBytes path
  let directory ← tree.walk (tree.start path) path.steps.dropLast
  if (tree.file? directory).isSome then .error .notADirectory
  else match path.steps.getLast?, path.closed with
    | some (.down name), false => do
      let l ← child directory name
      if tree.get? l = some .directory then .error .isADirectory else .ok l
    | _, _ => .error .isADirectory

/-- The tree after the whole content of the file at a path has been written. -/
def write (tree : FileTree) (path content : Bytes) : Except Fault FileTree := do
  return tree.put (← tree.target path) (.file content)

theorem walk_append (tree : FileTree) (l : Location) (a b : List Step) :
    tree.walk l (a ++ b) = tree.walk l a >>= fun k => tree.walk k b := by
  simp [walk, List.foldlM_append]

end FileTree

end Numbering
