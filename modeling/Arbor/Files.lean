import Arbor.Path

/-!
# Files

All that is asked of a file system is whether a name leads somewhere, what a
file holds, and what the current directory is called. A **disk** answers this,
in any monad. The disk of the machine answers in `IO`; a **file tree** is a disk
in memory that answers at once, and so by values one can reason about.
-/

namespace Arbor

/-- What is done to a file. -/
inductive FileAction where
  /-- It is opened. -/
  | opening
  /-- It is looked up. -/
  | lookup
  /-- It is read, having been opened. -/
  | reading
  /-- It is located from the current directory. -/
  | locating
  deriving DecidableEq, Repr

/-- Why it cannot be done. -/
inductive FileCause where
  /-- The name leads nowhere. -/
  | notFound
  /-- The name goes on beyond a file. -/
  | notDirectory
  /-- The name leads to a directory. -/
  | isDirectory
  /-- The name, or a part of it, is too long. -/
  | nameTooLong
  /-- The name has a zero byte. -/
  | invalidName
  /-- Something else. -/
  | other (reason : Text)
  deriving DecidableEq, Repr

/-- **A failure to get at a file.** -/
structure FileError where
  /-- What was tried. -/
  action : FileAction
  /-- The name of the file, as given. -/
  name : Text
  /-- Why it failed. -/
  cause : FileCause
  deriving DecidableEq, Repr

/-- An action in the words of messages. -/
def FileAction.render : FileAction → Text
  | opening => utf8 "open"
  | lookup => utf8 "stat"
  | reading => utf8 "read"
  | locating => utf8 "getwd"

/-- A cause in the words of messages. -/
def FileCause.render : FileCause → Text
  | notFound => utf8 "no such file or directory"
  | notDirectory => utf8 "not a directory"
  | isDirectory => utf8 "is a directory"
  | nameTooLong => utf8 "file name too long"
  | invalidName => utf8 "invalid argument"
  | other reason => reason

/-- The wording of a failure. Where the current directory cannot be told, no
file is to blame. -/
def FileError.message (e : FileError) : Text :=
  e.action.render ++ (if e.action = .locating then [] else utf8 " " ++ e.name) ++ utf8 ": "
    ++ e.cause.render

/-- **A file system** seen from a current directory. -/
structure Disk (m : Type → Type) where
  /-- The name of the current directory, from the root directory, or why it
  cannot be told. -/
  current : Except FileCause Text
  /-- Looks up a name. -/
  lookup : Text → m (Except FileError Unit)
  /-- Reads a file. A directory can be opened and not read. -/
  read : Text → m (Except FileError Text)

/-- The name of a file from the root directory. The current directory is only
needed if the name does not start there. -/
def Disk.absolute {m : Type → Type} (disk : Disk m) (name : Text) : Except FileError Text :=
  if Path.isRooted name then .ok (Path.clean name)
  else match disk.current with
    | .ok here => .ok (Path.absolute here name)
    | .error c => .error ⟨.locating, name, c⟩

/-! ## File trees -/

/-- What a name leads to. -/
inductive Entry where
  /-- A file and what it holds. -/
  | file (content : Text)
  /-- A directory and what is in it, by name. -/
  | directory (entries : List (Text × Entry))

namespace Entry

/-- What is in a directory; nothing is in a file. -/
def entries : Entry → List (Text × Entry)
  | file _ => []
  | directory es => es

/-- What a directory has under a name. -/
def get? (e : Entry) (name : Text) : Option Entry := (e.entries.find? (·.1 = name)).map (·.2)

/-- Puts something into a directory under a name. -/
def put (e : Entry) (name : Text) (inner : Entry) : Entry :=
  directory ((name, inner) :: e.entries.filter (·.1 ≠ name))

/-- Changes what stands at the end of some parts, making the directories on the
way. -/
def change (f : Entry → Entry) : (parts : List Text) → Entry → Entry
  | [], e => f e
  | part :: parts, e => e.put part (change f parts ((e.get? part).getD (directory [])))

/-- Follows the parts of a name from a directory; `around` are the directories
it is in, innermost first. There is nothing above the outermost, and nothing
may follow a file, not even an empty part. -/
def follow (around : List Entry) (e : Entry) : List Text → Except FileCause Entry
  | [] => .ok e
  | part :: rest =>
    if part = [] ∨ part = Path.here then follow around e rest
    else if part = Path.up then match around with
      | [] => follow [] e rest
      | outer :: around => follow around outer rest
    else if 255 < part.length then .error .nameTooLong
    else match e.get? part with
      | none => .error .notFound
      | some (.directory es) => follow (e :: around) (.directory es) rest
      | some (.file content) => if rest.isEmpty then .ok (.file content) else .error .notDirectory

end Entry

/-- **A file system in memory**, seen from a current directory. -/
structure FileTree where
  /-- The parts of the name of the current directory, outermost first. -/
  current : List Text
  /-- The root directory. -/
  root : Entry

namespace FileTree

/-- The file system with nothing but the current directory. -/
def empty (current : List Text) : FileTree := ⟨current, Entry.change id current (.directory [])⟩

/-- Adds a directory, given by its parts, and those around it. -/
def addDirectory (t : FileTree) (parts : List Text) : FileTree :=
  { t with root := Entry.change id parts t.root }

/-- Adds a file, given by its parts, and the directories around it. -/
def addFile (t : FileTree) (parts : List Text) (content : Text) : FileTree :=
  { t with root := Entry.change (fun _ => .file content) parts t.root }

/-- What a name leads to, part by part from the root directory or from the
current one. -/
def resolve (t : FileTree) (name : Text) : Except FileCause Entry :=
  if name = [] then .error .notFound
  else if 0 ∈ name then .error .invalidName
  else if 4096 ≤ name.length then .error .nameTooLong
  else
    let parts := name.split Path.slash
    Entry.follow [] t.root (if Path.isRooted name then parts else t.current ++ parts)

/-- **The disk of a file tree.** -/
def disk (t : FileTree) : Disk Id where
  current := .ok (Path.render ⟨true, t.current⟩)
  lookup name := match t.resolve name with
    | .ok _ => .ok ()
    | .error c => .error ⟨.lookup, name, c⟩
  read name := match t.resolve name with
    | .ok (.file content) => .ok content
    | .ok (.directory _) => .error ⟨.reading, name, .isDirectory⟩
    | .error c => .error ⟨.opening, name, c⟩

end FileTree

end Arbor
