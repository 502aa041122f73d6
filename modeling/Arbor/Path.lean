import Arbor.Text

/-!
# Paths

Names of files, read without a look at any disk. Such a name is a list of
**parts** between slashes, from the root directory or from wherever one is.
Empty parts and `.` say nothing, and `..` takes back the part before it; what
is left is the **normal form** of the name, and two names with one normal form
lead to one place as far as the names can tell.
-/

namespace Arbor

/-- The normal form of a file name. -/
structure Path where
  /-- Whether it starts at the root directory. -/
  rooted : Bool
  /-- The parts, outermost first. -/
  parts : List Text
  deriving DecidableEq, Repr

namespace Path

/-- The slash. -/
def slash : UInt8 := 47

/-- The part that stands for the directory itself. -/
def here : Text := utf8 "."

/-- The part that stands for the directory around. -/
def up : Text := utf8 ".."

/-- Goes on from some parts, innermost first, by one more part. There is
nothing above the root directory. -/
def step (rooted : Bool) (inside : List Text) (part : Text) : List Text :=
  if part = [] ∨ part = here then inside
  else if part = up then match inside with
    | [] => if rooted then [] else [up]
    | last :: rest => if last = up then up :: inside else rest
  else part :: inside

/-- Whether a name starts at the root directory. -/
def isRooted (name : Text) : Bool := name.head? = some slash

/-- **The normal form of a name.** -/
def ofText (name : Text) : Path :=
  let rooted := isRooted name
  ⟨rooted, ((name.split slash).foldl (step rooted) []).reverse⟩

/-- The name of a path. -/
def render (p : Path) : Text :=
  if p.rooted then slash :: Text.join [slash] p.parts
  else if p.parts.isEmpty then here
  else Text.join [slash] p.parts

/-- The name in normal form that leads to the same place. -/
def clean (name : Text) : Text := (ofText name).render

/-- The name of a file in a directory. -/
def join (directory name : Text) : Text :=
  if directory = [] then if name = [] then [] else clean name
  else clean (directory ++ [slash] ++ name)

/-- The directory of a file name: everything before the last slash. -/
def directory (name : Text) : Text :=
  clean (name.reverse.dropWhile (· ≠ slash)).reverse

/-- A name from the root directory, given that one is in the directory
`current`. -/
def absolute (current name : Text) : Text :=
  if isRooted name then clean name else join current name

/-- The path of a directory and those of all directories around it, innermost
first. -/
def upward (p : Path) : List Path :=
  (List.range (p.parts.length + 1)).reverse.map fun n => { p with parts := p.parts.take n }

end Path

end Arbor
