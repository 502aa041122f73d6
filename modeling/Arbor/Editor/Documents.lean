import Arbor.Editor.Diagnostic
import Arbor.Editor.Hover
import Arbor.Editor.Selection
import Arbor.Project

/-!
# Open documents

An editor keeps documents open, each named by a URI. Of each the latest text
is kept, parsed; a document is replaced as a whole whenever it changes.
-/

namespace Arbor

namespace Editor

/-- **The open documents of a project.** -/
structure Documents where
  /-- The project they are parsed with. -/
  project : Project
  /-- The documents by URI, no URI twice. -/
  files : List (Text × SourceFile)

/-- A document together with a path in its tree. -/
structure Spot where
  /-- The document. -/
  file : SourceFile
  /-- The path, from the root to the innermost node. -/
  path : List Node

/-- What is shown at a place. -/
structure Hover where
  /-- The text, in Markdown. -/
  text : Text
  /-- The stretch it is about. -/
  range : Range
  deriving DecidableEq, Repr

/-- The cursor at a place. -/
def Place.toCursor (p : Place) : Cursor := ⟨p.line.toNat + 1, p.character.toNat + 1⟩

namespace Documents

/-- No open documents. -/
def empty (p : Project) : Documents := ⟨p, []⟩

/-- The current version of a document, if it is open. -/
def get? (d : Documents) (uri : Text) : Option SourceFile :=
  (d.files.find? (·.1 = uri)).map (·.2)

/-- Forgets a document. -/
def close (d : Documents) (uri : Text) : Documents :=
  { d with files := d.files.filter (·.1 ≠ uri) }

/-- Parses a text as the current version of a document. -/
def update (d : Documents) (uri text : Text) : Documents :=
  { d.close uri with files := (uri, d.project.parse uri text) :: (d.close uri).files }

@[simp] theorem get?_close_self (d : Documents) (uri : Text) : (d.close uri).get? uri = none := by
  simp [get?, close, List.find?_filter]

@[simp] theorem get?_close_of_ne (d : Documents) {uri other : Text} (h : other ≠ uri) :
    (d.close uri).get? other = d.get? other := by
  unfold get? close
  rw [List.find?_filter]
  congr 2
  funext e
  by_cases he : e.1 = other <;> simp [he, h]

@[simp] theorem get?_update_self (d : Documents) (uri text : Text) :
    (d.update uri text).get? uri = some (d.project.parse uri text) := by
  simp [get?, update]

@[simp] theorem get?_update_of_ne (d : Documents) {uri other : Text} (text : Text)
    (h : other ≠ uri) : (d.update uri text).get? other = d.get? other := by
  have := get?_close_of_ne d h
  simpa [get?, update, Ne.symm h] using this

/-- What is under a cursor in a document. -/
def spotAt? (d : Documents) (uri : Text) (c : Cursor) : Option Spot := do
  let file ← d.get? uri
  return ⟨file, ← file.pathAt? c⟩

/-- The diagnostics of a document: none if it parses or is not open. -/
def diagnostics (d : Documents) (uri : Text) : List Diagnostic :=
  match d.get? uri with
  | none => []
  | some file => match file.parsed with
    | .ok _ => []
    | .error e => [.ofParseError e]

/-- What is shown at a place of a document. -/
def hover (d : Documents) (uri : Text) (p : Place) : Except Fault (Option Hover) :=
  match d.spotAt? uri p.toCursor with
  | none => return none
  | some spot => do
    let text ← hoverText spot.file.source.toArray spot.path
    return spot.path.getLast?.map fun n => ⟨text, .ofSpan n.span⟩

/-- The selection at a place of a document: just the place if there is nothing
under it. -/
def selectionAt (d : Documents) (uri : Text) (p : Place) : List Range :=
  match d.spotAt? uri p.toCursor with
  | none => [.empty p]
  | some spot => selection (spot.path.map Node.span)

end Documents

end Editor

end Arbor
