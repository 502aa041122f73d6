import Arbor.Cursor
import Arbor.Node.Path
import Arbor.Settings

/-!
# Projects

A **project** is a grammar with the settings to parse files with it. A
**source file** is a text with the outcome of parsing it; that a text does not
parse is such an outcome.
-/

namespace Arbor

/-- A grammar and the settings to use it with. -/
structure Project where
  /-- The settings. -/
  settings : Settings
  /-- The grammar. -/
  grammar : Grammar

/-- A parsed file. -/
structure SourceFile where
  /-- Its name. -/
  name : Text
  /-- What it holds. -/
  source : Text
  /-- Its tree, or why it has none. -/
  parsed : Except ParseError Node

namespace SourceFile

/-- The tree of a file, if it has one. -/
def root? (f : SourceFile) : Option Node := f.parsed.toOption

/-- **The path to the innermost node under a cursor**, from the root. -/
def pathAt? (f : SourceFile) (c : Cursor) : Option (List Node) := do
  let root ← f.root?
  let offset ← c.offset? f.source
  root.pathTo? (← root.innermostAt offset)

end SourceFile

namespace Project

/-- Parses a text as what a file of that name holds. -/
def parse (p : Project) (name source : Text) : SourceFile :=
  ⟨name, source, (Parser.mk p.grammar p.settings.skip).parseText source p.settings.start⟩

section

variable {m : Type → Type} [Monad m]

/-- The project with the given settings. -/
def ofSettings (disk : Disk m) (s : Settings) (readers : Readers := .standard) :
    m (Except ProjectError Project) := do
  if s.start = [] then return .error .noStart
  else return (← s.loadGrammar disk readers).map fun g => ⟨s, g⟩

/-- **Loads the project of a directory.** -/
def load (disk : Disk m) (directory : Text) (readers : Readers := .standard) :
    m (Except ProjectError Project) := do
  match ← Settings.find disk directory readers with
  | .error e => return .error e
  | .ok s => ofSettings disk s readers

/-- Reads and parses a file. -/
def parseFile (disk : Disk m) (p : Project) (name : Text) : m (Except FileError SourceFile) := do
  return (← disk.read name).map (p.parse name)

end

end Project

end Arbor
