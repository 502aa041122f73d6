import Arbor.Files
import Arbor.Grammar
import Arbor.Parser
import Arbor.Text.Piece
import Arbor.Toml.Document

/-!
# Settings

How the files of a project are parsed: with which grammar, from which start
production, without which tokens, and which memberships are added to the
grammar. The settings stand in a TOML file named `.cstq.toml`, in the
directory of a file or in one around it; the nearest one counts.

How settings and grammars are written has no part in how they are searched for
and put together, so the two readers are arguments (`Readers`), and the ones of
this library are taken where none are given.
-/

namespace Arbor

/-- The settings of a project. -/
structure Settings where
  /-- The file name of the grammar, seen from `directory`; empty if none is
  set. -/
  grammar : Text
  /-- The start production; empty if none is set. -/
  start : Text
  /-- The token kinds that are skipped. -/
  skip : List Text
  /-- Classes and the members that are added to them. -/
  classes : List (Text × List Text)
  /-- The directory of the settings file. -/
  directory : Text
  deriving Repr

/-- **Why there is no project.** -/
inductive ProjectError where
  /-- The search for a settings file failed. -/
  | search (e : FileError)
  /-- A settings file cannot be read. -/
  | unreadable (file : Text) (e : FileError)
  /-- A settings file is no TOML, or has a value of another kind than it
  should. -/
  | malformed (file : Text)
  /-- No grammar is set. -/
  | noGrammar
  /-- No start production is set. -/
  | noStart
  /-- The grammar cannot be opened. -/
  | grammarFile (e : FileError)
  /-- The name of the grammar cannot be made one from the root directory. -/
  | grammarPath (e : FileError)
  /-- The grammar has problems. -/
  | grammarProblems (ps : List Problem)
  /-- A membership cannot be added. -/
  | membership (e : Grammar.ClassifyError)
  deriving DecidableEq, Repr

/-- The wording of the error. -/
def ProjectError.message : ProjectError → Text
  | search e => utf8 "find config: " ++ e.message
  | unreadable file e => utf8 "load config " ++ file ++ utf8 ": " ++ e.message
  | malformed file => utf8 "load config " ++ file ++ utf8 ": malformed TOML"
  | noGrammar => utf8 "no grammar configured"
  | noStart => utf8 "no start production configured"
  | grammarFile e => utf8 "open grammar: " ++ e.message
  | grammarPath e => utf8 "grammar path: " ++ e.message
  | grammarProblems ps => utf8 "parse grammar: " ++ Problem.summary ps
  | membership e => utf8 "config classes: " ++ e.message

namespace Settings

/-- The name of a settings file. -/
def fileName : Text := utf8 ".cstq.toml"

/-- The settings where there is no file. -/
def default : Settings := ⟨[], [], defaultSkip, [], Path.here⟩

/-! ## From a document -/

/-- The lower-case letter of a character. Two characters beyond ASCII count as
letters: the long s and the Kelvin sign. -/
def foldCase (c : Char) : Char :=
  if c.toNat = 0x17F then 's' else if c.toNat = 0x212A then 'k' else c.toLower

/-- A key without regard to upper and lower case. -/
def folded (key : Text) : List Char := key.pieces.map fun r => foldCase r.toChar

/-- A string. -/
def string? : Toml.Value → Option Text
  | .string t => some t
  | _ => none

/-- An array of strings. -/
def strings? : Toml.Value → Option (List Text)
  | .array vs => vs.mapM string?
  | _ => none

/-- Adds classes with their members to others, in place of those of the same
name. -/
def addClasses (new classes : List (Text × List Text)) : List (Text × List Text) :=
  classes.filter (fun c => new.all (·.1 ≠ c.1)) ++ new

/-- Takes over an entry of the document. An entry that is no setting is
ignored, and so are classes that are no table; all else must be of the right
kind. -/
def set? (s : Settings) (key : Text) (v : Toml.Value) : Option Settings :=
  let key := folded key
  if key = "grammar".toList then (string? v).map fun t => { s with grammar := t }
  else if key = "start".toList then (string? v).map fun t => { s with start := t }
  else if key = "skip".toList then (strings? v).map fun ts => { s with skip := ts }
  else if key = "classes".toList then match v with
    | .table entries => do
      let new ← entries.toList.mapM fun (name, v) => do return (name, ← strings? v)
      return { s with classes := addClasses new s.classes }
    | _ => some s
  else some s

/-- The settings of a document. What it does not set is as by default. -/
def ofTable? (t : Toml.Table) : Option Settings :=
  t.toList.foldlM (fun s (key, v) => s.set? key v) default

end Settings

/-- **How settings and grammars are read.** -/
structure Readers where
  /-- Reads settings; the directory of their file is not known yet. -/
  settings? : (content : Text) → Option Settings
  /-- Reads the grammar in a file. -/
  grammar : (file content : Text) → Except (List Problem) Grammar

/-- Settings as TOML, and grammars as productions. -/
def Readers.standard : Readers where
  settings? content := (Toml.read? content).bind Settings.ofTable?
  grammar := Grammar.read

namespace Settings

/-! ## From a disk -/

section

variable {m : Type → Type} [Monad m]

/-- **Loads a settings file.** -/
def load (disk : Disk m) (file : Text) (readers : Readers := .standard) :
    m (Except ProjectError Settings) := do
  match ← disk.read file with
  | .error e => return .error (.unreadable file e)
  | .ok content => match readers.settings? content with
    | none => return .error (.malformed file)
    | some s => return .ok { s with directory := Path.directory file }

/-- Loads the settings file of the first of some directories that has one. A
directory has none only if the name leads nowhere; where even that cannot be
told, the search fails. -/
def findIn (disk : Disk m) (readers : Readers) : List Text → m (Except ProjectError Settings)
  | [] => return .ok default
  | directory :: rest => do
    let file := Path.join directory fileName
    match ← disk.lookup file with
    | .ok () => load disk file readers
    | .error e =>
      if e.cause = .notFound then findIn disk readers rest else return .error (.search e)

/-- The directories that are searched from one on: that one and those around
it, innermost first. -/
def searched (directory : Text) : List Text :=
  (Path.ofText directory).upward.map Path.render

/-- **Loads the nearest settings file** of a directory, or has the default
settings if there is none. -/
def find (disk : Disk m) (directory : Text) (readers : Readers := .standard) :
    m (Except ProjectError Settings) :=
  match disk.absolute directory with
  | .error e => return .error (.search e)
  | .ok start => findIn disk readers (searched start)

/-! ## The grammar -/

/-- The file name of the grammar. -/
def grammarPath (s : Settings) : Text :=
  if s.grammar = [] ∨ Path.isRooted s.grammar then s.grammar else Path.join s.directory s.grammar

/-- The memberships, each a member with its class, in the order in which they
are added: by the names of the classes. -/
def sorted (s : Settings) : List (Text × Text) :=
  (s.classes.mergeSort fun a b => a.1.le b.1).flatMap fun c => c.2.map fun m => (m, c.1)

/-- Adds memberships to a grammar one after the other, up to the first that
cannot be added. Those before it stay in the grammar. -/
def addUntilError (g : Grammar) :
    List (Text × Text) → Grammar × Option Grammar.ClassifyError
  | [] => (g, none)
  | e :: rest => match g.classify e.1 e.2 with
    | .ok g => addUntilError g rest
    | .error error => (g, some error)

/-- **Adds the memberships to a grammar**, as far as they can be added. -/
def classify (s : Settings) (g : Grammar) : Grammar × Option Grammar.ClassifyError :=
  addUntilError g s.sorted

/-- Reads the grammar in a file. A directory can be opened, and counts as an
empty grammar. -/
def readGrammar (disk : Disk m) (file : Text) (readers : Readers := .standard) :
    m (Except ProjectError Grammar) := do
  match ← disk.read file with
  | .ok content => return (readers.grammar file content).mapError .grammarProblems
  | .error e =>
    if e.action = .reading then return (readers.grammar file []).mapError .grammarProblems
    else return .error (.grammarFile e)

/-- **Loads the grammar** that is set, with the memberships that are added. All
of them have to be. -/
def loadGrammar (disk : Disk m) (s : Settings) (readers : Readers := .standard) :
    m (Except ProjectError Grammar) := do
  if s.grammarPath = [] then return .error .noGrammar
  else match ← readGrammar disk s.grammarPath readers with
    | .error e => return .error e
    | .ok g => match s.classify g with
      | (g, none) => return .ok g
      | (_, some e) => return .error (.membership e)

end

end Settings

end Arbor
