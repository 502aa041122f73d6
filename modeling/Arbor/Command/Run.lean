import Arbor.Command.Line
import Arbor.Grammar.Verify
import Arbor.Node.Export
import Arbor.Project

/-!
# Running commands

A command writes to its output, perhaps to its error output, and may fail. It
gets at files through a disk, in any monad. A fault in a tree ends a command
without any output.
-/

namespace Arbor

namespace Command

/-- The version of the tool. -/
def version : Text := utf8 "0.1.0"

/-- **Why a command fails.** -/
inductive Failure where
  /-- The command line is wrong. -/
  | usage (e : UsageError)
  /-- There is no project. -/
  | project (e : ProjectError)
  /-- The file cannot be read. -/
  | unreadable (e : FileError)
  /-- The file does not parse. -/
  | parse (file : Text) (e : ParseError)
  /-- The place is malformed. -/
  | cursor (e : CursorError)
  /-- The tree cannot be written as JSON. -/
  | unwritable (e : Json.WriteError)
  /-- There is no such format. -/
  | unknownFormat (format : Text)
  /-- There is no such production. -/
  | unknownProduction (rule : Text)
  /-- No node is an instance of the rule. -/
  | noMatch (rule file : Text)
  /-- The file does not have the line. -/
  | noLine (file : Text) (line : Int)
  /-- There is no node at the place. -/
  | noNode (file : Text) (c : Cursor)
  /-- No instance of the rule encloses the place. -/
  | notEnclosed (file rule : Text) (c : Cursor)
  /-- The grammar has problems. -/
  | invalidGrammar (file : Text)
  /-- The grammar has flaws. -/
  | unverified (file start : Text)
  deriving DecidableEq, Repr

/-- The wording of a failure. -/
def Failure.message : Failure → Text
  | usage e => e.message
  | project e => e.message
  | unreadable e => utf8 "read file: " ++ e.message
  | parse file e => file ++ utf8 ": " ++ e.message
  | cursor e => e.message
  | unwritable e => utf8 "encode json: " ++ e.message
  | unknownFormat f => utf8 "unknown format: " ++ f ++ utf8 " (expected text or json)"
  | unknownProduction r => utf8 "unknown production: " ++ r
  | noMatch r file => utf8 "no " ++ r ++ utf8 " in " ++ file
  | noLine file l => file ++ utf8 ": no line " ++ Text.ofInt l
  | noNode file c => file ++ utf8 ": no node at " ++ c.render
  | notEnclosed file r c => file ++ utf8 ": no " ++ r ++ utf8 " encloses " ++ c.render
  | invalidGrammar file => file ++ utf8 ": invalid grammar"
  | unverified file s => file ++ utf8 ": grammar does not verify from " ++ s

/-- What a command leaves behind. -/
structure Outcome where
  /-- Its output. -/
  output : Text
  /-- Its error output. -/
  errors : Text
  /-- Why it failed, if it did. -/
  failure : Option Failure

namespace Outcome

/-- A command that wrote its output. -/
def done (output : Text) : Outcome := ⟨output, [], none⟩

/-- A command that failed without writing anything. -/
def failed (f : Failure) : Outcome := ⟨[], [], some f⟩

end Outcome

/-- Texts, each on its line. -/
def lines (ts : List Text) : Text := ts.flatMap (· ++ [Text.newline])

/-! ## On a parsed file -/

/-- Shows the tree of a file in a format. -/
def showTree (format : Text) (positions : Bool) (root : Node) : Except Fault Outcome := do
  if format = utf8 "text" then return .done (← root.outline positions)
  else if format = utf8 "json" then match (← root.toJson).handOn Json.indented with
    | .ok t => return .done (t ++ [Text.newline])
    | .error e => return .failed (.unwritable e)
  else return .failed (.unknownFormat format)

/-- Lists the instances of a rule in a file. To count them goes before showing
the first. -/
def showMatches (p : Project) (f : SourceFile) (root : Node) (first count text : Bool)
    (rule : Text) : Except Fault Outcome := do
  if !p.grammar.has rule then return .failed (.unknownProduction rule)
  else
    let isA := Node.isA p.grammar.hierarchy (some (p.grammar.rule rule))
    let source : Source := f.source.toArray
    if count then return .done (lines [Text.ofNat (← root.findAll isA).length])
    else if first then match ← root.findFirst isA with
      | none => return .failed (.noMatch rule f.name)
      | some n => return .done (lines [← n.describe source text])
    else return .done (lines (← (← root.findAll isA).mapM (·.describe source text)))

/-- The lines of a path, each node deeper than the one before; leaves are shown
with their text. -/
def pathLines (source : Source) (depth : Nat) : List Node → Except Fault (List Text)
  | [] => return []
  | n :: ns => do
    let line := Text.times (utf8 "  ") depth ++ (← n.describe source n.isLeaf)
    return line :: (← pathLines source (depth + 1) ns)

/-- Shows the nodes around a place in a file, outermost first, or the nearest
instance of a rule around it. -/
def showPath (p : Project) (f : SourceFile) (root : Node) (rule : Text) (c : Cursor) :
    Except Fault Outcome := do
  match c.offset? f.source with
  | none => return .failed (.noLine f.name c.line)
  | some offset => match root.innermostAt offset with
    | none => return .failed (.noNode f.name c)
    | some n =>
      if rule = [] then
        return .done (lines (← pathLines f.source.toArray 0 ((root.pathTo? n).getD [])))
      else if !p.grammar.has rule then return .failed (.unknownProduction rule)
      else match ← root.ancestor? p.grammar.hierarchy (some (p.grammar.rule rule)) n with
        | none => return .failed (.notEnclosed f.name rule c)
        | some a => return .done (lines [← a.describe f.source.toArray true])

/-- What a check of a grammar says: how many productions and tokens there are,
and the categories with their members. -/
def summary (g : Grammar) : Text :=
  let counts := Text.ofNat g.names.length ++ utf8 " productions, "
    ++ Text.ofNat g.tokenNames.length ++ utf8 " tokens"
  let categories := g.names.filterMap fun n => (g.members? n).map fun ms =>
    n ++ utf8 ": [" ++ Text.join (utf8 " ") ms ++ utf8 "]"
  lines (counts :: categories)

/-- What a check says of a grammar that could be loaded or not. Every problem
and flaw is on a line of the error output. -/
def checked (start file : Text) : Except ProjectError Grammar → Outcome
  | .error (.grammarProblems ps) =>
    ⟨[], lines (ps.map Problem.message), some (.invalidGrammar file)⟩
  | .error e => ⟨[], lines [e.message], some (.invalidGrammar file)⟩
  | .ok g =>
    let flaws := if start = [] then [] else g.verify start
    if flaws.isEmpty then .done (summary g)
    else ⟨[], lines (flaws.map Grammar.Flaw.message), some (.unverified file start)⟩

/-! ## From a disk -/

section

variable {m : Type → Type} [Monad m]

/-- The project for a directory, with the settings that options put in place
of those of the settings file. -/
def Options.loadProject (disk : Disk m) (o : Options) (directory : Text) :
    m (Except ProjectError Project) := do
  let found ← if o.config ≠ [] then Settings.load disk o.config else Settings.find disk directory
  match found with
  | .error e => return .error e
  | .ok s =>
    let start := if o.start ≠ [] then o.start else s.start
    match if o.grammar ≠ [] then disk.absolute o.grammar else .ok s.grammar with
    | .error e => return .error (.grammarPath e)
    | .ok grammar => Project.ofSettings disk { s with grammar, start }

/-- Parses a file with the project for its directory, and does something with
its tree. -/
def Options.withFile (disk : Disk m) (o : Options) (file : Text)
    (act : Project → SourceFile → Node → Except Fault Outcome) : m (Except Fault Outcome) := do
  match ← o.loadProject disk (Path.directory file) with
  | .error e => return .ok (.failed (.project e))
  | .ok p => match ← p.parseFile disk file with
    | .error e => return .ok (.failed (.unreadable e))
    | .ok f => match f.parsed with
      | .error e => return .ok (.failed (.parse file e))
      | .ok root => return act p f root

/-- **Does what a command line asks for.** Explanations and completions are not
written, and serving an editor stops once the project is loaded. -/
def perform (disk : Disk m) : Task → m (Except Fault Outcome)
  | .version => return .ok (.done (lines [utf8 "cstq version " ++ version]))
  | .help _ => return .ok (.done [])
  | .script _ => return .ok (.done [])
  | .complete _ => return .ok (.done [])
  | .parse o format positions file =>
    o.withFile disk file fun _ _ root => showTree format positions root
  | .find o first count text file rule =>
    o.withFile disk file fun p f root => showMatches p f root first count text rule
  | .path o rule file place => match Cursor.read place with
    | .error e => return .ok (.failed (.cursor e))
    | .ok c => o.withFile disk file fun p f root => showPath p f root rule c
  | .check start file => return .ok (checked start file (← Settings.readGrammar disk file))
  | .serve o => do
    if o.config = [] ∧ o.grammar = [] then return .ok (.done [])
    else match ← o.loadProject disk Path.here with
      | .error e => return .ok (.failed (.project e))
      | .ok _ => return .ok (.done [])

/-- **Runs a command line.** -/
def run (disk : Disk m) (args : List Text) : m (Except Fault Outcome) :=
  match read args with
  | .error e => return .ok (.failed (.usage e))
  | .ok task => perform disk task

end

end Command

end Arbor
