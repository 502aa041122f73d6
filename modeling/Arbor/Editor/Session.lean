import Arbor.Editor.Documents
import Arbor.Uri

/-!
# Editor sessions

A session starts without a project, or with one that is given. It gets a
project when the editor names its root directory, and from then on takes
**requests** about documents. A request that needs the project before there is
one is a fault.
-/

namespace Arbor

namespace Editor

/-- A change of a document. -/
inductive Change where
  /-- The document has a new text. -/
  | whole (text : Text)
  /-- A part of the document has a new text. Such changes are not offered, and
  are ignored. -/
  | part (text : Text)
  deriving DecidableEq, Repr

/-- **What an editor asks or tells.** -/
inductive Request where
  /-- A document was opened. -/
  | opened (uri text : Text)
  /-- A document was changed, step by step. -/
  | changed (uri : Text) (changes : List Change)
  /-- A document was closed. -/
  | closed (uri : Text)
  /-- What is to be shown at a place. -/
  | hover (uri : Text) (place : Place)
  /-- The selections at some places. -/
  | selections (uri : Text) (places : List Place)
  deriving DecidableEq, Repr

/-- The answer to a request. -/
inductive Reply where
  /-- There is nothing to answer. -/
  | nothing
  /-- What is shown at the place. -/
  | hover (h : Option Hover)
  /-- The selections, in the order of the places. -/
  | selections (ranges : List (List Range))
  deriving DecidableEq, Repr

/-- The diagnostics of a document, sent without being asked for. -/
structure Publication where
  /-- The document. -/
  uri : Text
  /-- Its diagnostics. -/
  diagnostics : List Diagnostic
  deriving DecidableEq, Repr

/-- **A session.** -/
structure Session where
  /-- The documents, once there is a project. -/
  documents : Option Documents

/-- What a session makes of a request. -/
structure Outcome where
  /-- The session afterwards. -/
  session : Session
  /-- The answer. -/
  reply : Reply
  /-- What is published. -/
  published : List Publication

namespace Session

/-- A session with a project or without. -/
def start (p : Option Project) : Session := ⟨p.map Documents.empty⟩

/-- The documents; it is a fault if there is no project. -/
def opened (s : Session) : Except Fault Documents :=
  match s.documents with
  | none => .error .noProject
  | some d => .ok d

/-- Takes a text as the current version of a document, and publishes its
diagnostics. -/
def update (s : Session) (uri text : Text) : Except Fault Outcome := do
  let d := (← s.opened).update uri text
  return ⟨⟨some d⟩, .nothing, [⟨uri, d.diagnostics uri⟩]⟩

/-- **Handles a request.** Of a list of changes only the last one counts. -/
def handle (s : Session) : Request → Except Fault Outcome
  | .opened uri text => s.update uri text
  | .changed uri changes => match changes.getLast? with
    | some (.whole text) => s.update uri text
    | _ => return ⟨s, .nothing, []⟩
  | .closed uri => do
    return ⟨⟨some ((← s.opened).close uri)⟩, .nothing, []⟩
  | .hover uri p => do
    return ⟨s, .hover (← (← s.opened).hover uri p), []⟩
  | .selections uri places => do
    return ⟨s, .selections (← places.mapM fun p => do return (← s.opened).selectionAt uri p), []⟩

/-- The root directory that an editor names by a file name or else by a URI.
It is the current directory if neither says anything. -/
def rootDirectory (file uri : Text) : Text :=
  if file ≠ [] then file
  else if uri ≠ [] then (Uri.path? uri).getD Path.here
  else Path.here

/-- **Gets ready**: loads the project of the root directory, unless there is a
project already. -/
def prepare {m : Type → Type} [Monad m] (disk : Disk m) (s : Session) (file uri : Text)
    (readers : Readers := .standard) : m (Except ProjectError Session) := do
  match s.documents with
  | some _ => return .ok s
  | none =>
    return (← Project.load disk (rootDirectory file uri) readers).map fun p => start (some p)

end Session

/-! ## What is offered -/

/-- What a session offers to an editor. -/
structure Offer where
  /-- The name of the tool. -/
  name : Text
  /-- It wants to know of documents being opened and closed. -/
  openClose : Bool
  /-- How it wants to know of changes: `1` is by the whole new text. -/
  change : Nat
  /-- It answers what is to be shown at a place. -/
  hover : Bool
  /-- It answers the selections at places. -/
  selectionRange : Bool

/-- What every session offers. -/
def offer : Offer := ⟨toolName, true, 1, true, true⟩

/-- How much an editor wants to know of the exchange, from what it says; one
of the levels has two spellings. -/
def traceLevel (said : Text) : Text :=
  if said = utf8 "messages" then utf8 "message" else said

/-- How much it wants to know once the session is over: nothing. -/
def traceOff : Text := utf8 "off"

end Editor

end Arbor
