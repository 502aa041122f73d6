import Arbor.Editor.Session
import Arbor.Proofs.Editor.Lookup
import Mathlib.Data.List.Induction

/-!
# Sessions over a whole history

A session keeps, for each document, the parse of one text. Which text that is can be read
off the requests so far, without the session: the **latest** one that a request has brought
for the document, if the document has not been closed since (`Editor.Latest`). A change that
brings no whole text does not count, and one that comes after the document was closed brings
it back.

Whatever the history of a session that has a project, its store holds just the parses of the
latest texts (`Session.exists_documents`), and each request that brings a text publishes the
diagnostics of that text. So all answers about a document are functions of its latest text
(`Session.documents_of_history`). What a single request can do is said once, in
`Session.handle_cases`.
-/

namespace Arbor

namespace Editor

/-- **Whether a request brings a text for a document**: it opens the document with it, or
the last of its changes is to that text as a whole. -/
inductive Request.Brings (uri text : Text) : Request → Prop
  | opened : Brings uri text (.opened uri text)
  | changed {before} : Brings uri text (.changed uri (before ++ [.whole text]))

/-- **The latest text of a document**: a request brings it, and none after that brings
another one or closes the document. -/
def Latest (uri text : Text) (history : List Request) : Prop :=
  ∃ before r after, history = before ++ r :: after ∧ r.Brings uri text
    ∧ ∀ q ∈ after, q ≠ .closed uri ∧ ∀ other, ¬ q.Brings uri other

/-- The diagnostics of a parsed file: none if it has a tree. -/
def diagnosticsOf (f : SourceFile) : List Diagnostic :=
  match f.parsed with
  | .ok _ => []
  | .error e => [.ofParseError e]

variable {uri other text : Text} {r : Request} {history : List Request}

/-! ## Histories -/

theorem brings_changed_iff {changes : List Change} :
    Request.Brings uri text (.changed other changes)
      ↔ other = uri ∧ changes.getLast? = some (.whole text) := by
  rw [List.getLast?_eq_some_iff]
  constructor
  · rintro ⟨⟩
    exact ⟨rfl, _, rfl⟩
  · rintro ⟨rfl, before, rfl⟩
    exact .changed

/-- A request brings one text at most, and for one document. -/
theorem Request.Brings.unique {text' : Text} (h : r.Brings uri text)
    (h' : r.Brings other text') : other = uri ∧ text' = text := by
  cases h with
  | opened =>
    cases h'
    exact ⟨rfl, rfl⟩
  | changed =>
    obtain ⟨rfl, hlast⟩ := brings_changed_iff.mp h'
    rw [List.getLast?_concat] at hlast
    exact ⟨rfl, (Change.whole.inj (Option.some.inj hlast)).symm⟩

@[simp] theorem not_latest_nil : ¬ Latest uri text [] := by
  rintro ⟨before, r, after, h, -⟩
  simp at h

/-- **What one more request does to the latest text.** -/
theorem latest_concat :
    Latest uri text (history ++ [r])
      ↔ r.Brings uri text
        ∨ Latest uri text history ∧ r ≠ .closed uri ∧ ∀ other, ¬ r.Brings uri other := by
  constructor
  · rintro ⟨before, q, after, heq, hq, hafter⟩
    rcases List.eq_nil_or_concat after with rfl | ⟨init, last, rfl⟩
    · obtain ⟨-, hlast⟩ := List.append_inj' heq rfl
      rw [List.cons.inj hlast |>.1]
      exact .inl hq
    · rw [List.concat_eq_append, ← List.cons_append, ← List.append_assoc] at heq
      obtain ⟨hinit, hlast⟩ := List.append_inj' heq rfl
      obtain rfl := (List.cons.inj hlast).1
      refine .inr ⟨⟨before, q, init, hinit, hq, fun x hx => hafter x ?_⟩, hafter r ?_⟩
      · simp [hx]
      · simp
  · rintro (h | ⟨⟨before, q, after, rfl, hq, hafter⟩, hr⟩)
    · exact ⟨history, r, [], rfl, h, fun q hq => absurd hq List.not_mem_nil⟩
    · refine ⟨before, q, after ++ [r], by simp, hq, fun x hx => ?_⟩
      rcases List.mem_append.mp hx with hx | hx
      · exact hafter x hx
      · rw [List.mem_singleton.mp hx]
        exact hr

namespace Session

/-- The session after a request; one that is a fault leaves it as it is. -/
def after (s : Session) (r : Request) : Session :=
  match s.handle r with
  | .ok o => o.session
  | .error _ => s

/-- **The session after a history.** -/
def afterAll (s : Session) (history : List Request) : Session := history.foldl after s

theorem afterAll_concat (s : Session) (history : List Request) (r : Request) :
    s.afterAll (history ++ [r]) = (s.afterAll history).after r := by
  rw [afterAll, List.foldl_append]
  rfl

end Session

/-! ## One request -/

namespace Documents

theorem diagnostics_update (d : Documents) (uri text : Text) :
    (d.update uri text).diagnostics uri = diagnosticsOf (d.project.parse uri text) := by
  rw [diagnostics, get?_update_self]
  rfl

/-- What is under a cursor depends on the stored file only. -/
theorem spotAt?_congr {d d' : Documents} (h : d.get? uri = d'.get? uri) (c : Cursor) :
    d.spotAt? uri c = d'.spotAt? uri c := by
  rw [spotAt?, spotAt?, h]

theorem hover_congr {d d' : Documents} (h : d.get? uri = d'.get? uri) :
    d.hover uri = d'.hover uri := by
  funext place
  rw [hover, hover, spotAt?_congr h]

theorem selectionAt_congr {d d' : Documents} (h : d.get? uri = d'.get? uri) :
    d.selectionAt uri = d'.selectionAt uri := by
  funext place
  rw [selectionAt, selectionAt, spotAt?_congr h]

end Documents

namespace Session

variable (d : Documents)

theorem handle_selections (uri : Text) (places : List Place) :
    handle ⟨some d⟩ (.selections uri places)
      = .ok ⟨⟨some d⟩, .selections (places.map (d.selectionAt uri)), []⟩ := by
  have hanswers : places.mapM (fun p => do return (← opened ⟨some d⟩).selectionAt uri p)
      = (.ok (places.map (d.selectionAt uri)) : Except Fault _) := List.mapM_pure ..
  rw [handle, hanswers]
  rfl

theorem handle_hover (uri : Text) (place : Place) :
    handle ⟨some d⟩ (.hover uri place)
      = (d.hover uri place).map fun answer => ⟨⟨some d⟩, .hover answer, []⟩ := by
  show (d.hover uri place).bind _ = _
  cases d.hover uri place <;> rfl

/-- A change that ends with no whole text is ignored. -/
theorem handle_changed {changes : List Change}
    (h : ¬ ∃ text, changes.getLast? = some (.whole text)) :
    handle ⟨some d⟩ (.changed uri changes) = .ok ⟨⟨some d⟩, .nothing, []⟩ := by
  rw [handle]
  rcases hlast : changes.getLast? with _ | ⟨text⟩ | ⟨text⟩
  · rfl
  · exact absurd ⟨text, hlast⟩ h
  · rfl

theorem handle_of_brings (h : r.Brings uri text) :
    handle ⟨some d⟩ r = .ok ⟨⟨some (d.update uri text)⟩, .nothing,
      [⟨uri, diagnosticsOf (d.project.parse uri text)⟩]⟩ := by
  rw [← d.diagnostics_update]
  cases h with
  | opened => rfl
  | changed =>
    rw [handle, List.getLast?_concat]
    rfl

/-- **What a request can do** once there is a project. It brings a text for a document, which
is stored and whose diagnostics are published; or it closes a document; or it leaves the store
as it is and publishes nothing. Only to ask what is shown at a place can be a fault. -/
theorem handle_cases (r : Request) :
    (∃ uri text, r.Brings uri text ∧ handle ⟨some d⟩ r = .ok ⟨⟨some (d.update uri text)⟩, .nothing,
        [⟨uri, diagnosticsOf (d.project.parse uri text)⟩]⟩)
      ∨ (∃ uri, r = .closed uri ∧ handle ⟨some d⟩ r = .ok ⟨⟨some (d.close uri)⟩, .nothing, []⟩)
      ∨ (∀ uri text, ¬ r.Brings uri text) ∧ (∀ uri, r ≠ .closed uri)
        ∧ ((∃ reply, handle ⟨some d⟩ r = .ok ⟨⟨some d⟩, reply, []⟩)
          ∨ ∃ uri place fault, r = .hover uri place ∧ handle ⟨some d⟩ r = .error fault) := by
  cases r with
  | opened uri text => exact .inl ⟨uri, text, .opened, handle_of_brings d .opened⟩
  | changed uri changes =>
    by_cases hlast : ∃ text, changes.getLast? = some (.whole text)
    · obtain ⟨text, hlast⟩ := hlast
      have h : Request.Brings uri text (.changed uri changes) := brings_changed_iff.mpr ⟨rfl, hlast⟩
      exact .inl ⟨uri, text, h, handle_of_brings d h⟩
    · refine .inr (.inr ⟨fun _ text h => ?_, fun _ h => ?_, .inl ⟨_, handle_changed d hlast⟩⟩)
      · exact hlast ⟨text, (brings_changed_iff.mp h).2⟩
      · cases h
  | closed uri => exact .inr (.inl ⟨uri, rfl, rfl⟩)
  | hover uri place =>
    refine .inr (.inr ⟨fun _ _ h => ?_, fun _ h => ?_, ?_⟩)
    · cases h
    · cases h
    · rw [handle_hover]
      cases d.hover uri place with
      | ok answer => exact .inl ⟨.hover answer, rfl⟩
      | error fault => exact .inr ⟨uri, place, fault, rfl, rfl⟩
  | selections uri places =>
    refine .inr (.inr ⟨fun _ _ h => ?_, fun _ h => ?_, .inl ⟨_, handle_selections d uri places⟩⟩)
    · cases h
    · cases h

theorem published_of_not_brings {o : Outcome} (hno : ∀ uri text, ¬ r.Brings uri text)
    (ho : handle ⟨some d⟩ r = .ok o) : o.published = [] := by
  rcases handle_cases d r with ⟨uri, text, hr, -⟩ | ⟨uri, -, h⟩ | ⟨-, -, h⟩
  · exact absurd hr (hno uri text)
  · rw [h] at ho
    cases ho
    rfl
  · rcases h with ⟨reply, h⟩ | ⟨uri, place, fault, -, h⟩
    · rw [h] at ho
      cases ho
      rfl
    · rw [h] at ho
      cases ho

theorem after_of_handle {s : Session} {o : Outcome} (h : s.handle r = .ok o) :
    s.after r = o.session := by
  rw [after, h]

/-- **What one request does to the store.** -/
theorem exists_after (r : Request) :
    ∃ d', after ⟨some d⟩ r = ⟨some d'⟩ ∧ d'.project = d.project
      ∧ ∀ uri file, d'.get? uri = some file
        ↔ (∃ text, r.Brings uri text ∧ file = d.project.parse uri text)
          ∨ d.get? uri = some file ∧ r ≠ .closed uri ∧ ∀ text, ¬ r.Brings uri text := by
  rcases handle_cases d r with ⟨uri, text, hr, h⟩ | ⟨uri, rfl, h⟩ | ⟨hbrings, hclosed, h⟩
  · refine ⟨d.update uri text, after_of_handle h, rfl, fun other file => ?_⟩
    by_cases hother : other = uri
    · rw [hother, Documents.get?_update_self]
      constructor
      · rintro ⟨⟩
        exact .inl ⟨text, hr, rfl⟩
      · rintro (⟨text', hr', rfl⟩ | ⟨-, -, hno⟩)
        · rw [(hr.unique hr').2]
        · exact absurd hr (hno text)
    · have hno : ∀ text', ¬ r.Brings other text' := fun text' hr' => hother (hr.unique hr').1
      have hclosed : r ≠ .closed other := by
        rintro rfl
        cases hr
      simp [Documents.get?_update_of_ne d text hother, hno, hclosed]
  · refine ⟨d.close uri, after_of_handle h, rfl, fun other file => ?_⟩
    have hno : ∀ text, ¬ Request.Brings other text (.closed uri) := fun text hr => by cases hr
    by_cases hother : other = uri
    · subst hother
      simp [hno]
    · simp [Documents.get?_close_of_ne d hother, hno, Ne.symm hother]
  · refine ⟨d, ?_, rfl, fun other file => ?_⟩
    · rcases h with ⟨reply, h⟩ | ⟨uri, place, fault, -, h⟩
      · exact after_of_handle h
      · rw [after, h]
    · simp [hbrings, hclosed]

/-- **What the store holds after a history**: the parse of the latest text of every document. -/
theorem exists_documents (p : Project) (history : List Request) :
    ∃ d, (start (some p)).afterAll history = ⟨some d⟩ ∧ d.project = p
      ∧ ∀ uri file, d.get? uri = some file
        ↔ ∃ text, Latest uri text history ∧ file = p.parse uri text := by
  induction history using List.reverseRecOn with
  | nil => exact ⟨.empty p, rfl, rfl, fun uri file => by simp [Documents.get?, Documents.empty]⟩
  | append_singleton history r ih =>
    obtain ⟨d, hd, rfl, hfiles⟩ := ih
    obtain ⟨d', hd', hproject, hfiles'⟩ := exists_after d r
    refine ⟨d', by rw [afterAll_concat, hd, hd'], hproject, fun uri file => ?_⟩
    rw [hfiles', hfiles]
    constructor
    · rintro (⟨text, hr, rfl⟩ | ⟨⟨text, hlatest, rfl⟩, hr⟩)
      · exact ⟨text, latest_concat.mpr (.inl hr), rfl⟩
      · exact ⟨text, latest_concat.mpr (.inr ⟨hlatest, hr⟩), rfl⟩
    · rintro ⟨text, hlatest, rfl⟩
      rcases latest_concat.mp hlatest with hr | ⟨hlatest, hr⟩
      · exact .inl ⟨text, hr, rfl⟩
      · exact .inr ⟨⟨text, hlatest, rfl⟩, hr⟩

/-- A session that is ready has the project that was given to it, or else the one of the
root directory that it was told, and no documents. -/
theorem prepare_eq_ok_iff {disk : Disk Id} {readers : Readers} {given : Option Project}
    {name root : Text} {s : Session} :
    Id.run ((start given).prepare disk name root readers) = .ok s
      ↔ ∃ p, s = start (some p) ∧ (given = some p ∨ given = none
        ∧ Id.run (Project.load disk (rootDirectory name root) readers) = .ok p) := by
  cases given with
  | some p =>
    show Except.ok (start (some p)) = Except.ok s ↔ _
    simp [eq_comm]
  | none =>
    show (Id.run (Project.load disk (rootDirectory name root) readers)).map
      (fun p => start (some p)) = .ok s ↔ _
    cases Id.run (Project.load disk (rootDirectory name root) readers) with
    | error e => simp [Except.map]
    | ok p => simp [Except.map, eq_comm]

/-- **The documents of a session**, over every history of requests after it is made ready,
whatever read the settings and the grammar.

For every document, the store has the parse of the latest text, and nothing if there is no
such text. A request that brings a text publishes the diagnostics of that text for its
document, once, and no other request publishes anything; only one that asks what is shown
at a place can be a fault. If two histories leave a document with the same latest text, or both
without one, all answers about that document are the same. -/
theorem documents_of_history {disk : Disk Id} {readers : Readers} {given : Option Project}
    {name root : Text} {s : Session}
    (hs : Id.run ((start given).prepare disk name root readers) = .ok s) :
    ∃ p, (given = some p ∨ given = none
        ∧ Id.run (Project.load disk (rootDirectory name root) readers) = .ok p)
      ∧ (∀ history, ∃ d, (s.afterAll history).documents = some d
        ∧ ∀ uri file, d.get? uri = some file
          ↔ ∃ text, Latest uri text history ∧ file = p.parse uri text)
      ∧ (∀ history r,
        (∀ uri text, r.Brings uri text → ∃ o, (s.afterAll history).handle r = .ok o
          ∧ o.published = [⟨uri, diagnosticsOf (p.parse uri text)⟩])
        ∧ ((∀ uri text, ¬ r.Brings uri text) →
          ∀ o, (s.afterAll history).handle r = .ok o → o.published = [])
        ∧ ((∀ uri place, r ≠ .hover uri place) → ∃ o, (s.afterAll history).handle r = .ok o))
      ∧ ∀ uri history history', (∀ text, Latest uri text history ↔ Latest uri text history') →
        (∀ place, ((s.afterAll history).handle (.hover uri place)).map Outcome.reply
          = ((s.afterAll history').handle (.hover uri place)).map Outcome.reply)
        ∧ ∀ places, ((s.afterAll history).handle (.selections uri places)).map Outcome.reply
          = ((s.afterAll history').handle (.selections uri places)).map Outcome.reply := by
  obtain ⟨p, rfl, hp⟩ := prepare_eq_ok_iff.mp hs
  refine ⟨p, hp, fun history => ?_, fun history r => ?_, fun uri history history' hsame => ?_⟩
  · obtain ⟨d, hd, -, hfiles⟩ := exists_documents p history
    exact ⟨d, by rw [hd], hfiles⟩
  · obtain ⟨d, hd, rfl, -⟩ := exists_documents p history
    rw [hd]
    refine ⟨fun uri text hr => ⟨_, handle_of_brings d hr, rfl⟩, fun hno o ho => ?_, fun hno => ?_⟩
    · exact published_of_not_brings d hno ho
    · rcases handle_cases d r with ⟨uri, text, -, h⟩ | ⟨uri, -, h⟩ | ⟨-, -, h⟩
      · exact ⟨_, h⟩
      · exact ⟨_, h⟩
      · rcases h with ⟨reply, h⟩ | ⟨uri, place, fault, hr, -⟩
        · exact ⟨_, h⟩
        · exact absurd hr (hno uri place)
  · obtain ⟨d, hd, -, hfiles⟩ := exists_documents p history
    obtain ⟨d', hd', -, hfiles'⟩ := exists_documents p history'
    have hget : d.get? uri = d'.get? uri := by
      refine Option.ext fun file => ?_
      rw [hfiles, hfiles']
      exact exists_congr fun text => and_congr_left fun _ => hsame text
    rw [hd, hd']
    refine ⟨fun place => ?_, fun places => ?_⟩
    · rw [handle_hover, handle_hover, Documents.hover_congr hget]
      cases d'.hover uri place <;> rfl
    · rw [handle_selections, handle_selections, Documents.selectionAt_congr hget]
      rfl

end Session

end Editor

namespace Sample

open Editor

/-- Two documents are opened, one of them gets a change that does not count, and the other
one is closed. -/
def edits : List Request :=
  [.opened (utf8 "a") (utf8 " x"), .opened (utf8 "b") (utf8 " x"),
    .changed (utf8 "a") [.whole (utf8 "y"), .part (utf8 "z")], .closed (utf8 "b")]

theorem latest_edits : Latest (utf8 "a") (utf8 " x") edits := by
  refine ⟨[], _, _, rfl, .opened, fun q hq => ?_⟩
  simp only [List.mem_cons, List.not_mem_nil, or_false] at hq
  rcases hq with rfl | rfl | rfl
  · refine ⟨by decide, fun other h => ?_⟩
    exact absurd (Request.Brings.opened.unique h).1 (by decide)
  · refine ⟨by decide, fun other h => ?_⟩
    cases (brings_changed_iff.mp h).2
  · refine ⟨by decide, fun other h => ?_⟩
    cases h

theorem not_latest_edits (text : Text) : ¬ Latest (utf8 "b") text edits := by
  intro h
  rcases latest_concat.mp (show Latest _ _ (edits.dropLast ++ [.closed (utf8 "b")]) from h)
    with h | ⟨-, hclosed, -⟩
  · cases h
  · exact hclosed rfl

end Sample

/-- After the edits the first document is as it was opened and the second one is not there; to
open it again publishes that it has no flaws. -/
theorem Editor.Session.documents_of_history_edits :
    ∃ d, ((start (some Sample.spacedProject)).afterAll Sample.edits).documents = some d
      ∧ d.get? (utf8 "a") = some (Sample.spacedProject.parse (utf8 "a") (utf8 " x"))
      ∧ d.get? (utf8 "b") = none
      ∧ ∃ o, ((start (some Sample.spacedProject)).afterAll Sample.edits).handle
          (.opened (utf8 "b") (utf8 " x")) = .ok o ∧ o.published = [⟨utf8 "b", []⟩] := by
  have hs : Id.run ((start (some Sample.spacedProject)).prepare (FileTree.empty []).disk [] [])
      = .ok (start (some Sample.spacedProject)) := rfl
  obtain ⟨p, hp, hstored, hpublished, -⟩ := documents_of_history hs
  obtain rfl : Sample.spacedProject = p := by simpa using hp
  obtain ⟨d, hd, hfiles⟩ := hstored Sample.edits
  have hopened : Request.Brings (utf8 "b") (utf8 " x") (.opened (utf8 "b") (utf8 " x")) := .opened
  obtain ⟨o, ho, hpublished⟩ := (hpublished Sample.edits _).1 _ _ hopened
  refine ⟨d, hd, (hfiles _ _).mpr ⟨_, Sample.latest_edits, rfl⟩, ?_, o, ho, ?_⟩
  · refine Option.eq_none_iff_forall_ne_some.mpr fun file hfile => ?_
    obtain ⟨text, hlatest, -⟩ := (hfiles _ _).mp hfile
    exact Sample.not_latest_edits text hlatest
  · rw [hpublished, diagnosticsOf, Sample.parsed_spaced]

end Arbor
