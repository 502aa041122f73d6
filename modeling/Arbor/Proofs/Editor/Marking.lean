import Arbor.Proofs.Editor.Nesting
import Arbor.Proofs.Parser.Blame

/-!
# What a diagnostic marks

A text that does not parse gets one diagnostic, at the token where the parse is stuck or at
the end of the text. The end of the text gets an empty range (`rangeOfError_of_stop`). A token
has a span, but the diagnostic does not take its range from there: it starts where the token
does and is as wide as the token has bytes (`Range.Underlines`). The range of a span does so
just if no newline is in what it covers (`Range.underlines_ofSpan_iff`). So a token that stands
on one line is marked as it stands, and any other is marked by a range that ends on its first
line (`rangeOfError_of_token`).
-/

namespace Arbor

namespace Editor

/-- **Whether a range underlines a text**: it starts at the place, and ends on the same line
after as many characters as the text has bytes. -/
def Range.Underlines (r : Range) (start : Place) (u : Text) : Prop :=
  r.start = start ∧ r.stop.line = start.line
    ∧ r.stop.character.toNat = start.character.toNat + u.length

/-! ## Underlining -/

/-- One range at most underlines a text. -/
theorem Range.Underlines.unique {r r' : Range} {start : Place} {u : Text}
    (h : r.Underlines start u) (h' : r'.Underlines start u) : r = r' := by
  obtain ⟨hstart, hline, hcharacter⟩ := h
  obtain ⟨hstart', hline', hcharacter'⟩ := h'
  rcases r with ⟨first, line, character⟩
  rcases r' with ⟨first', line', character'⟩
  obtain rfl : first = first' := hstart.trans hstart'.symm
  obtain rfl : line = line' := hline.trans hline'.symm
  obtain rfl : character = character' := UInt32.toNat_inj.mp (hcharacter.trans hcharacter'.symm)
  rfl

section

variable {t u : Text} {i j : Nat}

/-- **The range of a span underlines what it covers just if that has no newline.** -/
theorem Range.underlines_ofSpan_iff (ht : t.length < UInt32.size) (hij : i ≤ j)
    (hj : j ≤ t.length) (hu : u = (t.drop i).take (j - i)) :
    (Range.ofSpan ⟨t.positionAt i, t.positionAt j⟩).Underlines (.ofPosition (t.positionAt i)) u
      ↔ Text.newline ∉ u := by
  have hafter := t.after_positionAt hij hj
  rw [← hu] at hafter
  obtain ⟨hline, hcolumn⟩ := Place.toNat_ofPosition ht i
  obtain ⟨hline', hcolumn'⟩ := Place.toNat_ofPosition ht j
  constructor
  · rintro ⟨-, hsame, -⟩ hmem
    -- a newline takes the stop to a later line, which a place does not lose
    have hlater := (t.positionAt i).line_after u
    have hcount := List.count_pos_iff.mpr hmem
    change (Place.ofPosition (t.positionAt j)).line = _ at hsame
    rw [hafter, ← hline', ← hline, hsame] at hlater
    omega
  · intro hno
    have hflat := (t.positionAt i).after_of_not_mem hno
    rw [hafter] at hflat
    have hlines : (t.positionAt j).line = (t.positionAt i).line := by rw [hflat]
    have hcolumns : (t.positionAt j).column = (t.positionAt i).column + u.length := by rw [hflat]
    refine ⟨rfl, congrArg fromZero hlines, ?_⟩
    show (Place.ofPosition (t.positionAt j)).character.toNat = _
    omega

/-- The range of an error underlines what the error names. -/
theorem underlines_rangeOfError (ht : t.length < UInt32.size) {e : SyntaxError}
    (hposition : e.position = t.positionAt i) (hgot : i + e.got.length ≤ t.length) :
    (rangeOfError e).Underlines (.ofPosition e.position) e.got := by
  refine ⟨rfl, rfl, ?_⟩
  show (fromZero (wrap64 (e.position.column + e.got.length))).toNat
    = (Place.ofPosition e.position).character.toNat + e.got.length
  have hbound := t.column_le i
  obtain ⟨-, hcolumn⟩ := Place.toNat_ofPosition ht i
  rw [← hposition] at hbound hcolumn
  generalize (Place.ofPosition e.position).character.toNat = column at hcolumn ⊢
  have hshort : column + e.got.length < UInt32.size := by omega
  -- the sum of column and length does not wrap around
  have hsum : e.position.column + e.got.length = ((1 + (column + e.got.length) : Nat) : Int) := by
    omega
  rw [hsum, wrap64_natCast (by omega), Int.natCast_add]
  exact toNat_fromZero hshort

/-- At the end of a text, where it names nothing, the range is empty. -/
theorem rangeOfError_of_stop (ht : t.length < UInt32.size) {e : SyntaxError}
    (hposition : e.position = t.positionAt t.length) (hgot : e.got = []) :
    rangeOfError e = .empty (.ofPosition e.position) := by
  have hunder := underlines_rangeOfError ht hposition (by simp [hgot])
  rw [hgot] at hunder
  exact hunder.unique ⟨rfl, rfl, rfl⟩

end

end Editor

/-! ## The token where a parse is stuck -/

/-- The parser of a project. -/
def Project.parser (p : Project) : Parser := ⟨p.grammar, p.settings.skip⟩

/-- An error before the end names a token of the text. -/
theorem Parser.exists_token_of_failsAt {p : Parser} {t start : Text} {k : Nat} {e : SyntaxError}
    (h : p.FailsAt (tokenize p.grammar t) start k e) (hend : e.atEnd = false) :
    ∃ c, ((tokenize p.grammar t).filter p.keeps)[k]? = some c ∧ e.position = c.span.start
      ∧ e.got = c.literal := by
  have hat := isAt_of_failsAt h
  unfold SyntaxError.IsAt at hat
  split at hat
  · next c hc => exact ⟨c, hc, hat.2⟩
  · rw [hat.1] at hend
    cases hend

namespace Editor

/-- The range of an error underlines the token that the error names. It is that of the token
just if no newline is in it. -/
theorem rangeOfError_of_token {p : Parser} {t : Text} (ht : t.length < UInt32.size) {k : Nat}
    {c : Token} (hc : ((tokenize p.grammar t).filter p.keeps)[k]? = some c) {e : SyntaxError}
    (hposition : e.position = c.span.start) (hgot : e.got = c.literal) :
    (rangeOfError e).Underlines (.ofPosition c.span.start) c.literal
      ∧ (rangeOfError e = .ofSpan c.span ↔ Text.newline ∉ c.literal) := by
  obtain ⟨i, j, hij, hj, hspan, hliteral⟩ :=
    Parser.exists_offsets_of_kept ((p.getElem?_input _ k).trans hc)
  have hlength : c.literal.length = j - i := by
    rw [hliteral, List.length_take, List.length_drop]
    omega
  have hunder : (rangeOfError e).Underlines (.ofPosition c.span.start) c.literal := by
    rw [← hposition, ← hgot]
    refine underlines_rangeOfError ht (hposition.trans (by rw [hspan])) ?_
    rw [hgot]
    omega
  have hflat := Range.underlines_ofSpan_iff ht hij hj hliteral
  rw [hspan] at hunder ⊢
  refine ⟨hunder, ?_⟩
  rw [← hflat]
  constructor
  · intro heq
    exact heq ▸ hunder
  · exact hunder.unique

namespace Session

/-- A text that does not parse gets one diagnostic. -/
theorem handle_of_mismatch (d : Documents) {r : Request} {uri text : Text} {e : SyntaxError}
    (hr : r.Brings uri text) (he : (d.project.parse uri text).parsed = .error (.mismatch e)) :
    handle ⟨some d⟩ r = .ok ⟨⟨some (d.update uri text)⟩, .nothing,
      [⟨uri, [⟨rangeOfError e, (ParseError.mismatch e).message⟩]⟩]⟩ := by
  rw [handle_of_brings d hr, diagnosticsOf, he]
  rfl

/-- **A text that does not parse gets one diagnostic, at the token where the parse is stuck.**
At the end of the text its range is empty. Otherwise it underlines the token, and is the range
of the token's span just if the token has no newline. -/
theorem published_of_mismatch (d : Documents) {r : Request} {uri text : Text} {e : SyntaxError}
    (hr : r.Brings uri text) (ht : text.length < UInt32.size)
    (he : (d.project.parse uri text).parsed = .error (.mismatch e)) :
    ∃ diagnostic : Diagnostic,
      handle ⟨some d⟩ r
        = .ok ⟨⟨some (d.update uri text)⟩, .nothing, [⟨uri, [diagnostic]⟩]⟩
      ∧ diagnostic.message = (ParseError.mismatch e).message
      ∧ (e.atEnd = true → e.position = text.positionAt text.length
        ∧ diagnostic.range = .empty (.ofPosition e.position))
      ∧ (e.atEnd = false → ∃ k c,
        d.project.parser.FailsAt (tokenize d.project.grammar text) d.project.settings.start k e
        ∧ ((tokenize d.project.grammar text).filter d.project.parser.keeps)[k]? = some c
        ∧ diagnostic.range.Underlines (.ofPosition c.span.start) c.literal
        ∧ (diagnostic.range = .ofSpan c.span ↔ Text.newline ∉ c.literal)) := by
  have hparse : d.project.parser.parse (tokenize d.project.grammar text) d.project.settings.start
      = .error (.mismatch e) := he
  refine ⟨_, handle_of_mismatch d hr he, rfl, fun hend => ?_, fun hend => ?_⟩
  · obtain ⟨hposition, hgot⟩ := Parser.position_of_atEnd hparse hend
    have hstop := hposition.trans (Parser.stop_input_tokenize (p := d.project.parser))
    exact ⟨hstop, rangeOfError_of_stop ht hstop hgot⟩
  · obtain ⟨k, hk⟩ := Parser.exists_failsAt hparse
    obtain ⟨c, hc, hposition, hgot⟩ := Parser.exists_token_of_failsAt hk hend
    exact ⟨k, c, hk, hc, rangeOfError_of_token ht hc hposition hgot⟩

end Session

end Editor

namespace Sample

open Editor Parse

/-- The tokens of a newline. -/
def brokenTokens : List Token :=
  [⟨Token.errorKind, utf8 "\n", ⟨⟨0, 1, 1⟩, ⟨1, 2, 1⟩⟩⟩, ⟨Token.endKind, [], .empty ⟨1, 2, 1⟩⟩]

theorem tokenize_broken : tokenize spaced (utf8 "\n") = brokenTokens :=
  tokenize_eq_of_cuts not_leftRecursive_spaced
    (.token (by decide) (finds_error_of tokenProductions_spaced (by decide) (by decide)) .finish)

/-- Neither a comma nor a word is a newline. -/
theorem run_broken : ∃ s, Run (spacedParser.input brokenTokens) ∅ 0
    (.production (utf8 "doc")) (.start _) none s ∧ s.furthest = 0 := by
  refine ⟨_, Run.fail Std.DHashMap.get?_empty Std.TreeSet.not_mem_emptyc (get?_spaced _)
    (.seq (.name terminal?_gap (.node Std.DHashMap.get?_empty ?_ (get?_spaced _)
        (assemble_composite (Parser.isCategory_input (get?_spaced _) rfl) _ _ _)
        (.option (.reject rfl ?_))))
      (.reject rfl ?_)), rfl⟩
  · decide
  · rintro t ⟨⟩
    exact (by decide : ¬ utf8 "\n" = utf8 ",")
  · rintro t ⟨⟩
    exact (by decide : ¬ (Token.errorKind = utf8 "Word" ∨ utf8 "\n" = utf8 "Word"))

/-- The one token of a newline. -/
theorem getElem?_broken : ((tokenize spaced (utf8 "\n")).filter spacedParser.keeps)[0]?
    = some ⟨Token.errorKind, utf8 "\n", ⟨⟨0, 1, 1⟩, ⟨1, 2, 1⟩⟩⟩ := by
  rw [tokenize_broken]
  rfl

theorem exists_failsAt_broken :
    ∃ e, spacedParser.FailsAt (tokenize spaced (utf8 "\n")) (utf8 "doc") 0 e
      ∧ e.atEnd = false ∧ e.position = ⟨0, 1, 1⟩ ∧ e.got = utf8 "\n" := by
  obtain ⟨s, h, hs⟩ := run_broken
  obtain ⟨e, he⟩ := Parser.failsAt_of_run (by decide) has_doc h (fun m hm => by cases hm)
  rw [reach_none, show s.frontier.place = s.furthest from rfl, hs, ← tokenize_broken] at he
  have hat := Parser.isAt_of_failsAt he
  rw [SyntaxError.IsAt, getElem?_broken] at hat
  exact ⟨e, he, hat⟩

end Sample

/-- The diagnostic of a newline that is not expected is one character wide. -/
theorem Editor.Session.published_of_mismatch_newline :
    ∃ e diagnostic, (Sample.spacedProject.parse (utf8 "a") (utf8 "\n")).parsed
        = .error (.mismatch e)
      ∧ handle ⟨some (.empty Sample.spacedProject)⟩ (.opened (utf8 "a") (utf8 "\n"))
        = .ok ⟨⟨some (.update (.empty Sample.spacedProject) (utf8 "a") (utf8 "\n"))⟩, .nothing,
          [⟨utf8 "a", [diagnostic]⟩]⟩
      ∧ diagnostic.range.Underlines ⟨0, 0⟩ (utf8 "\n") := by
  obtain ⟨e, he, hend, -⟩ := Sample.exists_failsAt_broken
  have hopened : Request.Brings (utf8 "a") (utf8 "\n") (.opened (utf8 "a") (utf8 "\n")) := .opened
  obtain ⟨diagnostic, hhandle, -, -, htoken⟩ :=
    published_of_mismatch (.empty Sample.spacedProject) hopened (by decide) he.1
  obtain ⟨k, c, hk, hc, hunder, -⟩ := htoken hend
  obtain rfl : 0 = k := Option.some.inj (he.2.symm.trans hk.2)
  obtain rfl := Option.some.inj (Sample.getElem?_broken.symm.trans hc)
  exact ⟨e, diagnostic, he.1, hhandle, hunder⟩

/-- **A diagnostic need not have the range of its token.** A newline that is not expected goes
from one line to the next, and its diagnostic ends one character into the first. -/
theorem Editor.Session.exists_published_ne_span :
    ∃ e c diagnostic, Sample.spacedProject.parser.FailsAt (tokenize Sample.spaced (utf8 "\n"))
        (utf8 "doc") 0 e
      ∧ ((tokenize Sample.spaced (utf8 "\n")).filter Sample.spacedProject.parser.keeps)[0]? = some c
      ∧ handle ⟨some (.empty Sample.spacedProject)⟩ (.opened (utf8 "a") (utf8 "\n"))
        = .ok ⟨⟨some (.update (.empty Sample.spacedProject) (utf8 "a") (utf8 "\n"))⟩, .nothing,
          [⟨utf8 "a", [diagnostic]⟩]⟩
      ∧ diagnostic.range = ⟨⟨0, 0⟩, ⟨0, 1⟩⟩ ∧ Range.ofSpan c.span = ⟨⟨0, 0⟩, ⟨1, 0⟩⟩ := by
  obtain ⟨e, he, -, hposition, hgot⟩ := Sample.exists_failsAt_broken
  obtain ⟨hunder, -⟩ := rangeOfError_of_token (p := Sample.spacedParser) (by decide)
    Sample.getElem?_broken hposition hgot
  exact ⟨e, _, _, he, Sample.getElem?_broken, handle_of_mismatch _ .opened he.1,
    hunder.unique ⟨rfl, rfl, rfl⟩, by decide⟩

end Arbor
