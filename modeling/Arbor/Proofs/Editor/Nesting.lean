import Arbor.Proofs.Editor.History
import Mathlib.Data.List.Forall2

/-!
# Selections are nested

Growing a selection must never shrink it on a side, and must never leave it as it is. A
selection is made from the spans of a path by leaving out each range that equals the one
around it, so the second is a matter of construction, and the first comes down to two facts.
A child lies inside its parent, offset by offset (`Node.WellPlaced.inside`), and the order
of offsets is the order of lines and columns (`Text.line_lt_or_column_le`), which are all that
is left of a position in a range. An editor counts both in words of 32 bits, so the text
has to be shorter than that.

`Documents.Selects` says what a selection at a place has to be, and
`Session.selections_nested` that every answer of a session is made of such selections,
whatever its history.
-/

namespace Arbor

namespace Editor

/-! ## Ranges inside ranges -/

/-- Places are ordered by their lines, and on one line by their characters. -/
instance : LE Place where
  le a b := a.line < b.line ∨ a.line = b.line ∧ a.character ≤ b.character

/-- **Whether a range lies inside another**: it starts no earlier and ends no later. -/
def Range.Inside (inner outer : Range) : Prop :=
  outer.start ≤ inner.start ∧ inner.stop ≤ outer.stop

/-- A number that fits into a short word is a word as it is. -/
theorem wrap64_natCast {k : Nat} (h : k ≤ UInt32.size) : wrap64 k = k := by
  rw [wrap64, Int.bmod_def]
  simp only [UInt32.size] at h
  omega

/-- A number from one is counted from zero, as long as a word can hold it. -/
theorem toNat_fromZero {k : Nat} (h : k < UInt32.size) : (fromZero (1 + k)).toNat = k := by
  rw [fromZero, Int.add_comm, Int.add_sub_cancel, wrap64_natCast (Nat.le_of_lt h),
    Int.max_eq_left (Int.natCast_nonneg k), Int.toNat_natCast, UInt32.toNat_ofNat_of_lt' h]

/-- A place counts lines and columns from zero. -/
theorem Place.toNat_ofPosition {t : Text} (ht : t.length < UInt32.size) (o : Nat) :
    1 + ((ofPosition (t.positionAt o)).line.toNat : Int) = (t.positionAt o).line
      ∧ 1 + ((ofPosition (t.positionAt o)).character.toNat : Int) = (t.positionAt o).column := by
  obtain ⟨line, column, hline, hcolumn, ho⟩ := t.exists_line_column o
  rw [ho]
  exact ⟨congrArg _ (congrArg _ (toNat_fromZero (Nat.lt_of_le_of_lt hline ht))),
    congrArg _ (congrArg _ (toNat_fromZero (Nat.lt_of_le_of_lt hcolumn ht)))⟩

/-- **Places are in the order of the offsets.** -/
theorem Place.ofPosition_le {t : Text} (ht : t.length < UInt32.size) {i j : Nat} (hij : i ≤ j) :
    ofPosition (t.positionAt i) ≤ ofPosition (t.positionAt j) := by
  have horder := t.line_lt_or_column_le hij
  obtain ⟨hline, hcolumn⟩ := toNat_ofPosition ht i
  obtain ⟨hline', hcolumn'⟩ := toNat_ofPosition ht j
  show (ofPosition _).line < (ofPosition _).line ∨ (ofPosition _).line = (ofPosition _).line
    ∧ (ofPosition _).character ≤ (ofPosition _).character
  rw [UInt32.lt_iff_toNat_lt, ← UInt32.toNat_inj, UInt32.le_iff_toNat_le]
  omega

/-! ## Growing a selection -/

/-- Whether a range lies inside another and is not the same. -/
def Range.StrictlyInside (inner outer : Range) : Prop := inner.Inside outer ∧ inner ≠ outer

theorem narrow_of_head?_eq {outer : List Range} {s : Span}
    (h : outer.head? = some (.ofSpan s)) : narrow outer s = outer := if_pos h

theorem narrow_of_head?_ne {outer : List Range} {s : Span}
    (h : outer.head? ≠ some (.ofSpan s)) : narrow outer s = .ofSpan s :: outer := if_neg h

/-- Narrowing adds one range at most, and loses none. -/
theorem mem_narrow {outer : List Range} {q : Range} {s : Span} :
    q ∈ narrow outer s ↔ q ∈ outer ∨ q = .ofSpan s := by
  by_cases hsame : outer.head? = some (.ofSpan s)
  · have hmem : Range.ofSpan s ∈ outer := List.mem_of_mem_head? hsame
    rw [narrow_of_head?_eq hsame]
    refine ⟨.inl, ?_⟩
    rintro (h | rfl)
    · exact h
    · exact hmem
  · rw [narrow_of_head?_ne hsame, List.mem_cons, or_comm]

theorem mem_foldl_narrow {outer : List Range} {q : Range} {spans : List Span} :
    q ∈ spans.foldl narrow outer ↔ q ∈ outer ∨ q ∈ spans.map Range.ofSpan := by
  induction spans generalizing outer with
  | nil => simp
  | cons s spans ih => rw [List.foldl_cons, ih, mem_narrow, List.map_cons, List.mem_cons, or_assoc]

/-- **A selection stays strictly nested** as it is narrowed, if each span lies inside the one
before. Its outermost range stays, and its innermost one is that of the last span. -/
theorem foldl_narrow {outer : List Range} {r : Range}
    (hnested : (r :: outer).IsChain Range.StrictlyInside) {spans : List Span}
    (hspans : (r :: spans.map Range.ofSpan).IsChain fun o i => i.Inside o) :
    (spans.foldl narrow (r :: outer)).IsChain Range.StrictlyInside
      ∧ (spans.foldl narrow (r :: outer)).getLast? = (r :: outer).getLast?
      ∧ (spans.foldl narrow (r :: outer)).head? = (r :: spans.map Range.ofSpan).getLast? := by
  induction spans generalizing outer r with
  | nil => exact ⟨hnested, rfl, rfl⟩
  | cons s spans ih =>
    obtain ⟨hinside, hrest⟩ := List.isChain_cons_cons.mp hspans
    rw [List.map_cons, List.getLast?_cons_cons, List.foldl_cons]
    by_cases hsame : Range.ofSpan s = r
    · subst hsame
      rw [narrow_of_head?_eq rfl]
      exact ih hnested hrest
    · have hhead : (r :: outer).head? ≠ some (.ofSpan s) := fun h => hsame (Option.some.inj h).symm
      rw [narrow_of_head?_ne hhead, ← List.getLast?_cons_cons]
      exact ih (.cons_cons ⟨hinside, hsame⟩ hnested) hrest

theorem selection_cons (first : Span) (spans : List Span) :
    selection (first :: spans) = spans.foldl narrow [.ofSpan first] := by
  have hfold : (first :: spans).foldl narrow [] = spans.foldl narrow [.ofSpan first] := rfl
  have hmem : Range.ofSpan first ∈ spans.foldl narrow [.ofSpan first] :=
    mem_foldl_narrow.mpr (.inl List.mem_cons_self)
  rw [selection, hfold]
  cases hranges : spans.foldl narrow [.ofSpan first] with
  | nil =>
    rw [hranges] at hmem
    cases hmem
  | cons => rfl

/-- A selection has the ranges of the path, and no others. -/
theorem mem_selection {first : Span} {spans : List Span} {q : Range} :
    q ∈ selection (first :: spans) ↔ q ∈ (first :: spans).map Range.ofSpan := by
  rw [selection_cons, mem_foldl_narrow, List.mem_singleton, List.map_cons, List.mem_cons]

end Editor

/-! ## Selections in a document -/

namespace Project

variable {p : Project} {name text : Text} {root n : Node} {path : List Node}

/-- A child lies inside its parent, also in lines and columns. -/
theorem inside_of_mem_children (h : (p.parse name text).parsed = .ok root)
    (htext : text.length < UInt32.size) :
    ∀ m ∈ root.preorder, ∀ c ∈ m.children,
      (Editor.Range.ofSpan c.span).Inside (Editor.Range.ofSpan m.span) := by
  intro m hm c hc
  have hlaid := Parser.laid_of_parse h
  rw [← Node.preorderAll_singleton] at hm
  have hplaced := hlaid.wellPlaced Parser.over_input_tokenize m hm
  obtain ⟨i, j, hm'⟩ := hlaid.span_in m hm
  obtain ⟨i', j', hc'⟩ := hlaid.span_in c (Node.mem_preorderAll_of_mem_children hm hc)
  have hinside := hplaced.inside c hc
  rw [hm', hc'] at hinside ⊢
  exact ⟨Editor.Place.ofPosition_le htext (Int.ofNat_le.mp hinside.1),
    Editor.Place.ofPosition_le htext (Int.ofNat_le.mp hinside.2)⟩

end Project

namespace Editor

/-- **The selection along a path in a parsed text**: strictly nested, from the range of the
node at the end of the path to that of the root. -/
theorem selection_of_leadsTo {p : Project} {name text : Text} {root n : Node} {path : List Node}
    (h : (p.parse name text).parsed = .ok root) (htext : text.length < UInt32.size)
    (hpath : root.LeadsTo path n) :
    (selection (path.map Node.span)).IsChain Range.StrictlyInside
      ∧ (selection (path.map Node.span)).getLast? = some (.ofSpan root.span)
      ∧ (selection (path.map Node.span)).head? = some (.ofSpan n.span) := by
  obtain ⟨⟨below, rfl⟩, hlast⟩ := hpath.exists_eq_cons
  have hchain : (((root :: below).map Node.span).map Range.ofSpan).IsChain
      fun o i => i.Inside o := by
    rw [List.map_map, List.isChain_map]
    exact hpath.isChain (p.inside_of_mem_children h htext)
  obtain ⟨hnested, houtermost, hinnermost⟩ := foldl_narrow (.singleton _) hchain
  rw [List.map_cons, selection_cons]
  refine ⟨hnested, houtermost, hinnermost.trans ?_⟩
  rw [← List.map_cons, ← List.map_cons, List.map_map, List.getLast?_map, hlast]
  rfl

/-- What is under a cursor is a path in the tree of the document. -/
theorem Documents.of_spotAt? {d : Documents} {uri : Text} {c : Cursor} {spot : Spot}
    (h : d.spotAt? uri c = some spot) :
    d.get? uri = some spot.file
      ∧ ∃ root n, spot.file.parsed = .ok root ∧ root.LeadsTo spot.path n := by
  obtain ⟨file, hfile, h⟩ := Option.bind_eq_some_iff.mp h
  obtain ⟨path, hpath, h⟩ := Option.bind_eq_some_iff.mp h
  obtain rfl := Option.some.inj h
  obtain ⟨root, hroot, hpath⟩ := Option.bind_eq_some_iff.mp hpath
  obtain ⟨offset, -, hpath⟩ := Option.bind_eq_some_iff.mp hpath
  obtain ⟨inner, -, hpath⟩ := Option.bind_eq_some_iff.mp hpath
  obtain ⟨n, hn⟩ := Node.exists_leadsTo_of_pathTo? hpath
  refine ⟨hfile, root, n, ?_, hn⟩
  -- only a tree that is there has an innermost node
  cases hparsed : file.parsed with
  | error e =>
    rw [SourceFile.root?, hparsed] at hroot
    cases hroot
  | ok tree =>
    rw [SourceFile.root?, hparsed] at hroot
    exact congrArg Except.ok (Option.some.inj hroot)

/-- **What is selected at a place**: ranges that are strictly nested, the innermost one first.
If there is a path under the place, they are those of its nodes, from the one at its end to the
root. Otherwise the place is all there is. -/
structure Documents.Selects (d : Documents) (uri : Text) (place : Place) (ranges : List Range) :
    Prop where
  /-- Each range lies inside the next one, and differs from it. -/
  nested : ranges.IsChain Range.StrictlyInside
  /-- Along a path, the ranges are those of its nodes, and end with the one of the root. -/
  along : ∀ spot, d.spotAt? uri place.toCursor = some spot →
    ∃ root n, spot.file.parsed = .ok root ∧ root.LeadsTo spot.path n
      ∧ (∀ r, r ∈ ranges ↔ ∃ m ∈ spot.path, .ofSpan m.span = r)
      ∧ ranges.head? = some (.ofSpan n.span) ∧ ranges.getLast? = some (.ofSpan root.span)
  /-- Without a path, there is just the place. -/
  alone : d.spotAt? uri place.toCursor = none → ranges = [.empty place]

namespace Documents

variable {d : Documents} {uri : Text} {place : Place}

theorem selects_of_spotAt?_eq_none (h : d.spotAt? uri place.toCursor = none) :
    d.Selects uri place (d.selectionAt uri place) := by
  have hranges : d.selectionAt uri place = [.empty place] := by
    rw [selectionAt, h]
  rw [hranges]
  refine ⟨.singleton _, fun spot hspot => ?_, fun _ => rfl⟩
  cases h.symm.trans hspot

theorem selects_of_spotAt?_eq_some {p : Project} {text : Text} {spot : Spot}
    (h : d.spotAt? uri place.toCursor = some spot) (hfile : spot.file = p.parse uri text)
    (htext : text.length < UInt32.size) : d.Selects uri place (d.selectionAt uri place) := by
  obtain ⟨-, root, n, hroot, hpath⟩ := of_spotAt? h
  have hranges : d.selectionAt uri place = selection (spot.path.map Node.span) := by
    rw [selectionAt, h]
  obtain ⟨hnested, houter, hinner⟩ := selection_of_leadsTo (hfile ▸ hroot) htext hpath
  rw [hranges]
  refine ⟨hnested, fun other hother => ?_, fun hnone => ?_⟩
  · obtain rfl := Option.some.inj (h.symm.trans hother)
    refine ⟨root, n, hroot, hpath, fun r => ?_, hinner, houter⟩
    obtain ⟨⟨below, hbelow⟩, -⟩ := hpath.exists_eq_cons
    rw [hbelow, List.map_cons, mem_selection, ← List.map_cons, List.map_map, List.mem_map]
    rfl
  · cases h.symm.trans hnone

end Documents

/-- **Selections are strictly nested.** A session with a project, whatever its history, answers
every list of places with one selection for each of them, in this order. If the document is
open, its text has to be shorter than what a word can count. -/
theorem Session.selections_nested (p : Project) (history : List Request) (uri : Text)
    (places : List Place)
    (hshort : ∀ text, Latest uri text history → text.length < UInt32.size) :
    ∃ d selections, (start (some p)).afterAll history = ⟨some d⟩
      ∧ handle ⟨some d⟩ (.selections uri places) = .ok ⟨⟨some d⟩, .selections selections, []⟩
      ∧ List.Forall₂ (d.Selects uri) places selections := by
  obtain ⟨d, hd, -, hfiles⟩ := exists_documents p history
  refine ⟨d, _, hd, handle_selections d uri places, ?_⟩
  rw [List.forall₂_map_right_iff, List.forall₂_same]
  intro place _
  cases hspot : d.spotAt? uri place.toCursor with
  | none => exact Documents.selects_of_spotAt?_eq_none hspot
  | some spot =>
    obtain ⟨hfile, -⟩ := Documents.of_spotAt? hspot
    obtain ⟨text, hlatest, hparse⟩ := (hfiles uri spot.file).mp hfile
    exact Documents.selects_of_spotAt?_eq_some hspot hparse (hshort text hlatest)

end Editor

namespace Sample

open Editor Parse

/-- No token starts with the comma of `,x`, so it is an error by itself. -/
theorem finds_comma : Scan.Finds spaced (utf8 ",x") Token.errorKind (utf8 ",") :=
  finds_error_of tokenProductions_spaced (by decide) (by decide)

/-- The tokens of `,x`. -/
def filledTokens : List Token :=
  [token "ERROR" "," 0, token "Word" "x" 1, ⟨Token.endKind, [], .empty ⟨2, 1, 3⟩⟩]

theorem tokenize_filled : tokenize spaced (utf8 ",x") = filledTokens :=
  tokenize_eq_of_cuts not_leftRecursive_spaced
    (.token (by decide) finds_comma (.token (by decide) finds_word .finish))

/-- The comma of `,x`. -/
def filledComma : Node := .token 0 Token.errorKind (utf8 ",") ⟨⟨0, 1, 1⟩, ⟨1, 1, 2⟩⟩

/-- The gap of `,x`, which has the span of its comma. -/
def filledGap : Node :=
  .composite 1 (some (.production (utf8 "gap"))) [filledComma] ⟨⟨0, 1, 1⟩, ⟨1, 1, 2⟩⟩

/-- The tree of `,x`. -/
def filledTree : Node :=
  .composite 3 (some (.production (utf8 "doc")))
    [filledGap, .terminal 2 (some (spaced.tokenRule (utf8 "Word"))) (utf8 "x")
      ⟨⟨1, 1, 2⟩, ⟨2, 1, 3⟩⟩] ⟨⟨0, 1, 1⟩, ⟨2, 1, 3⟩⟩

theorem run_filledTree : ∃ m s, Run (spacedParser.input filledTokens) ∅ 0
    (.production (utf8 "doc")) (.start _) (some m) s ∧ m.next = 2 ∧ m.value = [filledTree] := by
  refine ⟨_, _, Run.node Std.DHashMap.get?_empty Std.TreeSet.not_mem_emptyc (get?_spaced _)
    (assemble_composite (Parser.isCategory_input (get?_spaced _) rfl) _ _ _)
    (.seq (.name terminal?_gap (.node Std.DHashMap.get?_empty ?_ (get?_spaced _)
        (assemble_composite (Parser.isCategory_input (get?_spaced _) rfl) _ _ _)
        (.option (.accept rfl (show 0 < 2 by decide) rfl))))
      (.accept rfl (show 1 < 2 by decide) rfl)), rfl, rfl⟩
  decide

theorem parsed_filled (name : Text) :
    (spacedProject.parse name (utf8 ",x")).parsed = .ok filledTree := by
  obtain ⟨m, s, h, hm, hvalue⟩ := run_filledTree
  exact parsed_of_run tokenize_filled h hm hvalue name

theorem leadsTo_filledComma :
    filledTree.LeadsTo [filledTree, filledGap, filledComma] filledComma :=
  .down List.mem_cons_self (.down List.mem_cons_self .here)

/-- The document `,x` is open. -/
def filledDocuments : Documents := (Documents.empty spacedProject).update (utf8 "a") (utf8 ",x")

theorem get?_filled :
    filledDocuments.get? (utf8 "a") = some (spacedProject.parse (utf8 "a") (utf8 ",x")) :=
  Documents.get?_update_self _ _ _

theorem spotAt?_filled : filledDocuments.spotAt? (utf8 "a") (Place.toCursor ⟨0, 0⟩)
    = some ⟨spacedProject.parse (utf8 "a") (utf8 ",x"), [filledTree, filledGap, filledComma]⟩ :=
  Documents.spotAt?_eq_some get?_filled
    (Project.pathAt?_of_leaf (o := 0) (parsed_filled _) rfl leadsTo_filledComma
      (by decide) (by decide))

/-- There are no six lines. -/
theorem spotAt?_behind_filled :
    filledDocuments.spotAt? (utf8 "a") (Place.toCursor ⟨5, 5⟩) = none := by
  have hoffset : (Place.toCursor ⟨5, 5⟩).offset? (utf8 ",x") = none := by decide
  have hpath : (spacedProject.parse (utf8 "a") (utf8 ",x")).pathAt? (Place.toCursor ⟨5, 5⟩)
      = none := by
    simp [SourceFile.pathAt?, Project.parse, hoffset]
  simp [Documents.spotAt?, get?_filled, hpath]

/-- What is opened is the latest text. -/
theorem eq_of_latest_opened {uri text other : Text} (h : Latest uri other [.opened uri text]) :
    other = text := by
  rcases latest_concat.mp (show Latest uri other ([] ++ [.opened uri text]) from h)
    with hbrings | ⟨hnil, -⟩
  · exact (Request.Brings.opened.unique hbrings).2
  · exact absurd hnil not_latest_nil

end Sample

/-- From the comma of `,x` a selection grows to the whole text. The gap between them has the
range of the comma, and does not count. Behind the text there is just the place. -/
theorem Editor.Session.selections_nested_filled :
    ∃ d grown, (start (some Sample.spacedProject)).afterAll [.opened (utf8 "a") (utf8 ",x")]
        = ⟨some d⟩
      ∧ handle ⟨some d⟩ (.selections (utf8 "a") [⟨0, 0⟩, ⟨5, 5⟩])
        = .ok ⟨⟨some d⟩, .selections [grown, [.empty ⟨5, 5⟩]], []⟩
      ∧ grown.IsChain Range.StrictlyInside
      ∧ grown.head? = some ⟨⟨0, 0⟩, ⟨0, 1⟩⟩ ∧ grown.getLast? = some ⟨⟨0, 0⟩, ⟨0, 2⟩⟩ := by
  have hshort : ∀ text, Latest (utf8 "a") text [.opened (utf8 "a") (utf8 ",x")] →
      text.length < UInt32.size := by
    intro text hlatest
    rw [Sample.eq_of_latest_opened hlatest]
    decide
  obtain ⟨d, selections, hd, hanswer, hall⟩ :=
    selections_nested Sample.spacedProject _ (utf8 "a") [⟨0, 0⟩, ⟨5, 5⟩] hshort
  have hopened : (start (some Sample.spacedProject)).afterAll [.opened (utf8 "a") (utf8 ",x")]
      = ⟨some Sample.filledDocuments⟩ := rfl
  obtain rfl : Sample.filledDocuments = d := by simpa using hopened.symm.trans hd
  obtain ⟨grown, _, hgrown, hrest, rfl⟩ := List.forall₂_cons_left_iff.mp hall
  obtain ⟨alone, _, halone, hnil, rfl⟩ := List.forall₂_cons_left_iff.mp hrest
  obtain rfl := List.forall₂_nil_left_iff.mp hnil
  obtain ⟨root, n, hroot, hpath, -, hhead, hlast⟩ := hgrown.along _ Sample.spotAt?_filled
  obtain rfl : Sample.filledTree = root := by
    simpa using (Sample.parsed_filled _).symm.trans hroot
  obtain ⟨-, hn⟩ := hpath.exists_eq_cons
  obtain rfl : Sample.filledComma = n := Option.some.inj hn
  rw [halone.alone Sample.spotAt?_behind_filled] at hanswer
  refine ⟨_, grown, hd, hanswer, hgrown.nested, hhead.trans ?_, hlast.trans ?_⟩
  · decide
  · decide

end Arbor
