import Arbor.Proofs.Parser.Evaluation
import Arbor.Proofs.Token.Lossless

/-!
# Character ranges

A range is matched twice: by the tokenizer, against the bytes of the text, and by the parser,
against the bytes of a token. Both are meant to accept one character between the two bounds,
which is the language of the range (`Matches`). They read the bytes in different ways, and part
at the replacement character, for which every byte that is none stands:

* the tokenizer takes neither a stray byte nor the replacement character itself
  (`Munch.takesRange_iff`);
* the parser takes both, where the replacement character lies between the bounds
  (`Parse.acceptsRange_iff`).

So they agree on everything else (`Parse.acceptsRange_iff_takesRange`), and wherever the
replacement character is not in the range.
-/

namespace Arbor

open String (utf8EncodeChar)

/-- Whether a text is read as the replacement character: it is that character, or a single byte
that is no character. -/
def Text.IsReplacement (t : Text) : Prop :=
  t = utf8EncodeChar Piece.replacement ∨ ∃ b : UInt8, 0x80 ≤ b ∧ t = [b]

/-- A single byte beyond ASCII is no character. -/
theorem Text.stray_ne_utf8EncodeChar {b : UInt8} (hb : 0x80 ≤ b) (c : Char) :
    [b] ≠ utf8EncodeChar c := by
  intro h
  have hpieces := pieces_stray hb
  rw [h, pieces_utf8EncodeChar] at hpieces
  cases hpieces

/-- A range has in its language the characters between its bounds. -/
theorem matches_range_iff {g : Grammar} {lo hi t : Text} :
    Matches g (.range lo hi) t
      ↔ ∃ c, t = utf8EncodeChar c ∧ lo.firstChar ≤ c ∧ c ≤ hi.firstChar := by
  constructor
  · rintro (_ | _ | ⟨hlo, hhi⟩)
    exact ⟨_, rfl, hlo, hhi⟩
  · rintro ⟨c, rfl, hlo, hhi⟩
    exact .range hlo hhi

/-! ## The tokenizer -/

namespace Munch

/-- A range takes the whole of a text that is a character between its bounds, but not the
replacement character. -/
theorem rangeLength_eq_length_iff {lo hi t : Text} (ht : t ≠ []) :
    rangeLength lo hi t = t.length ↔ ∃ c, t = utf8EncodeChar c ∧ c ≠ Piece.replacement
      ∧ lo.firstChar ≤ c ∧ c ≤ hi.firstChar := by
  obtain ⟨b, rest, rfl⟩ := List.exists_cons_of_ne_nil ht
  unfold rangeLength Text.firstPiece?
  dsimp only
  constructor
  · intro h
    split at h
    · cases h
    · next hc =>
      simp only [not_or, Char.not_lt] at hc
      -- all bytes belong to the first piece
      have hbytes := Piece.bytes_split b rest
      rw [Nat.succ.inj h, List.take_length] at hbytes
      cases hs : (Piece.split b rest).1 with
      | char c =>
        rw [hs] at hc hbytes
        exact ⟨c, hbytes.symm, hc⟩
      | stray b' =>
        rw [hs] at hc
        exact absurd rfl hc.1
  · rintro ⟨c, hc, hne, hlo, hhi⟩
    have hsplit := Piece.split_append hc.symm []
    rw [List.append_nil] at hsplit
    rw [hsplit]
    refine (if_neg ?_).trans List.length_cons.symm
    simp only [Piece.toChar, not_or, Char.not_lt]
    exact ⟨hne, hlo, hhi⟩

/-- Whether a range, matched at the start of a text, takes the whole of it. -/
def TakesRange (g : Grammar) (opened : Grammar.Opened) (lo hi t : Text) (cache : PlaceCache t) :
    Prop :=
  (expr g opened (.start t) (.range lo hi) cache).1.val = .finish t

variable {g : Grammar} {opened : Grammar.Opened} {lo hi t : Text} {cache : PlaceCache t}

theorem takesRange_iff_rangeLength :
    TakesRange g opened lo hi t cache ↔ rangeLength lo hi t = t.length := by
  have hle := rangeLength_le lo hi t
  have hleft : (expr g opened (.start t) (.range lo hi) cache).1.val.left
      = t.length - rangeLength lo hi t := by
    rw [expr]
    rfl
  constructor
  · intro h
    rw [TakesRange] at h
    rw [h] at hleft
    replace hleft : 0 = t.length - rangeLength lo hi t := hleft
    omega
  · intro h
    refine Rest.ext_left ?_
    rw [hleft, h]
    exact Nat.sub_self _

/-- **The tokenizer takes the language of a range, without the replacement character.** -/
theorem takesRange_iff (ht : t ≠ []) :
    TakesRange g opened lo hi t cache
      ↔ Matches g (.range lo hi) t ∧ t ≠ utf8EncodeChar Piece.replacement := by
  rw [takesRange_iff_rangeLength, rangeLength_eq_length_iff ht, matches_range_iff]
  constructor
  · rintro ⟨c, rfl, hne, hlo, hhi⟩
    exact ⟨⟨c, rfl, hlo, hhi⟩, fun heq => hne (Text.utf8EncodeChar_inj heq)⟩
  · rintro ⟨⟨c, rfl, hlo, hhi⟩, hne⟩
    exact ⟨c, rfl, fun heq => hne (heq ▸ rfl), hlo, hhi⟩

end Munch

/-! ## The parser -/

namespace Parse

variable {i : ParseInput} {pos : Nat} {a : Token}

/-- Whether a range matches the token at a place. -/
def AcceptsRange (i : ParseInput) (opened : Grammar.Opened) (pos : Nat) (lo hi : Text)
    (s : State i.size) : Prop :=
  (expr i opened pos (.range lo hi) s).1.isSome = true

/-- A terminal matches a token that it accepts, and no other. -/
theorem isSome_leaf_iff {accept : Token → Option (Nat → Node)} {x : Expectation}
    {s : State i.size} (ha : i.tokens[pos]? = some a) :
    (leaf i pos accept x s).1.isSome = true ↔ (accept a).isSome = true := by
  obtain ⟨h, rfl⟩ := Array.getElem?_eq_some_iff.mp ha
  rw [leaf, dif_pos h]
  cases accept i.tokens[pos] <;> rfl

theorem acceptsRange_iff_accepts {opened : Grammar.Opened} {lo hi : Text} {s : State i.size}
    (ha : i.tokens[pos]? = some a) :
    AcceptsRange i opened pos lo hi s ↔ (Expectation.range lo hi).Accepts a := by
  rw [AcceptsRange, expr, isSome_leaf_iff ha]
  exact Expectation.isSome_build i.grammar (.range lo hi) a

/-- **The parser takes the language of a range, and a stray byte as the replacement
character.** -/
theorem acceptsRange_iff {opened : Grammar.Opened} {lo hi : Text} {s : State i.size}
    (ha : i.tokens[pos]? = some a) (g : Grammar) :
    AcceptsRange i opened pos lo hi s ↔ Matches g (.range lo hi) a.literal
      ∨ (lo.firstChar ≤ Piece.replacement ∧ Piece.replacement ≤ hi.firstChar)
        ∧ ∃ b : UInt8, 0x80 ≤ b ∧ a.literal = [b] := by
  rw [acceptsRange_iff_accepts ha, matches_range_iff]
  constructor
  · rintro ⟨r, hr, hlo, hhi⟩
    obtain ⟨hbytes, hstray⟩ := Text.pieces_eq_singleton_iff.mp hr
    cases r with
    | char c => exact .inl ⟨c, hbytes, hlo, hhi⟩
    | stray b => exact .inr ⟨⟨hlo, hhi⟩, b, hstray b rfl, hbytes⟩
  · rintro (⟨c, hc, hlo, hhi⟩ | ⟨⟨hlo, hhi⟩, b, hb, hbytes⟩)
    · exact ⟨.char c, by rw [hc, Text.pieces_utf8EncodeChar], hlo, hhi⟩
    · exact ⟨.stray b, by rw [hbytes, Text.pieces_stray hb], hlo, hhi⟩

/-- **Tokenizer and parser agree on a range but for the replacement character.** A text that is
not empty is taken by the tokenizer just if it is a character between the bounds and not the
replacement character; as a token it is accepted by the parser just if it is such a character,
or a stray byte where the replacement character lies between the bounds. So the two disagree
just if that character does, and the text is it or is a stray byte. -/
theorem acceptsRange_iff_takesRange (ha : i.tokens[pos]? = some a) (hne : a.literal ≠ [])
    (lo hi : Text) (opened : Grammar.Opened) (s : State i.size) (g : Grammar)
    (opened' : Grammar.Opened) (cache : PlaceCache a.literal) :
    (Munch.TakesRange g opened' lo hi a.literal cache
        ↔ Matches g (.range lo hi) a.literal ∧ a.literal ≠ utf8EncodeChar Piece.replacement)
      ∧ (AcceptsRange i opened pos lo hi s ↔ Matches g (.range lo hi) a.literal
        ∨ (lo.firstChar ≤ Piece.replacement ∧ Piece.replacement ≤ hi.firstChar)
          ∧ ∃ b : UInt8, 0x80 ≤ b ∧ a.literal = [b])
      ∧ ((AcceptsRange i opened pos lo hi s ↔ Munch.TakesRange g opened' lo hi a.literal cache)
        ↔ ¬ ((lo.firstChar ≤ Piece.replacement ∧ Piece.replacement ≤ hi.firstChar)
          ∧ a.literal.IsReplacement)) := by
  have htakes : Munch.TakesRange g opened' lo hi a.literal cache
      ↔ Matches g (.range lo hi) a.literal ∧ a.literal ≠ utf8EncodeChar Piece.replacement :=
    Munch.takesRange_iff hne
  have haccepts : AcceptsRange i opened pos lo hi s ↔ Matches g (.range lo hi) a.literal
      ∨ (lo.firstChar ≤ Piece.replacement ∧ Piece.replacement ≤ hi.firstChar)
        ∧ ∃ b : UInt8, 0x80 ≤ b ∧ a.literal = [b] := acceptsRange_iff ha g
  refine ⟨htakes, haccepts, ?_⟩
  rw [htakes, haccepts]
  constructor
  · rintro hagree ⟨hbounds, hreplacement | ⟨b, hb, hbytes⟩⟩
    · have hin := (matches_range_iff (g := g)).mpr ⟨_, hreplacement, hbounds⟩
      exact (hagree.mp (.inl hin)).2 hreplacement
    · -- a stray byte is not in the language of the range
      obtain ⟨c, hc, -⟩ := matches_range_iff.mp (hagree.mp (.inr ⟨hbounds, b, hb, hbytes⟩)).1
      exact Text.stray_ne_utf8EncodeChar hb c (hbytes.symm.trans hc)
  · intro hno
    refine ⟨fun h => ?_, fun h => .inl h.1⟩
    rcases h with hin | ⟨hbounds, hstray⟩
    · refine ⟨hin, fun heq => ?_⟩
      obtain ⟨c, hc, hbounds⟩ := matches_range_iff.mp hin
      obtain rfl := Text.utf8EncodeChar_inj (hc.symm.trans heq)
      exact hno ⟨hbounds, .inl heq⟩
    · exact absurd ⟨hbounds, .inr hstray⟩ hno

end Parse

/-! ## A sample

A byte that begins no character, where the range goes beyond the replacement character. -/

namespace Sample

open Parse

/-- The production `doc = "a" … "😀" .` -/
def symbol : Production := ⟨utf8 "doc", mark, .range (utf8 "a") (utf8 "😀")⟩

def symbols : Grammar := .ofProductions [symbol]

def symbolParser : Parser := ⟨symbols, []⟩

/-- The byte that no character has. -/
def strayByte : Text := [0xFF]

def strayToken : Token := ⟨Token.errorKind, strayByte, ⟨⟨0, 1, 1⟩, ⟨1, 1, 2⟩⟩⟩

theorem get?_symbols (n : Text) : symbols.get? n = [symbol].find? (·.name = n) :=
  Grammar.get?_ofProductions _ n

theorem tokenProductions_symbols : symbols.tokenProductions = [] :=
  Grammar.tokenProductions_ofProductions _

/-- Nothing refers to anything. -/
theorem not_leftRecursive_symbols : ¬ Scan.LeftRecursive symbols := by
  refine Scan.not_leftRecursive_of_rank (fun _ => 0) fun a b h => ?_
  obtain ⟨p, hp, hb⟩ := h
  obtain rfl := List.mem_singleton.mp (Grammar.mem_of_get?_ofProductions hp).1
  cases hb

def strayTokens : List Token := [strayToken, ⟨Token.endKind, [], .empty ⟨1, 1, 2⟩⟩]

theorem tokenize_strayByte : tokenize symbols strayByte = strayTokens := by
  refine tokenize_eq_of_cuts not_leftRecursive_symbols
    (.token (by decide) (Scan.finds_error fun q hq => ?_) .finish)
  rw [tokenProductions_symbols] at hq
  exact absurd hq List.not_mem_nil

/-- The replacement character lies between the bounds. -/
theorem replacement_mem_symbol :
    (utf8 "a").firstChar ≤ Piece.replacement ∧ Piece.replacement ≤ (utf8 "😀").firstChar := by
  decide

theorem accepts_strayByte : (Expectation.range (utf8 "a") (utf8 "😀")).Accepts strayToken :=
  ⟨.stray 0xFF, Text.pieces_stray (by decide), replacement_mem_symbol⟩

theorem run_strayByte : ∃ m s, Run (symbolParser.input strayTokens) ∅ 0
    (.production (utf8 "doc")) (.start _) (some m) s ∧ m.next = 1 := by
  obtain ⟨build, hbuild⟩ := Option.isSome_iff_exists.mp
    ((Expectation.isSome_build (symbolParser.input strayTokens).grammar _ strayToken).mpr
      accepts_strayByte)
  exact ⟨_, _, Run.node Std.DHashMap.get?_empty Std.TreeSet.not_mem_emptyc (get?_symbols _)
    (assemble_composite (Parser.isCategory_input (get?_symbols _) rfl) _ _ _)
    (.accept rfl (show 0 < 1 by decide) hbuild), rfl⟩

/-- A stray byte is a document. -/
theorem exists_parse_strayByte :
    ∃ root, symbolParser.parseText strayByte (utf8 "doc") = .ok root := by
  obtain ⟨m, s, h, hm⟩ := run_strayByte
  obtain ⟨root, hroot, -⟩ :=
    Parser.exists_parse_of_run (by decide) (Grammar.has_of_get? (get?_symbols _)) h hm
  rw [Parser.parseText, show symbolParser.grammar = symbols from rfl, tokenize_strayByte]
  exact ⟨root, hroot⟩

end Sample

/-- The parser accepts a stray byte that the tokenizer does not take. -/
theorem Parse.acceptsRange_iff_takesRange_stray :
    Sample.strayByte.IsReplacement
      ∧ ¬ (AcceptsRange (Sample.symbolParser.input Sample.strayTokens) ∅ 0 (utf8 "a") (utf8 "😀")
          (.start _)
        ↔ Munch.TakesRange Sample.symbols ∅ (utf8 "a") (utf8 "😀") Sample.strayByte ∅) := by
  have hstray : Sample.strayByte.IsReplacement := .inr ⟨0xFF, by decide, rfl⟩
  have htoken : (Sample.symbolParser.input Sample.strayTokens).tokens[0]?
      = some Sample.strayToken := rfl
  have hagree := (acceptsRange_iff_takesRange htoken (List.cons_ne_nil _ _) (utf8 "a") (utf8 "😀")
    ∅ (.start _) Sample.symbols ∅ ∅).2.2
  exact ⟨hstray, fun h => hagree.mp h ⟨Sample.replacement_mem_symbol, hstray⟩⟩

/-- **A range need not be the same to the tokenizer and the parser.** A stray byte parses as a
document that is one character, and no tokenizer takes it as that character; and the replacement
character, which is between the bounds, is not taken either. -/
theorem Parse.exists_parse_not_takesRange :
    (∃ root, Sample.symbolParser.parseText Sample.strayByte (utf8 "doc") = .ok root)
      ∧ ¬ Munch.TakesRange Sample.symbols ∅ (utf8 "a") (utf8 "😀") Sample.strayByte ∅
      ∧ Matches Sample.symbols (.range (utf8 "a") (utf8 "😀")) (utf8EncodeChar Piece.replacement)
      ∧ ¬ Munch.TakesRange Sample.symbols ∅ (utf8 "a") (utf8 "😀")
        (utf8EncodeChar Piece.replacement) ∅ := by
  refine ⟨Sample.exists_parse_strayByte, fun h => ?_,
    matches_range_iff.mpr ⟨_, rfl, Sample.replacement_mem_symbol⟩, fun h => ?_⟩
  · obtain ⟨c, hc, -⟩ := matches_range_iff.mp
      ((Munch.takesRange_iff (List.cons_ne_nil _ _)).mp h).1
    exact Text.stray_ne_utf8EncodeChar (by decide) c hc
  · exact ((Munch.takesRange_iff String.utf8EncodeChar_ne_nil).mp h).2 rfl

end Arbor
